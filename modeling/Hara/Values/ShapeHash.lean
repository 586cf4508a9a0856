import Hara.Values.Alike

/-!
# The hashes of collections

The hash of a collection is put together from the hashes of its parts in the same way for all
collections of one shape, except for tries, whose entries are only added up (`ownDeficit`).
-/

namespace Hara.Values

open Hara.Lib
open List hiding nil

/-! ## Hashes of shapes -/

variable {C : Type}

theorem foldl_mul_add (h w : C → BitVec 64) (xs : List C) (s u : BitVec 64) :
    (xs.map fun x ↦ h x + w x).foldl (fun acc y ↦ acc * 31 + y) (s + u) =
      (xs.map h).foldl (fun acc y ↦ acc * 31 + y) s +
        xs.foldl (fun acc x ↦ acc * 31 + w x) u := by
  induction xs generalizing s u with
  | nil => rfl
  | cons x xs ih =>
    simp only [map_cons, foldl_cons]
    rw [← ih]
    congr 1
    ring

theorem foldl_add_eq (h : C → BitVec 64) (xs : List C) (s : BitVec 64) :
    xs.foldl (fun acc x ↦ acc + h x) s = s + (xs.map h).sum := by
  induction xs generalizing s with
  | nil => exact (add_zero s).symm
  | cons x xs ih => rw [foldl_cons, ih, map_cons, sum_cons, add_assoc]

theorem composeUnordered_map (objName : Text) (h : C → BitVec 64) (xs : List C) :
    composeUnordered objName (xs.map h) = (hashSeed objName).signExtend 64 + (xs.map h).sum := by
  rw [composeUnordered, foldl_map, foldl_add_eq]

/-- An entry is a sequence of two. -/
theorem composeEntry_eq (keyHash valueHash : BitVec 64) :
    composeEntry keyHash valueHash =
      961 * (hashSeed "SEQUENTIAL".toList).signExtend 64 + (keyHash * 31 + valueHash) := by
  simp only [composeEntry, composeOrdered, foldl_cons, foldl_nil]
  ring

namespace Shape

/-- The hash of a value that has the shape, except for a trie. -/
def compose (atomHash : Atom → BitVec 64) (h : C → BitVec 64) : Shape C → BitVec 64
  | atom a => atomHash a
  | sequence items => composeOrdered "SEQUENTIAL".toList (items.map h)
  | bindings entries =>
    composeUnordered "MAP".toList (entries.map fun entry ↦ composeEntry (h entry.1) (h entry.2))
  | members items => composeUnordered "SET".toList (items.map h)

/-- How the hash changes when those of the parts do. -/
def spread (w : C → BitVec 64) : Shape C → BitVec 64
  | atom _ => 0
  | sequence items => items.foldl (fun acc x ↦ acc * 31 + w x) 0
  | bindings entries => (entries.map fun entry ↦ w entry.1 * 31 + w entry.2).sum
  | members items => (items.map w).sum

theorem compose_add (atomHash : Atom → BitVec 64) (h w : C → BitVec 64) (s : Shape C) :
    s.compose atomHash (fun x ↦ h x + w x) = s.compose atomHash h + s.spread w := by
  cases s with
  | atom a => exact (add_zero _).symm
  | sequence items =>
    have hfold := foldl_mul_add h w items ((hashSeed "SEQUENTIAL".toList).signExtend 64) 0
    rwa [add_zero] at hfold
  | bindings entries =>
    rw [compose, compose, composeUnordered_map, composeUnordered_map, spread, add_assoc,
      ← sum_map_add]
    congr 3
    funext entry
    rw [composeEntry_eq, composeEntry_eq]
    ring
  | members items =>
    rw [compose, compose, composeUnordered_map, composeUnordered_map, spread, add_assoc,
      ← sum_map_add]

theorem spread_eq_zero {w : C → BitVec 64} {s : Shape C} (h : ∀ x ∈ s.parts, w x = 0) :
    s.spread w = 0 := by
  cases s with
  | atom a => rfl
  | sequence items =>
    rw [spread]
    induction items with
    | nil => rfl
    | cons x items ih =>
      rw [foldl_cons, h x mem_cons_self]
      exact ih fun y hy ↦ h y (mem_cons_of_mem x hy)
  | bindings entries =>
    refine sum_eq_zero ?_
    intro v hv
    obtain ⟨entry, hentry, rfl⟩ := mem_map.mp hv
    obtain ⟨hkey, hvalue⟩ := forall_parts_bindings h hentry
    rw [hkey, hvalue]
    rfl
  | members items =>
    refine sum_eq_zero ?_
    intro v hv
    obtain ⟨x, hx, rfl⟩ := mem_map.mp hv
    exact h x hx

/-- The hashes of like shapes. -/
theorem Alike.compose_eq {atomHash : Atom → BitVec 64} {h : C → BitVec 64} {R : C → C → Prop}
    {s s' : Shape C} (halike : s.Alike R s')
    (hatom : ∀ x y, s = .atom x → s' = .atom y → x.eq y = true → atomHash x = atomHash y)
    (hparts : ∀ x ∈ s.parts, ∀ y ∈ s'.parts, R x y → h x = h y) :
    s.compose atomHash h = s'.compose atomHash h := by
  have halike' : s.Alike (fun x y ↦ h x = h y) s' := halike.imp_parts hparts
  cases halike' with
  | atom heq => exact hatom _ _ rfl rfl heq
  | sequence hall =>
    rw [compose]
    congr 1
    rw [← forall₂_eq_eq_eq, forall₂_map_left_iff, forall₂_map_right_iff]
    exact hall
  | bindings hmatched =>
    rw [compose, compose, composeUnordered_map, composeUnordered_map]
    congr 1
    refine hmatched.sum_eq ?_
    rintro p q ⟨hkey, hvalue⟩
    rw [hkey, hvalue]
  | members hmatched =>
    rw [compose, compose, composeUnordered_map, composeUnordered_map]
    congr 1
    exact hmatched.sum_eq fun hxy ↦ hxy

end Shape

/-! ## What tries leave out -/

namespace Data

variable {L : Layer}

/-- What is missing in the hash of a trie. -/
def ownDeficit : Data L → BitVec 64
  | trie entries => (entries.map fun entry ↦
      961 * (hashSeed "SEQUENTIAL".toList).signExtend 64 +
        30 * (javaStringHash entry.1).signExtend 64).sum
  | _ => 0

theorem javaHash_add_ownDeficit (formatDouble : Double → Text) {hashType : HashType}
    (hstring : ∀ s : Text,
      L.javaHash hashType (L.ofAtom (.string s)) = (javaStringHash s).signExtend 64) (a : Data L) :
    a.javaHash formatDouble hashType + a.ownDeficit =
      a.hashedShape.compose (Atom.javaHash formatDouble hashType) (L.javaHash hashType) := by
  cases a with
  | trie entries =>
    rw [javaHash, hashTrie, ownDeficit, hashedShape, shape, Shape.compose, map_map,
      composeUnordered_map]
    · simp only [add_assoc]
      rw [foldl_add_eq, add_assoc, ← sum_map_add]
      congr 3
      funext entry
      rw [Function.comp, composeEntry_eq, hstring]
      ring
    · intro _ h
      cases h
  | _ => exact add_zero _

end Data

theorem javaHash_string {formatDouble : Double → Text} {n : ℕ} (hashType : HashType) (s : Text) :
    (layer formatDouble n).javaHash hashType ((layer formatDouble n).ofAtom (.string s)) =
      (javaStringHash s).signExtend 64 := by
  cases n <;> rfl

end Hara.Values
