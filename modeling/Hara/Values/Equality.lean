import Hara.Values.Alike

/-!
# Equality is an equivalence

`==` compares two maps by looking up the keys of the one in the other. Where every map finds its own
bindings, under any key that is alike, and only those, equality is the relation of being alike
(`eq_iff_alike`), at any depth. So it is reflexive, symmetric and transitive on such values.
-/

namespace Hara.Values

open Hara.Lib
open List hiding map

/-! ## One level -/

namespace Data

variable {L : Layer}

/-- A consistent value, of which a map finds each of its bindings under every like key. -/
structure Searchable (R : L.Carrier → L.Carrier → Prop) (W : L.Carrier → Prop) (a : Data L) : Prop
    extends a.Consistent R W where
  finds : ∀ entries, a.shape = .bindings entries → ∀ p ∈ entries, ∀ key, W key → R key p.1 →
    a.mapValue key = some p.2

variable {R : L.Carrier → L.Carrier → Prop} {W : L.Carrier → Prop} {a b : Data L}

/-- Without maps there is nothing to find. -/
theorem Searchable.of_parts (hparts : ∀ x ∈ a.shape.parts, W x) (hdistinct : a.shape.Distinct R)
    (hmap : ∀ entries, a.shape ≠ .bindings entries) : a.Searchable R W where
  parts := hparts
  distinct := hdistinct
  found _ _ _ h := absurd h (hmap _)
  finds _ h := absurd h (hmap _)

theorem beq_of_forall₂ {xs ys : List L.Carrier}
    (h : List.Forall₂ (fun x y ↦ L.eq x y = true) xs ys) : (xs == ys) = true := by
  induction h with
  | nil => rfl
  | cons hxy _ ih =>
    rw [cons_beq_cons, Bool.and_eq_true]
    exact ⟨hxy, ih⟩

theorem Searchable.eq_of_alike (ha : a.Searchable R W) (hb : b.Searchable R W)
    (hsymm : ∀ x y, R x y → R y x) (hparts : ∀ x y, W x → W y → R x y → L.eq x y = true)
    (h : a.shape.Alike R b.shape) : a.eq b = true := by
  have hxs := ha.parts
  have hys := hb.parts
  have hfinds := hb.finds
  rw [eq_eq]
  generalize a.shape = s at h hxs
  generalize b.shape = s' at h hys hfinds
  cases h with
  | atom heq => exact heq
  | sequence hall =>
    refine beq_of_forall₂ ((forall₂_and_mem hall).imp ?_)
    rintro x y ⟨hx, hy, hxy⟩
    exact hparts x y (hxs x hx) (hys y hy) hxy
  | @bindings l m hmatched =>
    obtain ⟨m', hperm, hall⟩ := hmatched
    simp only [Bool.and_eq_true, beq_iff_eq, all_eq_true]
    refine ⟨hall.length_eq.trans hperm.length_eq, fun p hp ↦ ?_⟩
    obtain ⟨q, hq, hkey, hvalue⟩ := exists_of_mem_left hall hp
    have hq := hperm.mem_iff.mp hq
    obtain ⟨hWp, hWp'⟩ := Shape.forall_parts_bindings hxs hp
    obtain ⟨-, hWq'⟩ := Shape.forall_parts_bindings hys hq
    rw [hfinds m rfl q hq p.1 hWp hkey]
    exact hparts q.2 p.2 hWq' hWp' (hsymm _ _ hvalue)
  | members hmatched =>
    obtain ⟨ys', hperm, hall⟩ := hmatched
    simp only [Bool.and_eq_true, beq_iff_eq, all_eq_true, any_eq_true]
    refine ⟨hall.length_eq.trans hperm.length_eq, fun x hx ↦ ?_⟩
    obtain ⟨y, hy, hxy⟩ := exists_of_mem_left hall hx
    have hy := hperm.mem_iff.mp hy
    exact ⟨y, hy, hparts y x (hys y hy) (hxs x hx) (hsymm _ _ hxy)⟩

end Data

/-! ## All levels -/

section Levels

variable (formatDouble : Double → Text)

/-- A value that is searchable at every level. -/
def Searchable : (n : ℕ) → (layer formatDouble n).Carrier → Prop
  | 0 => fun _ ↦ True
  | n + 1 => Data.Searchable (Alike formatDouble n) (Searchable n)

variable {formatDouble} {n : ℕ} {a b c : (layer formatDouble n).Carrier}

theorem Searchable.consistent (h : Searchable formatDouble n a) : Consistent formatDouble n a := by
  induction n with
  | zero => trivial
  | succ n ih => exact (Data.Searchable.toConsistent h).imp fun _ ↦ ih

theorem eq_of_alike : ∀ a b, Searchable formatDouble n a → Searchable formatDouble n b →
    Alike formatDouble n a b → (layer formatDouble n).eq a b = true := by
  induction n with
  | zero =>
    intro a b _ _ h
    exact h
  | succ n ih =>
    intro a b ha hb h
    exact Data.Searchable.eq_of_alike ha hb Alike.symm ih h

/-- **Equality of searchable values.** -/
theorem eq_iff_alike (ha : Searchable formatDouble n a) (hb : Searchable formatDouble n b) :
    (layer formatDouble n).eq a b = true ↔ Alike formatDouble n a b :=
  ⟨alike_of_eq a b ha.consistent hb.consistent, eq_of_alike a b ha hb⟩

theorem Searchable.eq_refl (ha : Searchable formatDouble n a) :
    (layer formatDouble n).eq a a = true :=
  (eq_iff_alike ha ha).mpr (Alike.refl a)

theorem Searchable.eq_symm (ha : Searchable formatDouble n a) (hb : Searchable formatDouble n b)
    (h : (layer formatDouble n).eq a b = true) : (layer formatDouble n).eq b a = true :=
  (eq_iff_alike hb ha).mpr (Alike.symm a b ((eq_iff_alike ha hb).mp h))

theorem Searchable.eq_trans (ha : Searchable formatDouble n a) (hb : Searchable formatDouble n b)
    (hc : Searchable formatDouble n c) (h : (layer formatDouble n).eq a b = true)
    (h' : (layer formatDouble n).eq b c = true) : (layer formatDouble n).eq a c = true := by
  have hab := (eq_iff_alike ha hb).mp h
  have hbc := (eq_iff_alike hb hc).mp h'
  exact (eq_iff_alike ha hc).mpr (Alike.trans a b c hab hbc)

end Levels

end Hara.Values
