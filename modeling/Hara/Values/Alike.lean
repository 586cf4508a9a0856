import Hara.Values.Data

/-!
# The same data

Equality does not tell one kind of sequence, map or set from another: it looks at the shape of a
value, which is what it lists. Two values are alike if they have the same data in this sense, all
the way down. The equality of the code is not this relation: it goes through the lookups of maps,
and need not even be symmetric where a map has lost track of a key.

## Well-formed values

In a consistent value no map lists two like keys, no set lists two like members, and a map finds
under a key only what it lists under an equal key. Equal consistent values are alike
(`alike_of_eq`). A well-formed value also has no doubles in it, and its priority maps list the
bindings that they hash. The results on the maps give these facts for keys on which placement and
order respect equality.
-/

namespace Hara.Values

open Hara.Lib
open List hiding map

/-! ## Shapes -/

/-- A value as equality sees it. -/
inductive Shape (C : Type) where
  | atom (a : Atom)
  | sequence (items : List C)
  | bindings (entries : List (C × C))
  | members (items : List C)

/-- Related keys with related values. -/
def PairRel {C : Type} (R : C → C → Prop) (p q : C × C) : Prop := R p.1 q.1 ∧ R p.2 q.2

namespace Shape

variable {C : Type}

def parts : Shape C → List C
  | atom _ => []
  | sequence items => items
  | bindings entries => entries.map Prod.fst ++ entries.map Prod.snd
  | members items => items

/-- Not a double, and with parts that are in order. -/
structure InOrder (W : C → Prop) (s : Shape C) : Prop where
  not_double : ∀ d, s ≠ .atom (.float d)
  parts : ∀ x ∈ s.parts, W x

/-- The same data, if the relation says that of the parts. -/
inductive Alike (R : C → C → Prop) : Shape C → Shape C → Prop
  | atom {x y : Atom} (h : x.eq y = true) : Alike R (.atom x) (.atom y)
  | sequence {xs ys : List C} (h : List.Forall₂ R xs ys) : Alike R (.sequence xs) (.sequence ys)
  | bindings {l m : List (C × C)} (h : Matched (PairRel R) l m) :
      Alike R (.bindings l) (.bindings m)
  | members {xs ys : List C} (h : Matched R xs ys) : Alike R (.members xs) (.members ys)

/-- No key and no member is listed twice. -/
def Distinct (R : C → C → Prop) : Shape C → Prop
  | atom _ => True
  | sequence _ => True
  | bindings entries => entries.Pairwise fun p q ↦ ¬R p.1 q.1
  | members items => items.Pairwise fun x y ↦ ¬R x y

variable {R : C → C → Prop} {s s' s'' : Shape C}

theorem Alike.refl (hrefl : ∀ x, R x x) (s : Shape C) : s.Alike R s := by
  cases s with
  | atom x => exact .atom (Atom.eq_iff.mpr rfl)
  | sequence xs => exact .sequence (forall₂_same.mpr fun x _ ↦ hrefl x)
  | bindings l =>
    exact .bindings ⟨l, .refl l, forall₂_same.mpr fun p _ ↦ ⟨hrefl p.1, hrefl p.2⟩⟩
  | members xs => exact .members ⟨xs, .refl xs, forall₂_same.mpr fun x _ ↦ hrefl x⟩

theorem Alike.symm (hsymm : ∀ x y, R x y → R y x) (h : s.Alike R s') : s'.Alike R s := by
  cases h with
  | atom h => exact .atom (Atom.eq_iff.mpr (Atom.eq_iff.mp h).symm)
  | sequence h => exact .sequence (List.Forall₂.flip (h.imp hsymm))
  | bindings h => exact .bindings (h.symm fun p q hpq ↦ ⟨hsymm p.1 q.1 hpq.1, hsymm p.2 q.2 hpq.2⟩)
  | members h => exact .members (h.symm hsymm)

theorem Alike.trans (htrans : ∀ x y z, R x y → R y z → R x z) (h : s.Alike R s')
    (h' : s'.Alike R s'') : s.Alike R s'' := by
  cases h with
  | atom h =>
    cases h' with
    | atom h' => exact .atom (Atom.eq_iff.mpr ((Atom.eq_iff.mp h).trans (Atom.eq_iff.mp h')))
  | sequence h =>
    cases h' with
    | sequence h' => exact .sequence (forall₂_trans h htrans h')
  | bindings h =>
    cases h' with
    | bindings h' =>
      exact .bindings (h.trans
        (fun p q r hpq hqr ↦ ⟨htrans p.1 q.1 r.1 hpq.1 hqr.1, htrans p.2 q.2 r.2 hpq.2 hqr.2⟩) h')
  | members h =>
    cases h' with
    | members h' => exact .members (h.trans htrans h')

theorem forall_parts_bindings {P : C → Prop} {l : List (C × C)} {p : C × C}
    (h : ∀ x ∈ (bindings l).parts, P x) (hp : p ∈ l) : P p.1 ∧ P p.2 :=
  ⟨h p.1 (mem_append_left _ (mem_map_of_mem hp)), h p.2 (mem_append_right _ (mem_map_of_mem hp))⟩

/-- The parts need only be related as far as they occur. -/
theorem Alike.imp_parts {S : C → C → Prop} (h : s.Alike R s')
    (hRS : ∀ x ∈ s.parts, ∀ y ∈ s'.parts, R x y → S x y) : s.Alike S s' := by
  cases h with
  | atom h => exact .atom h
  | sequence h =>
    refine .sequence ((forall₂_and_mem h).imp ?_)
    rintro x y ⟨hx, hy, hxy⟩
    exact hRS x hx y hy hxy
  | bindings h =>
    refine .bindings (h.imp_mem ?_)
    intro p hp q hq hpq
    obtain ⟨hkey, hvalue⟩ := forall_parts_bindings hRS hp
    exact ⟨(forall_parts_bindings hkey hq).1 hpq.1, (forall_parts_bindings hvalue hq).2 hpq.2⟩
  | members h => exact .members (h.imp_mem hRS)

end Shape

/-! ## One level -/

namespace Data

variable {L : Layer}

/-- What a value lists. -/
def shape : Data L → Shape L.Carrier
  | atom a => .atom a
  | sequential _ items => .sequence items
  | map values => .bindings (completed [] values.entries)
  | orderedMap values => .bindings (completed [] values.iter)
  | sortedMap values => .bindings values.toList
  | priorityMap values => .bindings (completed [] values.iter)
  | trie entries => .bindings (entries.map fun entry ↦ (L.ofAtom (.string entry.1), entry.2))
  | setLike _ items => .members items

/-- What the hash of a value goes over: in a priority map this is its index of priorities. -/
def hashedShape : Data L → Shape L.Carrier
  | priorityMap values => .bindings (completed [] values.priorities.entries)
  | a => a.shape

/-- Equality by shapes. -/
theorem eq_eq (a b : Data L) :
    a.eq b =
      match a.shape, b.shape with
      | .atom x, .atom y => x.eq y
      | .sequence xs, .sequence ys => xs == ys
      | .bindings l, .bindings m =>
        l.length == m.length && l.all fun entry ↦ b.mapValue entry.1 == some entry.2
      | .members xs, .members ys =>
        xs.length == ys.length && xs.all fun item ↦ ys.any (· == item)
      | _, _ => false := by
  cases a <;> cases b <;> rfl

theorem asAtom_eq (a : Data L) :
    a.asAtom = match a.shape with
      | .atom x => some x
      | _ => none := by
  cases a <;> rfl

/-- Values that are alike are both atoms or both collections. -/
theorem asAtom_of_alike {R : L.Carrier → L.Carrier → Prop} {a b : Data L}
    (h : a.shape.Alike R b.shape) :
    (a.asAtom = none ∧ b.asAtom = none) ∨
      ∃ x y, a.asAtom = some x ∧ b.asAtom = some y ∧ x.eq y = true := by
  rw [asAtom_eq, asAtom_eq]
  generalize a.shape = s at h ⊢
  generalize b.shape = s' at h ⊢
  cases h with
  | atom heq => exact .inr ⟨_, _, rfl, rfl, heq⟩
  | sequence | bindings | members => exact .inl ⟨rfl, rfl⟩

/-- Nothing is listed twice, and a map finds only what it lists; the arguments say what it is for
parts to be alike and to be in order. -/
structure Consistent (R : L.Carrier → L.Carrier → Prop) (W : L.Carrier → Prop) (a : Data L) :
    Prop where
  parts : ∀ x ∈ a.shape.parts, W x
  distinct : a.shape.Distinct R
  found : ∀ entries key value, a.shape = .bindings entries → a.mapValue key = some value →
    ∃ p ∈ entries, p.2 = value ∧ (L.eq p.1 key = true ∨ L.eq key p.1 = true)

/-- A value in order and without doubles. -/
structure WellFormed (R : L.Carrier → L.Carrier → Prop) (W : L.Carrier → Prop) (a : Data L) :
    Prop where
  listed : a.shape.InOrder W
  hashed : a.hashedShape.InOrder W
  /-- A value lists what it hashes. -/
  alike : a.hashedShape.Alike R a.shape
  distinct : a.shape.Distinct R
  /-- A map finds only what it lists. -/
  found : ∀ entries key value, a.shape = .bindings entries → a.mapValue key = some value →
    ∃ p ∈ entries, p.2 = value ∧ (L.eq p.1 key = true ∨ L.eq key p.1 = true)

variable {R : L.Carrier → L.Carrier → Prop} {W W' : L.Carrier → Prop} {a b : Data L}

theorem WellFormed.consistent (h : a.WellFormed R W) : a.Consistent R W :=
  ⟨h.listed.parts, h.distinct, h.found⟩

theorem Consistent.imp (h : a.Consistent R W) (hW : ∀ x, W x → W' x) : a.Consistent R W' :=
  { h with parts := fun x hx ↦ hW x (h.parts x hx) }

/-- Equal sequences. -/
theorem forall₂_of_beq {xs ys : List L.Carrier} (h : (xs == ys) = true) :
    List.Forall₂ (fun x y ↦ L.eq x y = true) xs ys := by
  induction xs generalizing ys with
  | nil =>
    cases ys with
    | nil => exact .nil
    | cons => cases h
  | cons x xs ih =>
    cases ys with
    | nil => cases h
    | cons y ys =>
      rw [cons_beq_cons, Bool.and_eq_true] at h
      exact .cons h.1 (ih h.2)

section

variable (hsymm : ∀ x y, R x y → R y x)
  (htrans : ∀ x y z, R x y → R y z → R x z)
  (hparts : ∀ x y, W x → W y → L.eq x y = true → R x y)
  (ha : a.Consistent R W)
  (hb : b.Consistent R W)

include hsymm htrans hparts ha hb

/-- Every binding of the one map is found in the other, and no two of them in the same place. -/
theorem Consistent.matched_bindings {l m : List (L.Carrier × L.Carrier)}
    (hl : a.shape = .bindings l) (hm : b.shape = .bindings m) (hlength : l.length = m.length)
    (hget : ∀ p ∈ l, (b.mapValue p.1 == some p.2) = true) : Matched (PairRel R) l m := by
  have hkey {p} (hp : p ∈ l) : W p.1 ∧ W p.2 :=
    Shape.forall_parts_bindings (hl ▸ ha.parts) hp
  have hkey' {q} (hq : q ∈ m) : W q.1 ∧ W q.2 :=
    Shape.forall_parts_bindings (hm ▸ hb.parts) hq
  refine Matched.of_forall_exists hlength ?_ ?_
  · intro p hp
    have hfound := hget p hp
    rcases hvalue : b.mapValue p.1 with _ | value
    · rw [hvalue] at hfound
      cases hfound
    rw [hvalue] at hfound
    obtain ⟨q, hq, rfl, hkeys⟩ := hb.found m p.1 value hm hvalue
    refine ⟨q, hq, ?_, hsymm _ _ (hparts _ _ (hkey' hq).2 (hkey hp).2 hfound)⟩
    rcases hkeys with h | h
    · exact hsymm _ _ (hparts _ _ (hkey' hq).1 (hkey hp).1 h)
    · exact hparts _ _ (hkey hp).1 (hkey' hq).1 h
  · have hdistinct := ha.distinct
    rw [hl] at hdistinct
    refine hdistinct.imp ?_
    intro p p' hne q hpq hpq'
    exact hne (htrans _ _ _ hpq.1 (hsymm _ _ hpq'.1))

theorem Consistent.matched_members {xs ys : List L.Carrier} (hxs : a.shape = .members xs)
    (hys : b.shape = .members ys) (hlength : xs.length = ys.length)
    (hmem : ∀ x ∈ xs, ∃ y ∈ ys, L.eq y x = true) : Matched R xs ys := by
  have hx : ∀ x ∈ (Shape.members xs).parts, W x := hxs ▸ ha.parts
  have hy : ∀ y ∈ (Shape.members ys).parts, W y := hys ▸ hb.parts
  refine Matched.of_forall_exists hlength ?_ ?_
  · intro x hxmem
    obtain ⟨y, hymem, hyx⟩ := hmem x hxmem
    exact ⟨y, hymem, hsymm _ _ (hparts y x (hy y hymem) (hx x hxmem) hyx)⟩
  · have hdistinct := ha.distinct
    rw [hxs] at hdistinct
    refine hdistinct.imp ?_
    intro x x' hne y hxy hxy'
    exact hne (htrans _ _ _ hxy (hsymm _ _ hxy'))

theorem Consistent.alike_of_eq (heq : a.eq b = true) : a.shape.Alike R b.shape := by
  have hxs := ha.parts
  have hys := hb.parts
  rw [eq_eq] at heq
  rcases hsa : a.shape with x | xs | l | xs <;> rcases hsb : b.shape with y | ys | m | ys <;>
    simp only [hsa, hsb, Bool.false_eq_true, Bool.and_eq_true, beq_iff_eq, all_eq_true,
      any_eq_true] at heq hxs hys
  · exact .atom heq
  · refine .sequence ((forall₂_and_mem (forall₂_of_beq heq)).imp ?_)
    rintro x y ⟨hx, hy, hxy⟩
    exact hparts x y (hxs x hx) (hys y hy) hxy
  · exact .bindings (ha.matched_bindings hsymm htrans hparts hb hsa hsb heq.1 heq.2)
  · exact .members (ha.matched_members hsymm htrans hparts hb hsa hsb heq.1 heq.2)

end

end Data

/-! ## All levels -/

section Levels

variable (formatDouble : Double → Text)

/-- The same data. -/
def Alike : (n : ℕ) → (layer formatDouble n).Carrier → (layer formatDouble n).Carrier → Prop
  | 0 => fun a b ↦ Atom.eq a b = true
  | n + 1 => fun a b ↦ (Data.shape a).Alike (Alike n) (Data.shape b)

/-- A value that is consistent at every level. -/
def Consistent : (n : ℕ) → (layer formatDouble n).Carrier → Prop
  | 0 => fun _ ↦ True
  | n + 1 => Data.Consistent (Alike formatDouble n) (Consistent n)

/-- A value without doubles that is in order at every level. -/
def WellFormed : (n : ℕ) → (layer formatDouble n).Carrier → Prop
  | 0 => fun a ↦ ∀ d, a ≠ Atom.float d
  | n + 1 => Data.WellFormed (Alike formatDouble n) (WellFormed n)

variable {formatDouble} {n : ℕ}

theorem Alike.refl : ∀ a, Alike formatDouble n a a := by
  induction n with
  | zero =>
    intro a
    exact Atom.eq_iff.mpr rfl
  | succ n ih =>
    intro a
    exact Shape.Alike.refl ih _

theorem Alike.symm : ∀ a b, Alike formatDouble n a b → Alike formatDouble n b a := by
  induction n with
  | zero =>
    intro a b h
    exact Atom.eq_iff.mpr (Atom.eq_iff.mp h).symm
  | succ n ih =>
    intro a b h
    exact Shape.Alike.symm ih h

theorem Alike.trans :
    ∀ a b c, Alike formatDouble n a b → Alike formatDouble n b c → Alike formatDouble n a c := by
  induction n with
  | zero =>
    intro a b c h h'
    exact Atom.eq_iff.mpr ((Atom.eq_iff.mp h).trans (Atom.eq_iff.mp h'))
  | succ n ih =>
    intro a b c h h'
    exact Shape.Alike.trans ih h h'

theorem asAtom_of_alike {a b : (layer formatDouble n).Carrier} (h : Alike formatDouble n a b) :
    ((layer formatDouble n).asAtom a = none ∧ (layer formatDouble n).asAtom b = none) ∨
      ∃ x y, (layer formatDouble n).asAtom a = some x ∧ (layer formatDouble n).asAtom b = some y ∧
        x.eq y = true := by
  cases n with
  | zero => exact .inr ⟨a, b, rfl, rfl, h⟩
  | succ n => exact Data.asAtom_of_alike h

theorem WellFormed.consistent {a : (layer formatDouble n).Carrier}
    (h : WellFormed formatDouble n a) : Consistent formatDouble n a := by
  induction n with
  | zero => trivial
  | succ n ih => exact (Data.WellFormed.consistent h).imp fun _ ↦ ih

/-- Equal values are alike. -/
theorem alike_of_eq : ∀ a b, Consistent formatDouble n a → Consistent formatDouble n b →
    (layer formatDouble n).eq a b = true → Alike formatDouble n a b := by
  induction n with
  | zero =>
    intro a b _ _ heq
    exact heq
  | succ n ih =>
    intro a b ha hb heq
    exact Data.Consistent.alike_of_eq Alike.symm Alike.trans ih ha hb heq

end Levels

end Hara.Values
