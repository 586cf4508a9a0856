import Mathlib.Algebra.Order.Ring.Int
import Mathlib.Data.List.Forall2

/-!
# Ordered maps as sorted lists

A finite map over ordered keys is the list of its bindings by ascending key. Keys need only be
compared up to an equivalence.

A search tree lists its bindings around the one at its root. The `append` lemmas say what the
operations do to such a list, from the side of the root on which the key lies.
-/

namespace Hara.Lib.SortedAssoc

open List hiding erase erase_append insert
open Std

variable {K V : Type} [Ord K]

/-- The keys ascend. -/
def Sorted (l : List (K × V)) : Prop := l.Pairwise fun p q ↦ compare p.1 q.1 = .lt

/-- Bind a key. -/
def insert (k : K) (v : V) : List (K × V) → List (K × V)
  | [] => [(k, v)]
  | p :: l =>
    match compare k p.1 with
    | .lt => (k, v) :: p :: l
    | .eq => (k, v) :: l
    | .gt => p :: insert k v l

/-- Remove a key. -/
def erase (k : K) (l : List (K × V)) : List (K × V) := l.filter fun p ↦ compare k p.1 ≠ .eq

/-- The bindings of the keys from `lo` to `hi`. -/
def between (lo hi : K) (l : List (K × V)) : List (K × V) :=
  l.filter fun p ↦ (compare lo p.1).isLE ∧ (compare p.1 hi).isLE

/-- The binding of a key. -/
def find (k : K) (l : List (K × V)) : Option (K × V) := l.find? fun p ↦ compare k p.1 = .eq

variable {k : K} {v : V} {x : K × V} {l r : List (K × V)}

/-- Every key of `l` is below `x`, and every key of `r` above. -/
structure Splits (l : List (K × V)) (x : K × V) (r : List (K × V)) : Prop where
  below : ∀ p ∈ l, compare p.1 x.1 = .lt
  above : ∀ p ∈ r, compare x.1 p.1 = .lt

/-! ## On the side of a key -/

theorem insert_append_of_lt (hx : compare k x.1 = .lt) :
    insert k v (l ++ x :: r) = insert k v l ++ x :: r := by
  induction l with
  | nil => simp [insert, hx]
  | cons p l ih =>
    rw [cons_append, insert, insert]
    cases compare k p.1 with
    | lt | eq => rfl
    | gt => exact congrArg (p :: ·) ih

theorem erase_of_forall_ne (h : ∀ p ∈ l, compare k p.1 ≠ .eq) : erase k l = l :=
  filter_eq_self.mpr fun p hp ↦ decide_eq_true (h p hp)

theorem find_of_forall_ne (h : ∀ p ∈ l, compare k p.1 ≠ .eq) : find k l = none :=
  find?_eq_none.mpr fun p hp ↦ by simpa using h p hp

theorem erase_append : erase k (l ++ r) = erase k l ++ erase k r := filter_append ..

theorem erase_cons_of_ne (hx : compare k x.1 ≠ .eq) : erase k (x :: r) = x :: erase k r :=
  filter_cons_of_pos (decide_eq_true hx)

theorem between_append {lo hi : K} : between lo hi (l ++ r) = between lo hi l ++ between lo hi r :=
  filter_append ..

theorem find_append : find k (l ++ r) = (find k l).or (find k r) := find?_append

theorem Sorted.filter (h : Sorted l) {p : K × V → Bool} : Sorted (l.filter p) :=
  List.Pairwise.filter p h

/-- New values at the same keys. -/
theorem Sorted.mapValues {U : Type} (h : Sorted l) {f : K → V → U} :
    Sorted (l.map fun p ↦ (p.1, f p.1 p.2)) :=
  pairwise_map.mpr h

theorem mem_insert {p : K × V} (hp : p ∈ insert k v l) : p = (k, v) ∨ p ∈ l := by
  induction l with
  | nil => exact .inl (mem_singleton.mp hp)
  | cons q l ih =>
    rw [insert] at hp
    split at hp
    · exact mem_cons.mp hp
    · exact (mem_cons.mp hp).imp_right (mem_cons_of_mem q)
    · rcases mem_cons.mp hp with rfl | hp
      · exact .inr mem_cons_self
      · exact (ih hp).imp_right (mem_cons_of_mem q)

/-! ## Related values -/

section Related

variable {U : Type} {R : V → U → Prop} {m : List (K × U)}

/-- The same key, with related values. -/
def Related (R : V → U → Prop) (p : K × V) (q : K × U) : Prop := p.1 = q.1 ∧ R p.2 q.2

section

variable (h : List.Forall₂ (Related R) l m)

include h

theorem related_insert {v : V} {u : U} (hvu : R v u) :
    List.Forall₂ (Related R) (insert k v l) (insert k u m) := by
  induction h with
  | nil => exact .cons ⟨rfl, hvu⟩ .nil
  | cons hpq hrest ih =>
    rw [insert, insert, hpq.1]
    split
    · exact .cons ⟨rfl, hvu⟩ (.cons hpq hrest)
    · exact .cons ⟨rfl, hvu⟩ hrest
    · exact .cons hpq ih

theorem related_erase : List.Forall₂ (Related R) (erase k l) (erase k m) := by
  refine rel_filter (fun p q hpq ↦ ?_) h
  change decide (compare k p.1 ≠ .eq) = true ↔ decide (compare k q.1 ≠ .eq) = true
  rw [hpq.1]

theorem related_find (k : K) : Option.Rel (Related R) (find k l) (find k m) := by
  induction h with
  | nil => exact .none
  | cons hpq hrest ih =>
    rw [find, find, find?_cons, find?_cons, hpq.1]
    split
    · exact .some hpq
    · exact ih

omit [Ord K] in
theorem related_keys : l.map Prod.fst = m.map Prod.fst := by
  induction h with
  | nil => rfl
  | cons hpq _ ih => rw [map_cons, map_cons, hpq.1, ih]

theorem Sorted.related (hm : Sorted m) : Sorted l := by
  have hkeys : (m.map Prod.fst).Pairwise fun a b ↦ compare a b = .lt := pairwise_map.mpr hm
  rw [← related_keys h] at hkeys
  exact pairwise_map.mp hkeys

end

end Related

/-! ## Around a key -/

variable [TransOrd K]

theorem sorted_append_cons : Sorted (l ++ x :: r) ↔ Sorted l ∧ Sorted r ∧ Splits l x r := by
  rw [Sorted, pairwise_append, pairwise_cons]
  constructor
  · rintro ⟨hl, ⟨hx, hr⟩, hlr⟩
    exact ⟨hl, hr, fun p hp ↦ hlr p hp x mem_cons_self, hx⟩
  · rintro ⟨hl, hr, hbelow, habove⟩
    refine ⟨hl, ⟨habove, hr⟩, ?_⟩
    intro p hp q hq
    rcases mem_cons.mp hq with rfl | hq
    · exact hbelow p hp
    · exact TransCmp.lt_trans (hbelow p hp) (habove q hq)

section

variable (h : Splits l x r)

include h

/-- The keys below `x` are below `k`, if `k` is not below `x`. -/
theorem Splits.gt_of_not_lt (hx : compare k x.1 ≠ .lt) :
    ∀ p ∈ l, compare k p.1 = .gt := by
  intro p hp
  have hpx := h.below p hp
  rw [OrientedCmp.gt_iff_lt]
  cases hk : compare k x.1 with
  | lt => exact absurd hk hx
  | eq => exact TransCmp.lt_of_lt_of_eq hpx (OrientedCmp.eq_symm hk)
  | gt => exact TransCmp.lt_trans hpx (OrientedCmp.gt_iff_lt.mp hk)

/-- The keys above `x` are above `k`, if `k` is not above `x`. -/
theorem Splits.lt_of_not_gt (hx : compare k x.1 ≠ .gt) :
    ∀ p ∈ r, compare k p.1 = .lt := by
  intro p hp
  have hxp := h.above p hp
  cases hk : compare k x.1 with
  | lt => exact TransCmp.lt_trans hk hxp
  | eq => exact TransCmp.lt_of_eq_of_lt hk hxp
  | gt => exact absurd hk hx

theorem insert_append_of_not_lt (hx : compare k x.1 ≠ .lt) :
    insert k v (l ++ x :: r) = l ++ insert k v (x :: r) := by
  have hl := h.gt_of_not_lt hx
  clear h
  induction l with
  | nil => rfl
  | cons p l ih =>
    rw [cons_append, insert, hl p mem_cons_self]
    exact congrArg (p :: ·) (ih fun q hq ↦ hl q (mem_cons_of_mem p hq))

theorem insert_append_of_gt (hx : compare k x.1 = .gt) :
    insert k v (l ++ x :: r) = l ++ x :: insert k v r := by
  rw [insert_append_of_not_lt h (by rw [hx]; decide), insert, hx]

theorem insert_append_of_eq (hx : compare k x.1 = .eq) :
    insert k v (l ++ x :: r) = l ++ (k, v) :: r := by
  rw [insert_append_of_not_lt h (by rw [hx]; decide), insert, hx]

/-- Nothing on the right is removed. -/
theorem Splits.erase_right (hx : compare k x.1 ≠ .gt) : erase k r = r :=
  erase_of_forall_ne fun p hp ↦ by rw [h.lt_of_not_gt hx p hp]; decide

theorem Splits.erase_left (hx : compare k x.1 ≠ .lt) : erase k l = l :=
  erase_of_forall_ne fun p hp ↦ by rw [h.gt_of_not_lt hx p hp]; decide

theorem erase_append_of_lt (hx : compare k x.1 = .lt) :
    erase k (l ++ x :: r) = erase k l ++ x :: r := by
  have hne : compare k x.1 ≠ .eq := by rw [hx]; decide
  rw [erase_append, erase_cons_of_ne hne, h.erase_right (by rw [hx]; decide)]

theorem erase_append_of_gt (hx : compare k x.1 = .gt) :
    erase k (l ++ x :: r) = l ++ x :: erase k r := by
  have hne : compare k x.1 ≠ .eq := by rw [hx]; decide
  rw [erase_append, erase_cons_of_ne hne, h.erase_left (by rw [hx]; decide)]

theorem erase_append_of_eq (hx : compare k x.1 = .eq) :
    erase k (l ++ x :: r) = l ++ r := by
  have hdrop : erase k (x :: r) = erase k r := filter_cons_of_neg (by simp [hx])
  rw [erase_append, hdrop, h.erase_left (by rw [hx]; decide), h.erase_right (by rw [hx]; decide)]

theorem find_append_of_lt (hx : compare k x.1 = .lt) :
    find k (l ++ x :: r) = find k l := by
  have hright : find k (x :: r) = none := by
    refine find_of_forall_ne (forall_mem_cons.mpr ⟨by rw [hx]; decide, fun p hp ↦ ?_⟩)
    rw [h.lt_of_not_gt (by rw [hx]; decide) p hp]
    decide
  rw [find_append, hright, Option.or_none]

theorem find_append_of_not_lt (hx : compare k x.1 ≠ .lt) :
    find k (l ++ x :: r) = find k (x :: r) := by
  have hleft : find k l = none :=
    find_of_forall_ne fun p hp ↦ by rw [h.gt_of_not_lt hx p hp]; decide
  rw [find_append, hleft, Option.none_or]

theorem find_append_of_gt (hx : compare k x.1 = .gt) :
    find k (l ++ x :: r) = find k r := by
  rw [find_append_of_not_lt h (by rw [hx]; decide), find, find?_cons_of_neg (by simp [hx]), find]

theorem find_append_of_eq (hx : compare k x.1 = .eq) :
    find k (l ++ x :: r) = some x := by
  rw [find_append_of_not_lt h (by rw [hx]; decide), find, find?_cons_of_pos (by simp [hx])]

end

theorem find_of_mem (h : Sorted l) (hx : x ∈ l) (hk : compare k x.1 = .eq) :
    find k l = some x := by
  obtain ⟨l, r, rfl⟩ := append_of_mem hx
  exact find_append_of_eq (sorted_append_cons.mp h).2.2 hk

/-! ## The order is kept -/

theorem Sorted.insert (h : Sorted l) : Sorted (insert k v l) := by
  induction l with
  | nil => exact pairwise_singleton _ _
  | cons q l ih =>
    obtain ⟨habove, hl⟩ := pairwise_cons.mp h
    rw [SortedAssoc.insert]
    cases hk : compare k q.1 with
    | lt =>
      refine pairwise_cons.mpr ⟨?_, h⟩
      intro p hp
      rcases mem_cons.mp hp with rfl | hp
      · exact hk
      · exact TransCmp.lt_trans hk (habove p hp)
    | eq => exact pairwise_cons.mpr ⟨fun p hp ↦ TransCmp.lt_of_eq_of_lt hk (habove p hp), hl⟩
    | gt =>
      refine pairwise_cons.mpr ⟨?_, ih hl⟩
      intro p hp
      rcases mem_insert hp with rfl | hp
      · exact OrientedCmp.gt_iff_lt.mp hk
      · exact habove p hp

end Hara.Lib.SortedAssoc
