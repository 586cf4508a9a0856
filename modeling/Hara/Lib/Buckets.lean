import Hara.Lib.SortedAssoc

/-!
# Stable order of priority, in groups

A list is in stable order of priority when a new item is put after all items of no greater
priority. Such a list can be kept as an ordered map from a priority to the items that have it. The
key of a group is only equivalent to the priorities of its items.

`Grouped.items_place` and `Grouped.items_refill` say that adding to a group, and filtering one,
amount to placing an item in the list, and filtering the list.
-/

namespace Hara.Lib.Buckets

open List hiding erase filter_eq_self insert tail
open Std SortedAssoc

variable {α V : Type} [Ord V]

/-- The list with an item after those of no greater priority. -/
def place (priority : α → V) (a : α) : List α → List α
  | [] => [a]
  | b :: l => if compare (priority a) (priority b) = .lt then a :: b :: l
    else b :: place priority a l

/-- Of lower priority, or of the same priority for longer. -/
def Before (priority : α → V) (since : α → Nat) (a b : α) : Prop :=
  compare (priority a) (priority b) = .lt ∨
    compare (priority a) (priority b) = .eq ∧ since a < since b

/-- The items of all groups. -/
def items (groups : List (V × List α)) : List α := groups.flatMap Prod.snd

/-- The items of one group. -/
def itemsAt (p : V) (groups : List (V × List α)) : List α :=
  ((find p groups).map Prod.snd).getD []

/-- Other items for a group. A group without items is dropped. -/
def refill (p : V) (l : List α) (groups : List (V × List α)) : List (V × List α) :=
  if l.isEmpty then erase p groups else insert p l groups

/-- Groups by ascending priority, none of them empty. -/
structure Grouped (priority : α → V) (groups : List (V × List α)) : Prop where
  sorted : Sorted groups
  priority_eq : ∀ g ∈ groups, ∀ a ∈ g.2, compare (priority a) g.1 = .eq
  nonempty : ∀ g ∈ groups, g.2 ≠ []

variable {priority : α → V} {since : α → Nat} {a : α} {p : V} {l : List α}
  {g : V × List α} {groups : List (V × List α)}

/-! ## Placing -/

theorem perm_place : (place priority a l).Perm (a :: l) := by
  induction l with
  | nil => exact .refl _
  | cons b l ih =>
    rw [place]
    split
    · exact .refl _
    · exact (ih.cons b).trans (.swap a b l)

theorem mem_place {b : α} : b ∈ place priority a l ↔ b = a ∨ b ∈ l :=
  perm_place.mem_iff.trans mem_cons

theorem place_of_forall_lt (h : ∀ b ∈ l, compare (priority a) (priority b) = .lt) :
    place priority a l = a :: l := by
  cases l with
  | nil => rfl
  | cons b l => exact if_pos (h b mem_cons_self)

theorem place_append (h : ∀ b ∈ l, compare (priority a) (priority b) ≠ .lt) (r : List α) :
    place priority a (l ++ r) = l ++ place priority a r := by
  induction l with
  | nil => rfl
  | cons b l ih =>
    rw [cons_append, place, if_neg (h b mem_cons_self)]
    exact congrArg (b :: ·) (ih fun c hc ↦ h c (mem_cons_of_mem b hc))

/-- The latest item comes after the others of its priority. -/
theorem pairwise_place [TransOrd V] (h : l.Pairwise (Before priority since))
    (hlatest : ∀ b ∈ l, since b < since a) :
    (place priority a l).Pairwise (Before priority since) := by
  induction l with
  | nil => exact pairwise_singleton _ _
  | cons b l ih =>
    obtain ⟨hb, hl⟩ := pairwise_cons.mp h
    rw [place]
    by_cases hlt : compare (priority a) (priority b) = .lt
    · rw [if_pos hlt]
      refine pairwise_cons.mpr ⟨?_, h⟩
      intro c hc
      rcases mem_cons.mp hc with rfl | hc
      · exact .inl hlt
      · rcases hb c hc with hbc | ⟨hbc, _⟩
        · exact .inl (TransCmp.lt_trans hlt hbc)
        · exact .inl (TransCmp.lt_of_lt_of_eq hlt hbc)
    · rw [if_neg hlt]
      refine pairwise_cons.mpr ⟨?_, ih hl fun c hc ↦ hlatest c (mem_cons_of_mem b hc)⟩
      intro c hc
      rcases mem_place.mp hc with rfl | hc
      · -- `b` is not above the new item
        cases hcmp : compare (priority c) (priority b) with
        | lt => exact absurd hcmp hlt
        | eq => exact .inr ⟨OrientedCmp.eq_symm hcmp, hlatest b mem_cons_self⟩
        | gt => exact .inl (OrientedCmp.gt_iff_lt.mp hcmp)
      · exact hb c hc

/-! ## Groups -/

omit [Ord V] in
theorem items_cons : items (g :: groups) = g.2 ++ items groups := flatMap_cons

omit [Ord V] in
theorem mem_items : a ∈ items groups ↔ ∃ g ∈ groups, a ∈ g.2 := mem_flatMap

theorem exists_of_mem_itemsAt (ha : a ∈ itemsAt p groups) :
    ∃ g ∈ groups, compare p g.1 = .eq ∧ a ∈ g.2 := by
  rw [itemsAt] at ha
  cases hfind : find p groups with
  | none =>
    rw [hfind] at ha
    exact absurd ha not_mem_nil
  | some g =>
    rw [hfind] at ha
    exact ⟨g, mem_of_find?_eq_some hfind, by simpa using find?_some hfind, ha⟩

theorem mem_items_of_mem_itemsAt (ha : a ∈ itemsAt p groups) : a ∈ items groups := by
  obtain ⟨g, hg, _, ha⟩ := exists_of_mem_itemsAt ha
  exact mem_items.mpr ⟨g, hg, ha⟩

namespace Grouped

theorem tail (h : Grouped priority (g :: groups)) : Grouped priority groups where
  sorted := (pairwise_cons.mp h.sorted).2
  priority_eq g' hg' := h.priority_eq g' (mem_cons_of_mem g hg')
  nonempty g' hg' := h.nonempty g' (mem_cons_of_mem g hg')

section

variable (h : Grouped priority groups)

include h

theorem erase : Grouped priority (erase p groups) where
  sorted := h.sorted.filter
  priority_eq g hg := h.priority_eq g (mem_of_mem_filter hg)
  nonempty g hg := h.nonempty g (mem_of_mem_filter hg)

variable [TransOrd V]

theorem insert (hl : l ≠ []) (hp : ∀ a ∈ l, compare (priority a) p = .eq) :
    Grouped priority (insert p l groups) where
  sorted := h.sorted.insert
  priority_eq g hg := by
    rcases mem_insert hg with rfl | hg
    · exact hp
    · exact h.priority_eq g hg
  nonempty g hg := by
    rcases mem_insert hg with rfl | hg
    · exact hl
    · exact h.nonempty g hg

theorem refill (hp : ∀ a ∈ l, compare (priority a) p = .eq) :
    Grouped priority (refill p l groups) := by
  rw [Buckets.refill]
  by_cases hl : l.isEmpty = true
  · rw [if_pos hl]
    exact h.erase
  · rw [if_neg hl]
    exact h.insert (fun hnil ↦ hl (List.isEmpty_iff.mpr hnil)) hp

/-- The items of a group have its priority. -/
theorem itemsAt_priority (ha : a ∈ itemsAt p groups) : compare (priority a) p = .eq := by
  obtain ⟨g, hg, hp, ha⟩ := exists_of_mem_itemsAt ha
  exact TransCmp.eq_trans (h.priority_eq g hg a ha) (OrientedCmp.eq_symm hp)

omit h in
/-- Below the first group there is nothing. -/
theorem forall_lt (h : Grouped priority (g :: groups)) (hp : compare p g.1 ≠ .gt) :
    ∀ g' ∈ groups, compare p g'.1 = .lt := by
  have hsplits : Splits [] g groups := (sorted_append_cons (l := []).mp h.sorted).2.2
  exact hsplits.lt_of_not_gt hp

omit h in
theorem forall_cons_lt (h : Grouped priority (g :: groups)) (hp : compare p g.1 = .lt) :
    ∀ g' ∈ g :: groups, compare p g'.1 = .lt := by
  intro g' hg'
  rcases mem_cons.mp hg' with rfl | hg'
  · exact hp
  · exact h.forall_lt (by rw [hp]; decide) g' hg'

omit h in
theorem itemsAt_cons_of_lt (h : Grouped priority (g :: groups)) (hp : compare p g.1 = .lt) :
    itemsAt p (g :: groups) = [] := by
  have hfind : find p (g :: groups) = none :=
    find_of_forall_ne fun g' hg' ↦ by rw [h.forall_cons_lt hp g' hg']; decide
  rw [itemsAt, hfind]
  rfl

omit h in
omit [TransOrd V] in
theorem itemsAt_cons_of_eq (hp : compare p g.1 = .eq) : itemsAt p (g :: groups) = g.2 := by
  rw [itemsAt, find, find?_cons_of_pos (by simp [hp])]
  rfl

omit h in
omit [TransOrd V] in
theorem itemsAt_cons_of_gt (hp : compare p g.1 = .gt) :
    itemsAt p (g :: groups) = itemsAt p groups := by
  rw [itemsAt, find, find?_cons_of_neg (by simp [hp])]
  rfl

/-- The items of the groups that are above a priority. -/
theorem items_lt (hp : ∀ g ∈ groups, compare p g.1 = .lt) :
    ∀ a ∈ items groups, compare p (priority a) = .lt := by
  intro a ha
  obtain ⟨g, hg, ha⟩ := mem_items.mp ha
  exact TransCmp.lt_of_lt_of_eq (hp g hg) (OrientedCmp.eq_symm (h.priority_eq g hg a ha))

/-- An item that joins its group is placed in the list. -/
theorem items_place (a : α) :
    items (SortedAssoc.insert (priority a) (itemsAt (priority a) groups ++ [a]) groups) =
      place priority a (items groups) := by
  induction groups with
  | nil => rfl
  | cons g groups ih =>
    have hfirst {b : α} (hb : b ∈ g.2) : compare (priority b) g.1 = .eq :=
      h.priority_eq g mem_cons_self b hb
    rw [SortedAssoc.insert]
    cases hp : compare (priority a) g.1 with
    | lt =>
      rw [h.itemsAt_cons_of_lt hp, place_of_forall_lt (h.items_lt (h.forall_cons_lt hp))]
      rfl
    | eq =>
      -- the group of the item, and above it the others
      have hskip : ∀ b ∈ g.2, compare (priority a) (priority b) ≠ .lt := by
        intro b hb
        rw [TransCmp.eq_trans hp (OrientedCmp.eq_symm (hfirst hb))]
        decide
      have hbelow := h.tail.items_lt (h.forall_lt (p := priority a) (by rw [hp]; decide))
      rw [itemsAt_cons_of_eq hp, items_cons, items_cons, place_append hskip,
        place_of_forall_lt hbelow, append_assoc]
      rfl
    | gt =>
      have hskip : ∀ b ∈ g.2, compare (priority a) (priority b) ≠ .lt := by
        intro b hb hlt
        rw [TransCmp.lt_of_lt_of_eq hlt (hfirst hb)] at hp
        cases hp
      rw [itemsAt_cons_of_gt hp, items_cons, items_cons, place_append hskip, ih h.tail]

omit h in
omit [TransOrd V] in
/-- Nothing is removed from items of other priorities. -/
theorem filter_eq_self {keep : α → Bool}
    (hdrop : ∀ a ∈ l, keep a = false → compare p (priority a) = .eq)
    (hne : ∀ a ∈ l, compare p (priority a) ≠ .eq) : l.filter keep = l := by
  refine List.filter_eq_self.mpr fun a ha ↦ ?_
  by_contra hkeep
  exact hne a ha (hdrop a ha (Bool.not_eq_true _ ▸ hkeep))

/-- Filtering one group filters the list, when the others have nothing to remove. -/
theorem items_refill {keep : α → Bool}
    (hdrop : ∀ a ∈ items groups, keep a = false → compare p (priority a) = .eq) :
    items (Buckets.refill p ((itemsAt p groups).filter keep) groups) =
      (items groups).filter keep := by
  induction groups with
  | nil => rfl
  | cons g groups ih =>
    have hall := hdrop
    have hfirst : ∀ a ∈ g.2, keep a = false → compare p (priority a) = .eq :=
      fun a ha ↦ hdrop a (mem_append_left _ ha)
    have hrest : ∀ a ∈ items groups, keep a = false → compare p (priority a) = .eq :=
      fun a ha ↦ hdrop a (mem_append_right _ ha)
    cases hp : compare p g.1 with
    | lt =>
      -- there is no such group
      have hbelow := h.forall_cons_lt hp
      rw [h.itemsAt_cons_of_lt hp, filter_nil, Buckets.refill, if_pos isEmpty_nil,
        erase_of_forall_ne fun g' hg' ↦ by rw [hbelow g' hg']; decide,
        filter_eq_self hall fun a ha ↦ by rw [h.items_lt hbelow a ha]; decide]
    | eq =>
      have habove := h.forall_lt (p := p) (by rw [hp]; decide)
      have hsame : SortedAssoc.erase p groups = groups :=
        erase_of_forall_ne fun g' hg' ↦ by rw [habove g' hg']; decide
      rw [itemsAt_cons_of_eq hp, items_cons, filter_append, filter_eq_self hrest fun a ha ↦ by
        rw [h.tail.items_lt habove a ha]; decide, Buckets.refill]
      by_cases hnil : (g.2.filter keep).isEmpty = true
      · rw [List.isEmpty_iff.mp hnil, SortedAssoc.erase, filter_cons_of_neg (by simp [hp])]
        exact congrArg items hsame
      · rw [if_neg hnil, SortedAssoc.insert, hp]
        exact items_cons
    | gt =>
      have hother : ∀ a ∈ g.2, compare p (priority a) ≠ .eq := by
        intro a ha heq
        rw [TransCmp.eq_trans heq (h.priority_eq g mem_cons_self a ha)] at hp
        cases hp
      have hcons (l : List α) : Buckets.refill p l (g :: groups) =
          g :: Buckets.refill p l groups := by
        rw [Buckets.refill, Buckets.refill, erase_cons_of_ne (by rw [hp]; decide),
          SortedAssoc.insert, hp]
        split <;> rfl
      rw [itemsAt_cons_of_gt hp, hcons, items_cons, items_cons, filter_append,
        filter_eq_self hfirst hother, ih h.tail hrest]

end

end Grouped

end Hara.Lib.Buckets
