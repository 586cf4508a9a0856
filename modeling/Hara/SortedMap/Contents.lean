import Hara.Lib.Except
import Hara.SortedMap.Tree

/-!
# What the operations list

On a tree that lists its keys in ascending order, insertion, slices and new values list what the
operation on sorted lists gives, and a lookup finds what is listed. Colours play no part, beyond
that there is no double black.

Removal is not here: where the colours are wrong, the removal of the least pair of a red node
leaves out its right side.
-/

namespace Hara.SortedMap

open Hara.Lib SortedAssoc Std Link

variable {K V U : Type} {link : Link K V}

theorem toList_mapValues (f : K → V → U) (link : Link K V) :
    (mapValues f link).toList = link.toList.map fun p ↦ (p.1, f p.1 p.2) := by
  induction link with
  | empty | doubleEmpty => rfl
  | full color left key value right _ ihl ihr =>
    rw [mapValues, toList_node, ihl, ihr, Link.toList, List.map_append, List.map_cons]

theorem Plain.mapValues (h : Plain link) {f : K → V → U} : Plain (mapValues f link) := by
  induction link with
  | empty => trivial
  | doubleEmpty => exact h
  | full color left key value right _ ihl ihr =>
    exact Plain.node h.1 (ihl h.2.1) (ihr h.2.2.1) _ _

section Keys

variable [Ord K]

theorem Plain.putRec (h : Plain link) {key : K} {value : V} : Plain (putRec key value link) := by
  induction link with
  | empty => exact Plain.node (by decide) h h _ _
  | doubleEmpty => exact h.elim
  | full color left k v right _ ihl ihr =>
    obtain ⟨hc, hl, hr, _⟩ := h
    rw [SortedMap.putRec]
    cases compare key k with
    | lt => exact (rearranges_balance ..).plain (Plain.node hc (ihl hl) hr _ _)
    | gt => exact (rearranges_balance ..).plain (Plain.node hc hl (ihr hr) _ _)
    | eq => exact Plain.node hc hl hr _ _

theorem Plain.put (h : Plain link) (key : K) (value : V) :
    Plain (put link key value) := rearranges_blacken.plain h.putRec

variable [TransOrd K]

theorem toList_putRec (h : Sorted link.toList) (key : K) (value : V) :
    (putRec key value link).toList = insert key value link.toList := by
  induction link with
  | empty | doubleEmpty => rfl
  | full color left k v right _ ihl ihr =>
    obtain ⟨hl, hr, hsplits⟩ := sorted_append_cons.mp h
    rw [putRec, Link.toList]
    cases hk : compare key k with
    | lt => rw [insert_append_of_lt hk, toList_balance, toList_node, ihl hl]
    | gt => rw [insert_append_of_gt hsplits hk, toList_balance, toList_node, ihr hr]
    | eq => rw [insert_append_of_eq hsplits hk, toList_node]

theorem toList_put (h : Sorted link.toList) {key : K} (value : V) :
    (put link key value).toList = insert key value link.toList := by
  rw [put, toList_blacken, toList_putRec h]

theorem findEntry_eq (h : Sorted link.toList) (key : K) :
    findEntry key link = find key link.toList := by
  induction link with
  | empty | doubleEmpty => rfl
  | full color left k v right _ ihl ihr =>
    obtain ⟨hl, hr, hsplits⟩ := sorted_append_cons.mp h
    rw [findEntry, Link.toList]
    cases hk : compare key k with
    | lt => rw [find_append_of_lt hsplits hk, ← ihl hl]
    | gt => rw [find_append_of_gt hsplits hk, ← ihr hr]
    | eq => rw [find_append_of_eq hsplits hk]

/-! ## Slices -/

variable {min max : K} {l : List (K × V)}

theorem between_eq_nil (h : ∀ p ∈ l, compare p.1 min = .lt ∨ compare p.1 max = .gt) :
    between min max l = [] := by
  apply List.filter_eq_nil_iff.mpr
  intro p hp
  rw [decide_eq_true_iff]
  rintro ⟨hmin, hmax⟩
  rcases h p hp with hlt | hgt
  · rw [OrientedCmp.gt_iff_lt.mpr hlt] at hmin
    cases hmin
  · rw [hgt] at hmax
    cases hmax

theorem between_cons_of_mem {x : K × V} (hmin : compare x.1 min ≠ .lt)
    (hmax : compare x.1 max ≠ .gt) : between min max (x :: l) = x :: between min max l := by
  apply List.filter_cons_of_pos
  rw [decide_eq_true_iff, Ordering.isLE_iff_ne_gt, Ordering.isLE_iff_ne_gt]
  exact ⟨fun hgt ↦ hmin (OrientedCmp.gt_iff_lt.mp hgt), hmax⟩

theorem between_cons_of_lt {x : K × V} (hmin : compare x.1 min = .lt) :
    between min max (x :: l) = between min max l := by
  apply List.filter_cons_of_neg
  rw [decide_eq_true_iff, Ordering.isLE_iff_ne_gt]
  exact fun hin ↦ hin.1 (OrientedCmp.gt_iff_lt.mpr hmin)

variable {color : Color} {left right : Link K V} {k : K} {v : V} {size : ℕ}

omit [TransOrd K] in
theorem slice_of_lt (hmin : compare k min = .lt) :
    slice min max (full color left k v right size) = slice min max right := by
  simp only [slice, hmin]

omit [TransOrd K] in
theorem slice_of_gt (hmin : compare k min ≠ .lt) (hmax : compare k max = .gt) :
    slice min max (full color left k v right size) = slice min max left := by
  rw [slice]
  split
  · next h => exact absurd h hmin
  · rfl
  · next h => exact (h hmax).elim

omit [TransOrd K] in
theorem slice_of_mem (hmin : compare k min ≠ .lt) (hmax : compare k max ≠ .gt) :
    slice min max (full color left k v right size) = (slice min max left >>= fun tl ↦
      slice min max right >>= fun tr ↦ rotate (node color tl k v tr)) := by
  rw [slice]
  split
  · next h => exact absurd h hmin
  · next h _ => exact absurd h hmax
  · rfl

omit [TransOrd K] in
/-- A slice of a tree at rest completes. -/
theorem Plain.exists_slice (h : Plain link) : ∃ t, slice min max link = .ok t ∧ Plain t := by
  induction link with
  | empty => exact ⟨empty, rfl, trivial⟩
  | doubleEmpty => exact h.elim
  | full color left k v right _ ihl ihr =>
    obtain ⟨hc, hpl, hpr, _⟩ := h
    obtain ⟨tl, htl, hptl⟩ := ihl hpl
    obtain ⟨tr, htr, hptr⟩ := ihr hpr
    by_cases hmin : compare k min = .lt
    · exact ⟨tr, by rw [slice_of_lt hmin, htr], hptr⟩
    by_cases hmax : compare k max = .gt
    · exact ⟨tl, by rw [slice_of_gt hmin hmax, htl], hptl⟩
    refine ⟨SortedMap.node color tl k v tr, ?_, Plain.node hc hptl hptr k v⟩
    rw [slice_of_mem hmin hmax, htl, htr]
    exact Plain.rotate_eq hptl hptr

/-- A slice that completes keeps exactly the keys in its range, and the sizes right. -/
theorem slice_lists {t : Link K V} (h : Sorted link.toList) (hslice : slice min max link = .ok t) :
    t.toList = between min max link.toList ∧ (Counted link → Counted t) := by
  induction link generalizing t with
  | empty | doubleEmpty =>
    obtain rfl := Except.ok.inj hslice
    exact ⟨rfl, id⟩
  | full color left k v right _ ihl ihr =>
    obtain ⟨hl, hr, hsplits⟩ := sorted_append_cons.mp h
    rw [Link.toList, between_append]
    by_cases hmin : compare k min = .lt
    · -- everything up to the root is below the range
      have hleft : between min max left.toList = [] :=
        between_eq_nil fun p hp ↦ .inl (TransCmp.lt_trans (hsplits.below p hp) hmin)
      rw [slice_of_lt hmin] at hslice
      obtain ⟨htr, hcounted⟩ := ihr hr hslice
      rw [hleft, between_cons_of_lt hmin, htr, List.nil_append]
      exact ⟨rfl, fun hc ↦ hcounted hc.2.2⟩
    by_cases hmax : compare k max = .gt
    · -- everything from the root on is above the range
      have hright : between min max ((k, v) :: right.toList) = [] := by
        apply between_eq_nil
        intro p hp
        right
        rw [OrientedCmp.gt_iff_lt] at hmax ⊢
        rcases List.mem_cons.mp hp with rfl | hp
        · exact hmax
        · exact TransCmp.lt_trans hmax (hsplits.above p hp)
      rw [slice_of_gt hmin hmax] at hslice
      obtain ⟨htl, hcounted⟩ := ihl hl hslice
      rw [hright, htl, List.append_nil]
      exact ⟨rfl, fun hc ↦ hcounted hc.2.1⟩
    rw [slice_of_mem hmin hmax] at hslice
    obtain ⟨tl, hslicel, hslice⟩ := Except.bind_eq_ok.mp hslice
    obtain ⟨tr, hslicer, hrotate⟩ := Except.bind_eq_ok.mp hslice
    obtain ⟨htl, hcl⟩ := ihl hl hslicel
    obtain ⟨htr, hcr⟩ := ihr hr hslicer
    rw [toList_rotate hrotate, toList_node, htl, htr, between_cons_of_mem hmin hmax]
    exact ⟨rfl, fun hc ↦ (rearranges_rotate hrotate).counted
      (counted_node.mpr ⟨hcl hc.2.1, hcr hc.2.2⟩)⟩

/-- A slice of a tree at rest keeps exactly the keys in its range. -/
theorem slice_spec (hplain : Plain link) (h : Sorted link.toList) :
    ∃ t, slice min max link = .ok t ∧ Plain t ∧ t.toList = between min max link.toList := by
  obtain ⟨t, ht, hpt⟩ := hplain.exists_slice
  exact ⟨t, ht, hpt, (slice_lists h ht).1⟩

end Keys

end Hara.SortedMap
