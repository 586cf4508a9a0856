import Hara.SortedMap.Balance

/-!
# Histories of sorted maps

A history is a tree of operations over the empty map; `map_values` may change the type of the
values. Its model is the sorted list of the bindings.

Without slices every map is a red-black tree. A slice prunes and does not repair the colours, so
from a sliced map a removal may find no sibling where it needs one. It is safe when the map passes
the validation that the tests of the source use, or when there is nothing to remove.
-/

namespace Hara.SortedMap

open Hara.Lib SortedAssoc Std Link

inductive History (K : Type) : Type → Type 1 where
  | new {V : Type} : History K V
  | assocValue {V : Type} (before : History K V) (key : K) (value : V) : History K V
  | dissocValue {V : Type} (before : History K V) (key : K) : History K V
  | mapValues {U V : Type} (before : History K U) (f : K → U → V) : History K V
  | slice {V : Type} (before : History K V) (min max : K) : History K V

variable {K V : Type}

namespace History

/-- There is no slice. -/
def Sliceless : {V : Type} → History K V → Prop
  | _, new => True
  | _, assocValue before _ _ => before.Sliceless
  | _, dissocValue before _ => before.Sliceless
  | _, mapValues before _ => before.Sliceless
  | _, slice .. => False

variable [Ord K]

/-- The root of the map at the end. -/
def run : {V : Type} → History K V → Except Fault (Link K V)
  | _, new => .ok .empty
  | _, assocValue before key value => do
    let root ← before.run
    return put root key value
  | _, dissocValue before key => do
    let root ← before.run
    remove root key
  | _, mapValues before f => do
    let root ← before.run
    return SortedMap.mapValues f root
  | _, slice before min max => do
    let root ← before.run
    SortedMap.slice min max root

/-- The model. -/
def bindings : {V : Type} → History K V → List (K × V)
  | _, new => []
  | _, assocValue before key value => SortedAssoc.insert key value before.bindings
  | _, dissocValue before key => erase key before.bindings
  | _, mapValues before f => before.bindings.map fun p ↦ (p.1, f p.1 p.2)
  | _, slice before min max => between min max before.bindings

/-- A key is removed only from a map that passes the validation, or that does not have it. -/
def Admissible : {V : Type} → History K V → Prop
  | _, new => True
  | _, assocValue before _ _ => before.Admissible
  | _, dissocValue before key => before.Admissible ∧
      ∀ root, before.run = .ok root → (checkInvariant root).isSome ∨ findEntry key root = none
  | _, mapValues before _ => before.Admissible
  | _, slice before _ _ => before.Admissible

theorem sorted_bindings [TransOrd K] (h : History K V) : Sorted h.bindings := by
  induction h with
  | new => exact List.Pairwise.nil
  | assocValue before key value ih => exact ih.insert
  | dissocValue before key ih => exact ih.filter
  | mapValues before f ih => exact ih.mapValues
  | slice before min max ih => exact ih.filter

end History

/-! ## Red-black trees -/

/-- No red node has a red child. -/
def NoRedRed : Link K V → Prop
  | full color left _ _ right _ =>
    (color = .red → left.color ≠ .red ∧ right.color ≠ .red) ∧ NoRedRed left ∧ NoRedRed right
  | _ => True

/-- Every path has this number of black nodes. -/
def BlackHeight : Link K V → ℕ → Prop
  | full color left _ _ right _, n =>
    ∃ m, n = m + (if color = .black then 1 else 0) ∧ BlackHeight left m ∧ BlackHeight right m
  | _, n => n = 0

/-- No node and no leaf is double black. -/
def NoDouble : Link K V → Prop
  | empty => True
  | doubleEmpty => False
  | full color left _ _ right _ => color ≠ .doubleBlack ∧ NoDouble left ∧ NoDouble right

structure RedBlack [Ord K] (t : Link K V) : Prop where
  order : Sorted t.toList
  noRedRed : NoRedRed t
  height : ∃ n, BlackHeight t n
  noDouble : NoDouble t
  counted : Counted t

variable {t : Link K V}

theorem Plain.noDouble (h : Plain t) : NoDouble t := by
  induction t with
  | empty => trivial
  | doubleEmpty => exact h
  | full color left k v right size ihl ihr => exact ⟨h.1, ihl h.2.1, ihr h.2.2.1⟩

variable {c : Color} {n : ℕ}

theorem Balanced.noRedRed (h : Balanced t c n) : NoRedRed t := by
  induction h with
  | empty => trivial
  | red k v hl hr ihl ihr =>
    refine ⟨fun _ ↦ ?_, ihl, ihr⟩
    rw [hl.color_eq, hr.color_eq]
    exact ⟨nofun, nofun⟩
  | black k v hl hr ihl ihr => exact ⟨nofun, ihl, ihr⟩

theorem Balanced.blackHeight (h : Balanced t c n) : BlackHeight t n := by
  induction h with
  | empty => rfl
  | red k v hl hr ihl ihr | black k v hl hr ihl ihr => exact ⟨_, rfl, ihl, ihr⟩

theorem Balanced.mapValues {U : Type} (h : Balanced t c n) {f : K → V → U} :
    Balanced (mapValues f t) c n := by
  induction h with
  | empty => exact .empty
  | red k v hl hr ihl ihr => exact .red k (f k v) ihl ihr
  | black k v hl hr ihl ihr => exact .black k (f k v) ihl ihr

section Runs

variable [Ord K] [TransOrd K]

omit [TransOrd K] in
theorem Balanced.redBlack {t : Link K V} {c : Color} {n : ℕ} (h : Balanced t c n)
    (hs : Sorted t.toList) : RedBlack t where
  order := hs
  noRedRed := h.noRedRed
  height := ⟨n, h.blackHeight⟩
  noDouble := h.plain.noDouble
  counted := h.plain.counted

/-- Without slices, every map is balanced and has the bindings of the model. -/
theorem History.exists_balanced (h : History K V) (hslice : h.Sliceless) :
    ∃ t c n, h.run = .ok t ∧ Balanced t c n ∧ t.toList = h.bindings := by
  induction h with
  | new => exact ⟨.empty, _, _, rfl, .empty, rfl⟩
  | assocValue before key value ih =>
    obtain ⟨t, c, n, ht, hbalanced, htoList⟩ := ih hslice
    obtain ⟨n', hput⟩ := hbalanced.put key value
    refine ⟨put t key value, _, n', by rw [run, ht]; rfl, hput, ?_⟩
    rw [toList_put (htoList ▸ before.sorted_bindings), htoList]
    rfl
  | dissocValue before key ih =>
    obtain ⟨t, c, n, ht, hbalanced, htoList⟩ := ih hslice
    obtain ⟨t', c', n', ht', hbalanced', htoList'⟩ :=
      hbalanced.remove (htoList ▸ before.sorted_bindings)
    refine ⟨t', c', n', by rw [run, ht]; exact ht', hbalanced', ?_⟩
    rw [htoList', htoList]
    rfl
  | mapValues before f ih =>
    obtain ⟨t, c, n, ht, hbalanced, htoList⟩ := ih hslice
    refine ⟨SortedMap.mapValues f t, c, n, by rw [run, ht]; rfl, hbalanced.mapValues, ?_⟩
    rw [toList_mapValues, htoList]
    rfl
  | slice => exact hslice.elim

/-- Without slices, every history completes, and the map at its end is a red-black tree that lists
the bindings of the model. -/
theorem sliceless_redBlack (h : History K V) (hslice : h.Sliceless) :
    ∃ t, h.run = .ok t ∧ RedBlack t ∧ t.toList = h.bindings ∧
      Yields (fun s r ↦ next s = r) (pushLeft [] t) h.bindings := by
  obtain ⟨t, c, n, ht, hbalanced, htoList⟩ := h.exists_balanced hslice
  have hs : Sorted t.toList := htoList ▸ h.sorted_bindings
  exact ⟨t, ht, hbalanced.redBlack hs, htoList, htoList ▸ yields_iter⟩

end Runs

/-- Insertions in ascending order, removals of two of the keys and new values. -/
def churn : History ℕ ℕ :=
  ((((((History.new.assocValue 0 10).assocValue 1 11).assocValue 2 12).assocValue 3 13).dissocValue
    1).mapValues (fun k v ↦ k + v)).dissocValue 0

theorem sliceless_redBlack_churn :
    (∃ t, churn.run = .ok t ∧ RedBlack t ∧ t.toList = churn.bindings ∧
      Yields (fun s r ↦ next s = r) (pushLeft [] t) churn.bindings) ∧
    churn.bindings = [(2, 14), (3, 16)] :=
  ⟨sliceless_redBlack churn trivial, rfl⟩

/-! ## Slices -/

theorem Plain.color_eq_black (h : Plain t) (hred : t.color ≠ .red) : t.color = .black := by
  cases hc : t.color with
  | red => exact absurd hc hred
  | black => rfl
  | doubleBlack => exact absurd hc h.color_ne

/-- The validation accepts balanced trees only. -/
theorem balanced_of_checkInvariant {depth : ℕ} (h : checkInvariant t = some depth) :
    ∃ n, depth = n + 1 ∧ Balanced t t.color n := by
  induction t generalizing depth with
  | empty => exact ⟨0, (Option.some.inj h).symm, .empty⟩
  | doubleEmpty => cases h
  | full color left k v right size ihl ihr =>
    rw [checkInvariant] at h
    split at h
    · cases h
    next hdouble =>
    split at h
    · cases h
    next hred =>
    cases hl : checkInvariant left with
    | none =>
      rw [hl] at h
      cases h
    | some leftDepth =>
      cases hr : checkInvariant right with
      | none =>
        rw [hl, hr] at h
        cases h
      | some rightDepth =>
        rw [hl, hr] at h
        simp only at h
        split at h
        next hok =>
          obtain ⟨rfl, rfl⟩ := hok
          obtain ⟨n, rfl, hbl⟩ := ihl hl
          obtain ⟨m, hm, hbr⟩ := ihr hr
          obtain rfl := Nat.succ.inj hm
          cases color with
          | red =>
            have hnot : ¬ (left.color = .red ∨ right.color = .red) := fun hor ↦ hred ⟨rfl, hor⟩
            rw [hbl.plain.color_eq_black fun hc ↦ hnot (.inl hc)] at hbl
            rw [hbr.plain.color_eq_black fun hc ↦ hnot (.inr hc)] at hbr
            exact ⟨n, (Option.some.inj h).symm, .red k v hbl hbr⟩
          | black => exact ⟨n + 1, (Option.some.inj h).symm, .black k v hbl hbr⟩
          | doubleBlack => exact absurd rfl hdouble
        · cases h

section Runs

variable [Ord K] [TransOrd K] {key : K}

omit [TransOrd K] in
/-- A search that finds nothing changes nothing. -/
theorem Plain.removeRec_of_absent (h : Plain t) (hfind : findEntry key t = none) :
    removeRec key t = .ok t := by
  induction t with
  | empty | doubleEmpty => rfl
  | full color left k v right size ihl ihr =>
    obtain ⟨_, hl, hr, rfl⟩ := h
    rw [findEntry] at hfind
    rw [removeRec]
    cases hk : compare key k with
    | lt =>
      rw [hk] at hfind
      rw [ihl hl hfind]
      exact Plain.rotate_eq hl hr
    | gt =>
      rw [hk] at hfind
      rw [ihr hr hfind]
      exact Plain.rotate_eq hl hr
    | eq =>
      rw [hk] at hfind
      cases hfind

theorem Plain.remove_of_absent (h : Plain t) (hs : Sorted t.toList)
    (hfind : findEntry key t = none) : SortedMap.remove t key = .ok t := by
  have hplain := rearranges_redden.plain h
  have hred : findEntry key (redden t) = none := by
    rw [findEntry_eq (by rw [toList_redden]; exact hs), toList_redden, ← findEntry_eq hs, hfind]
  have hsize : (redden t).size = t.size := by
    rw [hplain.size_eq, toList_redden, h.size_eq]
  rw [SortedMap.remove, hplain.removeRec_of_absent hred]
  exact congrArg Except.ok (if_pos hsize)

/-- One removal from a tree at rest. -/
theorem Plain.remove (h : Plain t) (hs : Sorted t.toList)
    (hok : (checkInvariant t).isSome ∨ findEntry key t = none) :
    ∃ t', SortedMap.remove t key = .ok t' ∧ Plain t' ∧ t'.toList = erase key t.toList := by
  rcases hok with hcheck | hfind
  · obtain ⟨depth, hdepth⟩ := Option.isSome_iff_exists.mp hcheck
    obtain ⟨n, _, hbalanced⟩ := balanced_of_checkInvariant hdepth
    obtain ⟨t', c', n', ht', hbalanced', htoList⟩ := hbalanced.remove hs
    exact ⟨t', ht', hbalanced'.plain, htoList⟩
  · refine ⟨t, h.remove_of_absent hs hfind, h, ?_⟩
    rw [findEntry_eq hs, SortedAssoc.find, List.find?_eq_none] at hfind
    exact (erase_of_forall_ne fun p hp ↦ by simpa using hfind p hp).symm

/-- A history in which keys are removed only from maps that pass the validation, or that do not
have them, completes and lists the bindings of the model. -/
theorem admissible_completes {h : History K V} (hok : h.Admissible) :
    ∃ t, h.run = .ok t ∧ Plain t ∧ t.toList = h.bindings := by
  induction h with
  | new => exact ⟨.empty, rfl, trivial, rfl⟩
  | assocValue before key value ih =>
    obtain ⟨t, ht, hplain, htoList⟩ := ih hok
    refine ⟨put t key value, by rw [History.run, ht]; rfl, hplain.put key value, ?_⟩
    rw [toList_put (htoList ▸ before.sorted_bindings), htoList]
    rfl
  | dissocValue before key ih =>
    obtain ⟨t, ht, hplain, htoList⟩ := ih hok.1
    obtain ⟨t', ht', hplain', htoList'⟩ :=
      hplain.remove (htoList ▸ before.sorted_bindings) (hok.2 t ht)
    refine ⟨t', by rw [History.run, ht]; exact ht', hplain', ?_⟩
    rw [htoList', htoList]
    rfl
  | mapValues before f ih =>
    obtain ⟨t, ht, hplain, htoList⟩ := ih hok
    refine ⟨SortedMap.mapValues f t, by rw [History.run, ht]; rfl, hplain.mapValues, ?_⟩
    rw [toList_mapValues, htoList]
    rfl
  | slice before min max ih =>
    obtain ⟨t, ht, hplain, htoList⟩ := ih hok
    obtain ⟨t', ht', hplain', htoList'⟩ := slice_spec hplain (htoList ▸ before.sorted_bindings)
    refine ⟨t', by rw [History.run, ht]; exact ht', hplain', ?_⟩
    rw [htoList', htoList]
    rfl

/-- With slices, a history in which keys are removed only from maps that pass the validation, or
that do not have them, completes and lists the bindings of the model. -/
theorem admissible_lists (h : History K V) (hok : h.Admissible) :
    ∃ t, h.run = .ok t ∧ t.toList = h.bindings ∧
      Yields (fun s r ↦ next s = r) (pushLeft [] t) h.bindings := by
  obtain ⟨t, ht, _, htoList⟩ := admissible_completes hok
  exact ⟨t, ht, htoList, htoList ▸ yields_iter⟩

end Runs

/-- Five keys; a slice drops the last one and leaves a map that passes the validation. -/
def trimmed : History ℕ ℕ :=
  (((((History.new.assocValue 0 10).assocValue 1 11).assocValue 3 13).assocValue 2 12).assocValue 4
    14).slice 0 3

/-- The trimmed map loses its first key, is sliced again and is asked to drop a key it does not
have. -/
theorem admissible_lists_trimmed :
    ∃ t, (((trimmed.dissocValue 0).slice 2 3).dissocValue 7).run = .ok t ∧
      t.toList = [(2, 12), (3, 13)] ∧
      Yields (fun s r ↦ next s = r) (pushLeft [] t) [(2, 12), (3, 13)] := by
  refine admissible_lists (((trimmed.dissocValue 0).slice 2 3).dissocValue 7) ⟨⟨trivial, ?_⟩, ?_⟩
  · intro root hroot
    obtain rfl := Except.ok.inj hroot
    exact .inl rfl
  · intro root hroot
    obtain rfl := Except.ok.inj hroot
    exact .inr rfl

/-- Three keys, of which a slice keeps the first two. -/
def sliced : History ℕ ℕ :=
  (((History.new.assocValue 0 10).assocValue 1 11).assocValue 2 12).slice 0 1

/-- The sliced map does not accept the removal of its first key. -/
theorem sliced_dissocValue_stops :
    sliced.run = .ok (black (black empty 0 10 empty) 1 11 empty) ∧
      (sliced.dissocValue 0).run = .error noSibling := ⟨rfl, rfl⟩

end Hara.SortedMap
