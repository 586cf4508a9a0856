import Hara.SortedMap.History

/-!
# Positions in sorted maps

The queries by position follow one path and read the recorded sizes, never the colours. They are
right at the end of every history that completes: every rotation keeps the sizes right, also where
a removal from a sliced map leaves a double black behind or loses pairs.

A slice rotates. It is safe in a map without a double black. Where a removal has left one, a slice
that cuts its sibling away stops.
-/

namespace Hara.SortedMap

open Hara.Lib SortedAssoc Std Link

variable {K V U : Type} {t : Link K V}

/-- The last position at which `p` holds. -/
def lastIdx? {α : Type} (p : α → Bool) : List α → Option ℕ
  | [] => none
  | a :: l => ((lastIdx? p l).map (· + 1)).or (if p a then some 0 else none)

theorem lastIdx?_append {α : Type} {p : α → Bool} {l r : List α} : lastIdx? p (l ++ r) =
    ((lastIdx? p r).map (· + l.length)).or (lastIdx? p l) := by
  induction l with
  | nil => simp [lastIdx?]
  | cons a l ih =>
    rw [List.cons_append, lastIdx?, ih]
    cases lastIdx? p r <;> simp [lastIdx?, Nat.add_assoc]

theorem lastIdx?_eq_none {α : Type} {p : α → Bool} {l : List α} (h : ∀ a ∈ l, p a = false) :
    lastIdx? p l = none := by
  induction l with
  | nil => rfl
  | cons a l ih =>
    obtain ⟨ha, hl⟩ := List.forall_mem_cons.mp h
    simp [lastIdx?, ih hl, ha]

def nthEntry : Link K V → ℕ → Option (K × V)
  | full _ left key value right _, index =>
    if index < left.size then nthEntry left index
    else if index = left.size then some (key, value)
    else nthEntry right (index - (left.size + 1))
  | _, _ => none

section Keys

variable [Ord K]

/-- The position of a key. Where it is absent, the walk may settle for the key above or below. -/
def indexFrom (above below : Bool) (key : K) : Link K V → ℕ → Option ℕ
  | full _ left k _ right _, offset =>
    match compare key k with
    | .gt => (indexFrom above below key right (offset + left.size + 1)).or
        (if below then some (offset + left.size) else none)
    | .lt => (indexFrom above below key left offset).or
        (if above then some (offset + left.size) else none)
    | .eq => some (offset + left.size)
  | _, _ => none

def indexOfKey (root : Link K V) (key : K) : Option ℕ := indexFrom false false key root 0

def inclusiveFloorIndex (root : Link K V) (key : K) : Option ℕ := indexFrom false true key root 0

def ceilIndex (root : Link K V) (key : K) : Option ℕ := indexFrom true false key root 0

end Keys

/-! ## Positions in the list -/

theorem nthEntry_eq (h : Counted t) (index : ℕ) : nthEntry t index = t.toList[index]? := by
  induction t generalizing index with
  | empty | doubleEmpty => rfl
  | full color left key value right size ihl ihr =>
    obtain ⟨_, hl, hr⟩ := h
    rw [nthEntry, Link.toList, hl.size_eq, ihl hl, ihr hr]
    split
    next hlt => rw [List.getElem?_append_left hlt]
    next hge =>
    rw [List.getElem?_append_right (Nat.le_of_not_lt hge)]
    split
    next heq => rw [heq, Nat.sub_self, List.getElem?_cons_zero]
    next hne =>
    have hpos : index - left.toList.length = index - (left.toList.length + 1) + 1 := by omega
    rw [hpos, List.getElem?_cons_succ]

section Keys

variable [Ord K] [TransOrd K] {key : K}

/-- Without the key below, the walk finds the first position whose key compares as wanted. -/
theorem indexFrom_first (hc : Counted t) (hs : Sorted t.toList) {p : Ordering → Bool}
    (heq : p .eq = true) (hgt : p .gt = false) (offset : ℕ) : indexFrom (p .lt) false key t offset =
      (t.toList.findIdx? fun q ↦ p (compare key q.1)).map (· + offset) := by
  induction t generalizing offset with
  | empty | doubleEmpty => rfl
  | full color left k v right size ihl ihr =>
    obtain ⟨_, hcl, hcr⟩ := hc
    obtain ⟨hl, hr, hsplits⟩ := sorted_append_cons.mp hs
    rw [indexFrom, Link.toList, List.findIdx?_append, List.findIdx?_cons, hcl.size_eq, ihl hcl hl,
      ihr hcr hr]
    have hleft (hk : compare key k ≠ .lt) :
        left.toList.findIdx? (fun q ↦ p (compare key q.1)) = none :=
      List.findIdx?_eq_none_iff.mpr fun q hq ↦ by rw [hsplits.gt_of_not_lt hk q hq, hgt]
    cases hk : compare key k with
    | lt =>
      cases hp : p .lt with
      | true => simp [Nat.add_comm]
      | false =>
        have hright : right.toList.findIdx? (fun q ↦ p (compare key q.1)) = none :=
          List.findIdx?_eq_none_iff.mpr fun q hq ↦ by
            rw [hsplits.lt_of_not_gt (by rw [hk]; decide) q hq, hp]
        simp [hright]
    | gt =>
      rw [hleft (by rw [hk]; decide)]
      simp [hgt, Function.comp_def, Nat.add_comm, Nat.add_assoc, Nat.add_left_comm]
    | eq => simp [hleft (by rw [hk]; decide), heq, Nat.add_comm]

/-- The position of a key, or of the key below, is the last one whose key is not above. -/
theorem indexFrom_last (hc : Counted t) (hs : Sorted t.toList) (offset : ℕ) :
    indexFrom false true key t offset =
      (lastIdx? (fun q ↦ (compare key q.1).isGE) t.toList).map (· + offset) := by
  induction t generalizing offset with
  | empty | doubleEmpty => rfl
  | full color left k v right size ihl ihr =>
    obtain ⟨_, hcl, hcr⟩ := hc
    obtain ⟨hl, hr, hsplits⟩ := sorted_append_cons.mp hs
    rw [indexFrom, Link.toList, lastIdx?_append, lastIdx?, hcl.size_eq, ihl hcl hl, ihr hcr hr]
    have hright (hk : compare key k ≠ .gt) :
        lastIdx? (fun q ↦ (compare key q.1).isGE) right.toList = none :=
      lastIdx?_eq_none fun q hq ↦ by rw [hsplits.lt_of_not_gt hk q hq]; rfl
    cases hk : compare key k with
    | lt => simp [hright (by rw [hk]; decide)]
    | gt =>
      cases lastIdx? (fun q ↦ (compare key q.1).isGE) right.toList with
      | none => simp [Nat.add_comm]
      | some n => simp [Nat.add_comm, Nat.add_assoc, Nat.add_left_comm]
    | eq => simp [hright (by rw [hk]; decide), Nat.add_comm]

end Keys

/-! ## Sizes stay right -/

theorem Counted.mapValues {f : K → V → U} : Counted (mapValues f t) := by
  induction t with
  | empty | doubleEmpty => trivial
  | full color left k v right size ihl ihr => exact counted_node.mpr ⟨ihl, ihr⟩

variable {t' left right : Link K V} {color : Color} {key : K} {value : V} {l m : List (K × V)}

/-- The sizes are right, and there is nothing new. -/
structure Keeps (t : Link K V) (l : List (K × V)) : Prop where
  counted : Counted t
  sublist : t.toList.Sublist l

namespace Keeps

theorem mono (h : Keeps t l) (hlm : l.Sublist m) : Keeps t m :=
  { h with sublist := h.sublist.trans hlm }

theorem rotate (hl : Keeps left l) (hr : Keeps right m)
    (h : rotate (SortedMap.node color left key value right) = .ok t) :
    Keeps t (l ++ (key, value) :: m) where
  counted := (rearranges_rotate h).counted (counted_node.mpr ⟨hl.counted, hr.counted⟩)
  sublist := by
    rw [toList_rotate h]
    exact hl.sublist.append (hr.sublist.cons_cons _)

theorem nil (h : Counted t) (hnil : t.toList = []) : Keeps t l := ⟨h, hnil ▸ List.nil_sublist l⟩

theorem self (h : Counted t) : Keeps t t.toList := ⟨h, .refl _⟩

theorem blacken (h : Counted t) : Keeps (blacken t) t.toList :=
  ⟨rearranges_blacken.counted h, by rw [toList_blacken]⟩

theorem removeMinHere (h : Counted right) : Keeps (removeMinHere color right) right.toList := by
  unfold SortedMap.removeMinHere
  split
  · exact nil trivial rfl
  split
  · exact nil trivial rfl
  · exact blacken h

/-- What is left without the least pair. -/
theorem removeMin {min : K × V} (hc : Counted t) (hmin : leftmost t = .ok min)
    (h : removeMin t = .ok t') : Counted t' ∧ (min :: t'.toList).Sublist t.toList := by
  induction t generalizing t' with
  | empty | doubleEmpty => cases hmin
  | full color left k v right size ihl _ =>
    obtain ⟨_, hl, hr⟩ := hc
    rw [SortedMap.removeMin] at h
    cases left with
    | empty | doubleEmpty =>
      obtain rfl := Except.ok.inj hmin
      obtain rfl := Except.ok.inj h
      exact ⟨(removeMinHere hr).counted, (removeMinHere hr).sublist.cons_cons _⟩
    | full =>
      rw [if_neg (by rw [hl.size_eq]; simp [Link.toList])] at h
      obtain ⟨left', hleft, h⟩ := Except.bind_eq_ok.mp h
      obtain ⟨hl', hsub⟩ := ihl hl hmin hleft
      refine ⟨(rearranges_rotate h).counted (counted_node.mpr ⟨hl', hr⟩), ?_⟩
      rw [toList_rotate h]
      exact hsub.append_right _

theorem removeHere {size : ℕ} (hl : Counted left) (hr : Counted right)
    (h : removeHere color left right size = .ok t) : Keeps t (left.toList ++ right.toList) := by
  unfold SortedMap.removeHere at h
  split at h
  · obtain rfl := Except.ok.inj h
    split <;> exact nil trivial rfl
  split at h
  · obtain rfl := Except.ok.inj h
    exact (blacken hl).mono (List.sublist_append_left ..)
  · obtain ⟨min, hmin, h⟩ := Except.bind_eq_ok.mp h
    obtain ⟨right', hright, h⟩ := Except.bind_eq_ok.mp h
    obtain ⟨hr', hsub⟩ := removeMin hr hmin hright
    exact ((self hl).rotate (self hr') h).mono (hsub.append_left _)

variable [Ord K]

theorem removeRec (hc : Counted t) (h : removeRec key t = .ok t') : Keeps t' t.toList := by
  induction t generalizing t' with
  | empty | doubleEmpty => exact Except.ok.inj h ▸ nil trivial rfl
  | full color left k v right size ihl ihr =>
    obtain ⟨_, hl, hr⟩ := hc
    rw [SortedMap.removeRec] at h
    cases hk : compare key k with
    | lt =>
      rw [hk] at h
      obtain ⟨left', hleft, h⟩ := Except.bind_eq_ok.mp h
      exact (ihl hl hleft).rotate (self hr) h
    | gt =>
      rw [hk] at h
      obtain ⟨right', hright, h⟩ := Except.bind_eq_ok.mp h
      exact (self hl).rotate (ihr hr hright) h
    | eq =>
      rw [hk] at h
      exact (removeHere hl hr h).mono ((List.sublist_cons_self ..).append_left _)

theorem remove (hc : Counted t) (h : remove t key = .ok t') : Keeps t' t.toList := by
  obtain ⟨result, hresult, h⟩ := Except.bind_eq_ok.mp h
  obtain rfl := Except.ok.inj h
  split
  · exact self hc
  · exact toList_redden ▸ removeRec (rearranges_redden.counted hc) hresult

end Keeps

section Keys

variable [Ord K]

theorem Counted.putRec (h : Counted t) : Counted (putRec key value t) := by
  induction t with
  | empty | doubleEmpty => exact counted_node.mpr ⟨trivial, trivial⟩
  | full color left k v right _ ihl ihr =>
    obtain ⟨_, hl, hr⟩ := h
    rw [SortedMap.putRec]
    cases compare key k with
    | lt => exact counted_balance (ihl hl) hr
    | gt => exact counted_balance hl (ihr hr)
    | eq => exact counted_node.mpr ⟨hl, hr⟩

omit [Ord K] in
theorem Counted.plain (hc : Counted t) (h : NoDouble t) : Plain t := by
  induction t with
  | empty => trivial
  | doubleEmpty => exact h
  | full color left k v right size ihl ihr =>
    obtain ⟨hsize, hl, hr⟩ := hc
    refine ⟨h.1, ihl hl h.2.1, ihr hr h.2.2, ?_⟩
    rw [hsize, hl.size_eq, hr.size_eq]

variable [TransOrd K]

/-- At the end of every history that completes, the sizes are right and the keys ascend. -/
theorem History.counted_sorted {h : History K V} (hrun : h.run = .ok t) :
    Counted t ∧ Sorted t.toList := by
  induction h with
  | new => exact Except.ok.inj hrun ▸ ⟨trivial, .nil⟩
  | assocValue before key value ih =>
    obtain ⟨root, hroot, hrun⟩ := Except.bind_eq_ok.mp hrun
    obtain rfl := Except.ok.inj hrun
    obtain ⟨hc, hs⟩ := ih hroot
    refine ⟨rearranges_blacken.counted hc.putRec, ?_⟩
    rw [toList_put hs]
    exact hs.insert
  | dissocValue before key ih =>
    obtain ⟨root, hroot, hrun⟩ := Except.bind_eq_ok.mp hrun
    obtain ⟨hc, hs⟩ := ih hroot
    obtain ⟨hc', hsub⟩ := Keeps.remove hc hrun
    exact ⟨hc', hs.sublist hsub⟩
  | mapValues before f ih =>
    obtain ⟨root, hroot, hrun⟩ := Except.bind_eq_ok.mp hrun
    obtain rfl := Except.ok.inj hrun
    refine ⟨Counted.mapValues, ?_⟩
    rw [toList_mapValues]
    exact (ih hroot).2.mapValues
  | slice before min max ih =>
    obtain ⟨root, hroot, hrun⟩ := Except.bind_eq_ok.mp hrun
    obtain ⟨hc, hs⟩ := ih hroot
    obtain ⟨hlist, hcounted⟩ := slice_lists hs hrun
    exact ⟨hcounted hc, hlist ▸ hs.filter⟩

/-- In every map that a history leaves, the keys ascend, the size is the number of pairs, and each
query by position gives the position in the list of its pairs: `nth_entry` the pair there,
`index_of_key` the place of a key, `inclusive_floor_index` the last key that is not above, and
`ceil_index` the first that is not below. A slice lists the pairs in its range if it ends, as it
does where no double black is left. -/
theorem positions_eq (h : History K V) {t : Link K V} (hrun : h.run = .ok t) :
    Sorted t.toList ∧ t.size = t.toList.length ∧
    (∀ index, nthEntry t index = t.toList[index]?) ∧
    (∀ key, indexOfKey t key = t.toList.findIdx? (fun p ↦ (compare key p.1).isEq) ∧
      inclusiveFloorIndex t key = lastIdx? (fun p ↦ (compare key p.1).isGE) t.toList ∧
      ceilIndex t key = t.toList.findIdx? fun p ↦ (compare key p.1).isLE) ∧
    ∀ min max, (∀ t', slice min max t = .ok t' → t'.toList = between min max t.toList) ∧
      (NoDouble t → ∃ t', slice min max t = .ok t') := by
  obtain ⟨hc, hs⟩ := History.counted_sorted hrun
  refine ⟨hs, hc.size_eq, nthEntry_eq hc, fun key ↦ ⟨?_, ?_, ?_⟩,
    fun min max ↦ ⟨?_, fun hdouble ↦ ?_⟩⟩
  · simpa [indexOfKey] using indexFrom_first hc hs (p := Ordering.isEq) rfl rfl 0
  · simpa [inclusiveFloorIndex] using indexFrom_last hc hs 0
  · simpa [ceilIndex] using indexFrom_first hc hs (p := Ordering.isLE) rfl rfl 0
  · exact fun t' ht' ↦ (slice_lists hs ht').1
  · obtain ⟨t', ht', -⟩ := (hc.plain hdouble).exists_slice
    exact ⟨t', ht'⟩

end Keys

/-- A slice that cuts below the sibling of its first key. -/
def cut : History ℕ ℕ :=
  ((((History.new.assocValue 0 10).assocValue 1 11).assocValue 3 13).assocValue 2 12).slice 0 2

/-- The map that is left has no double black, so that it can be sliced again. -/
theorem positions_eq_cut :
    cut.run = .ok (black (black empty 0 10 empty) 1 11 (red empty 2 12 empty)) ∧
      NoDouble (black (black empty 0 10 empty) 1 11 (red empty 2 12 empty)) ∧
      (black (black empty 0 10 empty) 1 11 (red empty 2 12 empty)).size = 3 ∧
      nthEntry (black (black empty 0 10 empty) 1 11 (red empty 2 12 empty)) 1 = some (1, 11) ∧
      ∃ t', slice 1 7 (black (black empty 0 10 empty) 1 11 (red empty 2 12 empty)) = .ok t' ∧
        t'.toList = [(1, 11), (2, 12)] := by
  have hrun : cut.run = .ok (black (black empty 0 10 empty) 1 11 (red empty 2 12 empty)) := rfl
  have hdouble : NoDouble (black (black empty 0 10 empty) 1 11 (red empty 2 12 empty)) :=
    ⟨nofun, ⟨nofun, trivial, trivial⟩, nofun, trivial, trivial⟩
  obtain ⟨_, hsize, hnth, _, hslice⟩ := positions_eq cut hrun
  obtain ⟨t', ht'⟩ := (hslice 1 7).2 hdouble
  exact ⟨hrun, hdouble, hsize, hnth 1, t', ht', (hslice 1 7).1 t' ht'⟩

/-- The first key is then removed. -/
def pruned : History ℕ ℕ := cut.dissocValue 0

/-- The double black that the removal left has lost its sibling. -/
theorem pruned_slice_stops : pruned.run = .ok (black doubleEmpty 1 11 (red empty 2 12 empty)) ∧
    between 1 1 (black doubleEmpty 1 11 (red empty 2 12 empty)).toList = [(1, 11)] ∧
    slice 1 1 (black doubleEmpty 1 11 (red empty 2 12 empty)) = .error noSibling :=
  ⟨rfl, rfl, rfl⟩

end Hara.SortedMap
