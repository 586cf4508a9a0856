import Hara.Lib.Chunk
import Hara.Vector.Node

/-!
# What a radix tree holds

A tree is described by the list of its leaves. At level `n + 1` the child at position `i` has the
`i`-th chunk of `32 ^ n` of them, and is missing when that chunk is empty. Each function changes
one chunk at each level, so all of them rest on `Holds.set`.

An operation is given an index into the whole vector. In the subtree it reaches at level `n`, the
leaf it means is the one at the index of the leaf in the vector modulo `32 ^ n`.
-/

namespace Hara.Vector

open Hara.Lib
open List

variable {E : Type}

/-- A child that is there holds some leaves, and a child that is missing holds none. -/
def SlotHolds (holds : Node E → List (List E) → Prop) : Option (Node E) → List (List E) → Prop
  | none, leaves => leaves = []
  | some child, leaves => leaves ≠ [] ∧ holds child leaves

/-- A tree of this level with these leaves. -/
def Holds : ℕ → Node E → List (List E) → Prop
  | 0, node, leaves => ∃ strong token values, node = .leaf strong token values ∧ leaves = [values]
  | level + 1, node, leaves => ∃ strong token children, node = .branch strong token children ∧
      children.length = 32 ∧ leaves.length ≤ 32 ^ (level + 1) ∧
      ∀ i < 32, ∃ slot, children[i]? = some slot ∧
        SlotHolds (Holds level) slot (chunk (32 ^ level) leaves i)

variable {level strong token : ℕ} {node : Node E} {leaves : List (List E)}

theorem Holds.leaf (values : List E) : Holds 0 (.leaf strong token values) [values] :=
  ⟨strong, token, values, rfl, rfl⟩

theorem Holds.length_le (h : Holds level node leaves) : leaves.length ≤ 32 ^ level := by
  cases level with
  | zero =>
    obtain ⟨_, _, values, _, rfl⟩ := h
    exact Nat.le_refl 1
  | succ level =>
    obtain ⟨_, _, _, _, _, hle, _⟩ := h
    exact hle

theorem holds_emptyBranch : Holds (level + 1) (emptyBranch token : Node E) [] := by
  refine ⟨1, token, _, rfl, length_replicate, Nat.zero_le _, fun i hi ↦ ⟨none, ?_, ?_⟩⟩
  · exact getElem?_replicate_of_lt hi
  · exact chunk_eq_nil (Nat.zero_le _)

variable {index : ℕ}

/-- Another child at one position, and other leaves that differ in its chunk alone. -/
theorem Holds.set {children : List (Option (Node E))} {leaves' : List (List E)}
    {slot : Option (Node E)} (h : Holds (level + 1) (.branch strong token children) leaves)
    (hlength : leaves'.length ≤ 32 ^ (level + 1))
    (hslot : SlotHolds (Holds level) slot (chunk (32 ^ level) leaves' index))
    (hother : ∀ i ≠ index, chunk (32 ^ level) leaves' i = chunk (32 ^ level) leaves i) :
    Holds (level + 1) (.branch strong token (children.set index slot)) leaves' := by
  obtain ⟨_, _, _, heq, hwidth, _, hchildren⟩ := h
  obtain ⟨rfl, rfl, rfl⟩ := Node.branch.inj heq
  refine ⟨_, _, _, rfl, by rw [length_set, hwidth], hlength, fun i hi ↦ ?_⟩
  by_cases hindex : i = index
  · subst hindex
    exact ⟨slot, getElem?_set_self (hwidth ▸ hi), hslot⟩
  · rw [getElem?_set_ne (Ne.symm hindex), hother i hindex]
    exact hchildren i hi

theorem Holds.exists_branch (h : Holds (level + 1) node leaves) :
    ∃ strong token children, node = .branch strong token children := by
  obtain ⟨strong, token, children, heq, _⟩ := h
  exact ⟨strong, token, children, heq⟩

/-- The children of a branch. -/
theorem Holds.children {children : List (Option (Node E))}
    (h : Holds (level + 1) (.branch strong token children) leaves) :
    children.length = 32 ∧ ∀ i < 32, ∃ slot, itemAt children i = .ok slot ∧
      SlotHolds (Holds level) slot (chunk (32 ^ level) leaves i) := by
  obtain ⟨_, _, _, heq, hwidth, _, hchildren⟩ := h
  obtain ⟨rfl, rfl, rfl⟩ := Node.branch.inj heq
  refine ⟨hwidth, fun i hi ↦ ?_⟩
  obtain ⟨slot, hslot, hholds⟩ := hchildren i hi
  exact ⟨slot, itemAt_of_getElem? hslot, hholds⟩

/-! ## Handles -/

section

variable {strong' token' : ℕ}

/-- Other handles to the children, with the same leaves. -/
theorem Holds.of_slots {children children' : List (Option (Node E))}
    {f : ℕ → Node E → Node E} (h : Holds (level + 1) (.branch strong token children) leaves)
    (hlength : children'.length = children.length)
    (hslots : ∀ (i : ℕ) (slot : Option (Node E)), children[i]? = some slot →
      children'[i]? = some (slot.map (f i)))
    (hf : ∀ i node leaves, Holds level node leaves → Holds level (f i node) leaves) :
    Holds (level + 1) (.branch strong' token' children') leaves := by
  obtain ⟨_, _, _, heq, hwidth, hle, hchildren⟩ := h
  obtain ⟨rfl, rfl, rfl⟩ := Node.branch.inj heq
  refine ⟨_, _, _, rfl, hlength.trans hwidth, hle, fun i hi ↦ ?_⟩
  obtain ⟨slot, hslot, hholds⟩ := hchildren i hi
  refine ⟨_, hslots i slot hslot, ?_⟩
  cases slot with
  | none => exact hholds
  | some child => exact ⟨hholds.1, hf i child _ hholds.2⟩

theorem Holds.withStrong (h : Holds level node leaves) (strong : ℕ) :
    Holds level (node.withStrong strong) leaves := by
  cases level with
  | zero =>
    obtain ⟨_, _, values, rfl, rfl⟩ := h
    exact .leaf values
  | succ level =>
    obtain ⟨_, token, children, rfl, hrest⟩ := h
    exact ⟨strong, token, children, rfl, hrest⟩

theorem Holds.map_children {children : List (Option (Node E))} {f : Node E → Node E}
    (h : Holds (level + 1) (.branch strong token children) leaves)
    (hf : ∀ node leaves, Holds level node leaves → Holds level (f node) leaves) :
    Holds (level + 1) (.branch strong' token' (children.map (Option.map f))) leaves := by
  refine h.of_slots (length_map _) (fun i slot hslot ↦ ?_) fun _ ↦ hf
  rw [getElem?_map, hslot]
  rfl

theorem Holds.withToken (h : Holds level node leaves) (token : ℕ) :
    Holds level (node.withToken token) leaves := by
  cases level with
  | zero =>
    obtain ⟨_, _, values, rfl, rfl⟩ := h
    exact .leaf values
  | succ level =>
    obtain ⟨strong, old, children, rfl, hrest⟩ := h
    exact Holds.map_children ⟨strong, old, children, rfl, hrest⟩
      fun node _ hnode ↦ hnode.withStrong (node.strong + 1)

theorem Holds.releaseChildren (h : Holds level node leaves) :
    Holds level node.releaseChildren leaves := by
  cases level with
  | zero =>
    obtain ⟨_, _, values, rfl, rfl⟩ := h
    exact .leaf values
  | succ level =>
    obtain ⟨strong, token, children, rfl, hrest⟩ := h
    exact Holds.map_children ⟨strong, token, children, rfl, hrest⟩
      fun node _ hnode ↦ hnode.withStrong (node.strong - 1)

theorem Holds.ensureEditable (h : Holds level node leaves) (token : ℕ) :
    Holds level (ensureEditable node token) leaves := by
  rw [Vector.ensureEditable]
  split
  · exact h
  · split
    · exact (h.withToken token).releaseChildren
    · exact h.withToken token

end

theorem strong_withToken (node : Node E) (token : ℕ) : (node.withToken token).strong = 1 := by
  cases node with
  | branch _ _ _ | leaf _ _ _ => rfl

theorem strong_releaseChildren (node : Node E) : node.releaseChildren.strong = node.strong := by
  cases node with
  | branch _ _ _ | leaf _ _ _ => rfl

/-- A node that was made editable has no other owner, whether it was copied or not. -/
theorem strong_ensureEditable (node : Node E) (token : ℕ) :
    (ensureEditable node token).strong = 1 := by
  rw [ensureEditable]
  split
  next hown => exact hown.2
  next =>
    split
    · rw [strong_releaseChildren, strong_withToken]
    · exact strong_withToken node token

/-- What makes a node ready to be changed never stops: it gives a node that nobody else has, with
the same leaves. -/
def Readies (ready : Node E → Except Fault (Node E)) : Prop :=
  ∀ node, ∃ node', ready node = .ok node' ∧ node'.strong = 1 ∧
    ∀ {level : ℕ} {leaves : List (List E)}, Holds level node leaves → Holds level node' leaves

theorem readies_copied : Readies (copied : Node E → Except Fault (Node E)) :=
  fun node ↦ ⟨_, rfl, strong_withToken node noEdit, fun h ↦ h.withToken noEdit⟩

theorem readies_editable (token : ℕ) : Readies (editable token : Node E → Except Fault (Node E)) :=
  fun node ↦ ⟨_, if_pos (strong_ensureEditable node token), strong_ensureEditable node token,
    fun h ↦ h.ensureEditable token⟩

theorem Readies.exists_branch {ready : Node E → Except Fault (Node E)} (hready : Readies ready)
    (h : Holds (level + 1) node leaves) :
    ∃ token children, ready node = .ok (.branch 1 token children) ∧
      Holds (level + 1) (.branch 1 token children) leaves := by
  obtain ⟨own, hown, hstrong, hkeeps⟩ := hready node
  have hheld := hkeeps h
  obtain ⟨strong, token, children, rfl⟩ := hheld.exists_branch
  obtain rfl : strong = 1 := hstrong
  exact ⟨token, children, hown, hheld⟩

/-! ## Indices -/

theorem and_nodeMask (n : ℕ) : n &&& nodeMask = n % 32 := Nat.and_two_pow_sub_one_eq_mod n 5

theorem childIndex_succ (position : ℕ) :
    childIndex position (level + 1) = position / 32 / 32 ^ level % 32 := by
  have hpow : 2 ^ (nodeShift * (level + 1)) = 32 * 32 ^ level := by
    rw [Nat.pow_mul, Nat.mul_comm]
    rfl
  rw [childIndex, and_nodeMask, Nat.shiftRight_eq_div_pow, hpow, Nat.div_div_eq_div_mul]

variable {j : ℕ}

/-- The child that an operation takes is the one whose chunk has the leaf. -/
theorem childIndex_eq_div {position : ℕ} (hj : position / 32 % 32 ^ (level + 1) = j) :
    childIndex position (level + 1) = j / 32 ^ level := by
  rw [childIndex_succ, ← hj, Nat.pow_succ, Nat.mod_mul_right_div_self]

/-- And the leaf's place in that chunk. -/
theorem mod_eq_mod {position : ℕ} (hj : position / 32 % 32 ^ (level + 1) = j) :
    position / 32 % 32 ^ level = j % 32 ^ level := by
  rw [← hj, Nat.mod_mod_of_dvd _ ⟨32, Nat.pow_succ _ _⟩]

theorem childIndex_lt (position level : ℕ) : childIndex position level < 32 := by
  rw [childIndex, and_nodeMask]
  exact Nat.mod_lt _ (by decide)

theorem pow_pos (level : ℕ) : 0 < 32 ^ level := Nat.pow_pos (by decide)

/-! ## Adding a leaf -/

/-- One more leaf, in the child that has the end of the list. -/
theorem Holds.set_concat {children : List (Option (Node E))} {child : Node E} {values : List E}
    {part : List (List E)} (h : Holds (level + 1) (.branch strong token children) leaves)
    (hroom : leaves.length < 32 ^ (level + 1))
    (hpart : chunk (32 ^ level) leaves (leaves.length / 32 ^ level) = part)
    (hchild : Holds level child (part ++ [values])) :
    Holds (level + 1)
      (.branch strong token (children.set (leaves.length / 32 ^ level) (some child)))
      (leaves ++ [values]) := by
  refine h.set ?_ ?_ fun i hi ↦ chunk_concat_of_ne hi
  · rw [length_append]
    exact hroom
  · rw [chunk_concat (pow_pos level), hpart]
    exact ⟨append_ne_nil_of_right_ne_nil _ (cons_ne_nil _ _), hchild⟩

theorem holds_newPath (strong token : ℕ) {values : List E} :
    Holds level (newPath token level (.leaf strong token values)) [values] := by
  induction level with
  | zero => exact .leaf values
  | succ level ih =>
    -- a branch of missing children, of which the first is replaced
    have hempty : Holds (level + 1) (emptyBranch token : Node E) [] := holds_emptyBranch
    have hadded := hempty.set_concat (pow_pos (level + 1)) (chunk_eq_nil (Nat.zero_le _)) ih
    rwa [length_nil, Nat.zero_div] at hadded

variable {ready : Node E → Except Fault (Node E)}

theorem Holds.pushTailWith (hready : Readies ready) (h : Holds (level + 1) node leaves)
    (hroom : leaves.length < 32 ^ (level + 1)) {size : ℕ}
    (hsize : (size - 1) / 32 % 32 ^ (level + 1) = leaves.length) {text : String} {values : List E} :
    ∃ node', pushTailWith ready token text size (.leaf strong token values) (level + 1) node =
        .ok node' ∧ Holds (level + 1) node' (leaves ++ [values]) := by
  induction level generalizing node leaves with
  | zero =>
    obtain ⟨own, children, hown, hheld⟩ := hready.exists_branch h
    obtain ⟨hwidth, hchildren⟩ := hheld.children
    have hindex := childIndex_eq_div hsize
    obtain ⟨slot, hslot, _⟩ := hchildren _ (childIndex_lt (size - 1) 1)
    have hnil : chunk (32 ^ 0) leaves (leaves.length / 32 ^ 0) = [] := by
      rw [Nat.pow_zero, Nat.div_one, chunk_eq_nil (Nat.mul_one _).ge]
    have htail : Holds 0 (.leaf strong token values) [values] := .leaf values
    refine ⟨_, ?_, hheld.set_concat hroom hnil htail⟩
    rw [Vector.pushTailWith, hown, ← hindex]
    simp only [bind, Except.bind, hslot]
    exact congrArg (Except.map (Node.branch 1 own))
      (setItem_of_lt (hwidth ▸ childIndex_lt _ _) _)
  | succ level ih =>
    obtain ⟨own, children, hown, hheld⟩ := hready.exists_branch h
    obtain ⟨hwidth, hchildren⟩ := hheld.children
    have hindex := childIndex_eq_div hsize
    obtain ⟨slot, hslot, hholds⟩ := hchildren _ (childIndex_lt (size - 1) (level + 2))
    have hwrite := fun child : Option (Node E) ↦
      setItem_of_lt (hwidth ▸ childIndex_lt (size - 1) (level + 2)) child
    rw [Vector.pushTailWith, hown]
    simp only [bind, Except.bind, hslot]
    rw [hindex] at hholds hwrite ⊢
    cases slot with
    | none =>
      refine ⟨_, ?_, hheld.set_concat hroom hholds (holds_newPath strong token)⟩
      simp only [hwrite]
      rfl
    | some child =>
      have hlast := length_chunk_last (l := leaves) (pow_pos (level + 1))
      obtain ⟨child', hchild', hadded⟩ := ih hholds.2
        (hlast ▸ Nat.mod_lt _ (pow_pos _)) (hlast ▸ mod_eq_mod hsize)
      refine ⟨_, ?_, hheld.set_concat hroom rfl hadded⟩
      simp only [hchild', hwrite]
      rfl

/-! ## Setting a value -/

variable {values : List E}

/-- The child with the leaf that an operation means, and the leaf's place there. -/
theorem Holds.exists_child {children : List (Option (Node E))}
    (h : Holds (level + 1) (.branch strong token children) leaves)
    (hj : index / 32 % 32 ^ (level + 1) = j) (hvalues : leaves[j]? = some values) :
    ∃ child, itemAt children (childIndex index (level + 1)) = .ok (some child) ∧
      Holds level child (chunk (32 ^ level) leaves (j / 32 ^ level)) ∧
      (chunk (32 ^ level) leaves (j / 32 ^ level))[j % 32 ^ level]? = some values := by
  obtain ⟨_, hchildren⟩ := h.children
  obtain ⟨slot, hslot, hholds⟩ := hchildren _ (childIndex_lt index (level + 1))
  have hget : (chunk (32 ^ level) leaves (j / 32 ^ level))[j % 32 ^ level]? = some values := by
    rw [getElem?_chunk_div (pow_pos level), hvalues]
  rw [childIndex_eq_div hj] at hholds
  cases slot with
  | none =>
    -- a missing child has no leaves
    rw [show chunk _ leaves _ = [] from hholds] at hget
    cases hget
  | some child => exact ⟨child, hslot, hholds.2, hget⟩

theorem Holds.assocNodeWith (hready : Readies ready) (h : Holds level node leaves)
    (hj : index / 32 % 32 ^ level = j) (hvalues : leaves[j]? = some values)
    (hindex : index % 32 < values.length) {text : String} {value : E} :
    ∃ node', assocNodeWith ready text index value level node = .ok node' ∧
      Holds level node' (leaves.set j (values.set (index % 32) value)) := by
  induction level generalizing node leaves j with
  | zero =>
    obtain ⟨own, hown, _, hkeeps⟩ := hready node
    obtain ⟨strong, token, old, rfl, rfl⟩ := hkeeps h
    rw [Nat.pow_zero, Nat.mod_one] at hj
    subst hj
    obtain rfl := Option.some.inj hvalues
    refine ⟨.leaf strong token (old.set (index % 32) value), ?_, .leaf _⟩
    rw [Vector.assocNodeWith, hown, and_nodeMask]
    simp only [bind, Except.bind, setItem_of_lt hindex]
    rfl
  | succ level ih =>
    obtain ⟨own, children, hown, hheld⟩ := hready.exists_branch h
    obtain ⟨child, hslot, hholds, hget⟩ := hheld.exists_child hj hvalues
    have hchild := childIndex_eq_div hj
    obtain ⟨child', hchild', hset⟩ := ih hholds (mod_eq_mod hj) hget
    refine ⟨.branch 1 own (children.set (childIndex index (level + 1)) (some child')), ?_, ?_⟩
    · rw [Vector.assocNodeWith, hown]
      simp only [bind, Except.bind, hslot, hchild',
        setItem_of_lt (hheld.children.1 ▸ childIndex_lt _ _)]
      rfl
    · refine hheld.set ?_ ?_ fun i hi ↦ chunk_set_of_ne (hchild ▸ hi)
      · rw [length_set]
        exact h.length_le
      · rw [hchild, chunk_set (pow_pos level)]
        refine ⟨?_, hset⟩
        intro hnil
        rw [set_eq_nil_iff] at hnil
        rw [hnil] at hget
        cases hget

theorem Holds.leafValues (h : Holds level node leaves) (hj : index / 32 % 32 ^ level = j)
    (hvalues : leaves[j]? = some values) : leafValues index level node = .ok (some values) := by
  induction level generalizing node leaves j with
  | zero =>
    obtain ⟨_, _, old, rfl, rfl⟩ := h
    rw [Nat.pow_zero, Nat.mod_one] at hj
    subst hj
    obtain rfl := Option.some.inj hvalues
    rfl
  | succ level ih =>
    obtain ⟨_, _, children, rfl⟩ := h.exists_branch
    obtain ⟨child, hslot, hholds, hget⟩ := h.exists_child hj hvalues
    rw [Vector.leafValues, hslot]
    exact ih hholds (mod_eq_mod hj) hget

/-! ## Taking the last leaf away -/

theorem popTailWith_one (size : ℕ) (node : Node E) :
    popTailWith ready size 1 node =
      if 1 = 1 ∧ childIndex (size - 2) 1 = 0 then .ok none
      else do
        match ← ready node with
        | .leaf _ _ _ => .error (.unreachable "editable vector path must be a branch")
        | .branch strong own children =>
          return some (.branch strong own (← setItem children (childIndex (size - 2) 1) none)) :=
  rfl

/-- A tree that nobody else has. -/
def Own (level : ℕ) (node : Node E) (leaves : List (List E)) : Prop :=
  node.strong = 1 ∧ Holds level node leaves

/-- The tree without its last leaf, or nothing when it was the only one. -/
theorem Holds.popTailWith (hready : Readies ready)
    (h : Holds (level + 1) node (leaves ++ [values])) {size : ℕ}
    (hsize : (size - 2) / 32 % 32 ^ (level + 1) = leaves.length) :
    ∃ result, popTailWith ready size (level + 1) node = .ok result ∧
      SlotHolds (Own (level + 1)) result leaves := by
  have hlength : leaves.length ≤ 32 ^ (level + 1) := by
    have hle := h.length_le
    rw [length_append] at hle
    exact Nat.le_of_succ_le hle
  induction level generalizing node leaves with
  | zero =>
    obtain ⟨own, children, hown, hheld⟩ := hready.exists_branch h
    have hwidth := hheld.children.1
    have hindex := childIndex_eq_div hsize
    rw [Nat.pow_zero, Nat.div_one] at hindex
    rw [popTailWith_one, hindex, hown]
    by_cases hzero : leaves.length = 0
    · exact ⟨none, if_pos ⟨rfl, hzero⟩, eq_nil_of_length_eq_zero hzero⟩
    · refine ⟨some (.branch 1 own (children.set leaves.length none)), ?_, ?_, rfl, ?_⟩
      · rw [if_neg fun hboth ↦ hzero hboth.2]
        simp only [bind, Except.bind, setItem_of_lt (hwidth ▸ hindex ▸ childIndex_lt _ _)]
        rfl
      · exact fun hnil ↦ hzero (hnil ▸ rfl)
      · refine hheld.set hlength ?_ fun i hi ↦ (chunk_concat_of_ne ?_).symm
        · exact chunk_eq_nil ((Nat.mul_one _).symm.le)
        · rwa [Nat.pow_zero, Nat.div_one]
  | succ level ih =>
    have hindex := childIndex_eq_div hsize
    obtain ⟨own, children, hown, hheld⟩ := hready.exists_branch h
    have hwidth := hheld.children.1
    obtain ⟨child, hslot, hholds, _⟩ := hheld.exists_child hsize getElem?_concat_length
    rw [chunk_concat (pow_pos _)] at hholds
    have hlast := length_chunk_last (l := leaves) (pow_pos (level + 1))
    obtain ⟨result, hresult, hpart⟩ := ih hholds
      (hlast ▸ mod_eq_mod hsize) (hlast ▸ (Nat.mod_lt _ (pow_pos _)).le)
    rw [Vector.popTailWith, hown]
    simp only [bind, Except.bind, hslot, hresult]
    by_cases hnone : result.isNone ∧ childIndex (size - 2) (level + 2) = 0
    · rw [if_pos hnone]
      refine ⟨none, rfl, ?_⟩
      obtain ⟨hresultNone, hzero⟩ := hnone
      obtain rfl := Option.isNone_iff_eq_none.mp hresultNone
      rw [hindex] at hzero
      rw [hzero, chunk_zero] at hpart
      · exact hpart
      · exact (Nat.lt_of_div_eq_zero (pow_pos _) hzero).le
    · rw [if_neg hnone, setItem_of_lt (hwidth ▸ childIndex_lt _ _)]
      refine ⟨_, rfl, ?_, rfl, ?_⟩
      · rintro rfl
        refine hnone ⟨?_, by rw [hindex]; exact Nat.zero_div _⟩
        rw [chunk_eq_nil (Nat.zero_le _)] at hpart
        cases result with
        | none => rfl
        | some child => exact absurd rfl hpart.1
      · refine hheld.set hlength ?_ fun i hi ↦ (chunk_concat_of_ne ?_).symm
        · rw [hindex]
          cases result with
          | none => exact hpart
          | some child => exact ⟨hpart.1, hpart.2.2⟩
        · exact hindex ▸ hi

theorem itemAt_map {α β : Type} {f : α → β} {items : List α} {i : ℕ} {item : α}
    (h : itemAt items i = .ok item) : itemAt (items.map f) i = .ok (f item) := by
  rw [itemAt] at h
  cases hitem : items[i]? with
  | none =>
    rw [hitem] at h
    cases h
  | some found =>
    rw [hitem] at h
    obtain rfl := Except.ok.inj h
    exact itemAt_of_getElem? (by rw [getElem?_map, hitem]; rfl)

theorem withToken_clone (node : Node E) (token : ℕ) :
    node.clone.withToken token = node.withToken token := by
  cases node with
  | branch _ _ _ | leaf _ _ _ => rfl

theorem popTailWith_clone (size : ℕ) (node : Node E) :
    popTailWith copied size (level + 1) node.clone = popTailWith copied size (level + 1) node := by
  have hcopied : copied node.clone = copied node :=
    congrArg Except.ok (withToken_clone node noEdit)
  cases level with
  | zero => rw [popTailWith_one, popTailWith_one, hcopied]
  | succ level => rw [Vector.popTailWith, Vector.popTailWith, hcopied]

/-- The persistent way of taking a leaf away is that of the transient, on a copy. -/
theorem Holds.popTail_eq (h : Holds (level + 1) node leaves) (size : ℕ) :
    popTail size (level + 1) node = Vector.popTailWith copied size (level + 1) node := by
  induction level generalizing node leaves with
  | zero =>
    obtain ⟨_, _, children, rfl⟩ := h.exists_branch
    rw [popTailWith_one]
    by_cases hzero : childIndex (size - 2) 1 = 0
    · rw [if_pos ⟨rfl, hzero⟩]
      exact if_pos hzero
    · rw [if_neg fun hboth ↦ hzero hboth.2]
      exact if_neg hzero
  | succ level ih =>
    obtain ⟨_, _, children, rfl⟩ := h.exists_branch
    obtain ⟨_, hchildren⟩ := h.children
    obtain ⟨slot, hslot, hholds⟩ := hchildren _ (childIndex_lt (size - 2) (level + 2))
    rw [Vector.popTailWith, Vector.popTail]
    simp only [copied, Node.withToken, bind, Except.bind, hslot, itemAt_map hslot]
    cases slot with
    | none => rfl
    | some child =>
      simp only [Option.map_some, popTailWith_clone, ← ih hholds.2]

end Hara.Vector
