import Hara.Champ.Node

/-!
# The layout of a data node

A data node stores two partial functions on the 32 positions, one giving entries and one giving
sub-nodes, with disjoint domains. `Layout` says so, and each surgery that the operations make on
the slots and the bitmaps is the update of one of the functions at one position.

## The splitting

At a position `i` the slots of the data region are those below `i`, the one at `i` and those above;
in the node region, which is stored from the end, the order is the opposite. All indices that the
source computes are lengths of such parts.
-/

namespace Hara.Champ

open Hara.Lib Bitmap Packed List

variable {K V : Type} {c : Node K V} {e : Entry K V}

/-- The entries are the values of `d` and the sub-nodes those of `ν`. -/
structure Layout (datamap nodemap : BitVec 32) (slots : List (Slot K V))
    (d : ℕ → Option (Entry K V)) (ν : ℕ → Option (Node K V)) : Prop where
  data : ∀ i < 32, datamap.getLsbD i = (d i).isSome
  node : ∀ i < 32, nodemap.getLsbD i = (ν i).isSome
  disjoint : ∀ i < 32, d i = none ∨ ν i = none
  slots : slots = (pack 32 d).map .entry ++ (pack 32 ν).reverse.map .node

theorem Layout.empty : Layout (K := K) (V := V) 0 0 [] (fun _ ↦ none) (fun _ ↦ none) where
  data i _ := by simp
  node i _ := by simp
  disjoint _ _ := .inl rfl
  slots := by simp [pack]

/-! ## Bitmaps and positions -/

section Bits

variable {α : Type} {x : BitVec 32} {f : ℕ → Option α} {i : ℕ}

section

variable (hx : ∀ j < 32, x.getLsbD j = (f j).isSome)

include hx

theorem index_eq (hi : i < 32) :
    index x (single 32 i) = (pack i f).length := by
  rw [index_single hi, length_pack]
  exact rank_congr fun j hj ↦ hx j (hj.trans hi)

theorem bit_of_some (hi : i < 32) {a : α} (hf : f i = some a) : x &&& single 32 i ≠ 0 := by
  rw [and_single_ne_zero hi, hx i hi, hf]
  rfl

theorem bit_of_none (hi : i < 32) (hf : f i = none) : ¬x &&& single 32 i ≠ 0 := by
  rw [and_single_ne_zero hi, hx i hi, hf]
  exact Bool.false_ne_true

theorem countOnes_eq : countOnes x = (pack 32 f).length := by
  rw [length_pack]
  exact rank_congr hx

theorem eq_zero_iff : x = 0 ↔ pack 32 f = [] := by
  constructor
  · intro hzero
    apply eq_nil_iff_forall_not_mem.mpr
    intro a ha
    obtain ⟨j, hj, hf⟩ := mem_pack.mp ha
    have hbit := hx j hj
    rw [hzero, hf] at hbit
    simp at hbit
  · intro hnil
    apply BitVec.eq_of_getLsbD_eq
    intro j hj
    rw [hx j hj]
    cases hf : f j with
    | none => simp
    | some a =>
      have hmem : a ∈ pack 32 f := mem_pack.mpr ⟨j, hj, hf⟩
      rw [hnil] at hmem
      exact absurd hmem not_mem_nil

/-- Adding a position. -/
theorem getLsbD_or_update (hi : i < 32) (a : α) :
    ∀ j < 32, (x ||| single 32 i).getLsbD j = (Function.update f i (some a) j).isSome := by
  intro j hj
  rw [getLsbD_or_single hi, hx j hj]
  by_cases hji : j = i
  · simp [hji]
  · simp [hji]

/-- Removing a position. -/
theorem getLsbD_xor_update (hi : i < 32) (hf : (f i).isSome) :
    ∀ j < 32, (x ^^^ single 32 i).getLsbD j = (Function.update f i none j).isSome := by
  intro j hj
  rw [getLsbD_xor_single hi, hx j hj]
  by_cases hji : j = i
  · subst hji
    simp [hf]
  · simp [hji]

/-- The value at a position that has one changes. -/
theorem getLsbD_update (hf : (f i).isSome) {a : α} :
    ∀ j < 32, x.getLsbD j = (Function.update f i (some a) j).isSome := by
  intro j hj
  rw [hx j hj]
  by_cases hji : j = i
  · subst hji
    simp [hf]
  · simp [hji]

end

theorem getLsbD_single_update (hi : i < 32) (a : α) : ∀ j < 32, (single 32 i).getLsbD j =
    (Function.update (fun _ ↦ (none : Option α)) i (some a) j).isSome := by
  intro j _
  rw [getLsbD_single hi]
  by_cases hji : j = i
  · simp [hji]
  · simp [hji]

theorem countOnes_single (hi : i < 32) : countOnes (single 32 i) = 1 := by
  rw [countOnes_eq (getLsbD_single_update hi ()), pack_single hi]
  rfl

end Bits

namespace Layout

variable {datamap nodemap : BitVec 32} {slots : List (Slot K V)}
  {d : ℕ → Option (Entry K V)} {ν : ℕ → Option (Node K V)} {i : ℕ}

section

variable (h : Layout datamap nodemap slots d ν)

include h

theorem node_none (hi : i < 32) (hd : d i = some e) : ν i = none := by
  have hdisjoint := h.disjoint i hi
  rw [hd] at hdisjoint
  exact hdisjoint.resolve_left nofun

theorem data_none (hi : i < 32) (hc : ν i = some c) : d i = none := by
  have hdisjoint := h.disjoint i hi
  rw [hc] at hdisjoint
  exact hdisjoint.resolve_right nofun

theorem disjoint_update_data {a : Option (Entry K V)} (ha : a = none ∨ ν i = none) :
    ∀ j < 32, Function.update d i a j = none ∨ ν j = none :=
  (Function.forall_update_iff d fun j a ↦ j < 32 → a = none ∨ ν j = none).mpr
    ⟨fun _ ↦ ha, fun j _ ↦ h.disjoint j⟩

theorem disjoint_update_node {c : Option (Node K V)} (hc : d i = none ∨ c = none) :
    ∀ j < 32, d j = none ∨ Function.update ν i c j = none :=
  (Function.forall_update_iff ν fun j c ↦ j < 32 → d j = none ∨ c = none).mpr
    ⟨fun _ ↦ hc, fun j _ ↦ h.disjoint j⟩

end

/-! ## The data region -/

/-- The slots after the entry at `i`. -/
def dataRest (i : ℕ) (d : ℕ → Option (Entry K V)) (ν : ℕ → Option (Node K V)) : List (Slot K V) :=
  (above i 32 d).map .entry ++ (pack 32 ν).reverse.map .node

theorem slots_update_data (hi : i < 32) (a : Option (Entry K V)) :
    (pack 32 (Function.update d i a)).map Slot.entry ++ (pack 32 ν).reverse.map .node =
      (pack i d).map .entry ++ (a.toList.map .entry ++ dataRest i d ν) := by
  rw [pack_update_eq hi, map_append, map_append, dataRest, append_assoc, append_assoc]

section

variable (h : Layout datamap nodemap slots d ν) (hi : i < 32)

include h hi

theorem slots_data :
    slots = (pack i d).map .entry ++ ((d i).toList.map .entry ++ dataRest i d ν) := by
  rw [h.slots, ← slots_update_data hi, Function.update_eq_self]

theorem index_data :
    index datamap (single 32 i) = ((pack i d).map (Slot.entry (V := V))).length := by
  rw [index_eq h.data hi, length_map]

theorem get_data (he : d i = some e) : slots[index datamap (single 32 i)]? = some (.entry e) := by
  rw [h.index_data hi, h.slots_data hi, he]
  exact getElem?_middle _ _ _

theorem set_data (he : d i = some e) (e' : Entry K V) :
    Layout datamap nodemap (slots.set (index datamap (single 32 i)) (.entry e'))
      (Function.update d i (some e')) ν where
  data := getLsbD_update h.data (by rw [he]; rfl)
  node := h.node
  disjoint := h.disjoint_update_data (.inr (h.node_none hi he))
  slots := by
    rw [slots_update_data hi, h.index_data hi, h.slots_data hi, he]
    exact set_middle _ _ _ _

/-- A new entry. -/
theorem insert_data (hd : d i = none) (hν : ν i = none) (e : Entry K V) :
    ∃ slots', insertAt slots (index datamap (single 32 i)) (.entry e) = .ok slots' ∧
      Layout (datamap ||| single 32 i) nodemap slots' (Function.update d i (some e)) ν := by
  refine ⟨_, if_pos ?_, getLsbD_or_update h.data hi e, h.node, h.disjoint_update_data (.inr hν), ?_⟩
  · rw [h.index_data hi, h.slots_data hi, length_append]
    exact Nat.le_add_right _ _
  · rw [slots_update_data hi, h.index_data hi, h.slots_data hi, hd]
    exact insertIdx_middle _ _ _

/-- An entry less. -/
theorem erase_data (he : d i = some e) :
    ∃ slots', removeAt slots (index datamap (single 32 i)) = .ok slots' ∧
      Layout (datamap ^^^ single 32 i) nodemap slots' (Function.update d i none) ν := by
  refine ⟨_, if_pos ?_, getLsbD_xor_update h.data hi (by rw [he]; rfl), h.node,
    h.disjoint_update_data (.inl rfl), ?_⟩
  · rw [h.index_data hi, h.slots_data hi, he]
    simp
  · rw [slots_update_data hi, h.index_data hi, h.slots_data hi, he]
    exact eraseIdx_middle _ _ _

end

/-! ## The node region -/

/-- The slots before the sub-node at `i`. -/
def nodeFront (i : ℕ) (d : ℕ → Option (Entry K V)) (ν : ℕ → Option (Node K V)) : List (Slot K V) :=
  (pack 32 d).map .entry ++ (above i 32 ν).reverse.map .node

theorem slots_update_node (hi : i < 32) (c : Option (Node K V)) :
    (pack 32 d).map Slot.entry ++ (pack 32 (Function.update ν i c)).reverse.map .node =
      nodeFront i d ν ++ (c.toList.map .node ++ (pack i ν).reverse.map .node) := by
  rw [pack_update_eq hi, nodeFront]
  cases c <;> simp

theorem slots_node (h : Layout datamap nodemap slots d ν) (hi : i < 32) :
    slots = nodeFront i d ν ++ ((ν i).toList.map .node ++ (pack i ν).reverse.map .node) := by
  rw [h.slots, ← slots_update_node hi, Function.update_eq_self]

/-- The index of a sub-node, for bitmaps that have its position. -/
theorem nodeSlot_eq {datamap nodemap : BitVec 32} (hd : ∀ j < 32, datamap.getLsbD j = (d j).isSome)
    (hν : ∀ j < 32, nodemap.getLsbD j = (Function.update ν i (some c) j).isSome) (hi : i < 32) :
    nodeSlot datamap nodemap (single 32 i) = (nodeFront i d ν).length := by
  rw [nodeSlot, countOnes_eq hd, countOnes_eq hν, index_eq hν hi, pack_update_eq hi, pack_update]
  simp only [nodeFront, length_append, length_map, length_reverse, Option.toList_some,
    length_singleton]
  omega

section

variable (h : Layout datamap nodemap slots d ν) (hi : i < 32)

include h hi

theorem nodeSlot_self (hc : ν i = some c) :
    nodeSlot datamap nodemap (single 32 i) = (nodeFront i d ν).length := by
  apply nodeSlot_eq (c := c) h.data _ hi
  rw [← hc, Function.update_eq_self]
  exact h.node

/-- The sub-node at a position, and what putting another in its place gives. -/
theorem exists_node (hc : ν i = some c) :
    ∃ front back, slots = front ++ .node c :: back ∧
      nodeSlot datamap nodemap (single 32 i) = front.length ∧
      ∀ c', Layout datamap nodemap (front ++ .node c' :: back) d
        (Function.update ν i (some c')) := by
  refine ⟨nodeFront i d ν, (pack i ν).reverse.map .node, ?_, h.nodeSlot_self hi hc, ?_⟩
  · have hslots := h.slots_node hi
    rwa [hc] at hslots
  · intro c'
    refine ⟨h.data, getLsbD_update h.node (by rw [hc]; rfl),
      h.disjoint_update_node (.inl (h.data_none hi hc)), ?_⟩
    rw [slots_update_node hi]
    rfl

/-- A new sub-node. -/
theorem insert_node (hd : d i = none) (hν : ν i = none) :
    ∃ slots', insertAt slots (nodeSlot datamap (nodemap ||| single 32 i) (single 32 i)) (.node c) =
        .ok slots' ∧
      Layout datamap (nodemap ||| single 32 i) slots' d (Function.update ν i (some c)) := by
  have hbits := getLsbD_or_update h.node hi c
  refine ⟨_, if_pos ?_, h.data, hbits, h.disjoint_update_node (.inl hd), ?_⟩
  · rw [nodeSlot_eq h.data hbits hi, h.slots_node hi, length_append]
    exact Nat.le_add_right _ _
  · rw [slots_update_node hi, nodeSlot_eq h.data hbits hi, h.slots_node hi, hν]
    exact insertIdx_middle _ _ _

/-- A sub-node less. -/
theorem erase_node (hc : ν i = some c) :
    ∃ slots', removeAt slots (nodeSlot datamap nodemap (single 32 i)) = .ok slots' ∧
      Layout datamap (nodemap ^^^ single 32 i) slots' d (Function.update ν i none) := by
  have hfront := h.nodeSlot_self hi hc
  refine ⟨_, if_pos ?_, h.data, getLsbD_xor_update h.node hi (by rw [hc]; rfl),
    h.disjoint_update_node (.inr rfl), ?_⟩
  · rw [hfront, h.slots_node hi, hc]
    simp
  · rw [slots_update_node hi, hfront, h.slots_node hi, hc]
    exact eraseIdx_middle _ _ _

end

end Layout

end Hara.Champ
