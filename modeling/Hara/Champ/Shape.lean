import Hara.Champ.Layout
import Mathlib.Algebra.Order.Group.Multiset
import Mathlib.Tactic.Abel

/-!
# The shape of a map

Level `n` looks at bits `5 * n` to `5 * n + 4` of a hash: `chunk n`. A data node at level `n` has
each entry at the position of its chunk, and below a position only entries with that chunk.

## The invariant

Two more facts make the shape what it is. A sub-node holds at least two pairs, so that a lone pair
is always stored in the node where its position is first its own; this is what makes the shape
depend on the keys alone. And collision nodes stand below level 6, which is where the source starts
to make them, with at least two pairs of one hash.

Data nodes stop at level 12: thirteen chunks are the whole hash, and a shift never reaches 64.
-/

namespace Hara.Champ

open Hara.Lib Bitmap Packed List

variable {K V : Type} {n : ℕ} {e : Entry K V} {h : Hash}

/-! ## Chunks of a hash -/

/-- The position of a hash at a level. -/
def chunk (n : ℕ) (h : Hash) : ℕ := h.toNat / 32 ^ n % 32

/-- What the levels before `n` have seen of a hash. -/
def low (n : ℕ) (h : Hash) : ℕ := h.toNat % 32 ^ n

theorem chunk_lt (n : ℕ) (h : Hash) : chunk n h < 32 := Nat.mod_lt _ (by decide)

theorem mask_level (hn : n ≤ 12) (h : Hash) : mask h (5 * n) = .ok (chunk n h) := by
  have hshift : 5 * n < 64 := by omega
  have hpow : 2 ^ (5 * n) = 32 ^ n := by rw [Nat.pow_mul]
  rw [mask, if_pos hshift, BitVec.toNat_and, BitVec.toNat_ushiftRight, Nat.shiftRight_eq_div_pow,
    hpow]
  exact congrArg Except.ok (Nat.and_two_pow_sub_one_eq_mod _ 5)

theorem bit_level (hn : n ≤ 12) : bit h (5 * n) = .ok (single 32 (chunk n h)) := by
  rw [bit, mask_level hn]
  rfl

theorem low_zero (h : Hash) : low 0 h = 0 := by rw [low, Nat.pow_zero, Nat.mod_one]

theorem low_succ (n : ℕ) (h : Hash) : low (n + 1) h = low n h + 32 ^ n * chunk n h := by
  rw [low, low, chunk, Nat.pow_succ, Nat.mod_mul]

theorem low_succ_eq_iff {h' : Hash} :
    low (n + 1) h = low (n + 1) h' ↔ low n h = low n h' ∧ chunk n h = chunk n h' := by
  have hpos : 0 < 32 ^ n := Nat.pow_pos (by decide)
  constructor
  · intro heq
    have hlow : low n h = low n h' := by
      have hmod := congrArg (· % 32 ^ n) heq
      simpa only [low, Nat.pow_succ, Nat.mod_mul_right_mod] using hmod
    refine ⟨hlow, ?_⟩
    rw [low_succ, low_succ, hlow] at heq
    exact Nat.eq_of_mul_eq_mul_left hpos (Nat.add_left_cancel heq)
  · rintro ⟨hlow, hchunk⟩
    rw [low_succ, low_succ, hlow, hchunk]

/-- Thirteen levels see all of a hash. -/
theorem eq_of_low {h' : Hash} (hn : 13 ≤ n) (heq : low n h = low n h') : h = h' := by
  have hbound : 2 ^ 64 ≤ 32 ^ n := le_trans (by decide) (Nat.pow_le_pow_right (by decide) hn)
  rw [low, low, Nat.mod_eq_of_lt (h.isLt.trans_le hbound),
    Nat.mod_eq_of_lt (h'.isLt.trans_le hbound)] at heq
  exact BitVec.eq_of_toNat_eq heq

/-! ## The contents of a node -/

mutual

/-- The entries below a node, in the order of iteration. -/
def Node.contents : Node K V → List (Entry K V)
  | .collision hash entries => entries.map fun p ↦ ⟨hash, p.1, p.2⟩
  | .data _ _ slots => slotContents slots

def slotContents : List (Slot K V) → List (Entry K V)
  | [] => []
  | slot :: slots => slot.contents ++ slotContents slots

def Slot.contents : Slot K V → List (Entry K V)
  | .entry e => [e]
  | .node child => child.contents

end

theorem slotContents_eq (slots : List (Slot K V)) :
    slotContents slots = slots.flatMap Slot.contents := by
  induction slots with
  | nil => rfl
  | cons slot slots ih => rw [slotContents, ih, flatMap_cons]

theorem length_contents_collision (hash : Hash) (entries : List (K × V)) :
    (Node.collision hash entries).contents.length = entries.length := by
  rw [Node.contents, length_map]

/-- The pair of an entry. -/
def Entry.pair (e : Entry K V) : K × V := (e.key, e.value)

/-- The entries at a position. -/
def here (a : Option (Entry K V)) (c : Option (Node K V)) : List (Entry K V) :=
  a.toList ++ c.toList.flatMap Node.contents

/-- The entries at the positions other than `i`. -/
def others (i : ℕ) (d : ℕ → Option (Entry K V)) (ν : ℕ → Option (Node K V)) :
    List (Entry K V) :=
  (pack i d ++ above i 32 d) ++ (pack i ν ++ above i 32 ν).flatMap Node.contents

@[simp] theorem others_update_data (i : ℕ) (d : ℕ → Option (Entry K V)) (ν : ℕ → Option (Node K V))
    (a : Option (Entry K V)) :
    others i (Function.update d i a) ν = others i d ν := by
  rw [others, others, pack_update, above_update]

@[simp] theorem others_update_node (i : ℕ) (d : ℕ → Option (Entry K V)) (ν : ℕ → Option (Node K V))
    (c : Option (Node K V)) :
    others i d (Function.update ν i c) = others i d ν := by
  rw [others, others, pack_update, above_update]

@[simp] theorem here_none : here (none : Option (Entry K V)) none = [] := rfl

@[simp] theorem here_entry (e : Entry K V) : here (some e) none = [e] := rfl

@[simp] theorem here_node (c : Node K V) : here none (some c) = c.contents := by
  simp [here]

namespace Layout

variable {datamap nodemap : BitVec 32} {slots : List (Slot K V)}
  {d : ℕ → Option (Entry K V)} {ν : ℕ → Option (Node K V)} {i : ℕ}

theorem contents_eq (h : Layout datamap nodemap slots d ν) :
    (Node.data datamap nodemap slots).contents =
      pack 32 d ++ (pack 32 ν).reverse.flatMap Node.contents := by
  rw [Node.contents, slotContents_eq, h.slots, flatMap_append, flatMap_map, flatMap_map]
  congr 1
  exact flatMap_singleton' _

/-- The contents, with those at `i` in front. -/
theorem contents_perm (h : Layout datamap nodemap slots d ν) (hi : i < 32) :
    ((Node.data datamap nodemap slots).contents).Perm (here (d i) (ν i) ++ others i d ν) := by
  rw [h.contents_eq]
  have hreverse : ((pack 32 ν).reverse.flatMap Node.contents).Perm
      ((pack 32 ν).flatMap Node.contents) := (reverse_perm _).flatMap_right _
  refine (hreverse.append_left _).trans ?_
  rw [pack_eq hi, pack_eq hi, here, others, flatMap_append, flatMap_append, flatMap_append,
    ← Multiset.coe_eq_coe]
  simp only [← Multiset.coe_add]
  abel

end Layout

/-! ## The invariant -/

/-- Entries stand at the positions of their chunks, and sub-nodes have at least two. -/
structure Placed (n : ℕ) (d : ℕ → Option (Entry K V)) (ν : ℕ → Option (Node K V)) : Prop where
  entry : ∀ i < 32, ∀ e, d i = some e → chunk n e.hash = i
  child : ∀ i < 32, ∀ c, ν i = some c → ∀ e ∈ c.contents, chunk n e.hash = i
  two : ∀ i < 32, ∀ c, ν i = some c → 2 ≤ c.contents.length

/-- A node at level `n`. -/
inductive Shape : ℕ → Node K V → Prop
  | collision {n : ℕ} {hash : Hash} {entries : List (K × V)} (hlow : 7 ≤ n) (hhigh : n ≤ 13)
      (two : 2 ≤ entries.length) : Shape n (.collision hash entries)
  | data {n : ℕ} {datamap nodemap : BitVec 32} {slots : List (Slot K V)}
      {d : ℕ → Option (Entry K V)} {ν : ℕ → Option (Node K V)} (hn : n ≤ 12)
      (layout : Layout datamap nodemap slots d ν) (placed : Placed n d ν)
      (children : ∀ i < 32, ∀ c, ν i = some c → Shape (n + 1) c) :
      Shape n (.data datamap nodemap slots)

section Update

variable {α : Type} {f : ℕ → Option α} {P : ℕ → α → Prop} {i : ℕ}
  (hf : ∀ j < 32, ∀ a, f j = some a → P j a)

include hf

/-- A fact about all the values of a function, when one of them is set. -/
theorem forall_update {a : α} (ha : P i a) :
    ∀ j < 32, ∀ b, Function.update f i (some a) j = some b → P j b := by
  refine (Function.forall_update_iff f fun j x ↦ j < 32 → ∀ b, x = some b → P j b).mpr
    ⟨?_, fun j _ ↦ hf j⟩
  rintro - _ ⟨⟩
  exact ha

/-- And when it is taken away. -/
theorem forall_erase : ∀ j < 32, ∀ b, Function.update f i none j = some b → P j b :=
  (Function.forall_update_iff f fun j x ↦ j < 32 → ∀ b, x = some b → P j b).mpr
    ⟨nofun, fun j _ ↦ hf j⟩

end Update

namespace Placed

variable {i : ℕ} {d : ℕ → Option (Entry K V)} {ν : ℕ → Option (Node K V)}

theorem none (n : ℕ) : Placed (K := K) (V := V) n (fun _ ↦ none) (fun _ ↦ none) where
  entry _ _ _ h := by cases h
  child _ _ _ h := by cases h
  two _ _ _ h := by cases h

section

variable (hp : Placed n d ν)

include hp

theorem update_data (he : chunk n e.hash = i) : Placed n (Function.update d i (some e)) ν :=
  { hp with entry := forall_update hp.entry he }

theorem erase_data : Placed n (Function.update d i Option.none) ν :=
  { hp with entry := forall_erase hp.entry }

theorem update_node {c : Node K V} (hc : ∀ e ∈ c.contents, chunk n e.hash = i)
    (htwo : 2 ≤ c.contents.length) : Placed n d (Function.update ν i (some c)) :=
  { hp with child := forall_update hp.child hc, two := forall_update hp.two htwo }

theorem erase_node : Placed n d (Function.update ν i Option.none) :=
  { hp with child := forall_erase hp.child, two := forall_erase hp.two }

end

/-- Entries at other positions have other chunks. -/
theorem chunk_ne (h : Placed n d ν) (hi : i < 32) (he : e ∈ others i d ν) : chunk n e.hash ≠ i := by
  rw [others, mem_append, mem_around hi, mem_flatMap] at he
  rcases he with ⟨j, hj, hne, hd⟩ | ⟨c, hc, hmem⟩
  · rw [h.entry j hj e hd]
    exact hne
  · obtain ⟨j, hj, hne, hc⟩ := (mem_around hi).mp hc
    rw [h.child j hj c hc e hmem]
    exact hne

/-- And entries at a position have its chunk. -/
theorem chunk_here (h : Placed n d ν) (hi : i < 32) (he : e ∈ here (d i) (ν i)) :
    chunk n e.hash = i := by
  rw [here, mem_append, Option.mem_toList, mem_flatMap] at he
  rcases he with hd | ⟨c, hc, hmem⟩
  · exact h.entry i hi e hd
  · exact h.child i hi c (Option.mem_toList.mp hc) e hmem

end Placed

namespace Shape

theorem empty : Shape (K := K) (V := V) 0 .empty :=
  .data (by decide) Layout.empty (Placed.none 0) nofun

/-- A data node with a single entry. -/
theorem lone (hn : n ≤ 12) (e : Entry K V) :
    Shape n (.data (single 32 (chunk n e.hash)) 0 [.entry e]) := by
  have hi := chunk_lt n e.hash
  have hlayout : Layout (single 32 (chunk n e.hash)) 0 [.entry e]
      (Function.update (fun _ ↦ none) (chunk n e.hash) (some e))
      (fun _ ↦ (none : Option (Node K V))) :=
    { data := getLsbD_single_update hi e
      node := fun j _ ↦ by simp
      disjoint := fun _ _ ↦ .inr rfl
      slots := by rw [pack_none, pack_single hi]; rfl }
  exact .data hn hlayout ((Placed.none n).update_data rfl) nofun

theorem isSingle_eq_false {node : Node K V} (h : Shape n node) (htwo : 2 ≤ node.contents.length) :
    node.isSingle = false := by
  cases h with
  | collision _ _ two => simp only [Node.isSingle, decide_eq_false_iff_not]; omega
  | @data _ datamap nodemap slots d ν _ layout _ _ =>
    simp only [Node.isSingle, decide_eq_false_iff_not]
    rintro ⟨hzero, hone⟩
    -- without sub-nodes, the contents are the entries
    have hnodes : pack 32 ν = [] := by
      rw [← length_eq_zero_iff, ← countOnes_eq layout.node, hzero]
      simp [countOnes, rank]
    rw [layout.contents_eq, hnodes, reverse_nil, flatMap_nil, append_nil,
      ← countOnes_eq layout.data, hone] at htwo
    exact absurd htwo (by decide)

end Shape

/-! ## Iteration -/

theorem collectSlots_nodes {nodes : List (Node K V)}
    (h : ∀ c ∈ nodes, collect c = .ok (c.contents.map Entry.pair)) :
    collectSlots (nodes.map .node) 0 =
      .ok ((nodes.flatMap Node.contents).map Entry.pair) := by
  induction nodes with
  | nil => rfl
  | cons c nodes ih =>
    rw [map_cons, collectSlots, collectNode, h c mem_cons_self,
      ih fun c' hc' ↦ h c' (mem_cons_of_mem c hc'), flatMap_cons, map_append]
    rfl

theorem collectSlots_entries (entries : List (Entry K V)) {rest : List (Slot K V)}
    {pairs : List (K × V)} (h : collectSlots rest 0 = .ok pairs) :
    collectSlots (entries.map .entry ++ rest) entries.length =
      .ok (entries.map Entry.pair ++ pairs) := by
  induction entries with
  | nil => exact h
  | cons e entries ih =>
    rw [map_cons, cons_append, length_cons, collectSlots, ih]
    rfl

/-- `collect` gives the contents. -/
theorem Shape.collect_eq {node : Node K V} (h : Shape n node) :
    collect node = .ok (node.contents.map Entry.pair) := by
  induction h with
  | collision _ _ _ =>
    rw [Node.contents, map_map]
    exact congrArg Except.ok (map_id' _).symm
  | data _ layout _ _ ih =>
    rw [collect, layout.contents_eq, layout.slots, countOnes_eq layout.data, map_append]
    apply collectSlots_entries
    apply collectSlots_nodes
    intro c hc
    obtain ⟨i, hi, hν⟩ := mem_pack.mp (mem_reverse.mp hc)
    exact ih i hi c hν

end Hara.Champ
