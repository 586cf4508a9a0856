import Hara.Champ.Shape
import Hara.Lib.Except
import Hara.Lib.Keyed

/-!
# Finding a key

A key can only stand at the position of its hash, so that the descent of `find_node` sees the only
part of each node where the key may be: `findNode_eq` says that it finds what is in the contents.

The assumptions on keys are those of the source: an equality that is an equivalence, and a
placement hash that is equal on equal keys. Different keys may have the same hash.
-/

namespace Hara.Champ

open Hara.Lib Bitmap Packed Keyed

variable {K V : Type} [BEq K] {hash : K → Hash}

/-- The hash is equal on equal keys. -/
def Respects (hash : K → Hash) : Prop := ∀ k k', (k == k') = true → hash k = hash k'

/-- The entries carry the hashes of their keys. -/
def Hashed (hash : K → Hash) (l : List (Entry K V)) : Prop := ∀ e ∈ l, e.hash = hash e.key

omit [BEq K] in
theorem Hashed.perm {l l' : List (Entry K V)} (h : Hashed hash l) (hperm : l.Perm l') :
    Hashed hash l' := fun e he ↦ h e (hperm.mem_iff.mpr he)

omit [BEq K] in
theorem Hashed.append_left {l l' : List (Entry K V)} (h : Hashed hash (l ++ l')) :
    Hashed hash l := fun e he ↦ h e (List.mem_append_left l' he)

omit [BEq K] in
theorem Hashed.append_right {l l' : List (Entry K V)} (h : Hashed hash (l ++ l')) :
    Hashed hash l' := fun e he ↦ h e (List.mem_append_right l he)

variable {k : K} {p : K × V} {h : Hash}

/-- An entry whose hash is another has another key. -/
theorem beq_eq_false (hash_eq : Respects hash) {e : Entry K V} (he : e.hash = hash e.key)
    (hne : e.hash ≠ hash k) : (e.key == k) = false := by
  rw [Bool.eq_false_iff]
  intro hk
  exact hne (he.trans (hash_eq _ _ hk))

/-- A key is not at a position other than its own. -/
theorem Placed.absent_others (hash_eq : Respects hash) {n : ℕ} {d : ℕ → Option (Entry K V)}
    {ν : ℕ → Option (Node K V)} (h : Placed n d ν)
    (hh : Hashed hash (others (chunk n (hash k)) d ν)) :
    Absent Entry.key k (others (chunk n (hash k)) d ν) := by
  intro e he
  apply beq_eq_false hash_eq (hh e he)
  intro heq
  exact h.chunk_ne (chunk_lt n (hash k)) he (by rw [heq])

/-! ## The descent -/

theorem findAt_middle (shift : ℕ) (h : Hash) (k : K) (front back : List (Slot K V)) (c : Node K V) :
    findAt shift h k (front ++ .node c :: back) front.length = findNode (shift + 5) h k c := by
  induction front with
  | nil => rfl
  | cons slot front ih => exact ih

/-! ## Without assumptions -/

omit [BEq K] in
/-- Every slot of a node that can be listed is listed. -/
theorem mem_collectSlots {slots : List (Slot K V)} {arity : ℕ} {pairs : List (K × V)}
    (h : collectSlots slots arity = .ok pairs) :
    (∀ e, Slot.entry e ∈ slots → (e.key, e.value) ∈ pairs) ∧
      ∀ c, Slot.node c ∈ slots → ∃ pairs', collect c = .ok pairs' ∧ pairs' ⊆ pairs := by
  induction slots generalizing arity pairs with
  | nil => exact ⟨nofun, nofun⟩
  | cons slot slots ih =>
    cases arity with
    | zero =>
      rw [collectSlots, Except.bind_eq_ok] at h
      obtain ⟨front, hfront, h⟩ := h
      obtain ⟨rest, hrest, h⟩ := Except.bind_eq_ok.mp h
      obtain rfl : front ++ rest = pairs := Except.ok.inj h
      obtain ⟨hentry, hnode⟩ := ih hrest
      constructor
      · intro e he
        rcases List.mem_cons.mp he with rfl | he
        · cases hfront
        · exact List.mem_append_right front (hentry e he)
      · intro c hc
        rcases List.mem_cons.mp hc with rfl | hc
        · exact ⟨front, hfront, List.subset_append_left front rest⟩
        · obtain ⟨pairs', hpairs', hsub⟩ := hnode c hc
          exact ⟨pairs', hpairs', List.subset_append_of_subset_right front hsub⟩
    | succ arity =>
      rw [collectSlots, Except.bind_eq_ok] at h
      obtain ⟨pair, hpair, h⟩ := h
      obtain ⟨rest, hrest, h⟩ := Except.bind_eq_ok.mp h
      obtain rfl : pair :: rest = pairs := Except.ok.inj h
      obtain ⟨hentry, hnode⟩ := ih hrest
      constructor
      · intro e he
        rcases List.mem_cons.mp he with rfl | he
        · obtain rfl : (e.key, e.value) = pair := Except.ok.inj hpair
          exact List.mem_cons_self
        · exact List.mem_cons_of_mem pair (hentry e he)
      · intro c hc
        rcases List.mem_cons.mp hc with rfl | hc
        · cases hpair
        · obtain ⟨pairs', hpairs', hsub⟩ := hnode c hc
          exact ⟨pairs', hpairs', List.subset_cons_of_subset pair hsub⟩

mutual

/-- What is found is listed, whatever the equality and the hashes are. -/
theorem mem_of_findNode : ∀ (node : Node K V) {shift : ℕ} {pairs : List (K × V)},
    collect node = .ok pairs →
    findNode shift h k node = .ok (some p) → p ∈ pairs ∧ (p.1 == k) = true
  | .collision hash' entries, shift, pairs, hcollect, hfind => by
    obtain rfl : entries = pairs := Except.ok.inj hcollect
    rw [findNode] at hfind
    split at hfind
    · have hsome := Except.ok.inj hfind
      have hkey := List.find?_some hsome
      exact ⟨List.mem_of_find?_eq_some hsome, hkey⟩
    · cases hfind
  | .data datamap nodemap slots, shift, pairs, hcollect, hfind => by
    obtain ⟨hentry, hnode⟩ := mem_collectSlots hcollect
    rw [findNode, Except.bind_eq_ok] at hfind
    obtain ⟨b, -, hfind⟩ := hfind
    split at hfind
    · split at hfind
      · cases hfind
      · rename_i e hslot
        have hsome := Except.ok.inj hfind
        split at hsome
        · cases hsome
          exact ⟨hentry e (List.mem_of_getElem? hslot), ‹_›⟩
        · cases hsome
      · cases hfind
    · split at hfind
      · exact mem_of_findAt slots hnode hfind
      · cases hfind

theorem mem_of_findAt : ∀ (slots : List (Slot K V)) {shift i : ℕ} {pairs : List (K × V)},
    (∀ c, Slot.node c ∈ slots → ∃ pairs', collect c = .ok pairs' ∧ pairs' ⊆ pairs) →
    findAt shift h k slots i = .ok (some p) → p ∈ pairs ∧ (p.1 == k) = true
  | [], _, _, _, _, hfind => by cases hfind
  | slot :: _, _, 0, _, hnode, hfind =>
    mem_of_findSlot slot (fun c hc ↦ hnode c (hc ▸ List.mem_cons_self)) hfind
  | slot :: slots, _, _ + 1, _, hnode, hfind =>
    mem_of_findAt slots (fun c hc ↦ hnode c (List.mem_cons_of_mem slot hc)) hfind

theorem mem_of_findSlot : ∀ (slot : Slot K V) {shift : ℕ} {pairs : List (K × V)},
    (∀ c, Slot.node c = slot → ∃ pairs', collect c = .ok pairs' ∧ pairs' ⊆ pairs) →
    findSlot shift h k slot = .ok (some p) → p ∈ pairs ∧ (p.1 == k) = true
  | .entry _, _, _, _, hfind => by cases hfind
  | .node child, _, _, hnode, hfind => by
    obtain ⟨pairs', hcollect, hsub⟩ := hnode child rfl
    obtain ⟨hmem, hkey⟩ := mem_of_findNode child hcollect hfind
    exact ⟨hsub hmem, hkey⟩

end

mutual

/-- A lookup knows a key only by its hash and by the keys that are equal to it. -/
theorem findNode_congr {k' : K} (hk : ∀ key : K, (key == k) = (key == k')) :
    ∀ (node : Node K V) (shift : ℕ), findNode shift h k node = findNode shift h k' node
  | .collision hash' entries, shift => by
    rw [findNode, findNode]
    simp only [hk]
  | .data datamap nodemap slots, shift => by
    rw [findNode, findNode]
    simp only [hk, findAt_congr hk slots]

theorem findAt_congr {k' : K} (hk : ∀ key : K, (key == k) = (key == k')) :
    ∀ (slots : List (Slot K V)) (shift i : ℕ), findAt shift h k slots i = findAt shift h k' slots i
  | [], _, _ => rfl
  | slot :: _, shift, 0 => findSlot_congr hk slot shift
  | _ :: slots, shift, i + 1 => findAt_congr hk slots shift i

theorem findSlot_congr {k' : K} (hk : ∀ key : K, (key == k) = (key == k')) :
    ∀ (slot : Slot K V) (shift : ℕ), findSlot shift h k slot = findSlot shift h k' slot
  | .entry _, _ => rfl
  | .node child, shift => findNode_congr hk child (shift + 5)

end

variable [EquivBEq K]

theorem Shape.findNode_eq (hash_eq : Respects hash) {n : ℕ} {node : Node K V} (h : Shape n node)
    (hd : Distinct Entry.key node.contents) (hh : Hashed hash node.contents) :
    findNode (5 * n) (hash k) k node =
      .ok ((lookup Entry.key k node.contents).map Entry.pair) := by
  induction h with
  | @collision n hash' entries _ _ _ =>
    rw [findNode]
    by_cases heq : hash' = hash k
    · rw [if_pos heq, Node.contents, lookup, List.find?_map, Option.map_map]
      exact congrArg Except.ok Option.map_id'.symm
    · rw [if_neg heq]
      have habsent : lookup Entry.key k (Node.collision hash' entries).contents = none := by
        apply lookup_eq_none_iff.mpr
        intro e he
        apply beq_eq_false hash_eq (hh e he)
        obtain ⟨p, _, rfl⟩ := List.mem_map.mp he
        exact heq
      rw [habsent]
      rfl
  | @data n datamap nodemap slots d ν hn layout placed children ih =>
    have hi := chunk_lt n (hash k)
    have hperm := layout.contents_perm hi
    have hd' := hd.perm hperm
    have hh' := hh.perm hperm
    -- only what stands at the position of the key matters
    rw [lookup_perm hd hperm,
      lookup_append_of_absent (placed.absent_others hash_eq hh'.append_right), findNode,
      bit_level hn]
    dsimp only [bind, Except.bind]
    cases hdi : d (chunk n (hash k)) with
    | some e =>
      rw [if_pos (bit_of_some layout.data hi hdi), layout.get_data hi hdi,
        layout.node_none hi hdi, here_entry, lookup_cons]
      dsimp only
      cases e.key == k <;> rfl
    | none =>
      rw [if_neg (bit_of_none layout.data hi hdi)]
      cases hνi : ν (chunk n (hash k)) with
      | some c =>
        rw [if_pos (bit_of_some layout.node hi hνi), here_node]
        rw [hdi, hνi, here_node] at hd' hh'
        obtain ⟨front, back, hslots, hslot, _⟩ := layout.exists_node hi hνi
        rw [hslot, hslots, findAt_middle]
        exact ih _ hi c hνi hd'.append_left hh'.append_left
      | none =>
        rw [if_neg (bit_of_none layout.node hi hνi)]
        rfl

end Hara.Champ
