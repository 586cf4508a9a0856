import Hara.Champ.Find

/-!
# Adding a key

`assoc_node` puts a pair into the contents and keeps the shape: `assocNode_spec`. The keys below a
node at level `n` agree with the new key in what the first `n` levels have seen, which is why two
keys that meet at a position can be told apart further down, or have the same hash.

A replaced pair in a data node gets the new key, one in a collision node keeps the old one. Nothing
but the equality of keys can tell, and the statement leaves it open.
-/

namespace Hara.Champ

open Hara.Lib Bitmap Packed Keyed List

variable {K V : Type}

/-! ## Small nodes -/

variable {n : ℕ} {c : Node K V}

/-- A node with one sub-node and nothing else. -/
theorem Shape.chain {i : ℕ} {l : List (Entry K V)} (hn : n ≤ 12) (hi : i < 32)
    (hc : Shape (n + 1) c) (hperm : c.contents.Perm l) (htwo : 2 ≤ l.length)
    (hchunk : ∀ e ∈ l, chunk n e.hash = i) :
    Shape n (.data 0 (single 32 i) [.node c]) ∧
      (Node.data 0 (single 32 i) [.node c]).contents.Perm l := by
  have hlayout : Layout 0 (single 32 i) [.node c] (fun _ ↦ (none : Option (Entry K V)))
      (Function.update (fun _ ↦ none) i (some c)) :=
    { data := fun j _ ↦ by simp
      node := getLsbD_single_update hi c
      disjoint := fun _ _ ↦ .inl rfl
      slots := by rw [pack_none, pack_single hi]; rfl }
  have hplaced := (Placed.none n).update_node (i := i) (c := c)
    (fun e he ↦ hchunk e (hperm.mem_iff.mp he)) (hperm.length_eq ▸ htwo)
  refine ⟨.data hn hlayout hplaced (forall_update nofun hc), ?_⟩
  rw [Node.contents, slotContents_eq, flatMap_cons, flatMap_nil, append_nil, Slot.contents]
  exact hperm

variable {a b : Entry K V}

/-- A node with two entries. -/
theorem Shape.pair (hn : n ≤ 12) (hlt : chunk n a.hash < chunk n b.hash) :
    Shape n (.data (single 32 (chunk n a.hash) ||| single 32 (chunk n b.hash)) 0
      [.entry a, .entry b]) := by
  have ha := chunk_lt n a.hash
  have hb := chunk_lt n b.hash
  have hlayout : Layout (single 32 (chunk n a.hash) ||| single 32 (chunk n b.hash)) 0
      [.entry a, .entry b]
      (Function.update (Function.update (fun _ ↦ none) (chunk n a.hash) (some a))
        (chunk n b.hash) (some b)) (fun _ ↦ (none : Option (Node K V))) :=
    { data := getLsbD_or_update (getLsbD_single_update ha a) hb b
      node := fun j _ ↦ by simp
      disjoint := fun _ _ ↦ .inr rfl
      slots := by rw [pack_none, pack_pair hlt hb]; rfl }
  exact .data hn hlayout (((Placed.none n).update_data rfl).update_data rfl) nofun

variable {e : Entry K V} {levels : ℕ}

/-- A node with an entry and a sub-node. -/
theorem Shape.fork {i : ℕ} (hn : n ≤ 12) (hi : i < 32) (hne : chunk n e.hash ≠ i)
    (hc : Shape (n + 1) c) (htwo : 2 ≤ c.contents.length)
    (hchunk : ∀ x ∈ c.contents, chunk n x.hash = i) :
    Shape n (.data (single 32 (chunk n e.hash)) (single 32 i) [.entry e, .node c]) := by
  have he := chunk_lt n e.hash
  have hlayout : Layout (single 32 (chunk n e.hash)) (single 32 i) [.entry e, .node c]
      (Function.update (fun _ ↦ none) (chunk n e.hash) (some e))
      (Function.update (fun _ ↦ none) i (some c)) :=
    { data := getLsbD_single_update he e
      node := getLsbD_single_update hi c
      disjoint := by
        intro j _
        by_cases hji : j = i
        · exact .inl (Function.update_of_ne (by omega) _ _)
        · exact .inr (Function.update_of_ne hji _ _)
      slots := by rw [pack_single he, pack_single hi]; rfl }
  exact .data hn hlayout (((Placed.none n).update_data rfl).update_node hchunk htwo)
    (forall_update nofun hc)

theorem contents_fork (b b' : BitVec 32) :
    (Node.data b b' [.entry e, .node c]).contents = e :: c.contents := by
  rw [Node.contents, slotContents_eq, flatMap_cons, flatMap_cons, flatMap_nil, append_nil,
    Slot.contents, Slot.contents, singleton_append]

/-! ## Merging -/

theorem mergeTwoFrom_collision (hlow : 7 ≤ n) (hn : n ≤ 13) (hhash : a.hash = b.hash) :
    ∃ node, mergeTwoFrom levels (5 * n) a b = .ok node ∧ Shape n node ∧
      node.contents.Perm [a, b] := by
  refine ⟨.collision a.hash [(a.key, a.value), (b.key, b.value)], ?_,
    .collision hlow hn (Nat.le_refl 2), ?_⟩
  · rw [mergeTwoFrom.eq_def, if_pos ⟨by omega, hhash⟩]
  · rw [Node.contents, map_cons, map_cons, map_nil]
    rw [show (⟨a.hash, b.key, b.value⟩ : Entry K V) = b by rw [hhash]]

/-- Two entries that agree below level `n` get a node of their own there. -/
theorem mergeTwoFrom_spec (hn : n ≤ 13) (hlevels : 13 ≤ n + levels)
    (hlow : low n a.hash = low n b.hash) :
    ∃ node, mergeTwoFrom levels (5 * n) a b = .ok node ∧ Shape n node ∧
      node.contents.Perm [a, b] := by
  -- each call sees one more level, and different hashes differ before level 13
  induction levels generalizing n with
  | zero => exact mergeTwoFrom_collision (by omega) hn (eq_of_low (by omega) hlow)
  | succ levels ih =>
    by_cases hcollision : 32 < 5 * n ∧ a.hash = b.hash
    · exact mergeTwoFrom_collision (by omega) hn hcollision.2
    · have hn' : n ≤ 12 := by
        by_contra hgt
        exact hcollision ⟨by omega, eq_of_low (by omega) hlow⟩
      rw [mergeTwoFrom, if_neg hcollision, mask_level hn', mask_level hn']
      dsimp only [bind, Except.bind]
      by_cases hchunk : chunk n a.hash = chunk n b.hash
      · obtain ⟨child, hchild, hshape, hperm⟩ := ih (n := n + 1) (by omega) (by omega)
          (low_succ_eq_iff.mpr ⟨hlow, hchunk⟩)
        rw [if_pos (by rw [hchunk]), show 5 * n + 5 = 5 * (n + 1) by omega, hchild]
        refine ⟨_, rfl, Shape.chain hn' (chunk_lt n _) hshape hperm (Nat.le_refl 2) ?_⟩
        simp [hchunk]
      · rw [if_neg fun heq ↦ hchunk (single_injective (chunk_lt n _) (chunk_lt n _) heq)]
        by_cases hlt : chunk n a.hash < chunk n b.hash
        · rw [if_pos hlt]
          exact ⟨_, rfl, Shape.pair hn' hlt, List.Perm.refl _⟩
        · rw [if_neg hlt, BitVec.or_comm]
          exact ⟨_, rfl, Shape.pair hn' (by omega), List.Perm.swap _ _ _⟩

variable {h : Hash} {entries : List (K × V)}

/-- A collision node and an entry with another hash get a node at the level where the hashes
differ. -/
theorem mergeNodeFrom_spec (hseven : 7 ≤ n) (hn : n ≤ 13) (hlevels : 13 ≤ n + levels)
    (htwo : 2 ≤ entries.length) (hlow : low n h = low n e.hash) (hne : h ≠ e.hash) :
    ∃ node, mergeNodeFrom levels (5 * n) h (.collision h entries) e = .ok node ∧ Shape n node ∧
      node.contents.Perm (e :: (Node.collision h entries).contents) := by
  induction levels generalizing n with
  | zero => exact absurd (eq_of_low (by omega) hlow) hne
  | succ levels ih =>
    have hn' : n ≤ 12 := by
      by_contra hgt
      exact hne (eq_of_low (by omega) hlow)
    have hcontents : ∀ x ∈ (Node.collision h entries).contents, x.hash = h := by
      intro x hx
      obtain ⟨p, _, rfl⟩ := mem_map.mp hx
      rfl
    have hlength : 2 ≤ (Node.collision h entries).contents.length := by
      rw [length_contents_collision]
      exact htwo
    rw [mergeNodeFrom, bit_level hn', bit_level hn']
    dsimp only [bind, Except.bind]
    by_cases hchunk : chunk n h = chunk n e.hash
    · obtain ⟨child, hchild, hshape, hperm⟩ := ih (n := n + 1) (by omega) (by omega) (by omega)
        (low_succ_eq_iff.mpr ⟨hlow, hchunk⟩)
      rw [if_pos (by rw [hchunk]), show 5 * n + 5 = 5 * (n + 1) by omega, hchild]
      refine ⟨_, rfl, Shape.chain hn' (chunk_lt n _) hshape hperm (Nat.le_succ_of_le hlength) ?_⟩
      refine forall_mem_cons.mpr ⟨hchunk.symm, fun x hx ↦ ?_⟩
      rw [hcontents x hx]
    · rw [if_neg fun heq ↦ hchunk (single_injective (chunk_lt n _) (chunk_lt n _) heq)]
      refine ⟨_, rfl, Shape.fork hn' (chunk_lt n h) (Ne.symm hchunk)
        (.collision (by omega) (by omega) htwo) hlength ?_, ?_⟩
      · intro x hx
        rw [hcontents x hx]
      · rw [contents_fork]

/-! ## The descent -/

variable [BEq K]

/-- The entries have the same hash and value, and equal keys. -/
structure Entry.Same (a b : Entry K V) : Prop where
  hash : a.hash = b.hash
  value : a.value = b.value
  key : (a.key == b.key) = true

theorem assocAt_middle (shift : ℕ) {front back : List (Slot K V)} {c' : Node K V} {added : Bool}
    (h : assocNode (shift + 5) e c = .ok (c', added)) :
    assocAt shift e (front ++ .node c :: back) front.length =
      .ok (front ++ .node c' :: back, added) := by
  induction front with
  | nil =>
    rw [nil_append, length_nil, assocAt, assocSlot, h]
    rfl
  | cons slot front ih =>
    rw [cons_append, length_cons, assocAt, ih]
    rfl

variable [EquivBEq K] {hash : K → Hash}

/-- What adding a key does to a node at level `n`. -/
def AssocSpec (n : ℕ) (e : Entry K V) (node : Node K V) : Prop :=
  ∃ node' added e', assocNode (5 * n) e node = .ok (node', added) ∧ Shape n node' ∧
    e'.Same e ∧ Inserted Entry.key e.key node.contents e' node'.contents added

omit [EquivBEq K] in
theorem Entry.Same.refl [ReflBEq K] (e : Entry K V) : e.Same e := ⟨rfl, rfl, BEq.rfl⟩

theorem assocNode_collision (hash_eq : Respects hash) (hseven : 7 ≤ n) (hn : n ≤ 13)
    (htwo : 2 ≤ entries.length) (hh : Hashed hash (Node.collision h entries).contents)
    (he : e.hash = hash e.key)
    (hlow : ∀ x ∈ (Node.collision h entries).contents, low n x.hash = low n e.hash) :
    AssocSpec n e (.collision h entries) := by
  by_cases heq : h = e.hash
  · cases hfind : entries.findIdx? (fun p ↦ p.1 == e.key) with
    | some i =>
      obtain ⟨front, p, back, rfl, hlength, hp⟩ := exists_of_findIdx? hfind
      refine ⟨.collision h (front ++ (p.1, e.value) :: back), false, ⟨h, p.1, e.value⟩, ?_,
        .collision hseven hn (by simpa using htwo), ⟨heq, rfl, hp⟩, ?_⟩
      · rw [assocNode, if_pos heq, hfind, ← hlength]
        dsimp only
        rw [modify_middle]
      · rw [Node.contents, Node.contents, map_append, map_append]
        exact .replaced perm_middle hp perm_middle
    | none =>
      refine ⟨.collision h (entries ++ [(e.key, e.value)]), true, e, ?_,
        .collision hseven hn (by simp; omega), .refl e, .added ?_ ?_⟩
      · rw [assocNode, if_pos heq, hfind]
      · intro x hx
        obtain ⟨p, hp, rfl⟩ := mem_map.mp hx
        exact findIdx?_eq_none_iff.mp hfind p hp
      · rw [Node.contents, map_append, map_cons]
        rw [show (⟨h, e.key, e.value⟩ : Entry K V) = e by rw [heq]]
        exact perm_append_singleton e _
  · -- all entries of the node have its hash, so the new key is not among them
    obtain ⟨p, rest, rfl⟩ : ∃ p rest, entries = p :: rest := by
      cases entries with
      | nil => exact absurd htwo (Nat.not_succ_le_zero 1)
      | cons p rest => exact ⟨p, rest, rfl⟩
    have hlow' : low n h = low n e.hash := hlow ⟨h, p.1, p.2⟩ (mem_map_of_mem mem_cons_self)
    obtain ⟨node, hmerge, hshape, hperm⟩ :=
      mergeNodeFrom_spec hseven hn (show 13 ≤ n + (64 - 5 * n) by omega) htwo hlow' heq
    refine ⟨node, true, e, ?_, hshape, .refl e, .added ?_ hperm⟩
    · rw [assocNode, if_neg heq, mergeNode, hmerge]
      rfl
    · intro x hx
      apply beq_eq_false hash_eq (hh x hx)
      obtain ⟨p', _, rfl⟩ := mem_map.mp hx
      rw [← he]
      exact heq

/-- `assoc_node` puts the entry in and keeps the shape. -/
theorem Shape.assocNode_spec (hash_eq : Respects hash) {node : Node K V} (h : Shape n node)
    (hh : Hashed hash node.contents) (he : e.hash = hash e.key)
    (hlow : ∀ x ∈ node.contents, low n x.hash = low n e.hash) : AssocSpec n e node := by
  induction h with
  | collision hseven hn htwo => exact assocNode_collision hash_eq hseven hn htwo hh he hlow
  | @data n datamap nodemap slots d ν hn layout placed children ih =>
    have hi := chunk_lt n e.hash
    have hperm := layout.contents_perm hi
    have hh' := hh.perm hperm
    have habsent : Absent Entry.key e.key (others (chunk n e.hash) d ν) := by
      rw [he] at hh' ⊢
      exact placed.absent_others hash_eq hh'.append_right
    rw [AssocSpec, assocNode, bit_level hn]
    dsimp only [bind, Except.bind]
    cases hdi : d (chunk n e.hash) with
    | some old =>
      have hνi := layout.node_none hi hdi
      rw [hdi, hνi] at hperm
      have hold : old ∈ (Node.data datamap nodemap slots).contents :=
        hperm.mem_iff.mpr (mem_append_left _ mem_cons_self)
      rw [if_pos (bit_of_some layout.data hi hdi), layout.get_data hi hdi]
      dsimp only
      by_cases hkey : (old.key == e.key) = true
      · -- the entry is replaced
        rw [if_pos hkey]
        have hlayout := layout.set_data hi hdi e
        refine ⟨_, _, e, rfl, .data hn hlayout (placed.update_data rfl) children, .refl e, ?_⟩
        have hperm' := hlayout.contents_perm hi
        rw [Function.update_self, hνi, others_update_data] at hperm'
        exact .append (.replaced (List.Perm.refl [old]) hkey (List.Perm.refl [e])) habsent hperm
          hperm'
      · -- the two entries go one level down together
        rw [if_neg hkey]
        obtain ⟨merged, hmerge, hshape, hmerged⟩ := mergeTwoFrom_spec (by omega)
          (show 13 ≤ n + 1 + (64 - 5 * (n + 1)) by omega)
          (low_succ_eq_iff.mpr ⟨hlow old hold, placed.entry _ hi old hdi⟩)
        obtain ⟨slots₁, hslots₁, layout₁⟩ := layout.erase_data hi hdi
        obtain ⟨slots₂, hslots₂, layout₂⟩ := layout₁.insert_node hi (Function.update_self _ _ _) hνi
        rw [show 5 * n + 5 = 5 * (n + 1) by omega, mergeTwo, hmerge, hslots₁]
        dsimp only
        rw [hslots₂]
        refine ⟨_, _, e, rfl, .data hn layout₂ (placed.erase_data.update_node ?_ ?_)
          (forall_update children hshape), .refl e, ?_⟩
        · intro x hx
          rcases mem_cons.mp (hmerged.mem_iff.mp hx) with rfl | hx
          · exact placed.entry _ hi x hdi
          · rw [mem_singleton.mp hx]
        · rw [hmerged.length_eq]
          exact Nat.le_refl 2
        · have hperm' := layout₂.contents_perm hi
          rw [Function.update_self, Function.update_self, here_node, others_update_data,
            others_update_node] at hperm'
          refine .append (.added ?_ (hmerged.trans (List.Perm.swap _ _ _))) habsent hperm hperm'
          intro x hx
          rw [mem_singleton.mp hx]
          exact Bool.eq_false_iff.mpr hkey
    | none =>
      rw [if_neg (bit_of_none layout.data hi hdi)]
      cases hνi : ν (chunk n e.hash) with
      | some c =>
        rw [hdi, hνi, here_node] at hperm hh'
        -- the keys of the sub-node agree with the new one on this level too
        have hlow' : ∀ x ∈ c.contents, low (n + 1) x.hash = low (n + 1) e.hash := by
          intro x hx
          exact low_succ_eq_iff.mpr
            ⟨hlow x (hperm.mem_iff.mpr (mem_append_left _ hx)), placed.child _ hi c hνi x hx⟩
        obtain ⟨c', added, e', hassoc, hshape, hsame, hinserted⟩ :=
          ih _ hi c hνi hh'.append_left hlow'
        obtain ⟨front, back, hslots, hslot, hlayout⟩ := layout.exists_node hi hνi
        rw [if_pos (bit_of_some layout.node hi hνi), hslot, hslots,
          assocAt_middle (5 * n) hassoc]
        refine ⟨_, _, e', rfl, .data hn (hlayout c') (placed.update_node ?_ ?_)
          (forall_update children hshape), hsame, ?_⟩
        · intro x hx
          rcases hinserted.mem hx with rfl | hx
          · rw [hsame.hash]
          · exact placed.child _ hi c hνi x hx
        · have htwo := placed.two _ hi c hνi
          rw [hinserted.length]
          omega
        · have hperm' := (hlayout c').contents_perm hi
          rw [hdi, Function.update_self, here_node, others_update_node] at hperm'
          rw [← hslots]
          exact hinserted.append habsent hperm hperm'
      | none =>
        rw [hdi, hνi] at hperm
        rw [if_neg (bit_of_none layout.node hi hνi)]
        obtain ⟨slots', hslots', layout'⟩ := layout.insert_data hi hdi hνi e
        rw [hslots']
        refine ⟨_, _, e, rfl, .data hn layout' (placed.update_data rfl) children, .refl e, ?_⟩
        have hperm' := layout'.contents_perm hi
        rw [Function.update_self, hνi, others_update_data] at hperm'
        exact .added (habsent.perm hperm.symm) (hperm'.trans (hperm.symm.cons e))

end Hara.Champ
