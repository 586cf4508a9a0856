import Hara.Champ.Assoc

/-!
# Removing a key

`without_present` takes a pair out of the contents and keeps the shape, except that below the root
a node may be left with a single pair. Such a node is always of one form, with the bit of the
removed key at the root as its data bitmap, whatever the level: the parent either lifts the pair
into its own data region or, having nothing else, becomes that node itself. At the root the bit is
the right one, because the pair that is left agrees with the removed key in the first chunk.
-/

namespace Hara.Champ

open Hara.Lib Bitmap Packed Keyed List

variable {K V : Type} {c : Node K V} {n : ℕ}

/-! ## What is left of a node -/

/-- A node at level `n` from which a key with hash `h` was removed. -/
inductive Left (n : ℕ) (h : Hash) : Node K V → Prop
  | kept {node : Node K V} (shape : Shape n node) (two : n ≠ 0 → 2 ≤ node.contents.length) :
      Left n h node
  | single (below : n ≠ 0) (e : Entry K V) : Left n h (.data (single 32 (chunk 0 h)) 0 [.entry e])

namespace Layout

variable {datamap nodemap : BitVec 32} {slots : List (Slot K V)}
  {d : ℕ → Option (Entry K V)} {ν : ℕ → Option (Node K V)} {i : ℕ}

section

variable (h : Layout datamap nodemap slots d ν)

include h

theorem length_contents (hi : i < 32) :
    (Node.data datamap nodemap slots).contents.length =
      (here (d i) (ν i)).length + (others i d ν).length := by
  rw [(h.contents_perm hi).length_eq, length_append]

/-- A node with one sub-node and no entries has nothing else. -/
theorem others_eq_nil (hi : i < 32) (hc : ν i = some c) (hdata : datamap = 0)
    (hnode : countOnes nodemap = 1) : others i d ν = [] := by
  have hd := (eq_zero_iff h.data).mp hdata
  rw [pack_eq hi, append_eq_nil_iff, append_eq_nil_iff] at hd
  have hν := countOnes_eq h.node
  rw [pack_eq hi, hc, length_append, length_append, Option.toList_some, length_singleton] at hν
  have hbelow : pack i ν = [] := eq_nil_of_length_eq_zero (by omega)
  have habove : above i 32 ν = [] := eq_nil_of_length_eq_zero (by omega)
  rw [others, hd.1, hd.2.2, hbelow, habove]
  rfl

/-- And only such a node. -/
theorem others_ne_nil (hp : Placed n d ν) (hi : i < 32) (hc : ν i = some c)
    (hmore : ¬ (datamap = 0 ∧ countOnes nodemap = 1)) : others i d ν ≠ [] := by
  intro hnil
  have hdi := h.data_none hi hc
  rw [others, append_eq_nil_iff, append_eq_nil_iff, flatMap_eq_nil_iff] at hnil
  obtain ⟨⟨hbelow, habove⟩, hnodes⟩ := hnil
  -- a sub-node elsewhere would have contents
  have hempty : ∀ c' ∈ pack i ν ++ above i 32 ν, False := by
    intro c' hc'
    obtain ⟨j, hj, -, hν⟩ := (mem_around hi).mp hc'
    have htwo := hp.two j hj c' hν
    rw [hnodes c' hc'] at htwo
    exact absurd htwo (Nat.not_succ_le_zero 1)
  have hnil' := eq_nil_iff_forall_not_mem.mpr hempty
  rw [append_eq_nil_iff] at hnil'
  apply hmore
  constructor
  · rw [eq_zero_iff h.data, pack_eq hi, hbelow, habove, hdi]
    rfl
  · rw [countOnes_eq h.node, pack_eq hi, hnil'.1, hnil'.2, hc]
    rfl

/-- With two entries and no sub-nodes, one entry is left. -/
theorem exists_other (hi : i < 32) {e : Entry K V} (he : d i = some e)
    (htwo : countOnes datamap = 2) (hnone : nodemap = 0) :
    ∃ e', slots[if index datamap (Bitmap.single 32 i) = 0 then 1 else 0]? = some (.entry e') ∧
      slots.eraseIdx (index datamap (Bitmap.single 32 i)) = [.entry e'] ∧ others i d ν = [e'] := by
  have hν := (eq_zero_iff h.node).mp hnone
  have hν' := hν
  rw [pack_eq hi, append_eq_nil_iff, append_eq_nil_iff] at hν'
  have hlength := countOnes_eq h.data
  rw [pack_eq hi, he, length_append, length_append, Option.toList_some, length_singleton] at hlength
  have hslots : slots = ((pack i d ++ ([e] ++ above i 32 d)).map Slot.entry) := by
    rw [h.slots, hν, reverse_nil, map_nil, append_nil, pack_eq hi, he]
    rfl
  rw [index_eq h.data hi, hslots, others, hν'.1, hν'.2.2]
  -- the other entry is below `i` or above it
  rcases hbelow : pack i d with _ | ⟨e', rest⟩
  · rcases habove : above i 32 d with _ | ⟨e', rest⟩
    · rw [hbelow, habove] at hlength
      omega
    · have hrest : rest = [] := by
        rw [habove, length_cons] at hlength
        exact eq_nil_of_length_eq_zero (by omega)
      subst hrest
      exact ⟨e', rfl, rfl, rfl⟩
  · have hrest : rest = [] ∧ above i 32 d = [] := by
      rw [hbelow, length_cons] at hlength
      exact ⟨eq_nil_of_length_eq_zero (by omega), eq_nil_of_length_eq_zero (by omega)⟩
    rw [hrest.1, hrest.2]
    exact ⟨e', rfl, rfl, rfl⟩

end

end Layout

/-! ## The descent -/

variable [BEq K] {h : Hash}

theorem withoutAt_middle (shift : ℕ) (k : K) {front back : List (Slot K V)} {c' : Node K V}
    (hc : withoutPresent (shift + 5) h k c = .ok c') :
    withoutAt shift h k (front ++ .node c :: back) front.length =
      .ok (front ++ .node c' :: back, c') := by
  induction front with
  | nil =>
    rw [nil_append, length_nil, withoutAt, withoutSlot, hc]
    rfl
  | cons slot front ih =>
    rw [cons_append, length_cons, withoutAt, ih]
    rfl

variable [EquivBEq K] {hash : K → Hash} {entries : List (K × V)} {k : K}

/-- What removing a key does to a node at level `n`. -/
def WithoutSpec (n : ℕ) (h : Hash) (k : K) (node : Node K V) : Prop :=
  ∃ node', withoutPresent (5 * n) h k node = .ok node' ∧ Left n h node' ∧
    Removed Entry.key k node.contents node'.contents

omit [EquivBEq K] in
/-- Of two pairs with one hash, the other becomes a node of its own. -/
theorem withoutPresent_two {shift : ℕ} {q : K × V} (hlength : entries.length = 2)
    (hfind : entries.find? (fun p ↦ !(p.1 == k)) = some q) :
    withoutPresent shift h k (.collision h entries) =
      .ok (.data (single 32 (chunk 0 h)) 0 [.entry ⟨h, q.1, q.2⟩]) := by
  have hbit : bit h 0 = .ok (single 32 (chunk 0 h)) := bit_level (n := 0) (by decide)
  rw [withoutPresent, if_neg (not_not.mpr rfl), if_neg (by omega), if_pos hlength, hfind, hbit]
  rfl

theorem withoutPresent_collision (hash_eq : Respects hash) (hseven : 7 ≤ n) (hn : n ≤ 13)
    (htwo : 2 ≤ entries.length) (hd : Distinct Entry.key (Node.collision h entries).contents)
    (hh : Hashed hash (Node.collision h entries).contents)
    (hk : ∃ x ∈ (Node.collision h entries).contents, (x.key == k) = true) :
    WithoutSpec n (hash k) k (.collision h entries) := by
  obtain ⟨x, hx, hkey⟩ := hk
  obtain ⟨p, hp, rfl⟩ := mem_map.mp hx
  obtain rfl : h = hash k := (hh _ hx).trans (hash_eq _ _ hkey)
  by_cases hlength : entries.length = 2
  · obtain ⟨a, b, rfl⟩ := length_eq_two.mp hlength
    have hba : (b.1 == a.1) = false :=
      (distinct_cons.mp hd).1 ⟨hash k, b.1, b.2⟩ (mem_map_of_mem (mem_singleton_self b))
    by_cases ha : (a.1 == k) = true
    · have hb : (b.1 == k) = false := by
        rw [← BEq.congr_right ha]
        exact hba
      refine ⟨_, withoutPresent_two rfl (q := b) ?_, .single (by omega) _, ?_⟩
      · simp [ha, hb]
      · exact ⟨⟨hash k, a.1, a.2⟩, ha, List.Perm.refl _⟩
    · rw [Bool.not_eq_true] at ha
      have hb : (b.1 == k) = true := by
        rcases mem_cons.mp hp with rfl | hp
        · rw [ha] at hkey
          exact absurd hkey Bool.false_ne_true
        · rw [mem_singleton.mp hp] at hkey
          exact hkey
      refine ⟨_, withoutPresent_two rfl (q := a) ?_, .single (by omega) _, ?_⟩
      · simp [ha]
      · exact ⟨⟨hash k, b.1, b.2⟩, hb, List.Perm.swap _ _ _⟩
  · cases hfind : entries.findIdx? (fun p ↦ p.1 == k) with
    | none =>
      rw [findIdx?_eq_none_iff.mp hfind p hp] at hkey
      exact absurd hkey Bool.false_ne_true
    | some i =>
      obtain ⟨front, q, back, rfl, hi, hq⟩ := exists_of_findIdx? hfind
      rw [length_append, length_cons] at htwo hlength
      have htwo' : 2 ≤ (front ++ back).length := by
        rw [length_append]
        omega
      refine ⟨.collision (hash k) (front ++ back), ?_, .kept (.collision hseven hn htwo') ?_, ?_⟩
      · rw [withoutPresent, if_neg (not_not.mpr rfl),
          if_neg (by rw [length_append, length_cons]; omega),
          if_neg (by rw [length_append, length_cons]; exact hlength), hfind, ← hi]
        dsimp only
        rw [eraseIdx_middle]
      · intro _
        rw [length_contents_collision]
        exact htwo'
      · rw [Node.contents, Node.contents, map_append, map_append]
        exact ⟨⟨hash k, q.1, q.2⟩, hq, perm_middle⟩

section Data

variable {datamap nodemap : BitVec 32} {slots : List (Slot K V)} {d : ℕ → Option (Entry K V)}
  {ν : ℕ → Option (Node K V)}

omit [EquivBEq K] in
/-- The key is an entry of the node. -/
theorem withoutPresent_entry (hn : n ≤ 12) (layout : Layout datamap nodemap slots d ν)
    (placed : Placed n d ν) (children : ∀ i < 32, ∀ c, ν i = some c → Shape (n + 1) c)
    {e : Entry K V} (hdi : d (chunk n h) = some e) (hkey : (e.key == k) = true)
    (htwo : n ≠ 0 → 2 ≤ (Node.data datamap nodemap slots).contents.length) :
    WithoutSpec n h k (.data datamap nodemap slots) := by
  have hi := chunk_lt n h
  have hνi := layout.node_none hi hdi
  have hperm := layout.contents_perm hi
  have hlength := layout.length_contents hi
  rw [hdi, hνi, here_entry] at hperm hlength
  rw [WithoutSpec, withoutPresent, bit_level hn]
  dsimp only [bind, Except.bind]
  rw [if_pos (bit_of_some layout.data hi hdi)]
  obtain ⟨slots', hslots', layout'⟩ := layout.erase_data hi hdi
  have placed' : Placed n (Function.update d (chunk n h) none) ν := placed.erase_data
  have hperm' := layout'.contents_perm hi
  rw [Function.update_self, hνi, here_none, nil_append, others_update_data] at hperm'
  by_cases hcollapse : countOnes datamap = 2 ∧ nodemap = 0
  · -- one entry is left: at the root it stays where it is
    rw [if_pos hcollapse]
    obtain ⟨e', hget, herase, hothers⟩ := layout.exists_other hi hdi hcollapse.1 hcollapse.2
    rw [hothers] at hperm
    by_cases hzero : n = 0
    · subst hzero
      rw [removeAt] at hslots'
      split_ifs at hslots'
      rw [herase] at hslots'
      obtain rfl := Except.ok.inj hslots'
      rw [hget]
      rw [hcollapse.2] at layout'
      refine ⟨_, rfl, .kept (.data hn layout' placed' children) (absurd rfl), ?_⟩
      exact ⟨e, hkey, hperm⟩
    · have hbit : bit h 0 = .ok (single 32 (chunk 0 h)) := bit_level (n := 0) (by decide)
      rw [rebase, if_neg (by omega), hbit, hget]
      refine ⟨_, rfl, .single hzero e', ?_⟩
      exact ⟨e, hkey, hperm⟩
  · rw [if_neg hcollapse, hslots']
    refine ⟨_, rfl, .kept (.data hn layout' placed' children) ?_, e, hkey,
      hperm.trans (hperm'.symm.cons e)⟩
    intro hzero
    rw [hperm'.length_eq]
    rw [length_singleton] at hlength
    by_cases hnode : nodemap = 0
    · -- without sub-nodes there were at least three entries
      have hcount : countOnes datamap = (Node.data datamap nodemap slots).contents.length := by
        rw [countOnes_eq layout.data, layout.contents_eq, (eq_zero_iff layout.node).mp hnode,
          reverse_nil, flatMap_nil, append_nil]
      have hne : countOnes datamap ≠ 2 := fun heq ↦ hcollapse ⟨heq, hnode⟩
      omega
    · -- a sub-node has two
      have hpack : pack 32 ν ≠ [] := mt (eq_zero_iff layout.node).mpr hnode
      obtain ⟨c, hc⟩ := exists_mem_of_ne_nil _ hpack
      obtain ⟨j, hj, hνj⟩ := mem_pack.mp hc
      have hji : j ≠ chunk n h := by
        rintro rfl
        rw [hνi] at hνj
        exact absurd hνj (by simp)
      have hmem := (mem_around hi).mpr ⟨j, hj, hji, hνj⟩
      have hsub : c.contents.length ≤ (others (chunk n h) d ν).length := by
        obtain ⟨front, back, hsplit⟩ := append_of_mem hmem
        rw [others, hsplit, flatMap_append, flatMap_cons]
        simp only [length_append]
        omega
      exact (placed.two j hj c hνj).trans hsub

omit [EquivBEq K] in
/-- The key is in a sub-node, and that has been treated. -/
theorem withoutPresent_child (hn : n ≤ 12) (layout : Layout datamap nodemap slots d ν)
    (placed : Placed n d ν) (children : ∀ i < 32, ∀ c, ν i = some c → Shape (n + 1) c)
    (hνi : ν (chunk n h) = some c) (hc : WithoutSpec (n + 1) h k c) :
    WithoutSpec n h k (.data datamap nodemap slots) := by
  have hi := chunk_lt n h
  have hdi := layout.data_none hi hνi
  have hperm := layout.contents_perm hi
  rw [hdi, hνi, here_node] at hperm
  obtain ⟨c', hwithout, hleft, hremoved⟩ := hc
  obtain ⟨front, back, hslots, hslot, hlayout⟩ := layout.exists_node hi hνi
  rw [WithoutSpec, withoutPresent, bit_level hn]
  dsimp only [bind, Except.bind]
  rw [if_neg (bit_of_none layout.data hi hdi),
    if_neg (bit_of_some layout.node hi hνi), hslot, hslots,
    withoutAt_middle (5 * n) k hwithout, ← hslots]
  dsimp only
  have hchunk : ∀ e ∈ c'.contents, chunk n e.hash = chunk n h :=
    fun e he ↦ placed.child _ hi c hνi e (hremoved.mem he)
  cases hleft with
  | @kept c' shape two =>
    have htwo' := two (Nat.succ_ne_zero n)
    rw [replaceChild, if_pos (shape.isSingle_eq_false htwo')]
    have hperm' := (hlayout c').contents_perm hi
    rw [hdi, Function.update_self, here_node, others_update_node] at hperm'
    refine ⟨_, rfl, .kept (.data hn (hlayout c') (placed.update_node hchunk htwo')
      (forall_update children shape)) ?_, hremoved.append hperm hperm'⟩
    intro _
    rw [hperm'.length_eq, length_append]
    omega
  | single _ e =>
    have he := hchunk e mem_cons_self
    have hsingle :
        ¬ (Node.data (single 32 (chunk 0 h)) 0 [.entry e] : Node K V).isSingle = false := by
      simp [Node.isSingle, countOnes_single (chunk_lt 0 h)]
    rw [replaceChild, if_neg hsingle]
    by_cases honly : datamap = 0 ∧ countOnes nodemap = 1
    · -- the node becomes its sub-node
      rw [if_pos honly]
      rw [layout.others_eq_nil hi hνi honly.1 honly.2, append_nil] at hperm
      refine ⟨_, rfl, ?_, ?_⟩
      · by_cases hzero : n = 0
        · subst hzero
          rw [← he]
          exact .kept (Shape.lone hn e) (absurd rfl)
        · exact .single hzero e
      · obtain ⟨x, hx, hxperm⟩ := hremoved
        exact ⟨x, hx, hperm.trans hxperm⟩
    · -- the pair is lifted into the node
      rw [if_neg honly]
      obtain ⟨slots₁, hslots₁, layout₁⟩ := (hlayout (.data (single 32 (chunk 0 h)) 0
        [.entry e])).erase_node hi (Function.update_self _ _ _)
      rw [Function.update_idem] at layout₁
      obtain ⟨slots₂, hslots₂, layout₂⟩ := layout₁.insert_data hi hdi (Function.update_self _ _ _) e
      rw [soleEntry, hslots₁, index_or_single hi]
      dsimp only [bind, Except.bind]
      rw [hslots₂]
      have hperm' := layout₂.contents_perm hi
      rw [Function.update_self, Function.update_self, here_entry, others_update_data,
        others_update_node] at hperm'
      refine ⟨_, rfl, .kept (.data hn layout₂ (placed.erase_node.update_data he)
        (forall_erase children)) ?_, hremoved.append hperm hperm'⟩
      intro _
      have hpos := length_pos_iff.mpr (layout.others_ne_nil placed hi hνi honly)
      rw [hperm'.length_eq, length_append, length_singleton]
      omega

end Data

/-- `without_present` takes the key out. -/
theorem Shape.withoutPresent_spec (hash_eq : Respects hash) {node : Node K V} (h : Shape n node)
    (hd : Distinct Entry.key node.contents) (hh : Hashed hash node.contents)
    (hk : ∃ x ∈ node.contents, (x.key == k) = true) (htwo : n ≠ 0 → 2 ≤ node.contents.length) :
    WithoutSpec n (hash k) k node := by
  induction h with
  | collision hseven hn hentries =>
    exact withoutPresent_collision hash_eq hseven hn hentries hd hh hk
  | @data n datamap nodemap slots d ν hn layout placed children ih =>
    have hi := chunk_lt n (hash k)
    have hperm := layout.contents_perm hi
    have hd' := hd.perm hperm
    have hh' := hh.perm hperm
    have habsent := placed.absent_others hash_eq hh'.append_right
    obtain ⟨x, hx, hkey⟩ := hk
    -- the key is at its position
    have hhere : x ∈ here (d (chunk n (hash k))) (ν (chunk n (hash k))) := by
      rcases mem_append.mp (hperm.mem_iff.mp hx) with hmem | hmem
      · exact hmem
      · rw [habsent x hmem] at hkey
        exact absurd hkey Bool.false_ne_true
    cases hdi : d (chunk n (hash k)) with
    | some e =>
      rw [hdi, layout.node_none hi hdi, here_entry, mem_singleton] at hhere
      subst hhere
      exact withoutPresent_entry hn layout placed children hdi hkey htwo
    | none =>
      cases hνi : ν (chunk n (hash k)) with
      | none =>
        rw [hdi, hνi] at hhere
        exact absurd hhere not_mem_nil
      | some c =>
        rw [hdi, hνi, here_node] at hhere hd' hh'
        exact withoutPresent_child hn layout placed children hνi
          (ih _ hi c hνi hd'.append_left hh'.append_left ⟨x, hhere, hkey⟩
            fun _ ↦ placed.two _ hi c hνi)

end Hara.Champ
