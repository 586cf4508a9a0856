import Hara.Champ.Map

/-!
# The order of iteration

The order in which a map lists its pairs depends on its keys only, not on how it came about, as
long as their hashes are different.

## What the invariant is for

Where two nodes of one level hold the same entries, they hold the same entries at each position. A
single entry is then stored in both nodes itself, and several are in a sub-node of both: a sub-node
with one entry is what `Placed.two` excludes. Collision nodes list their entries by age, and they
are what different hashes exclude.
-/

namespace Hara.Champ

open Hara.Lib Bitmap Packed Keyed
open List

variable {K V : Type} {l : List (Entry K V)}

/-- The items of each list have partners in the other. -/
structure Partners {α β : Type} (R : α → β → Prop) (l : List α) (l' : List β) : Prop where
  left : ∀ a ∈ l, ∃ b ∈ l', R a b
  right : ∀ b ∈ l', ∃ a ∈ l, R a b

/-- No two entries have the same hash. -/
def Spread (l : List (Entry K V)) : Prop := l.Pairwise fun e e' ↦ e.hash ≠ e'.hash

theorem Spread.perm {l' : List (Entry K V)} (h : Spread l) (hperm : l.Perm l') : Spread l' :=
  hperm.pairwise h Ne.symm

theorem Spread.append_left {l' : List (Entry K V)} (h : Spread (l ++ l')) : Spread l :=
  (pairwise_append.mp h).1

/-- Two entries or more do not have one hash. -/
theorem Spread.not_constant (h : Spread l) (htwo : 2 ≤ l.length) (hash : Hash) :
    ¬ ∀ e ∈ l, e.hash = hash := by
  intro hall
  match l, htwo with
  | e :: e' :: l, _ =>
    have hne := rel_of_pairwise_cons h mem_cons_self
    rw [hall e mem_cons_self, hall e' (mem_cons_of_mem _ mem_cons_self)] at hne
    exact hne rfl

/-- A collision node holds entries of one hash. -/
theorem Shape.not_spread_collision {n : ℕ} {hash : Hash} {entries : List (K × V)}
    (h : Shape n (.collision hash entries)) : ¬ Spread (Node.collision hash entries).contents := by
  intro hspread
  cases h with
  | collision _ _ two =>
    refine hspread.not_constant ?_ hash ?_
    · rwa [length_contents_collision]
    · intro e he
      rw [Node.contents, mem_map] at he
      obtain ⟨p, _, rfl⟩ := he
      rfl

section Related

variable {R : Entry K V → Entry K V → Prop} {n i : ℕ} {datamap nodemap : BitVec 32}
  {slots : List (Slot K V)} {d : ℕ → Option (Entry K V)} {ν : ℕ → Option (Node K V)}
  {datamap' nodemap' : BitVec 32} {slots' : List (Slot K V)} {d' : ℕ → Option (Entry K V)}
  {ν' : ℕ → Option (Node K V)}

theorem Placed.mem_here (h : Placed n d ν) (layout : Layout datamap nodemap slots d ν) (hi : i < 32)
    {e : Entry K V} :
    e ∈ here (d i) (ν i) ↔ e ∈ (Node.data datamap nodemap slots).contents ∧ chunk n e.hash = i := by
  rw [(layout.contents_perm hi).mem_iff, mem_append]
  constructor
  · exact fun he ↦ ⟨.inl he, h.chunk_here hi he⟩
  · rintro ⟨he | he, hchunk⟩
    · exact he
    · exact absurd hchunk (h.chunk_ne hi he)

/-- Partners stand at the same position. -/
theorem Partners.here (hR : ∀ e e', R e e' → e.hash = e'.hash)
    (layout : Layout datamap nodemap slots d ν) (placed : Placed n d ν)
    (layout' : Layout datamap' nodemap' slots' d' ν') (placed' : Placed n d' ν')
    (h : Partners R (Node.data datamap nodemap slots).contents
      (Node.data datamap' nodemap' slots').contents) (hi : i < 32) :
    Partners R (here (d i) (ν i)) (here (d' i) (ν' i)) where
  left e he := by
    obtain ⟨hmem, hchunk⟩ := (placed.mem_here layout hi).mp he
    obtain ⟨e', he', hrel⟩ := h.left e hmem
    exact ⟨e', (placed'.mem_here layout' hi).mpr ⟨he', hR e e' hrel ▸ hchunk⟩, hrel⟩
  right e' he' := by
    obtain ⟨hmem, hchunk⟩ := (placed'.mem_here layout' hi).mp he'
    obtain ⟨e, he, hrel⟩ := h.right e' hmem
    exact ⟨e, (placed.mem_here layout hi).mpr ⟨he, (hR e e' hrel).symm ▸ hchunk⟩, hrel⟩

theorem Partners.swap {α β : Type} {S : α → β → Prop} {l : List α} {l' : List β}
    (h : Partners S l l') : Partners (fun b a ↦ S a b) l' l := ⟨h.right, h.left⟩

theorem Partners.eq_nil {α β : Type} {S : α → β → Prop} {l : List β} (h : Partners S [] l) :
    l = [] := by
  apply eq_nil_iff_forall_not_mem.mpr
  intro b hb
  obtain ⟨a, ha, _⟩ := h.right b hb
  exact not_mem_nil ha

/-- One entry is not the partner of several. -/
theorem Partners.not_single (hR : ∀ e e', R e e' → e.hash = e'.hash) {e : Entry K V}
    (h : Partners R [e] l) (hl : Spread l) : ¬ 2 ≤ l.length := by
  intro htwo
  refine hl.not_constant htwo e.hash ?_
  intro e' he'
  obtain ⟨x, hx, hrel⟩ := h.right e' he'
  rw [← hR x e' hrel, mem_singleton.mp hx]

/-- What is stored at a position: nothing, an entry, or a sub-node with several. -/
inductive Cell : Option (Entry K V) → Option (Node K V) → Prop
  | empty : Cell none none
  | entry (e : Entry K V) : Cell (some e) none
  | node (c : Node K V) (two : 2 ≤ c.contents.length) : Cell none (some c)

theorem Layout.cell (layout : Layout datamap nodemap slots d ν) (placed : Placed n d ν)
    (hi : i < 32) : Cell (d i) (ν i) := by
  have htwo := placed.two i hi
  rcases layout.disjoint i hi with hd | hν
  · rw [hd]
    cases hν : ν i with
    | none => exact .empty
    | some c => exact .node c (htwo c hν)
  · rw [hν]
    cases d i with
    | none => exact .empty
    | some e => exact .entry e

/-- Cells with partners are of the same kind. -/
theorem Cell.related (hR : ∀ e e', R e e' → e.hash = e'.hash) {a a' : Option (Entry K V)}
    {c c' : Option (Node K V)} (hcell : Cell a c) (hcell' : Cell a' c')
    (hspread : Spread (here a c)) (hspread' : Spread (here a' c'))
    (h : Partners R (here a c) (here a' c')) :
    Option.Rel R a a' ∧ Option.Rel (fun x y ↦ Partners R x.contents y.contents) c c' := by
  cases hcell with
  | empty =>
    have hnil := h.eq_nil
    cases hcell' with
    | empty => exact ⟨.none, .none⟩
    | entry e' => cases hnil
    | node y two =>
      rw [here_node] at hnil
      rw [hnil] at two
      exact absurd two (Nat.not_succ_le_zero 1)
  | entry e =>
    cases hcell' with
    | empty => cases h.swap.eq_nil
    | entry e' =>
      obtain ⟨x, hx, hrel⟩ := h.left e mem_cons_self
      rw [here_entry, mem_singleton] at hx
      exact ⟨.some (hx ▸ hrel), .none⟩
    | node y two =>
      rw [here_node] at h hspread'
      exact absurd two (h.not_single hR hspread')
  | node x two =>
    rw [here_node] at h hspread
    cases hcell' with
    | empty =>
      rw [h.swap.eq_nil] at two
      exact absurd two (Nat.not_succ_le_zero 1)
    | entry e' =>
      exact absurd two (h.swap.not_single (fun _ _ hrel ↦ (hR _ _ hrel).symm) hspread)
    | node y _ =>
      rw [here_node] at h
      exact ⟨.none, .some h⟩

theorem Spread.here (h : Spread (Node.data datamap nodemap slots).contents)
    (layout : Layout datamap nodemap slots d ν) (hi : i < 32) : Spread (here (d i) (ν i)) :=
  (h.perm (layout.contents_perm hi)).append_left

theorem Spread.node {a : Option (Entry K V)} {c : Node K V} (h : Spread (Champ.here a (some c))) :
    Spread c.contents := by
  rw [Champ.here, Option.toList_some, flatMap_singleton] at h
  exact (pairwise_append.mp h).2.1

/-- Nodes with partners as contents list them in the same order. -/
theorem Shape.canonical (hR : ∀ e e', R e e' → e.hash = e'.hash) {a b : Node K V} (ha : Shape n a)
    (hb : Shape n b) (hsa : Spread a.contents) (hsb : Spread b.contents)
    (h : Partners R a.contents b.contents) : List.Forall₂ R a.contents b.contents := by
  induction ha generalizing b with
  | collision hlow hhigh two =>
    exact absurd hsa (Shape.collision hlow hhigh two).not_spread_collision
  | @data n datamap nodemap slots d ν hn layout placed children ih =>
    cases hb with
    | collision hlow hhigh two =>
      exact absurd hsb (Shape.collision hlow hhigh two).not_spread_collision
    | @data _ datamap' nodemap' slots' d' ν' _ layout' placed' children' =>
      have hcells : ∀ i < 32, Option.Rel R (d i) (d' i) ∧
          Option.Rel (fun x y ↦ Partners R x.contents y.contents) (ν i) (ν' i) :=
        fun i hi ↦ (layout.cell placed hi).related hR (layout'.cell placed' hi)
          (hsa.here layout hi) (hsb.here layout' hi) (h.here hR layout placed layout' placed' hi)
      have hchildren : ∀ i < 32,
          Option.Rel (fun x y ↦ List.Forall₂ R x.contents y.contents) (ν i) (ν' i) := by
        intro i hi
        have hrel := (hcells i hi).2
        have hspread := hsa.here layout hi
        have hspread' := hsb.here layout' hi
        have hchild := ih i hi
        have hchild' := children' i hi
        generalize ν i = x at hrel hspread hchild
        generalize ν' i = y at hrel hspread' hchild'
        cases hrel with
        | none => exact .none
        | some hxy =>
          exact .some (hchild _ rfl (hchild' _ rfl) hspread.node hspread'.node hxy)
      rw [layout.contents_eq, layout'.contents_eq]
      apply rel_append (forall₂_pack fun i hi ↦ (hcells i hi).1)
      exact rel_flatMap (rel_reverse (forall₂_pack hchildren)) fun _ _ hxy ↦ hxy

end Related

/-! ## Histories -/

section Histories

/-- Pairs of the same bindings are the same, where equal keys are. -/
theorem forall₂_samePair_eq [BEq K] [LawfulBEq K] {l l' : List (K × V)}
    (h : List.Forall₂ SamePair l l') : l = l' := by
  rw [← forall₂_eq_eq_eq]
  exact h.imp fun p q hpq ↦ Prod.ext (eq_of_beq hpq.1) hpq.2

variable [BEq K] [EquivBEq K] {keyHash : K → Hash} {s s' : Standard K V} {m m' : Bindings K V}

/-- Entries that give the same pair. -/
def Entry.Twin (e e' : Entry K V) : Prop := e.hash = e'.hash ∧ SamePair e.pair e'.pair

/-- The entries of a map have different hashes if each is one of a list of keys that do. -/
theorem Valid.spread {α : Type} {f : α → Hash} {g : α → K} {l : List α} (h : Valid keyHash s m)
    (hl : l.Pairwise fun x y ↦ f x ≠ f y)
    (hfind : ∀ e ∈ s.root.contents, ∃ x ∈ l, e.hash = f x ∧ (e.key == g x) = true) :
    Spread s.root.contents := by
  refine h.distinct.imp_of_mem ?_
  intro e e' he he' hne heq
  obtain ⟨x, hx, hhash, hkey⟩ := hfind e he
  obtain ⟨y, hy, hhash', hkey'⟩ := hfind e' he'
  have hxy : x = y := by
    by_contra hxy
    have hsymm : Std.Symm fun x y ↦ f x ≠ f y := ⟨fun _ _ hne ↦ hne.symm⟩
    apply hl.forall hx hy hxy
    rw [← hhash, ← hhash', heq]
  rw [hxy] at hkey
  have hkeys : (e.key == e'.key) = true := BEq.trans hkey (BEq.symm hkey')
  rw [hkeys] at hne
  exact Bool.noConfusion hne

theorem Valid.exists_twin (hash_eq : Respects keyHash) (h : Valid keyHash s m)
    (h' : Valid keyHash s' m') (hget : ∀ k, m.get k = m'.get k) {e : Entry K V}
    (he : e ∈ s.root.contents) : ∃ e' ∈ s'.root.contents, e.Twin e' := by
  obtain ⟨e', he', hsame⟩ := exists_counterpart h.distinct h'.distinct
    (fun k ↦ by rw [h.lookup, h'.lookup, hget]) he
  refine ⟨e', he', ?_, hsame⟩
  rw [h.hashed e he, h'.hashed e' he', hash_eq _ _ hsame.1]

theorem Entry.Twin.symm {e e' : Entry K V} (h : e.Twin e') : e'.Twin e :=
  ⟨h.1.symm, BEq.symm h.2.1, h.2.2.symm⟩

theorem Valid.entries_canonical (hash_eq : Respects keyHash) (h : Valid keyHash s m)
    (h' : Valid keyHash s' m') (hget : ∀ k, m.get k = m'.get k)
    (hm : m.Pairwise fun p q ↦ keyHash p.1 ≠ keyHash q.1) :
    List.Forall₂ SamePair (s.root.contents.map Entry.pair) (s'.root.contents.map Entry.pair) := by
  have hpartners : Partners Entry.Twin s.root.contents s'.root.contents := by
    constructor
    · exact fun e he ↦ h.exists_twin hash_eq h' hget he
    · intro e' he'
      obtain ⟨e, he, htwin⟩ := h'.exists_twin hash_eq h (fun k ↦ (hget k).symm) he'
      exact ⟨e, he, htwin.symm⟩
  have hspread : Spread s.root.contents := by
    refine h.spread (g := Prod.fst) hm fun e he ↦ ?_
    obtain ⟨q, hq, hsame⟩ := h.exists_binding he
    exact ⟨q, hq, (h.hashed e he).trans (hash_eq _ _ hsame.1), hsame.1⟩
  have hspread' : Spread s'.root.contents := by
    refine h'.spread (g := Entry.key) hspread fun e' he' ↦ ?_
    obtain ⟨e, he, htwin⟩ := hpartners.right e' he'
    exact ⟨e, he, htwin.1.symm, BEq.symm htwin.2.1⟩
  have hforall := Shape.canonical (fun _ _ htwin ↦ htwin.1) h.shape h'.shape hspread hspread'
    hpartners
  rw [forall₂_map_left_iff, forall₂_map_right_iff]
  exact hforall.imp fun _ _ htwin ↦ htwin.2

end Histories

/-- Histories that end with the same bindings, the hashes of whose keys are different, end with
maps that list the same pairs in the same order. -/
theorem entries_eq_of_same_bindings [BEq K] [EquivBEq K] (keyHash : K → Hash)
    (hash_eq : Respects keyHash) (ops ops' : List (Op K V))
    (hsame : ∀ k, (Bindings.history ops).get k = (Bindings.history ops').get k)
    (hspread : (Bindings.history ops).Pairwise fun p q ↦ keyHash p.1 ≠ keyHash q.1) :
    ∃ s s' pairs pairs', history keyHash ops = .ok s ∧ history keyHash ops' = .ok s' ∧
      s.entries = .ok pairs ∧ s'.entries = .ok pairs' ∧ List.Forall₂ SamePair pairs pairs' ∧
      (LawfulBEq K → pairs = pairs') := by
  obtain ⟨s, hs, hvalid⟩ := valid_history hash_eq
  obtain ⟨s', hs', hvalid'⟩ := valid_history hash_eq
  have hforall := hvalid.entries_canonical hash_eq hvalid' hsame hspread
  exact ⟨s, s', _, _, hs, hs', hvalid.shape.collect_eq, hvalid'.shape.collect_eq, hforall,
    fun _ ↦ forall₂_samePair_eq hforall⟩

/-- Another history of `collidingOps`' bindings. -/
def directOps : List (Op ℕ ℕ) := [.transient [.assoc 1 12], .assocValue 6 14]

theorem entries_eq_collidingOps_directOps :
    ∃ s s' pairs pairs', history coarseHash collidingOps = .ok s ∧
      history coarseHash directOps = .ok s' ∧ s.entries = .ok pairs ∧ s'.entries = .ok pairs' ∧
      List.Forall₂ SamePair pairs pairs' ∧ (LawfulBEq ℕ → pairs = pairs') := by
  have hbindings : Bindings.history collidingOps = Bindings.history directOps := by decide
  refine entries_eq_of_same_bindings coarseHash (fun k k' h ↦ by rw [eq_of_beq h]) _ _ ?_ ?_
  · intro k
    rw [hbindings]
  · decide

end Hara.Champ
