import Hara.Champ.Without

/-!
# Maps and their histories

`Standard` and `Mutable` of `lang/data/map.rs`, with the operations that a history of a map is made
of. A history is a list of operations on the empty map; a transient phase is one operation, from
`to_mutable` over its edits to `to_persistent`.

The model is a list of bindings with different keys, and `Valid` relates it to a map through the
contents of the root: it has the shape of level 0, the hashes and the size are right, and lookups
agree. Every operation succeeds on a valid map and keeps the relation.
-/

namespace Hara.Champ

open Hara.Lib Bitmap Packed Keyed

/-- `Standard`, without its identity and its metadata. -/
structure Standard (K V : Type) where
  root : Node K V
  size : ℕ

/-- `Mutable`. -/
structure Mutable (K V : Type) where
  editable : Bool
  standard : Standard K V

variable {K V : Type}

namespace Standard

def new : Standard K V := ⟨.empty, 0⟩

def len (s : Standard K V) : ℕ := s.size

def entries (s : Standard K V) : Except Fault (List (K × V)) := collect s.root

def toMutable (s : Standard K V) : Mutable K V := ⟨true, s⟩

end Standard

namespace Mutable

def check (m : Mutable K V) : Except Fault Unit :=
  if m.editable then .ok () else .error (.assertion "mutable map used after to_persistent")

/-- The map, and the mutable map, which can no longer be used. -/
def toPersistent (m : Mutable K V) : Except Fault (Standard K V × Mutable K V) := do
  m.check
  return (m.standard, { m with editable := false })

end Mutable

section Keys

variable [BEq K] (keyHash : K → Hash)

namespace Standard

variable (s : Standard K V) (key : K) (value : V)

def findEntry : Except Fault (Option (K × V)) :=
  findNode 0 (keyHash key) key s.root

def get : Except Fault (Option V) := do
  let entry ← findNode 0 (keyHash key) key s.root
  return entry.map Prod.snd

/-- The part that the three ways to add a pair share. -/
def assocRoot : Except Fault (Standard K V) := do
  let (root, added) ← assocNode 0 ⟨keyHash key, key, value⟩ s.root
  return ⟨root, s.size + added.toNat⟩

def assocValue : Except Fault (Standard K V) :=
  s.assocRoot keyHash key value

def assocValueOwned : Except Fault (Standard K V) :=
  s.assocRoot keyHash key value

/-- The part that the two ways to remove a key share. -/
def dissocRoot : Except Fault (Standard K V) := do
  let found ← findNode 0 (keyHash key) key s.root
  match found with
  | none => return s
  | some _ => do
    let root ← withoutPresent 0 (keyHash key) key s.root
    if s.size = 0 then .error .subtractOverflow else return ⟨root, s.size - 1⟩

def dissocValue : Except Fault (Standard K V) :=
  s.dissocRoot keyHash key

end Standard

namespace Mutable

def assoc (m : Mutable K V) (key : K) (value : V) : Except Fault (Mutable K V) := do
  m.check
  let standard ← m.standard.assocRoot keyHash key value
  return { m with standard }

def dissoc (m : Mutable K V) (key : K) : Except Fault (Mutable K V) := do
  m.check
  let standard ← m.standard.dissocRoot keyHash key
  return { m with standard }

end Mutable

/-! ## Histories -/

/-- An edit of a mutable map. -/
inductive Edit (K V : Type) where
  | assoc (key : K) (value : V)
  | dissoc (key : K)

/-- An operation on a map. -/
inductive Op (K V : Type) where
  | assocValue (key : K) (value : V)
  | assocValueOwned (key : K) (value : V)
  | dissocValue (key : K)
  | transient (edits : List (Edit K V))

def Mutable.edit (m : Mutable K V) : Edit K V → Except Fault (Mutable K V)
  | .assoc key value => m.assoc keyHash key value
  | .dissoc key => m.dissoc keyHash key

def Standard.apply (s : Standard K V) : Op K V → Except Fault (Standard K V)
  | .assocValue key value => s.assocValue keyHash key value
  | .assocValueOwned key value => s.assocValueOwned keyHash key value
  | .dissocValue key => s.dissocValue keyHash key
  | .transient edits => do
    let m ← edits.foldlM (Mutable.edit keyHash) s.toMutable
    let (s, _) ← m.toPersistent
    return s

/-- The map at the end of a history. -/
def history (ops : List (Op K V)) : Except Fault (Standard K V) :=
  ops.foldlM (Standard.apply keyHash) .new

/-! ## The model -/

/-- A finite map, as a list of bindings with different keys. -/
abbrev Bindings (K V : Type) := List (K × V)

namespace Bindings

def get (m : Bindings K V) (key : K) : Option V := (lookup Prod.fst key m).map Prod.snd

def edit (m : Bindings K V) : Edit K V → Bindings K V
  | .assoc key value => (key, value) :: drop Prod.fst key m
  | .dissoc key => drop Prod.fst key m

def apply (m : Bindings K V) : Op K V → Bindings K V
  | .assocValue key value => m.edit (.assoc key value)
  | .assocValueOwned key value => m.edit (.assoc key value)
  | .dissocValue key => m.edit (.dissoc key)
  | .transient edits => edits.foldl edit m

def history (ops : List (Op K V)) : Bindings K V := ops.foldl apply []

end Bindings

end Keys

/-! ## Validity -/

section Valid

variable [BEq K] {keyHash : K → Hash}

/-- The map holds the bindings. -/
structure Valid (keyHash : K → Hash) (s : Standard K V) (m : Bindings K V) : Prop where
  shape : Shape 0 s.root
  distinct : Distinct Entry.key s.root.contents
  hashed : Hashed keyHash s.root.contents
  size : s.size = s.root.contents.length
  bindings : Distinct Prod.fst m
  length : s.root.contents.length = m.length
  lookup : ∀ k, (lookup Entry.key k s.root.contents).map Entry.value = m.get k

theorem Valid.new : Valid keyHash (.new : Standard K V) [] where
  shape := Shape.empty
  distinct := List.Pairwise.nil
  hashed _ he := absurd he List.not_mem_nil
  size := rfl
  bindings := List.Pairwise.nil
  length := rfl
  lookup _ := rfl

variable {s : Standard K V} {m : Bindings K V}

section

variable (h : Valid keyHash s m)

include h

/-- A key is new to the map exactly when it is new to the bindings. -/
theorem Valid.isNone_eq (k : K) :
    (Keyed.lookup Entry.key k s.root.contents).isNone = (Keyed.lookup Prod.fst k m).isNone := by
  have hlookup := congrArg Option.isNone (h.lookup k)
  rwa [Bindings.get, Option.isNone_map, Option.isNone_map] at hlookup

variable [EquivBEq K] (hash_eq : Respects keyHash)

include hash_eq

theorem Valid.findNode_eq {k : K} :
    findNode 0 (keyHash k) k s.root =
      .ok ((Keyed.lookup Entry.key k s.root.contents).map Entry.pair) :=
  h.shape.findNode_eq hash_eq h.distinct h.hashed

theorem Valid.assocRoot {k : K} {v : V} :
    ∃ s', s.assocRoot keyHash k v = .ok s' ∧ Valid keyHash s' (m.edit (.assoc k v)) := by
  obtain ⟨root, added, e', hassoc, hshape, hsame, hinserted⟩ :=
    h.shape.assocNode_spec hash_eq h.hashed (e := ⟨keyHash k, k, v⟩) rfl
      fun x _ ↦ by rw [low_zero, low_zero]
  have hmodel := inserted_drop (k := k) h.bindings (k, v)
  have hadded : added = (Keyed.lookup Prod.fst k m).isNone :=
    (hinserted.added_eq h.distinct).trans (h.isNone_eq k)
  refine ⟨⟨root, s.size + added.toNat⟩, ?_, hshape, hinserted.distinct hsame.key h.distinct, ?_, ?_,
    hmodel.distinct BEq.rfl h.bindings, ?_, ?_⟩
  · rw [Standard.assocRoot, hassoc]
    rfl
  · intro x hx
    rcases hinserted.mem hx with rfl | hx
    · rw [hsame.hash]
      exact (hash_eq _ _ hsame.key).symm
    · exact h.hashed x hx
  · rw [h.size, hinserted.length]
  · rw [hinserted.length, Bindings.edit, hmodel.length, h.length, hadded]
  · intro k'
    rw [hinserted.lookup hsame.key h.distinct, Bindings.get, Bindings.edit,
      hmodel.lookup BEq.rfl h.bindings]
    by_cases hk : (k == k') = true
    · rw [if_pos hk, if_pos hk, Option.map_some, Option.map_some, hsame.value]
    · rw [if_neg hk, if_neg hk]
      exact h.lookup k'

theorem Valid.dissocRoot (k : K) :
    ∃ s', s.dissocRoot keyHash k = .ok s' ∧ Valid keyHash s' (m.edit (.dissoc k)) := by
  rw [Standard.dissocRoot, h.findNode_eq hash_eq]
  dsimp only [bind, Except.bind]
  have hnone := h.isNone_eq k
  cases hfind : Keyed.lookup Entry.key k s.root.contents with
  | none =>
    refine ⟨s, rfl, ?_⟩
    rw [hfind] at hnone
    rw [Bindings.edit, drop_of_absent
      (lookup_eq_none_iff.mp (Option.isNone_iff_eq_none.mp hnone.symm))]
    exact h
  | some x =>
    obtain ⟨q, hq⟩ : ∃ q, Keyed.lookup Prod.fst k m = some q := by
      rw [hfind] at hnone
      exact Option.isSome_iff_exists.mp (Option.isNone_eq_false_iff.mp hnone.symm)
    obtain ⟨hx, hkey⟩ := (lookup_eq_some_iff h.distinct).mp hfind
    obtain ⟨root, hwithout, hleft, hremoved⟩ :=
      h.shape.withoutPresent_spec hash_eq h.distinct h.hashed ⟨x, hx, hkey⟩ (absurd rfl)
    have hmodel := removed_drop h.bindings hq
    have hlength := hremoved.length
    have hshape : Shape 0 root := by
      cases hleft with
      | kept shape _ => exact shape
      | single below _ => exact absurd rfl below
    rw [hwithout]
    dsimp only
    rw [if_neg (by rw [h.size]; omega)]
    refine ⟨_, rfl, hshape, hremoved.distinct h.distinct,
      fun e he ↦ h.hashed e (hremoved.mem he), ?_, hmodel.distinct h.bindings, ?_, ?_⟩
    · dsimp only
      rw [h.size]
      omega
    · have hlength' := hmodel.length
      have hsize := h.length
      dsimp only [Bindings.edit]
      omega
    · intro k'
      rw [hremoved.lookup h.distinct, Bindings.get, Bindings.edit, hmodel.lookup h.bindings]
      by_cases hk : (k == k') = true
      · rw [if_pos hk, if_pos hk]
        rfl
      · rw [if_neg hk, if_neg hk]
        exact h.lookup k'

/-- A mutable map in use. -/
theorem Valid.edit (edit : Edit K V) :
    ∃ s', Mutable.edit keyHash ⟨true, s⟩ edit = .ok ⟨true, s'⟩ ∧
      Valid keyHash s' (m.edit edit) := by
  cases edit with
  | assoc k v =>
    obtain ⟨s', hs', hvalid⟩ := h.assocRoot hash_eq
    refine ⟨s', ?_, hvalid⟩
    rw [Mutable.edit, Mutable.assoc, hs']
    rfl
  | dissoc k =>
    obtain ⟨s', hs', hvalid⟩ := h.dissocRoot hash_eq k
    refine ⟨s', ?_, hvalid⟩
    rw [Mutable.edit, Mutable.dissoc, hs']
    rfl

theorem Valid.edits {edits : List (Edit K V)} :
    ∃ s', edits.foldlM (Mutable.edit keyHash) ⟨true, s⟩ = .ok ⟨true, s'⟩ ∧
      Valid keyHash s' (edits.foldl Bindings.edit m) := by
  induction edits generalizing s m with
  | nil => exact ⟨s, rfl, h⟩
  | cons edit edits ih =>
    obtain ⟨s₁, hs₁, h₁⟩ := h.edit hash_eq edit
    obtain ⟨s₂, hs₂, h₂⟩ := ih h₁
    refine ⟨s₂, ?_, h₂⟩
    rw [List.foldlM_cons, hs₁]
    exact hs₂

/-- One operation. -/
theorem Valid.apply (op : Op K V) :
    ∃ s', s.apply keyHash op = .ok s' ∧ Valid keyHash s' (m.apply op) := by
  cases op with
  | assocValue k v | assocValueOwned k v => exact h.assocRoot hash_eq
  | dissocValue k => exact h.dissocRoot hash_eq k
  | transient edits =>
    obtain ⟨s', hs', hvalid⟩ := h.edits hash_eq
    refine ⟨s', ?_, hvalid⟩
    rw [Standard.apply, Standard.toMutable, hs']
    rfl

omit h in
/-- A whole history. -/
theorem valid_history {ops : List (Op K V)} :
    ∃ s, history keyHash ops = .ok s ∧ Valid keyHash s (Bindings.history ops) :=
  Except.exists_foldlM (fun op h ↦ h.apply hash_eq op) Valid.new ops

end

variable [EquivBEq K]

/-! ## Observations -/

/-- The pairs have equal keys and the same value. -/
def SamePair (p q : K × V) : Prop := (p.1 == q.1) = true ∧ p.2 = q.2

/-- Everything that can be asked of the map is answered as by the bindings. -/
structure Refines (keyHash : K → Hash) (s : Standard K V) (m : Bindings K V) : Prop where
  get : ∀ k, s.get keyHash k = .ok (m.get k)
  findEntry : ∀ k, ∃ found, s.findEntry keyHash k = .ok found ∧ found.map Prod.snd = m.get k ∧
    ∀ p, found = some p → (p.1 == k) = true
  len : s.len = m.length
  /-- Every binding is listed, once. -/
  entries : ∃ pairs, s.entries = .ok pairs ∧ pairs.length = m.length ∧
    Distinct Prod.fst pairs ∧ (∀ p ∈ pairs, ∃ q ∈ m, SamePair p q) ∧
    ∀ q ∈ m, ∃ p ∈ pairs, SamePair p q

theorem Valid.exists_binding (h : Valid keyHash s m) {e : Entry K V}
    (he : e ∈ s.root.contents) : ∃ q ∈ m, SamePair e.pair q := by
  obtain ⟨q, hq, hsame⟩ := exists_counterpart h.distinct h.bindings h.lookup he
  exact ⟨q, hq, hsame⟩

theorem Valid.exists_entry (h : Valid keyHash s m) {q : K × V} (hq : q ∈ m) :
    ∃ e ∈ s.root.contents, SamePair e.pair q := by
  obtain ⟨e, he, hkey, hvalue⟩ :=
    exists_counterpart h.bindings h.distinct (fun k ↦ (h.lookup k).symm) hq
  exact ⟨e, he, BEq.symm hkey, hvalue.symm⟩

theorem Valid.refines (hash_eq : Respects keyHash) (h : Valid keyHash s m) :
    Refines keyHash s m where
  get k := by
    rw [Standard.get, h.findNode_eq hash_eq, ← h.lookup k]
    cases Keyed.lookup Entry.key k s.root.contents <;> rfl
  findEntry k := by
    refine ⟨_, h.findNode_eq hash_eq, ?_, ?_⟩
    · rw [Option.map_map, ← h.lookup k]
      rfl
    · intro p hp
      obtain ⟨e, he, rfl⟩ := Option.map_eq_some_iff.mp hp
      exact ((lookup_eq_some_iff h.distinct).mp he).2
  len := h.size.trans h.length
  entries := by
    refine ⟨_, h.shape.collect_eq, ?_, ?_, ?_, ?_⟩
    · rw [List.length_map, h.length]
    · exact List.pairwise_map.mpr h.distinct
    · intro p hp
      obtain ⟨e, he, rfl⟩ := List.mem_map.mp hp
      exact h.exists_binding he
    · intro q hq
      obtain ⟨e, he, hsame⟩ := h.exists_entry hq
      exact ⟨e.pair, List.mem_map_of_mem he, hsame⟩

/-- Every history succeeds and ends in a map that answers as the finite map does. -/
theorem champ_refines (keyHash : K → Hash) (hash_eq : Respects keyHash) (ops : List (Op K V)) :
    ∃ s, history keyHash ops = .ok s ∧ Refines keyHash s (Bindings.history ops) := by
  obtain ⟨s, hs, hvalid⟩ := valid_history hash_eq
  exact ⟨s, hs, hvalid.refines hash_eq⟩

end Valid

/-- A hash with collisions, and with keys that differ in the last chunk only. -/
def coarseHash (k : ℕ) : Hash := BitVec.ofNat 64 (k % 3 * 2 ^ 60)

/-- A history through a collision node, its split and the collapse of a chain. -/
def collidingOps : List (Op ℕ ℕ) :=
  [.assocValue 0 10, .assocValueOwned 3 11, .assocValue 1 12, .transient [.assoc 6 13, .dissoc 0],
    .dissocValue 3, .assocValue 6 14]

theorem champ_refines_collidingOps :
    (∃ s, history coarseHash collidingOps = .ok s ∧
      Refines coarseHash s (Bindings.history collidingOps)) ∧
    Bindings.history collidingOps = [(6, 14), (1, 12)] :=
  ⟨champ_refines coarseHash (fun k k' h ↦ by rw [eq_of_beq h]) collidingOps, by decide⟩

end Hara.Champ
