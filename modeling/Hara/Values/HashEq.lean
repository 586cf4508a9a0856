import Hara.Values.Order

/-!
# Hashes and equality

The hash of a collection is put together from the hashes of its parts in the same way for all
collections of one shape, except for tries, whose entries are only added up. Equality does not make
this difference. So the hashes of equal values differ by what the tries in them leave out
(`trieDeficit`).

A hash map places integers of 64 bits by a hash of their own, which big integers do not share.
-/

namespace Hara.Values

open Hara.Lib Keyed
open List hiding lookup_eq_some_iff nil

/-! ## What tries leave out -/

namespace Data

variable {L : Layer}

/-- What is missing in the hash of a value, from what is missing in those of its parts. -/
def trieDeficit (deficit : L.Carrier → BitVec 64) (a : Data L) : BitVec 64 :=
  a.ownDeficit + a.hashedShape.spread deficit

end Data

section Levels

variable (formatDouble : Double → Text)

/-- What the tries in a value leave out of its hash, for every hash type. -/
def trieDeficit : (n : ℕ) → (layer formatDouble n).Carrier → BitVec 64
  | 0 => fun _ ↦ 0
  | n + 1 => Data.trieDeficit (trieDeficit n)

/-- The value has no trie in it, or only empty ones. -/
def TrieFree : (n : ℕ) → (layer formatDouble n).Carrier → Prop
  | 0 => fun _ ↦ True
  | n + 1 => fun a ↦ (∀ entries, a = Data.trie entries → entries = []) ∧
      ∀ x ∈ (Data.hashedShape a).parts, TrieFree n x

/-- The hash with what tries leave out. -/
def fullHash (hashType : HashType) (n : ℕ) (a : (layer formatDouble n).Carrier) : BitVec 64 :=
  (layer formatDouble n).javaHash hashType a + trieDeficit formatDouble n a

variable {formatDouble} {n : ℕ} {a b : (layer formatDouble n).Carrier}

theorem trieDeficit_eq_zero : ∀ a, TrieFree formatDouble n a →
    trieDeficit formatDouble n a = 0 := by
  induction n with
  | zero =>
    intro a _
    rfl
  | succ n ih =>
    rintro (a : Data (layer formatDouble n)) ⟨hempty, hparts⟩
    have hown : a.ownDeficit = 0 := by
      cases a with
      | trie entries =>
        obtain rfl := hempty entries rfl
        rfl
      | _ => rfl
    have hspread := Shape.spread_eq_zero fun x hx ↦ ih x (hparts x hx)
    rw [trieDeficit, Data.trieDeficit, hown, hspread]
    rfl

/-- The full hash goes by the shape of a value alone. -/
theorem fullHash_succ (hashType : HashType) {a : Data (layer formatDouble n)} :
    fullHash formatDouble hashType (n + 1) a =
      a.hashedShape.compose (Atom.javaHash formatDouble hashType)
        (fullHash formatDouble hashType n) := by
  have hown := a.javaHash_add_ownDeficit formatDouble (javaHash_string hashType)
  calc fullHash formatDouble hashType (n + 1) a
      = a.javaHash formatDouble hashType +
          (a.ownDeficit + a.hashedShape.spread (trieDeficit formatDouble n)) := rfl
    _ = _ := by rw [← add_assoc, hown, ← Shape.compose_add]; rfl

/-- Values that are alike have the same full hash. -/
theorem fullHash_eq (hashType : HashType) : ∀ a b, WellFormed formatDouble n a →
    WellFormed formatDouble n b → Alike formatDouble n a b →
    fullHash formatDouble hashType n a = fullHash formatDouble hashType n b := by
  induction n with
  | zero =>
    intro a b ha hb halike
    exact congrArg (· + 0) (Atom.javaHash_eq ha hb halike)
  | succ n ih =>
    intro (a : Data (layer formatDouble n)) (b : Data (layer formatDouble n)) ha hb halike
    have hcompose {s s' : Shape (layer formatDouble n).Carrier}
        (hs : s.InOrder (WellFormed formatDouble n)) (hs' : s'.InOrder (WellFormed formatDouble n))
        (hlike : s.Alike (Alike formatDouble n) s') :
        s.compose (Atom.javaHash formatDouble hashType) (fullHash formatDouble hashType n) =
          s'.compose (Atom.javaHash formatDouble hashType) (fullHash formatDouble hashType n) := by
      refine hlike.compose_eq ?_ ?_
      · rintro x y rfl rfl heq
        exact Atom.javaHash_eq (fun d hd ↦ hs.not_double d (congrArg _ hd))
          (fun d hd ↦ hs'.not_double d (congrArg _ hd)) heq
      · intro x hx y hy hxy
        exact ih x y (hs.parts x hx) (hs'.parts y hy) hxy
    -- from what the one hashes to what it lists, and from there to the other
    calc fullHash formatDouble hashType (n + 1) a
        = a.hashedShape.compose _ _ := fullHash_succ hashType
      _ = a.shape.compose _ _ := hcompose ha.hashed ha.listed ha.alike
      _ = b.shape.compose _ _ := hcompose ha.listed hb.listed halike
      _ = b.hashedShape.compose _ _ := (hcompose hb.hashed hb.listed hb.alike).symm
      _ = fullHash formatDouble hashType (n + 1) b := (fullHash_succ hashType).symm

/-! ## Placement -/

variable (formatDouble) in
/-- An integer of 64 bits is placed where the big integer is. -/
def PlacedAlike (n : ℕ) (a b : (layer formatDouble n).Carrier) : Prop :=
  ∀ i : I64,
    (layer formatDouble n).asAtom a = some (.number i) ∧
        (layer formatDouble n).asAtom b = some (.bigInteger i.toInt) ∨
      (layer formatDouble n).asAtom a = some (.bigInteger i.toInt) ∧
        (layer formatDouble n).asAtom b = some (.number i) →
    hashLongPlacement i.toInt = hashLong i.toInt

theorem placementHash_eq_placement (n : ℕ) (a : (layer formatDouble n).Carrier) :
    (layer formatDouble n).placementHash a =
      placement formatDouble ((layer formatDouble n).asAtom a)
        ((layer formatDouble n).javaHash .rapid a) := by
  cases n <;> rfl

theorem javaHash_of_asAtom (hashType : HashType) {x : Atom}
    (h : (layer formatDouble n).asAtom a = some x) :
    (layer formatDouble n).javaHash hashType a = x.javaHash formatDouble hashType := by
  cases n with
  | zero =>
    cases h
    rfl
  | succ n =>
    obtain rfl := Data.eq_atom_of_asAtom h
    rfl

/-- The 32 bits of a hash determine where it is placed, and the other way round. -/
theorem placed_inj {h h' : BitVec 32} :
    ((h.signExtend 64).setWidth 32).setWidth 64 =
      ((h'.signExtend 64).setWidth 32).setWidth 64 ↔ h = h' := by
  have hcut (g : BitVec 32) : (((g.signExtend 64).setWidth 32).setWidth 64).setWidth 32 = g := by
    apply BitVec.eq_of_getLsbD_eq
    intro i hi
    have hi' : i < 64 := hi.trans (by decide)
    simp [BitVec.getElem_signExtend, hi, hi']
  constructor
  · intro heq
    rw [← hcut h, heq, hcut]
  · rintro rfl
    rfl

theorem WellFormed.not_double {x : Atom} (h : WellFormed formatDouble n a)
    (hx : (layer formatDouble n).asAtom a = some x) : ∀ d, x ≠ .float d := by
  rintro d rfl
  cases n with
  | zero => exact h d (Option.some.inj hx)
  | succ n =>
    obtain rfl := Data.eq_atom_of_asAtom hx
    exact h.listed.not_double d rfl

/-- Like values with one hash are placed alike, except for integers of the two kinds. -/
theorem placementHash_eq_iff (ha : WellFormed formatDouble n a) (hb : WellFormed formatDouble n b)
    (halike : Alike formatDouble n a b)
    (hhash : (layer formatDouble n).javaHash .rapid a = (layer formatDouble n).javaHash .rapid b) :
    (layer formatDouble n).placementHash a = (layer formatDouble n).placementHash b ↔
      PlacedAlike formatDouble n a b := by
  rw [placementHash_eq_placement, placementHash_eq_placement, PlacedAlike]
  rcases asAtom_of_alike halike with ⟨hxa, hxb⟩ | ⟨x, y, hxa, hxb, heq⟩
  · rw [hxa, hxb, hhash]
    refine iff_of_true rfl ?_
    rintro i (⟨h, _⟩ | ⟨h, _⟩) <;> cases h
  · have hax := javaHash_of_asAtom .rapid hxa
    have hby := javaHash_of_asAtom .rapid hxb
    rw [hxa, hxb, hax, hby]
    rcases Atom.cases_of_eq (ha.not_double hxa) (hb.not_double hxb) heq with
      rfl | ⟨i, ⟨rfl, rfl⟩ | ⟨rfl, rfl⟩⟩
    · refine iff_of_true rfl ?_
      rintro i (⟨h, h'⟩ | ⟨h, h'⟩) <;> cases h <;> cases h'
    · refine placed_inj.trans ?_
      constructor
      · rintro h j (⟨hj, -⟩ | ⟨hj, -⟩) <;> cases hj
        exact h
      · intro h
        exact h i (.inl ⟨rfl, rfl⟩)
    · refine placed_inj.trans ?_
      constructor
      · rintro h j (⟨hj, hj'⟩ | ⟨hj, hj'⟩) <;> cases hj'
        exact h.symm
      · intro h
        exact (h i (.inr ⟨rfl, rfl⟩)).symm

/-! ## Hash maps over values -/

/-- The values in a set, as keys with the equality of values. -/
instance (L : Layer) (S : Set L.Carrier) : BEq (Keys L S) := ⟨fun a b ↦ L.eq a.1 b.1⟩

theorem equivBEq_keys {S : Set (layer formatDouble n).Carrier}
    (h : ∀ a ∈ S, Searchable formatDouble n a) : EquivBEq (Keys (layer formatDouble n) S) where
  rfl {a} := (h a.1 a.2).eq_refl
  symm {a b} := (h a.1 a.2).eq_symm (h b.1 b.2)
  trans {a b c} := (h a.1 a.2).eq_trans (h b.1 b.2) (h c.1 c.2)

theorem get_of_respects {L : Layer} {S : Set L.Carrier} [EquivBEq (Keys L S)]
    (hrespects : ∀ a ∈ S, ∀ b ∈ S, L.eq a b = true → L.placementHash a = L.placementHash b)
    {V : Type} {ops : List (Champ.Op (Keys L S) V)} :
    ∃ s, Champ.history (fun k ↦ L.placementHash k.1) ops = .ok s ∧
      ∀ p ∈ Champ.Bindings.history ops, ∀ k : Keys L S, L.eq p.1.1 k.1 = true →
        s.get (fun k ↦ L.placementHash k.1) k = .ok (some p.2) := by
  have hash_eq : Champ.Respects (fun k : Keys L S ↦ L.placementHash k.1) := by
    intro k k' hk
    exact hrespects k.1 k.2 k'.1 k'.2 hk
  obtain ⟨s, hs, hvalid⟩ := Champ.valid_history hash_eq
  refine ⟨s, hs, ?_⟩
  intro p hp k hk
  rw [(hvalid.refines hash_eq).get, Champ.Bindings.get,
    (lookup_eq_some_iff hvalid.bindings).mpr ⟨hp, hk⟩, Option.map_some]

variable (formatDouble) in
/-- The hashes of equal values are equal, for every type of hash and in hash maps. -/
def HashesAlike (n : ℕ) (a b : (layer formatDouble n).Carrier) : Prop :=
  (layer formatDouble n).eq a b = true →
    (∀ hashType, (layer formatDouble n).javaHash hashType a =
      (layer formatDouble n).javaHash hashType b) ∧
    (layer formatDouble n).placementHash a = (layer formatDouble n).placementHash b

variable (formatDouble) in
/-- Tries leave out the same in values that are equal, and integers are placed alike. -/
def TriesAgree (n : ℕ) (a b : (layer formatDouble n).Carrier) : Prop :=
  (layer formatDouble n).eq a b = true →
    trieDeficit formatDouble n a = trieDeficit formatDouble n b ∧ PlacedAlike formatDouble n a b

theorem hashesAlike_iff (ha : WellFormed formatDouble n a) (hb : WellFormed formatDouble n b) :
    HashesAlike formatDouble n a b ↔ TriesAgree formatDouble n a b := by
  refine forall_congr' ?_
  intro heq
  have halike := alike_of_eq a b ha.consistent hb.consistent heq
  -- the sums of hash and deficit agree
  have hiff (hashType : HashType) : (layer formatDouble n).javaHash hashType a =
      (layer formatDouble n).javaHash hashType b ↔
        trieDeficit formatDouble n a = trieDeficit formatDouble n b := by
    have hfull := fullHash_eq hashType a b ha hb halike
    rw [fullHash] at hfull
    constructor
    · intro h
      rw [h] at hfull
      exact add_left_cancel hfull
    · intro h
      rw [h] at hfull
      exact add_right_cancel hfull
  constructor
  · rintro ⟨hhash, hplaced⟩
    exact ⟨(hiff .rapid).mp (hhash .rapid),
      (placementHash_eq_iff ha hb halike (hhash .rapid)).mp hplaced⟩
  · rintro ⟨hdeficit, hplaced⟩
    exact ⟨fun hashType ↦ (hiff hashType).mpr hdeficit,
      (placementHash_eq_iff ha hb halike ((hiff .rapid).mpr hdeficit)).mpr hplaced⟩

variable (formatDouble) in
/-- Where hashes respect equality, and what follows for hash maps. -/
theorem hashes_respect_eq_iff (n : ℕ) :
    (∀ a b, WellFormed formatDouble n a → WellFormed formatDouble n b →
      (HashesAlike formatDouble n a b ↔ TriesAgree formatDouble n a b)) ∧
    ∀ S : Set (layer formatDouble n).Carrier, (∀ a ∈ S, WellFormed formatDouble n a) →
      EquivBEq (Keys (layer formatDouble n) S) →
      (∀ a ∈ S, ∀ b ∈ S, TriesAgree formatDouble n a b) →
      ∀ (V : Type) (ops : List (Champ.Op (Keys (layer formatDouble n) S) V)),
        ∃ s, Champ.history (fun k ↦ (layer formatDouble n).placementHash k.1) ops = .ok s ∧
          ∀ p ∈ Champ.Bindings.history ops, ∀ k : Keys (layer formatDouble n) S,
            (layer formatDouble n).eq p.1.1 k.1 = true →
              s.get (fun k ↦ (layer formatDouble n).placementHash k.1) k = .ok (some p.2) := by
  constructor
  · intro a b ha hb
    exact hashesAlike_iff ha hb
  · intro S hS hequiv hagree V ops
    refine get_of_respects ?_
    intro a ha b hb heq
    exact ((hashesAlike_iff (hS a ha) (hS b hb)).mpr (hagree a ha b hb) heq).2

/-- Without tries, equal values have the same hash. -/
theorem javaHash_eq_of_trieFree (hashType : HashType) (ha : WellFormed formatDouble n a)
    (hb : WellFormed formatDouble n b) (hfree : TrieFree formatDouble n a)
    (hfree' : TrieFree formatDouble n b) (heq : (layer formatDouble n).eq a b = true) :
    (layer formatDouble n).javaHash hashType a = (layer formatDouble n).javaHash hashType b := by
  have hfull := fullHash_eq hashType a b ha hb (alike_of_eq a b ha.consistent hb.consistent heq)
  rw [fullHash, fullHash, trieDeficit_eq_zero a hfree, trieDeficit_eq_zero b hfree'] at hfull
  exact add_right_cancel hfull

end Levels

/-! ## Maps with one entry -/

section

variable {formatDouble : Double → Text} {n : ℕ}

theorem wellFormed_string (s : Text) :
    WellFormed formatDouble n ((layer formatDouble n).ofAtom (.string s)) := by
  cases n with
  | zero => nofun
  | succ n =>
    have horder : (Shape.atom (.string s)).InOrder (WellFormed formatDouble n) := ⟨nofun, nofun⟩
    exact ⟨horder, horder, .refl Alike.refl _, trivial, nofun⟩

theorem wellFormed_sequential {kind : SequentialKind} {items : List (layer formatDouble n).Carrier}
    (h : ∀ x ∈ items, WellFormed formatDouble n x) :
    WellFormed formatDouble (n + 1) (Data.sequential kind items) := by
  have horder : (Shape.sequence items).InOrder (WellFormed formatDouble n) := ⟨nofun, h⟩
  exact ⟨horder, horder, .refl Alike.refl _, trivial, nofun⟩

theorem wellFormed_one {a : Data (layer formatDouble n)} {s : Text}
    {v : (layer formatDouble n).Carrier} (hv : WellFormed formatDouble n v) (hstored : a.Stored)
    (hshape : a.shape = .bindings [((layer formatDouble n).ofAtom (.string s), v)])
    (hhashed : a.hashedShape = a.shape) : WellFormed formatDouble (n + 1) a := by
  have hlisted : a.shape.InOrder (WellFormed formatDouble n) := by
    rw [hshape]
    refine ⟨nofun, ?_⟩
    intro x hx
    rcases mem_pair.mp hx with rfl | rfl
    · exact wellFormed_string s
    · exact hv
  refine ⟨hlisted, hhashed ▸ hlisted, hhashed ▸ .refl Alike.refl _, ?_, ?_⟩
  · rw [hshape]
    exact pairwise_singleton _ _
  · intro entries key value
    exact hstored.found eq_ofAtom

end

/-- The sorted map `"a" [1]`, which is equal to `listMap`. -/
def vectorSortedMap : (layer (fun _ ↦ []) 2).Carrier :=
  Data.sortedMap (SortedMap.put .empty (Data.atom (.string ['a'])) (numbers .vector [1]))

theorem stored_vectorSortedMap : Data.Stored vectorSortedMap := by
  intro p hp key hcmp
  obtain rfl := mem_singleton.mp hp
  exact lawful_layer.eq_of_cmp_atom rfl hcmp

theorem wellFormed_listMap : WellFormed (fun _ ↦ []) 2 listMap ∧ TrieFree (fun _ ↦ []) 2 listMap ∧
    WellFormed (fun _ ↦ []) 2 vectorSortedMap ∧ TrieFree (fun _ ↦ []) 2 vectorSortedMap := by
  have hnumbers (kind : SequentialKind) : WellFormed (fun _ ↦ []) 1 (numbers kind [1]) :=
    wellFormed_sequential (forall_mem_singleton.mpr nofun)
  have hstring : TrieFree (fun _ ↦ []) 1 (Data.atom (.string ['a'])) := ⟨nofun, nofun⟩
  have hfree (kind : SequentialKind) : TrieFree (fun _ ↦ []) 1 (numbers kind [1]) :=
    ⟨nofun, fun _ _ ↦ trivial⟩
  refine ⟨wellFormed_one (hnumbers .list) ⟨_, rfl⟩ rfl rfl, ⟨nofun, ?_⟩,
    wellFormed_one (hnumbers .vector) stored_vectorSortedMap rfl rfl, ⟨nofun, ?_⟩⟩
  · intro x hx
    rcases mem_pair.mp hx with rfl | rfl
    · exact hstring
    · exact hfree .list
  · intro x hx
    rcases mem_pair.mp hx with rfl | rfl
    · exact hstring
    · exact hfree .vector

theorem javaHash_eq_of_trieFree_listMap :
    (layer (fun _ ↦ []) 2).eq listMap vectorSortedMap = true ∧
    ∀ hashType, (layer (fun _ ↦ []) 2).javaHash hashType listMap =
      (layer (fun _ ↦ []) 2).javaHash hashType vectorSortedMap := by
  have heq : (layer (fun _ ↦ []) 2).eq listMap vectorSortedMap = true := by decide +kernel
  obtain ⟨hwf, hfree, hwf', hfree'⟩ := wellFormed_listMap
  refine ⟨heq, ?_⟩
  intro hashType
  exact javaHash_eq_of_trieFree hashType hwf hwf' hfree hfree' heq

/-- A hash map finds under the one what is stored under the other. -/
theorem hashes_respect_eq_iff_listMap :
    (layer (fun _ ↦ []) 2).eq listMap vectorSortedMap = true ∧
    ∀ ops : List (Champ.Op (Keys (layer (fun _ ↦ []) 2) {listMap, vectorSortedMap}) ℕ),
      ∃ s, Champ.history (fun k ↦ (layer (fun _ ↦ []) 2).placementHash k.1) ops = .ok s ∧
        ∀ p ∈ Champ.Bindings.history ops,
          ∀ k : Keys (layer (fun _ ↦ []) 2) {listMap, vectorSortedMap},
            (layer (fun _ ↦ []) 2).eq p.1.1 k.1 = true →
              s.get (fun k ↦ (layer (fun _ ↦ []) 2).placementHash k.1) k = .ok (some p.2) := by
  obtain ⟨hwf, hfree, hwf', hfree'⟩ := wellFormed_listMap
  have hsequence (kind : SequentialKind) : Searchable (fun _ ↦ []) 1 (numbers kind [1]) :=
    searchable_sequential fun _ _ ↦ trivial
  have hS : ∀ a ∈ ({listMap, vectorSortedMap} : Set (layer (fun _ ↦ []) 2).Carrier),
      WellFormed (fun _ ↦ []) 2 a ∧ Searchable (fun _ ↦ []) 2 a ∧ TrieFree (fun _ ↦ []) 2 a ∧
        (layer (fun _ ↦ []) 2).asAtom a = none := by
    rintro a (rfl | rfl)
    · exact ⟨hwf, searchable_one (hsequence .list) ⟨_, rfl⟩ rfl rfl, hfree, rfl⟩
    · exact ⟨hwf', searchable_one (hsequence .vector) stored_vectorSortedMap rfl rfl, hfree', rfl⟩
  refine ⟨by decide +kernel, (hashes_respect_eq_iff (fun _ ↦ []) 2).2 _ (fun a ha ↦ (hS a ha).1)
    (equivBEq_keys fun a ha ↦ (hS a ha).2.1) ?_ ℕ⟩
  intro a ha b hb _
  refine ⟨?_, ?_⟩
  · rw [trieDeficit_eq_zero a (hS a ha).2.2.1, trieDeficit_eq_zero b (hS b hb).2.2.1]
  · rintro i (⟨hi, -⟩ | ⟨hi, -⟩) <;> rw [(hS a ha).2.2.2] at hi <;> cases hi

/-! ## A trie and a map -/

/-- The trie with the entry `"a" 1`. -/
def oneTrie : (layer (fun _ ↦ []) 1).Carrier := Data.trie [(['a'], Atom.number 1)]

/-- The map with the entry `"a" 1`. -/
def oneMap : (layer (fun _ ↦ []) 1).Carrier :=
  Data.map (completed .new
    (Champ.Standard.assocValue (layer (fun _ ↦ []) 0).placementHash .new
      (Atom.string ['a']) (Atom.number 1)))

/-- The trie and the map are equal but have different hashes, so that a hash map does not find under
the one what is stored under the other. The same goes for the number `100` and the big integer. -/
theorem hashes_oneTrie_oneMap :
    WellFormed (fun _ ↦ []) 1 oneTrie ∧ WellFormed (fun _ ↦ []) 1 oneMap ∧
    (layer (fun _ ↦ []) 1).eq oneTrie oneMap = true ∧
    (layer (fun _ ↦ []) 1).eq oneMap oneTrie = true ∧
    (∀ hashType, (layer (fun _ ↦ []) 1).javaHash hashType oneTrie ≠
      (layer (fun _ ↦ []) 1).javaHash hashType oneMap) ∧
    (do
      let s ← Champ.Standard.assocValue (layer (fun _ ↦ []) 1).placementHash .new oneTrie ()
      s.get (layer (fun _ ↦ []) 1).placementHash oneMap) = .ok none ∧
    (layer (fun _ ↦ []) 0).eq (Atom.number 100) (Atom.bigInteger 100) = true ∧
    (do
      let s ← Champ.Standard.assocValue (layer (fun _ ↦ []) 0).placementHash .new
        (Atom.number 100) ()
      s.get (layer (fun _ ↦ []) 0).placementHash (Atom.bigInteger 100)) = .ok none := by
  have hnumber : WellFormed (fun _ ↦ []) 0 (Atom.number 1) := nofun
  refine ⟨wellFormed_one hnumber trivial rfl rfl, wellFormed_one hnumber ⟨_, rfl⟩ rfl rfl, ?_⟩
  refine ⟨by decide +kernel, by decide +kernel, ?_, by decide +kernel, by decide +kernel,
    by decide +kernel⟩
  intro hashType
  cases hashType <;> decide +kernel

end Hara.Values
