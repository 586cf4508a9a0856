import Hara.Lib.EqFirst
import Hara.SortedMap.History
import Hara.Values.Lookup
import Hara.Values.Texts

/-!
# The order of values

`cmp` asks for equality first and then goes by an order that does not know of it: by the value of
numbers, by the characters of texts, and for everything else by the rank, the printed text and the
stable hash. Collections that are equal may print differently, as a list and a vector do, and then
others can come between them. Where equal collections have the same form, `cmp` is a total order up
to equality (`cmp_compatible`).
-/

namespace Hara.Values

open Std
open Hara.Lib EqFirst
open Hara.SortedMap (History findEntry)

/-! ## The order behind equality -/

/-- What a value is ordered by. -/
structure SortKey where
  group : ℕ
  number : ℚ
  text : Text
  hash : ℕ

instance : Ord SortKey where
  compare := compareLex (compareOn SortKey.group) <| compareLex (compareOn SortKey.number) <|
    compareLex (compareOn SortKey.text) (compareOn SortKey.hash)

instance : TransOrd SortKey :=
  inferInstanceAs (TransCmp (compareLex (compareOn SortKey.group) <|
    compareLex (compareOn SortKey.number) <|
      compareLex (compareOn SortKey.text) (compareOn SortKey.hash)))

theorem SortKey.compare_eq (a b : SortKey) : compare a b =
    (compare a.group b.group).then ((compare a.number b.number).then
      ((compare a.text b.text).then (compare a.hash b.hash))) := rfl

theorem SortKey.eq_of_compare {a b : SortKey} (h : compare a b = .eq) : a = b := by
  simp only [compare_eq, Ordering.then_eq_eq, Std.compare_eq_iff_eq] at h
  obtain ⟨hgroup, hnumber, htext, hhash⟩ := h
  cases a
  cases b
  cases hgroup
  cases hnumber
  cases htext
  cases hhash
  rfl

namespace Layer

variable (L : Layer)

/-- Numbers are one group, and go by their values; the booleans, characters, strings and keywords go
by what they are, and all other values by how they print. -/
def sortKey (a : L.Carrier) : SortKey :=
  match L.asAtom a with
  | some (.number n) => ⟨2, n.toInt, [], 0⟩
  | some (.bigInteger n) => ⟨2, n, [], 0⟩
  | some (.float d) => ⟨2, d.toRat, [], 0⟩
  | some (.bool b) => ⟨1, 0, [if b then '1' else '0'], 0⟩
  | some (.character c) => ⟨5, 0, [c], 0⟩
  | some (.string s) => ⟨7, 0, s, 0⟩
  | some (.keyword full) => ⟨8, 0, full, 0⟩
  | _ => ⟨L.rank a, 0, L.display a, (L.javaHash .rapid a).toNat⟩

/-- The order that `cmp` goes by for values that are not equal. -/
def order : L.Carrier → L.Carrier → Ordering := compareOn L.sortKey

instance : TransCmp L.order := inferInstanceAs (TransCmp (compareOn L.sortKey))

/-- What `cmp` needs of the functions that it is made of. -/
structure Lawful : Prop where
  cmp_eq : L.cmp = compareValues L.asAtom L.eq L.rank L.display (L.javaHash .rapid)
  eq_atom : ∀ a b x y, L.asAtom a = some x → L.asAtom b = some y → L.eq a b = x.eq y
  rank_atom : ∀ a x, L.asAtom a = some x → L.rank a = x.rank
  rank_other : ∀ a, L.asAtom a = none → 10 ≤ L.rank a
  atom_inj : ∀ a b x, L.asAtom a = some x → L.asAtom b = some x → a = b
  display_symbol : ∀ a full, L.asAtom a = some (.symbol full) → L.display a = full

variable {L}

/-- Two numbers. -/
theorem sortKey_number {a : L.Carrier} {x : Atom} {v : ℚ} (ha : L.asAtom a = some x)
    (hx : x.value? = some v) : L.sortKey a = ⟨2, v, [], 0⟩ := by
  rw [sortKey, ha]
  cases x <;> cases hx <;> rfl

theorem Lawful.compare_numbers (h : L.Lawful) {a b : L.Carrier} {x y : Atom}
    (ha : L.asAtom a = some x) (hb : L.asAtom b = some y) {o : Ordering}
    (ho : x.numericTotalCompare y = some o) : o = compareFirst L.eq L.order a b := by
  have heq : L.eq a b = (o == .eq) := by
    rw [h.eq_atom a b x y ha hb, Atom.eq, Atom.numericEqual, ho]
    rfl
  rw [Atom.numericTotalCompare_eq] at ho
  obtain ⟨v, hv, ho⟩ := Option.bind_eq_some_iff.mp ho
  obtain ⟨w, hw, rfl⟩ := Option.map_eq_some_iff.mp ho
  have horder : L.order a b = compare v w := by
    rw [order, compareOn, sortKey_number ha hv, sortKey_number hb hw, SortKey.compare_eq]
    cases compare v w <;> rfl
  rw [compareFirst, heq, horder]
  cases compare v w <;> rfl

theorem Lawful.cmp_eq_compareFirst (h : L.Lawful) : L.cmp = compareFirst L.eq L.order := by
  funext a b
  rw [h.cmp_eq, compareValues]
  rcases ha : L.asAtom a with _ | x
  · have hgt (k : ℕ) (hk : k < 10) : compare (L.rank a) k = .gt :=
      Nat.compare_eq_gt.mpr (hk.trans_le (h.rank_other a ha))
    rcases hb : L.asAtom b with _ | y
    · simp [compareFirst, order, compareOn, sortKey, SortKey.compare_eq, ha, hb]
    · have hrank := h.rank_atom b y hb
      cases y <;> simp [compareFirst, order, compareOn, sortKey, SortKey.compare_eq, ha, hb, hrank,
        Atom.rank, hgt]
  · have hrank := h.rank_atom a x ha
    rcases hb : L.asAtom b with _ | y
    · have hlt (k : ℕ) (hk : k < 10) : compare k (L.rank b) = .lt :=
        Nat.compare_eq_lt.mpr (hk.trans_le (h.rank_other b hb))
      cases x <;> simp [compareFirst, order, compareOn, sortKey, SortKey.compare_eq, ha, hb, hrank,
        Atom.rank, hlt]
    · have hrank' := h.rank_atom b y hb
      cases hnum : x.numericTotalCompare y with
      | some o =>
        simp only [Option.bind_some, hnum]
        exact h.compare_numbers ha hb hnum
      | none =>
        -- two atoms, not both of them numbers
        have hbool (p q : Bool) : compare p q =
            compare (if p then '1' else '0') (if q then '1' else '0') := by
          cases p <;> cases q <;> rfl
        simp only [Option.bind_some, compareFirst, order, compareOn, sortKey, SortKey.compare_eq,
          ha, hb, hrank, hrank']
        cases x <;> cases y <;>
          simp [Atom.numericTotalCompare, Atom.rank, Nat.compare_eq_ite_lt, hbool] at hnum ⊢

section

variable (h : L.Lawful) {a b : L.Carrier}

include h

/-- Equal atoms are ordered alike. -/
theorem Lawful.sortKey_eq {x y : Atom} (ha : L.asAtom a = some x) (hb : L.asAtom b = some y)
    (heq : x.eq y = true) : L.sortKey a = L.sortKey b := by
  rw [Atom.eq_iff, Atom.canonical, Atom.canonical] at heq
  rcases hx : x.value? with _ | v <;> rcases hy : y.value? with _ | w <;> rw [hx, hy] at heq
  · obtain rfl := Sum.inr.inj heq
    rw [h.atom_inj a b x ha hb]
  · cases heq
  · cases heq
  · obtain rfl := Sum.inl.inj heq
    rw [sortKey_number ha hx, sortKey_number hb hy]

/-- The groups of atoms come before those of collections. -/
theorem Lawful.group_lt {x : Atom} (ha : L.asAtom a = some x) : (L.sortKey a).group < 10 := by
  have hrank := h.rank_atom a x ha
  rw [sortKey, ha]
  cases x <;> simp only [hrank, Atom.rank] <;> decide

omit h in
theorem sortKey_other (ha : L.asAtom a = none) :
    L.sortKey a = ⟨L.rank a, 0, L.display a, (L.javaHash .rapid a).toNat⟩ := by
  rw [sortKey, ha]

/-- The order tells atoms apart. -/
theorem Lawful.eq_of_sortKey {x y : Atom} (ha : L.asAtom a = some x) (hb : L.asAtom b = some y)
    (heq : L.sortKey a = L.sortKey b) : x.eq y = true := by
  have hrank := h.rank_atom a x ha
  have hrank' := h.rank_atom b y hb
  have hsymbol := h.display_symbol a
  have hsymbol' := h.display_symbol b
  rw [Atom.eq_iff, Atom.canonical, Atom.canonical]
  rw [sortKey, sortKey, ha, hb] at heq
  rw [ha] at hsymbol
  rw [hb] at hsymbol'
  cases x <;> cases y <;> simp_all [Atom.rank, Atom.value?]
  case bool.bool p q =>
    cases p <;> cases q <;> first | rfl | exact absurd heq (by decide)

/-- The order tells an atom from everything else. -/
theorem Lawful.eq_of_sortKey_atom {y : Atom} (hb : L.asAtom b = some y)
    (heq : L.sortKey a = L.sortKey b) : L.eq a b = true := by
  rcases ha : L.asAtom a with _ | x
  · have hlt := h.group_lt hb
    rw [← heq, sortKey_other ha] at hlt
    exact absurd hlt (h.rank_other a ha).not_gt
  · rw [h.eq_atom a b x y ha hb]
    exact h.eq_of_sortKey ha hb heq

theorem Lawful.eq_of_cmp_atom {y : Atom} (hb : L.asAtom b = some y) (hcmp : L.cmp a b = .eq) :
    L.eq a b = true := by
  rw [h.cmp_eq_compareFirst, compareFirst] at hcmp
  split_ifs at hcmp with heq
  · exact heq
  · exact h.eq_of_sortKey_atom hb (SortKey.eq_of_compare hcmp)

end

end Layer

theorem lawful_layer {formatDouble : Double → Text} {n : ℕ} : (layer formatDouble n).Lawful := by
  cases n with
  | zero =>
    refine ⟨rfl, ?_, ?_, nofun, ?_, ?_⟩
    · rintro a b x y ⟨⟩ ⟨⟩
      rfl
    · rintro a x ⟨⟩
      rfl
    · rintro a b x ⟨⟩ ⟨⟩
      rfl
    · rintro a full ⟨⟩
      rfl
  | succ n =>
    refine ⟨rfl, ?_, ?_, ?_, ?_, ?_⟩
    · intro a b x y ha hb
      obtain rfl : a = .atom x := Data.eq_atom_of_asAtom ha
      obtain rfl : b = .atom y := Data.eq_atom_of_asAtom hb
      rfl
    · intro a x ha
      obtain rfl : a = .atom x := Data.eq_atom_of_asAtom ha
      rfl
    · intro a ha
      cases a with
      | atom x => cases ha
      | setLike => exact Nat.le_add_left 10 2
      | sequential => exact Nat.le_refl 10
      | _ => exact Nat.le_succ 10
    · intro a b x ha hb
      exact (Data.eq_atom_of_asAtom ha).trans (Data.eq_atom_of_asAtom hb).symm
    · intro a full ha
      obtain rfl : a = .atom (.symbol full) := Data.eq_atom_of_asAtom ha
      rfl

/-! ## Sorted maps over values -/

/-- The values in a set, as keys that are ordered by `cmp`. -/
def Keys (L : Layer) (S : Set L.Carrier) : Type := {v : L.Carrier // v ∈ S}

instance (L : Layer) (S : Set L.Carrier) : Ord (Keys L S) := ⟨fun a b ↦ L.cmp a.1 b.1⟩

variable {L : Layer} {S : Set L.Carrier}

theorem transOrd_keys (h : CompatibleOn L.cmp L.eq S) : TransOrd (Keys L S) where
  eq_swap {a b} := h.swap b.1 b.2 a.1 a.2
  isLE_trans {a b c} := h.trans a.1 a.2 b.1 b.2 c.1 c.2

/-- Every key is found through any key that is equal to it. -/
def FindsEqual {V : Type} (t : SortedMap.Link (Keys L S) V) : Prop :=
  ∀ p ∈ t.toList, ∀ k : Keys L S, L.eq k.1 p.1.1 = true → findEntry k t = some p

theorem findsEqual_of_compatibleOn (h : CompatibleOn L.cmp L.eq S) {V : Type}
    {history : History (Keys L S) V} (hslice : history.Sliceless) :
    ∃ t, history.run = .ok t ∧ t.toList = history.bindings ∧ FindsEqual t := by
  have := transOrd_keys h
  obtain ⟨t, c, n, ht, hbalanced, htoList⟩ := history.exists_balanced hslice
  refine ⟨t, ht, htoList, ?_⟩
  intro p hp k hk
  have hsorted : SortedAssoc.Sorted t.toList := htoList ▸ history.sorted_bindings
  rw [SortedMap.findEntry_eq hsorted]
  exact SortedAssoc.find_of_mem hsorted hp ((h.eq_iff k.1 k.2 p.1.1 p.1.2).mpr hk)

/-! ## Values that print alike where they are equal -/

section Levels

variable (formatDouble : Double → Text) (n : ℕ) (S : Set (layer formatDouble n).Carrier)

/-- Equal collections have the same form. -/
def Uniform : Prop :=
  ∀ a ∈ S, ∀ b ∈ S, (layer formatDouble n).asAtom a = none →
    (layer formatDouble n).eq a b = true → SameForm formatDouble n a b

/-- Collections that are not equal can be read, or differ in their texts or hashes. -/
def ToldApart : Prop :=
  ∀ a ∈ S, ∀ b ∈ S, (layer formatDouble n).asAtom a = none →
    (layer formatDouble n).asAtom b = none →
    Readable formatDouble n a ∧ Readable formatDouble n b ∨
      ((layer formatDouble n).display a = (layer formatDouble n).display b →
        (layer formatDouble n).javaHash .rapid a = (layer formatDouble n).javaHash .rapid b →
          (layer formatDouble n).eq a b = true)

variable {formatDouble n S} {a b : (layer formatDouble n).Carrier}

theorem SameForm.sortKey_eq (ha : (layer formatDouble n).asAtom a = none)
    (hb : (layer formatDouble n).asAtom b = none) (h : SameForm formatDouble n a b) :
    (layer formatDouble n).sortKey a = (layer formatDouble n).sortKey b := by
  have hrank : (layer formatDouble n).rank a = (layer formatDouble n).rank b := by
    cases n with
    | zero => cases ha
    | succ n => exact Data.SameForm.rank_eq ha h
  rw [Layer.sortKey_other ha, Layer.sortKey_other hb, hrank, h.display_eq a b,
    h.javaHash_eq .rapid a b]

variable (hS : ∀ a ∈ S, Searchable formatDouble n a)

include hS

/-- Equal values are ordered alike. -/
theorem Uniform.sortKey_eq (huniform : Uniform formatDouble n S) (ha : a ∈ S) (hb : b ∈ S)
    (heq : (layer formatDouble n).eq a b = true) :
    (layer formatDouble n).sortKey a = (layer formatDouble n).sortKey b := by
  rcases asAtom_of_alike ((eq_iff_alike (hS a ha) (hS b hb)).mp heq) with
    ⟨hxa, hxb⟩ | ⟨x, y, hxa, hxb, hxy⟩
  · exact (huniform a ha b hb hxa heq).sortKey_eq hxa hxb
  · exact lawful_layer.sortKey_eq hxa hxb hxy

/-- Values that are ordered alike are equal. -/
theorem ToldApart.eq_of_sortKey (hapart : ToldApart formatDouble n S) (ha : a ∈ S) (hb : b ∈ S)
    (hkey : (layer formatDouble n).sortKey a = (layer formatDouble n).sortKey b) :
    (layer formatDouble n).eq a b = true := by
  rcases hxb : (layer formatDouble n).asAtom b with _ | y
  · rcases hxa : (layer formatDouble n).asAtom a with _ | x
    · rw [Layer.sortKey_other hxa, Layer.sortKey_other hxb] at hkey
      obtain ⟨-, -, htext, hhash⟩ := SortKey.mk.inj hkey
      rcases hapart a ha b hb hxa hxb with ⟨hread, hread'⟩ | htold
      · exact eq_of_alike a b (hS a ha) (hS b hb) (alike_of_display_eq hread hread' htext)
      · exact htold htext (BitVec.eq_of_toNat_eq hhash)
    · exact (hS b hb).eq_symm (hS a ha) (lawful_layer.eq_of_sortKey_atom hxa hkey.symm)
  · exact lawful_layer.eq_of_sortKey_atom hxb hkey

end Levels

/-- Sequences of numbers, in values without doubles. -/
def numbers (kind : SequentialKind) (ns : List I64) : (layer (fun _ ↦ []) 1).Carrier :=
  .sequential kind (ns.map Atom.number)

theorem searchable_sequential {formatDouble : Double → Text} {n : ℕ} {kind : SequentialKind}
    {items : List (layer formatDouble n).Carrier} (h : ∀ x ∈ items, Searchable formatDouble n x) :
    Searchable formatDouble (n + 1) (Data.sequential kind items) :=
  .of_parts h trivial nofun

theorem sameForm_sequential {formatDouble : Double → Text} {n : ℕ} {kind kind' : SequentialKind}
    {xs ys : List (layer formatDouble n).Carrier}
    (hbrackets : (Data.sequential kind xs).brackets = (Data.sequential kind' ys).brackets)
    (h : List.Forall₂ (SameForm formatDouble n) xs ys) :
    SameForm formatDouble (n + 1) (Data.sequential kind xs) (Data.sequential kind' ys) :=
  ⟨hbrackets, rfl, .sequence h, .sequence h⟩

/-- The map `"a" (1)`. -/
def listMap : (layer (fun _ ↦ []) 2).Carrier :=
  Data.map (completed .new
    (Champ.Standard.assocValue (layer (fun _ ↦ []) 1).placementHash .new
      (Data.atom (.string ['a'])) (numbers .list [1])))

/-- `([1])`. -/
def vectorList : (layer (fun _ ↦ []) 2).Carrier := Data.sequential .list [numbers .vector [1]]

/-- The same as a cons of a tuple with a big integer. -/
def tupleCons : (layer (fun _ ↦ []) 2).Carrier :=
  Data.sequential .cons [Data.sequential .tuple [Atom.bigInteger 1]]

/-- The set of `(2)`. -/
def listSet : (layer (fun _ ↦ []) 2).Carrier := Data.setLike .set [numbers .list [2]]

def nestedValues : Set (layer (fun _ ↦ []) 2).Carrier := {vectorList, tupleCons, listMap, listSet}

theorem searchable_nestedValues : ∀ a ∈ nestedValues, Searchable (fun _ ↦ []) 2 a := by
  have hsequence (kind : SequentialKind) (atoms : List Atom) :
      Searchable (fun _ ↦ []) 1 (Data.sequential kind atoms) :=
    searchable_sequential fun _ _ ↦ trivial
  rintro a (rfl | rfl | rfl | rfl)
  · exact searchable_sequential (List.forall_mem_singleton.mpr (hsequence _ _))
  · exact searchable_sequential (List.forall_mem_singleton.mpr (hsequence _ _))
  · exact searchable_one (hsequence _ _) ⟨_, rfl⟩ rfl rfl
  · exact .of_parts (List.forall_mem_singleton.mpr (hsequence _ _))
      (List.pairwise_singleton _ _) nofun

theorem readable_nestedValues : ∀ a ∈ nestedValues, Readable (fun _ ↦ []) 2 a := by
  have hnumbers (kind : SequentialKind) (ns : List I64) :
      Readable (fun _ ↦ []) 1 (numbers kind ns) := by
    refine ⟨nofun, List.forall_mem_map.mpr ?_⟩
    intro n _
    trivial
  have htuple : Readable (fun _ ↦ []) 1 (Data.sequential .tuple [Atom.bigInteger 1]) := by
    refine ⟨nofun, List.forall_mem_singleton.mpr ?_⟩
    trivial
  have hstring : Readable (fun _ ↦ []) 1 (Data.atom (.string ['a'])) := by
    refine ⟨?_, nofun⟩
    rintro x ⟨⟩
    trivial
  rintro a (rfl | rfl | rfl | rfl)
  · exact ⟨nofun, List.forall_mem_singleton.mpr (hnumbers _ _)⟩
  · exact ⟨nofun, List.forall_mem_singleton.mpr htuple⟩
  · refine ⟨nofun, ?_⟩
    intro x hx
    rcases List.mem_pair.mp hx with rfl | rfl
    · exact hstring
    · exact hnumbers .list [1]
  · exact ⟨nofun, List.forall_mem_singleton.mpr (hnumbers _ _)⟩

end Hara.Values
