import Hara.Champ.Answers
import Hara.OrderedMap.Standard
import Hara.Vector.Layout

/-!
# The two parts of an ordered map agree

## The invariant

`Linked f slots`: the index map sends a key to an index and a value exactly when the slot at that
index has the key and the value. So the live keys are different from each other, and each of them
has one slot. The bindings are what stands in the slots, in order.

A slot that is replaced or emptied is the only one with its key. Setting it is therefore the same
as doing something to every slot, and the bindings change as a list does under `map` and `filter`.
-/

namespace Hara.OrderedMap

open List hiding erase iter lookup set

open Hara.Champ (Hash Answers Respects update erase)
open Hara.Vector (Represents)
open Standard

variable {K V : Type} [BEq K] {slots : List (Option (K × V))} {bindings : List (K × V)} {value : V}

/-! ## The model -/

/-- The list with a new value for a key: where the key is, or at the end. -/
def upsert (key : K) (value : V) (bindings : List (K × V)) : List (K × V) :=
  if bindings.any fun p ↦ p.1 == key then
    bindings.map fun p ↦ if p.1 == key then (key, value) else p
  else bindings ++ [(key, value)]

/-- The list without a key. -/
def without (key : K) (bindings : List (K × V)) : List (K × V) :=
  bindings.filter fun p ↦ !(p.1 == key)

/-- The value of a key. -/
def valueOf (key : K) (bindings : List (K × V)) : Option V :=
  (bindings.find? fun p ↦ p.1 == key).map Prod.snd

/-! ## Slots -/

/-- The index map points at the slots. -/
def Linked (f : K → Option (ℕ × V)) (slots : List (Option (K × V))) : Prop :=
  ∀ key index value, f key = some (index, value) ↔
    ∃ k, slots[index]? = some (some (k, value)) ∧ (k == key) = true

/-- The bindings in the slots. -/
def live (slots : List (Option (K × V))) : List (K × V) := slots.filterMap id

omit [BEq K] in
theorem mem_live {p : K × V} : p ∈ live slots ↔ ∃ index : ℕ, slots[index]? = some (some p) := by
  rw [live, mem_filterMap]
  constructor
  · rintro ⟨slot, hmem, rfl⟩
    exact mem_iff_getElem?.mp hmem
  · rintro ⟨index, hindex⟩
    exact ⟨some p, mem_of_getElem? hindex, rfl⟩

/-- Setting one slot, as a function of every slot. -/
theorem set_eq_map {α : Type} {slots : List α} {index : ℕ} {new : α} {g : α → α}
    (hhere : ∀ slot, slots[index]? = some slot → g slot = new)
    (hother : ∀ i slot, i ≠ index → slots[i]? = some slot → g slot = slot) :
    slots.set index new = slots.map g := by
  refine ext_getElem? fun i ↦ ?_
  rw [getElem?_map]
  by_cases hi : i = index
  · subst hi
    rw [getElem?_set_self']
    cases hslot : slots[i]? with
    | none => rfl
    | some slot => exact congrArg some (hhere slot hslot).symm
  · rw [getElem?_set_ne (Ne.symm hi)]
    cases hslot : slots[i]? with
    | none => rfl
    | some slot => exact congrArg some (hother i slot hi hslot).symm

theorem getElem?_concat_eq_some {α : Type} {l : List α} {i : ℕ} {a b : α} :
    (l ++ [b])[i]? = some a ↔ l[i]? = some a ∨ i = l.length ∧ b = a := by
  grind

namespace Linked

variable {f : K → Option (ℕ × V)} {key : K} {index : ℕ}

variable (h : Linked f slots) (hkey : f key = some (index, value))

include h hkey

theorem getElem? :
    ∃ k, slots[index]? = some (some (k, value)) ∧ (k == key) = true := (h key index value).mp hkey

/-- Only the slot of a key has it. -/
theorem index_unique {i : ℕ} {k : K} {v : V} (hslot : slots[i]? = some (some (k, v)))
    (hk : (k == key) = true) : i = index := by
  have hfound := (h key i v).mpr ⟨k, hslot, hk⟩
  rw [hkey] at hfound
  exact (Prod.mk.inj (Option.some.inj hfound)).1.symm

omit hkey in
/-- A key that the index map does not have is in no slot. -/
theorem absent (hkey : f key = none) {p : K × V} (hp : p ∈ live slots) :
    (p.1 == key) = false := by
  by_contra hk
  rw [Bool.not_eq_false] at hk
  obtain ⟨i, hslot⟩ := mem_live.mp hp
  have hfound := (h key i p.2).mpr ⟨p.1, hslot, hk⟩
  rw [hkey] at hfound
  cases hfound

omit hkey in
/-- A new key gets the next slot. -/
theorem push [EquivBEq K] (hkey : f key = none) (value : V) :
    Linked (update f key (slots.length, value)) (slots ++ [some (key, value)]) := by
  intro key' i v
  rw [update]
  simp only [getElem?_concat_eq_some]
  by_cases hk : (key == key') = true
  · rw [if_pos hk]
    constructor
    · rintro ⟨⟩
      exact ⟨key, .inr ⟨rfl, rfl⟩, hk⟩
    · rintro ⟨k, hslot | ⟨rfl, hnew⟩, hk'⟩
      · have hsame : (k == key) = true := BEq.trans hk' (BEq.symm hk)
        rw [h.absent hkey (mem_live.mpr ⟨i, hslot⟩)] at hsame
        cases hsame
      · cases hnew
        rfl
  · rw [if_neg hk, h key' i v]
    refine exists_congr fun k ↦ and_congr_left fun hk' ↦ (or_iff_left ?_).symm
    rintro ⟨-, ⟨⟩⟩
    exact hk hk'

/-- The slot of a key is replaced by one with the key, or by none. -/
theorem replace [EquivBEq K] (slot : Option (K × V))
    (hnew : ∀ p, slot = some p → (p.1 == key) = true) :
    Linked (fun key' ↦ if key == key' then slot.map fun p ↦ (index, p.2) else f key')
      (slots.set index slot) := by
  obtain ⟨k₀, hslot₀, hk₀⟩ := h.getElem? hkey
  obtain ⟨hlt, _⟩ := List.getElem?_eq_some_iff.mp hslot₀
  intro key' i v
  dsimp only
  by_cases hi : i = index
  · subst hi
    rw [getElem?_set_self hlt]
    by_cases hk : (key == key') = true
    · rw [if_pos hk]
      constructor
      · intro hpair
        obtain ⟨⟨k, w⟩, rfl, hsame⟩ := Option.map_eq_some_iff.mp hpair
        obtain ⟨_, rfl⟩ := Prod.mk.inj hsame
        exact ⟨k, rfl, BEq.trans (hnew _ rfl) hk⟩
      · rintro ⟨k, hslot, _⟩
        rw [Option.some.inj hslot]
        rfl
    · -- the slot had this key, and not the other one
      rw [if_neg hk]
      refine iff_of_false ?_ ?_
      · intro hother
        obtain ⟨k, hslot, hk'⟩ := h.getElem? hother
        rw [hslot₀] at hslot
        obtain ⟨rfl, _⟩ := Prod.mk.inj (Option.some.inj (Option.some.inj hslot))
        exact hk (BEq.trans (BEq.symm hk₀) hk')
      · rintro ⟨k, hslot, hk'⟩
        exact hk (BEq.trans (BEq.symm (hnew _ (Option.some.inj hslot))) hk')
  · rw [getElem?_set_ne (Ne.symm hi)]
    by_cases hk : (key == key') = true
    · rw [if_pos hk]
      refine iff_of_false ?_ ?_
      · intro hpair
        obtain ⟨p, _, hsame⟩ := Option.map_eq_some_iff.mp hpair
        exact hi (Prod.mk.inj hsame).1.symm
      · rintro ⟨k, hslot, hk'⟩
        exact hi (h.index_unique hkey hslot (BEq.trans hk' (BEq.symm hk)))
    · rw [if_neg hk]
      exact h key' i v

/-- The slot of a key gets another value. -/
theorem set [EquivBEq K] (new : V) :
    Linked (update f key (index, new)) (slots.set index (some (key, new))) := by
  refine h.replace hkey (some (key, new)) ?_
  rintro _ ⟨⟩
  exact BEq.rfl

/-- The slot of a key is emptied. -/
theorem clear [EquivBEq K] : Linked (erase f key) (slots.set index none) := by
  refine h.replace hkey none ?_
  rintro _ ⟨⟩

/-! ## The bindings -/

omit hkey in
theorem any_live : (live slots).any (fun p ↦ p.1 == key) = (f key).isSome := by
  cases hkey : f key with
  | none =>
    rw [Option.isSome_none, any_eq_false]
    exact fun p hp ↦ ne_true_of_eq_false (h.absent hkey hp)
  | some pair =>
    obtain ⟨index, value⟩ := pair
    obtain ⟨k, hslot, hk⟩ := h.getElem? hkey
    rw [Option.isSome_some, any_eq_true]
    exact ⟨(k, value), mem_live.mpr ⟨index, hslot⟩, hk⟩

omit hkey in
theorem live_push (hkey : f key = none) (value : V) :
    live (slots ++ [some (key, value)]) = upsert key value (live slots) := by
  rw [upsert, h.any_live, hkey, live, filterMap_append]
  rfl

/-- Replacing the slot of a key does to the bindings what `g` does to each of them. -/
theorem live_replace {slot : Option (K × V)} {g : K × V → Option (K × V)}
    (hhere : ∀ p, (p.1 == key) = true → g p = slot)
    (hother : ∀ p, (p.1 == key) = false → g p = some p) :
    live (slots.set index slot) = (live slots).filterMap g := by
  have hset : slots.set index slot = slots.map fun slot ↦ slot.bind g := by
    obtain ⟨k₀, hslot₀, hk₀⟩ := h.getElem? hkey
    refine set_eq_map ?_ ?_
    · intro slot hslot
      obtain rfl := Option.some.inj (hslot₀.symm.trans hslot)
      exact hhere _ hk₀
    · intro i slot hi hslot
      cases slot with
      | none => rfl
      | some p => exact hother p (Bool.eq_false_iff.mpr fun hk ↦ hi (h.index_unique hkey hslot hk))
  rw [hset, live, filterMap_map, live, filterMap_filterMap]
  rfl

theorem live_set (new : V) :
    live (slots.set index (some (key, new))) = upsert key new (live slots) := by
  rw [upsert, h.any_live, hkey, Option.isSome_some, if_pos rfl, ← filterMap_eq_map]
  exact h.live_replace hkey (fun p hp ↦ congrArg some (if_pos hp))
    fun p hp ↦ congrArg some (if_neg (Bool.eq_false_iff.mp hp))

theorem live_clear : live (slots.set index none) = without key (live slots) := by
  rw [without, ← filterMap_eq_filter]
  refine h.live_replace hkey ?_ ?_ <;> intro p hp <;> simp [hp]

/-- One binding fewer. -/
theorem length_live_clear :
    (live (slots.set index none)).length + 1 = (live slots).length := by
  obtain ⟨k, hslot, _⟩ := h.getElem? hkey
  obtain ⟨hlt, hget⟩ := List.getElem?_eq_some_iff.mp hslot
  rw [live, live, length_filterMap_eq_countP, length_filterMap_eq_countP, countP_set hlt, hget]
  have hpos : 0 < slots.countP fun slot ↦ (id slot).isSome :=
    countP_pos_iff.mpr ⟨_, mem_of_getElem? hslot, rfl⟩
  change List.countP _ slots - 1 + 0 + 1 = _
  omega

end Linked

/-! ## Ordered maps -/

section Maps

variable {keyHash : K → Hash} {map : Standard K V}

/-- The index map and the slots. -/
structure Parts (keyHash : K → Hash) (map : Standard K V) (f : K → Option (ℕ × V))
    (slots : List (Option (K × V))) : Prop where
  lookup : Answers keyHash map.lookup f (live slots).length
  order : Represents map.order slots
  linked : Linked f slots

/-- The map has these bindings, in this order. -/
def Holds (keyHash : K → Hash) (map : Standard K V) (bindings : List (K × V)) : Prop :=
  ∃ f slots, Parts keyHash map f slots ∧ bindings = live slots

namespace Holds

theorem new : Holds keyHash (Standard.new : Standard K V) [] := by
  refine ⟨_, [], ⟨.new, .new, ?_⟩, rfl⟩
  intro key index value
  refine iff_of_false nofun ?_
  rintro ⟨k, hslot, _⟩
  cases hslot

variable (h : Holds keyHash map bindings)

include h

theorem len_eq : map.len = bindings.length := by
  obtain ⟨f, slots, hparts, rfl⟩ := h
  exact hparts.lookup.len_eq

theorem iter_eq : map.iter = .ok bindings := by
  obtain ⟨f, slots, hparts, rfl⟩ := h
  rw [iter, hparts.order.toVec_eq]
  rfl

variable [EquivBEq K]

theorem distinct : bindings.Pairwise fun p q ↦ (p.1 == q.1) = false := by
  obtain ⟨f, slots, hparts, rfl⟩ := h
  refine pairwise_filterMap.mpr (pairwise_iff_getElem.mpr ?_)
  intro i j hi hj hlt p hp q hq
  by_contra hsame
  rw [Bool.not_eq_false] at hsame
  have hslot {n : ℕ} (hn : n < slots.length) {r : K × V} (hr : id slots[n] = some r) :
      slots[n]? = some (some (r.1, r.2)) := by
    rw [getElem?_eq_getElem hn]
    exact congrArg some hr
  have hfound := (hparts.linked q.1 j q.2).mpr ⟨q.1, hslot hj hq, BEq.rfl⟩
  exact ne_of_lt hlt (hparts.linked.index_unique hfound (hslot hi hp) hsame)

omit h in
theorem valueOf_eq {f : K → Option (ℕ × V)} (h : Linked f slots)
    (hdistinct : (live slots).Pairwise fun p q ↦ (p.1 == q.1) = false) (key : K) :
    valueOf key (live slots) = (f key).map Prod.snd := by
  rw [valueOf]
  cases hkey : f key with
  | none =>
    rw [find?_eq_none.mpr fun p hp ↦ ne_true_of_eq_false (h.absent hkey hp)]
    rfl
  | some pair =>
    obtain ⟨index, value⟩ := pair
    obtain ⟨k, hslot, hk⟩ := h.getElem? hkey
    have hfind : Lib.Keyed.lookup Prod.fst key (live slots) = some (k, value) :=
      (Lib.Keyed.lookup_eq_some_iff hdistinct).mpr ⟨mem_live.mpr ⟨index, hslot⟩, hk⟩
    rw [Lib.Keyed.lookup] at hfind
    rw [hfind]
    rfl

variable (hash_eq : Respects keyHash)
include hash_eq

theorem get_eq (key : K) : map.get keyHash key = .ok (valueOf key bindings) := by
  have hdistinct := h.distinct
  obtain ⟨f, slots, hparts, rfl⟩ := h
  rw [Standard.get, hparts.lookup.get_eq hash_eq, valueOf_eq hparts.linked hdistinct]
  rfl

/-- Both ways to set a value, from what they do to the parts. -/
theorem assocValueWith {pushLast : Vector.Standard (Option (K × V)) → Option (K × V) →
      Except Fault (Vector.Standard (Option (K × V)))}
    {assocOrder : Vector.Standard (Option (K × V)) → ℕ → Option (K × V) →
      Except Fault (Option (Vector.Standard (Option (K × V))))}
    (hpush : ∀ {slots} slot, Represents map.order slots → ∃ order, pushLast map.order slot =
      .ok order ∧ Represents order (slots ++ [slot]))
    (hassoc : ∀ {slots index} slot, Represents map.order slots → index < slots.length →
      ∃ order, assocOrder map.order index slot = .ok (some order) ∧
        Represents order (slots.set index slot)) {key : K} :
    ∃ map', map.assocValueWith keyHash (Champ.Standard.assocValue keyHash) pushLast assocOrder key
      value = .ok map' ∧ Holds keyHash map' (upsert key value bindings) := by
  obtain ⟨f, slots, hparts, rfl⟩ := h
  have hlen := hparts.order.len_eq
  rw [Standard.assocValueWith, hparts.lookup.get_eq hash_eq]
  cases hkey : f key with
  | none =>
    obtain ⟨lookup, hlookup, hanswers⟩ :=
      hparts.lookup.assocValue hash_eq key (map.order.len, value)
    obtain ⟨order, horder, hrep⟩ := hpush (some (key, value)) hparts.order
    simp only [hlookup, horder]
    rw [← hparts.linked.live_push hkey value]
    refine ⟨_, rfl, _, _, ⟨?_, hrep, hparts.linked.push hkey value⟩, rfl⟩
    rw [hkey, hlen] at hanswers
    rw [live, filterMap_append, length_append]
    exact hanswers
  | some pair =>
    obtain ⟨index, old⟩ := pair
    obtain ⟨lookup, hlookup, hanswers⟩ := hparts.lookup.assocValue hash_eq key (index, value)
    obtain ⟨k, hslot, _⟩ := hparts.linked.getElem? hkey
    obtain ⟨hindex, _⟩ := List.getElem?_eq_some_iff.mp hslot
    obtain ⟨order, horder, hrep⟩ := hassoc (some (key, value)) hparts.order hindex
    simp only [bind, Except.bind, hlookup, horder]
    have hlive := hparts.linked.live_set hkey value
    rw [← hlive]
    refine ⟨_, rfl, _, _, ⟨?_, hrep, hparts.linked.set hkey value⟩, rfl⟩
    have hcount : (upsert key value (live slots)).length = (live slots).length := by
      rw [upsert, hparts.linked.any_live, hkey, Option.isSome_some, if_pos rfl, length_map]
    rw [hkey] at hanswers
    rw [hlive, hcount]
    exact hanswers

theorem assocValue (key : K) :
    ∃ map', map.assocValue keyHash key value = .ok map' ∧
      Holds keyHash map' (upsert key value bindings) :=
  h.assocValueWith hash_eq (fun slot hrep ↦ hrep.pushLast slot)
    (fun slot hrep hindex ↦ hrep.assocValue_of_lt hindex slot)

theorem assocValueOwned {key : K} :
    ∃ map', map.assocValueOwned keyHash key value = .ok map' ∧
      Holds keyHash map' (upsert key value bindings) :=
  h.assocValueWith hash_eq (fun _ hrep ↦ hrep.pushLastOwned)
    (fun _ hrep hindex ↦ hrep.assocValueWith_of_lt (Vector.readies_editable _) hindex)

omit h in
/-- Different keys, put in one after the other, are listed as they came. -/
theorem fromIter (bindings : List (K × V))
    (hdistinct : bindings.Pairwise fun p q ↦ (p.1 == q.1) = false) :
    ∃ map, fromIter keyHash bindings = .ok map ∧ Holds keyHash map bindings := by
  have hfold : ∀ (map : Standard K V) (before : List (K × V)), Holds keyHash map before →
      (∀ p ∈ before, ∀ q ∈ bindings, (p.1 == q.1) = false) →
      ∃ map', bindings.foldlM (fun map p ↦ map.assocValue keyHash p.1 p.2) map = .ok map' ∧
        Holds keyHash map' (before ++ bindings) := by
    induction bindings with
    | nil => exact fun map before h _ ↦ ⟨map, rfl, by rwa [append_nil]⟩
    | cons p bindings ih =>
      intro map before h hnew
      obtain ⟨hfirst, hrest⟩ := pairwise_cons.mp hdistinct
      obtain ⟨map', hassoc, hholds⟩ := h.assocValue hash_eq p.1
      have hadd : upsert p.1 p.2 before = before ++ [p] := by
        rw [upsert, if_neg]
        rw [any_eq_true]
        rintro ⟨q, hq, hsame⟩
        rw [hnew q hq p mem_cons_self] at hsame
        cases hsame
      rw [hadd] at hholds
      obtain ⟨map'', hrun, hholds'⟩ := ih hrest map' _ hholds <| by
        intro q hq r hr
        rcases mem_append.mp hq with hq | hq
        · exact hnew q hq r (mem_cons_of_mem _ hr)
        · rw [mem_singleton.mp hq]
          exact hfirst r hr
      rw [append_assoc] at hholds'
      refine ⟨map'', ?_, hholds'⟩
      rw [foldlM_cons, hassoc]
      exact hrun
  exact hfold _ [] new (fun p hp ↦ absurd hp not_mem_nil)

/-- Building everything again changes nothing that can be seen. -/
theorem compactIfSparse :
    ∃ map', map.compactIfSparse keyHash = .ok map' ∧ Holds keyHash map' bindings := by
  rw [Standard.compactIfSparse]
  by_cases hdense : map.order.len ≤ compactMinimum ∨ map.order.len ≤ 2 * map.lookup.len
  · rw [if_pos hdense]
    exact ⟨map, rfl, h⟩
  · rw [if_neg hdense, h.iter_eq]
    exact fromIter hash_eq bindings h.distinct

theorem dissocValue (key : K) :
    ∃ map', map.dissocValue keyHash key = .ok map' ∧
      Holds keyHash map' (without key bindings) := by
  obtain ⟨f, slots, hparts, rfl⟩ := h
  rw [Standard.dissocValue, hparts.lookup.get_eq hash_eq]
  cases hkey : f key with
  | none =>
    refine ⟨map, rfl, f, slots, hparts, ?_⟩
    refine filter_eq_self.mpr fun p hp ↦ ?_
    rw [hparts.linked.absent hkey hp]
    rfl
  | some pair =>
    obtain ⟨lookup, hlookup, hanswers⟩ := hparts.lookup.dissocValue hash_eq key (by rw [hkey]; rfl)
    obtain ⟨k, hslot, _⟩ := hparts.linked.getElem? hkey
    obtain ⟨hindex, _⟩ := List.getElem?_eq_some_iff.mp hslot
    obtain ⟨order, horder, hrep⟩ := hparts.order.assocValue_of_lt hindex none
    simp only [bind, Except.bind, hlookup, horder]
    refine compactIfSparse ⟨_, _, ⟨?_, hrep, hparts.linked.clear hkey⟩,
      (hparts.linked.live_clear hkey).symm⟩ hash_eq
    rw [← hparts.linked.length_live_clear hkey] at hanswers
    exact hanswers

end Holds

end Maps

/-! ## Runs -/

inductive Op (K V : Type) where
  | assocValue (key : K) (value : V)
  | assocValueOwned (key : K) (value : V)
  | dissocValue (key : K)

def Op.apply (keyHash : K → Hash) (map : Standard K V) : Op K V → Except Fault (Standard K V)
  | assocValue key value => map.assocValue keyHash key value
  | assocValueOwned key value => map.assocValueOwned keyHash key value
  | dissocValue key => map.dissocValue keyHash key

def run (keyHash : K → Hash) (ops : List (Op K V)) : Except Fault (Standard K V) :=
  ops.foldlM (Op.apply keyHash) Standard.new

/-- The operation on the list of the bindings, oldest first. -/
def Op.model (bindings : List (K × V)) : Op K V → List (K × V)
  | assocValue key value => upsert key value bindings
  | assocValueOwned key value => upsert key value bindings
  | dissocValue key => without key bindings

def model (ops : List (Op K V)) : List (K × V) := ops.foldl Op.model []

/-- The index map and the order vector say the same. -/
structure Consistent (keyHash : K → Hash) (map : Standard K V) (slots : List (Option (K × V))) :
    Prop where
  order : map.order.toVec = .ok slots
  /-- A live key's index points at a slot with the key and the value. -/
  points : ∀ key index value, map.lookup.get keyHash key = .ok (some (index, value)) →
    ∃ k, slots[index]? = some (some (k, value)) ∧ (k == key) = true
  /-- A slot that is not empty is the slot of its key. -/
  pointed : ∀ (index : ℕ) k value, slots[index]? = some (some (k, value)) →
    map.lookup.get keyHash k = .ok (some (index, value))
  count : slots.countP Option.isSome = map.len

section Runs

variable [EquivBEq K] {keyHash : K → Hash} (hash_eq : Respects keyHash)
include hash_eq

theorem Holds.consistent {map : Standard K V} (h : Holds keyHash map bindings) :
    ∃ slots, Consistent keyHash map slots := by
  obtain ⟨f, slots, hparts, rfl⟩ := h
  refine ⟨slots, hparts.order.toVec_eq, ?_, ?_, ?_⟩
  · intro key index value hget
    rw [hparts.lookup.get_eq hash_eq] at hget
    exact hparts.linked.getElem? (Except.ok.inj hget)
  · intro index k value hslot
    rw [hparts.lookup.get_eq hash_eq]
    exact congrArg Except.ok ((hparts.linked k index value).mpr ⟨k, hslot, BEq.rfl⟩)
  · rw [Standard.len, hparts.lookup.len_eq, live, length_filterMap_eq_countP]
    rfl

theorem Holds.apply {map : Standard K V} (h : Holds keyHash map bindings) (op : Op K V) :
    ∃ map', op.apply keyHash map = .ok map' ∧ Holds keyHash map' (op.model bindings) := by
  cases op with
  | assocValue key value => exact h.assocValue hash_eq key
  | assocValueOwned key value => exact h.assocValueOwned hash_eq
  | dissocValue key => exact h.dissocValue hash_eq key

end Runs

/-- After every run the two parts of the map are consistent, and the map lists and finds the
bindings of the model. -/
theorem orderedMap_refines [EquivBEq K] (keyHash : K → Hash) (hash_eq : Respects keyHash)
    (ops : List (Op K V)) :
    ∃ map, run keyHash ops = .ok map ∧ (∃ slots, Consistent keyHash map slots) ∧
      map.iter = .ok (model ops) ∧ map.len = (model ops).length ∧
      ∀ key, map.get keyHash key = .ok (valueOf key (model ops)) := by
  obtain ⟨map, hrun, hholds⟩ := Except.exists_foldlM (fun op h ↦ h.apply hash_eq op) Holds.new ops
  exact ⟨map, hrun, hholds.consistent hash_eq, hholds.iter_eq, hholds.len_eq, hholds.get_eq hash_eq⟩

/-- A key that is replaced, and one that is removed and comes again. -/
def returningOps : List (Op ℕ ℕ) :=
  [.assocValue 0 10, .assocValueOwned 3 11, .assocValue 1 12, .dissocValue 0, .assocValue 3 13,
    .assocValueOwned 0 14]

theorem orderedMap_refines_returningOps :
    (∃ map, run Champ.coarseHash returningOps = .ok map ∧
      (∃ slots, Consistent Champ.coarseHash map slots) ∧
      map.iter = .ok (model returningOps) ∧ map.len = (model returningOps).length ∧
      ∀ key, map.get Champ.coarseHash key = .ok (valueOf key (model returningOps))) ∧
    model returningOps = [(3, 13), (1, 12), (0, 14)] :=
  ⟨orderedMap_refines Champ.coarseHash (fun k k' h ↦ by rw [eq_of_beq h]) returningOps, by decide⟩

end Hara.OrderedMap
