import Hara.Lib.Buckets
import Hara.OrderedMap.Refinement
import Hara.PriorityMap.Standard
import Hara.SortedMap.Balance

/-!
# Priority maps list their keys in stable order of priority

## The model

The state is the list of the entries in the order in which `iter` goes over them. An entry is a key
with its priority and the number of the operation by which the key took that priority. Setting a
priority that the key has already changes nothing; any other priority takes the key out and places
it behind all entries of no greater priority.

## The invariant

The buckets hold the entries in groups, one for each priority. The key of a bucket is the priority
of one of its entries, and is equivalent to the priorities of the others.
-/

namespace Hara.PriorityMap

open List hiding drop drop_cons erase insert iter lookup lookup_eq_none_iff lookup_eq_some_iff

open Hara.Champ (Hash Answers Respects)
open Hara.Lib Keyed SortedAssoc Buckets
open Hara.SortedMap (Link Balanced findEntry_eq toList_put yields_iter)
open Standard Std

variable {K V : Type} {now : ℕ} {key : K}

/-! ## The model -/

/-- A key, its priority, and when it took the priority. -/
structure Entry (K V : Type) where
  key : K
  priority : V
  since : ℕ
  deriving DecidableEq

/-- Of lower priority, or of the same priority for longer. -/
def Entry.Before [Ord V] : Entry K V → Entry K V → Prop :=
  Buckets.Before Entry.priority Entry.since

section Model

variable [BEq K]

/-- The priority of a key. -/
def priorityOf (key : K) (entries : List (Entry K V)) : Option V :=
  (lookup Entry.key key entries).map Entry.priority

/-- The entries after a key gets a priority, at the given time. -/
def reprioritise [BEq V] [Ord V] (key : K) (priority : V) (now : ℕ) (entries : List (Entry K V)) :
    List (Entry K V) :=
  if priorityOf key entries == some priority then entries
  else place Entry.priority ⟨key, priority, now⟩ (drop Entry.key key entries)

end Model

/-! ## Buckets -/

section Buckets

variable [BEq K] [Ord V] {keyHash : K → Hash} {link : Link V (OrderedMap.Standard K Unit)}
  {groups : List (V × List (Entry K V))}

/-- A bucket has the keys of the entries, in order. -/
def Bucket (keyHash : K → Hash) (bucket : OrderedMap.Standard K Unit)
    (entries : List (Entry K V)) : Prop :=
  OrderedMap.Holds keyHash bucket (entries.map fun entry ↦ (entry.key, ()))

/-- The sorted map holds the groups. -/
structure Buckets (keyHash : K → Hash) (link : Link V (OrderedMap.Standard K Unit))
    (groups : List (V × List (Entry K V))) : Prop where
  balanced : ∃ c n, Balanced link c n
  grouped : Grouped Entry.priority groups
  related : List.Forall₂ (Related (Bucket keyHash)) link.toList groups

namespace Buckets

theorem new : Buckets keyHash (.empty : Link V (OrderedMap.Standard K Unit)) [] where
  balanced := ⟨_, _, .empty⟩
  grouped := ⟨.nil, nofun, nofun⟩
  related := .nil

theorem sorted (h : Buckets keyHash link groups) : Sorted link.toList :=
  .related h.related h.grouped.sorted

omit [Ord V] in
/-- Going over the buckets. -/
theorem mapM_eq {buckets : List (V × OrderedMap.Standard K Unit)}
    (h : List.Forall₂ (Related (Bucket keyHash)) buckets groups) :
    (buckets.mapM fun bucket ↦ do
      let keys ← bucket.2.iter
      return (bucket.1, keys.map Prod.fst)) =
      (.ok (groups.map fun g ↦ (g.1, g.2.map Entry.key)) : Except Fault _) := by
  induction h with
  | nil => rfl
  | @cons bucket g _ _ hfirst _ ih =>
    have hkeys : (g.2.map fun entry ↦ (entry.key, ())).map Prod.fst = g.2.map Entry.key := map_map
    rw [mapM_cons, ih, hfirst.2.iter_eq, hfirst.1]
    exact congrArg (fun keys ↦ Except.ok ((g.1, keys) :: _)) hkeys

variable [TransOrd V] [EquivBEq K] (hash_eq : Respects keyHash)
include hash_eq

theorem leaveBucket (h : Buckets keyHash link groups) {old : V} :
    ∃ link', leaveBucket keyHash key old link = .ok link' ∧
      Buckets keyHash link' (refill old (drop Entry.key key (itemsAt old groups)) groups) := by
  have hgrouped : Grouped Entry.priority
      (refill old (drop Entry.key key (itemsAt old groups)) groups) :=
    h.grouped.refill fun entry hentry ↦
      h.grouped.itemsAt_priority (mem_of_mem_filter hentry)
  have hfind := related_find h.related old
  rw [Standard.leaveBucket, findEntry_eq h.sorted]
  rw [itemsAt] at hgrouped ⊢
  generalize find old link.toList = found at hfind ⊢
  cases hg : find old groups with
  | none =>
    rw [hg] at hfind hgrouped
    cases hfind
    -- no bucket to leave
    have hsame : erase old groups = groups :=
      erase_of_forall_ne fun g hg' ↦ by simpa using find?_eq_none.mp hg g hg'
    refine ⟨link, rfl, ?_⟩
    change Buckets keyHash link (erase old groups)
    rw [hsame]
    exact h
  | some g =>
    rw [hg] at hfind hgrouped
    cases hfind with
    | @some p _ hrelated =>
      obtain ⟨next, hnext, hholds⟩ := hrelated.2.dissocValue hash_eq key
      have hbucket : Bucket keyHash next (drop Entry.key key g.2) := by
        rw [OrderedMap.without, filter_map] at hholds
        exact hholds
      have hempty : next.isEmpty = (drop Entry.key key g.2).isEmpty := by
        rw [OrderedMap.Standard.isEmpty, hbucket.len_eq, length_map, Bool.eq_iff_iff,
          decide_eq_true_iff, isEmpty_iff_length_eq_zero]
      obtain ⟨c, n, hbalanced⟩ := h.balanced
      simp only [bind, Except.bind, hnext, hempty]
      simp only [Option.map_some, Option.getD_some, refill] at hgrouped ⊢
      by_cases hnil : (drop Entry.key key g.2).isEmpty = true
      · rw [if_pos hnil] at hgrouped
        rw [if_pos hnil, if_pos hnil]
        obtain ⟨link', c', n', hremove, hbalanced', htoList⟩ := hbalanced.remove h.sorted
        exact ⟨link', hremove, ⟨c', n', hbalanced'⟩, hgrouped, htoList ▸ related_erase h.related⟩
      · rw [if_neg hnil] at hgrouped
        rw [if_neg hnil, if_neg hnil]
        obtain ⟨n', hbalanced'⟩ := hbalanced.put old next
        exact ⟨_, rfl, ⟨_, n', hbalanced'⟩, hgrouped,
          (toList_put h.sorted next) ▸ related_insert h.related hbucket⟩

theorem joinBucket (h : Buckets keyHash link groups) (entry : Entry K V)
    (hnew : Absent Entry.key entry.key (itemsAt entry.priority groups)) :
    ∃ link', joinBucket keyHash entry.key entry.priority link = .ok link' ∧
      Buckets keyHash link'
        (insert entry.priority (itemsAt entry.priority groups ++ [entry]) groups) := by
  have hold : Bucket keyHash (((find entry.priority link.toList).map Prod.snd).getD .new)
      (itemsAt entry.priority groups) := by
    have hfind := related_find h.related entry.priority
    rw [itemsAt]
    generalize find entry.priority link.toList = found at hfind ⊢
    generalize find entry.priority groups = found' at hfind ⊢
    cases hfind with
    | none => exact .new
    | some hrelated => exact hrelated.2
  obtain ⟨bucket, hbucket, hholds⟩ := hold.assocValue hash_eq entry.key
  have hadd : OrderedMap.upsert entry.key ()
      ((itemsAt entry.priority groups).map fun entry ↦ (entry.key, ())) =
      (itemsAt entry.priority groups ++ [entry]).map fun entry ↦ (entry.key, ()) := by
    rw [OrderedMap.upsert, if_neg, map_append]
    · rfl
    · rw [any_map, any_eq_true]
      rintro ⟨other, hother, hsame⟩
      rw [Function.comp_apply, hnew other hother] at hsame
      cases hsame
  rw [hadd] at hholds
  rw [Standard.joinBucket, findEntry_eq h.sorted]
  simp only [hbucket]
  obtain ⟨c, n, hbalanced⟩ := h.balanced
  obtain ⟨n', hbalanced'⟩ := hbalanced.put entry.priority bucket
  refine ⟨_, rfl, ⟨_, n', hbalanced'⟩, ?_, ?_⟩
  · refine h.grouped.insert (by simp) ?_
    intro other hother
    rcases mem_append.mp hother with hother | hother
    · exact h.grouped.itemsAt_priority hother
    · rw [mem_singleton.mp hother]
      exact ReflCmp.compare_self
  · rw [toList_put h.sorted]
    exact related_insert h.related hholds

end Buckets

end Buckets

/-! ## Priority maps -/

/-- What is listed for an entry: its key, with the priority of its bucket. -/
def Same [Ord V] (listed : K × V) (entry : Entry K V) : Prop :=
  listed.1 = entry.key ∧ compare listed.2 entry.priority = .eq

section Maps

variable [BEq K] [Ord V] {keyHash : K → Hash} {map : Standard K V}
  {groups : List (V × List (Entry K V))} {entries : List (Entry K V)}

/-- The two parts of a map. -/
structure Parts (keyHash : K → Hash) (map : Standard K V) (groups : List (V × List (Entry K V))) :
    Prop where
  priorities : Answers keyHash map.priorities (fun key ↦ priorityOf key (items groups))
    (items groups).length
  buckets : Buckets keyHash map.buckets groups
  distinct : Distinct Entry.key (items groups)

/-- The map has these entries, in this order. -/
def Holds (keyHash : K → Hash) (map : Standard K V) (entries : List (Entry K V)) : Prop :=
  ∃ groups, Parts keyHash map groups ∧ entries = items groups

theorem Parts.keysByPriority_eq (h : Parts keyHash map groups) :
    map.keysByPriority = .ok (groups.map fun g ↦ (g.1, g.2.map Entry.key)) := by
  obtain ⟨c, n, hbalanced⟩ := h.buckets.balanced
  have hyields : Yields (fun s r ↦ (.ok (SortedMap.next s) : Except Fault _) = .ok r)
      (SortedMap.pushLeft [] map.buckets) map.buckets.toList := by
    simpa only [Except.ok.injEq] using yields_iter
  rw [keysByPriority, hyields.drain_eq (by rw [hbalanced.plain.size_eq])]
  exact Buckets.mapM_eq h.buckets.related

namespace Holds

theorem new : Holds keyHash (Standard.new : Standard K V) [] := ⟨[], ⟨.new, .new, .nil⟩, rfl⟩

variable (h : Holds keyHash map entries)

include h

theorem len_eq : map.len = entries.length := by
  obtain ⟨groups, hparts, rfl⟩ := h
  exact hparts.priorities.len_eq

theorem distinct : Distinct Entry.key entries := by
  obtain ⟨groups, hparts, rfl⟩ := h
  exact hparts.distinct

variable [TransOrd V]

theorem iter_eq :
    ∃ listed, map.iter = .ok listed ∧ List.Forall₂ Same listed entries := by
  obtain ⟨groups, hparts, rfl⟩ := h
  rw [iter, hparts.keysByPriority_eq]
  refine ⟨_, rfl, ?_⟩
  rw [flatMap_map]
  have hsame : List.Forall₂ (fun g g' ↦ g = g' ∧ g ∈ groups) groups groups :=
    forall₂_same.mpr fun g hg ↦ ⟨rfl, hg⟩
  refine rel_flatMap hsame ?_
  rintro g _ ⟨rfl, hg⟩
  change List.Forall₂ Same ((g.2.map Entry.key).map fun key ↦ (key, g.1)) g.2
  rw [map_map, forall₂_map_left_iff, forall₂_same]
  exact fun entry hentry ↦
    ⟨rfl, OrientedCmp.eq_symm (hparts.buckets.grouped.priority_eq g hg entry hentry)⟩

variable [EquivBEq K] (hash_eq : Respects keyHash)
include hash_eq

omit [TransOrd V] in
theorem get_eq (key : K) :
    map.get keyHash key = .ok (priorityOf key entries) := by
  obtain ⟨groups, hparts, rfl⟩ := h
  exact hparts.priorities.get_eq hash_eq key

omit h in
/-- A key leaves the bucket that it is in. -/
theorem leaveCurrent (hparts : Parts keyHash map groups) :
    ∃ link groups', leaveCurrent keyHash key (priorityOf key (items groups)) map.buckets =
      .ok link ∧ Buckets keyHash link groups' ∧
      items groups' = drop Entry.key key (items groups) := by
  rw [priorityOf]
  cases hentry : lookup Entry.key key (items groups) with
  | none =>
    exact ⟨map.buckets, groups, rfl, hparts.buckets,
      (drop_of_absent (lookup_eq_none_iff.mp hentry)).symm⟩
  | some entry =>
    obtain ⟨link, hleave, hbuckets⟩ := hparts.buckets.leaveBucket hash_eq
    refine ⟨link, _, hleave, hbuckets, ?_⟩
    refine hparts.buckets.grouped.items_refill fun other hother hdropped ↦ ?_
    -- the entry is the only one with the key
    have hsame : lookup Entry.key key (items groups) = some other :=
      (lookup_eq_some_iff hparts.distinct).mpr ⟨hother, by simpa using hdropped⟩
    rw [hentry] at hsame
    rw [Option.some.inj hsame]
    exact ReflCmp.compare_self

theorem dissocValue (key : K) :
    ∃ map', map.dissocValue keyHash key = .ok map' ∧
      Holds keyHash map' (drop Entry.key key entries) := by
  have hget := h.get_eq hash_eq key
  obtain ⟨groups, hparts, rfl⟩ := h
  obtain ⟨link, groups', hleave, hbuckets, hitems⟩ := leaveCurrent hash_eq hparts
  rw [Standard.dissocValue, hget]
  rw [priorityOf] at hleave ⊢
  cases hentry : lookup Entry.key key (items groups) with
  | none =>
    rw [drop_of_absent (lookup_eq_none_iff.mp hentry)]
    exact ⟨map, rfl, groups, hparts, rfl⟩
  | some entry =>
    have hremoved := removed_drop hparts.distinct hentry
    obtain ⟨priorities, hdissoc, hanswers⟩ := hparts.priorities.dissocValue hash_eq key
      (by rw [priorityOf, hentry]; rfl)
    rw [hentry, Option.map_some, Standard.leaveCurrent] at hleave
    simp only [Option.map_some, bind, Except.bind, hleave, hdissoc]
    have hpriorities : Champ.erase (fun key ↦ priorityOf key (items groups)) key =
        fun key' ↦ priorityOf key' (drop Entry.key key (items groups)) := by
      funext key'
      rw [Champ.erase, priorityOf, priorityOf, hremoved.lookup hparts.distinct]
      split <;> rfl
    rw [hpriorities, hremoved.length] at hanswers
    refine ⟨_, rfl, groups', ⟨?_, hbuckets, ?_⟩, hitems.symm⟩
    · rw [hitems]
      exact hanswers
    · rw [hitems]
      exact hremoved.distinct hparts.distinct

theorem assocValue [BEq V] (priority : V) :
    ∃ map', map.assocValue keyHash key priority = .ok map' ∧
      Holds keyHash map' (reprioritise key priority now entries) := by
  have hget := h.get_eq hash_eq key
  obtain ⟨groups, hparts, rfl⟩ := h
  rw [Standard.assocValue, hget, reprioritise]
  simp only [bind, Except.bind]
  by_cases hsame : (priorityOf key (items groups) == some priority) = true
  · rw [if_pos hsame, if_pos hsame]
    exact ⟨map, rfl, groups, hparts, rfl⟩
  · rw [if_neg hsame, if_neg hsame]
    obtain ⟨link, groups', hleave, hbuckets, hitems⟩ := leaveCurrent hash_eq hparts
    have hnew : Absent Entry.key key (itemsAt priority groups') := by
      intro other hother
      refine absent_drop (items groups) other ?_
      rw [← hitems]
      exact mem_items_of_mem_itemsAt hother
    let entry : Entry K V := ⟨key, priority, now⟩
    obtain ⟨link', hjoin, hbuckets'⟩ := hbuckets.joinBucket hash_eq entry hnew
    have hjoin : joinBucket keyHash key priority link = .ok link' := hjoin
    obtain ⟨priorities, hassoc, hanswers⟩ := hparts.priorities.assocValue hash_eq key priority
    have hplace := hbuckets.grouped.items_place entry
    rw [hitems] at hplace
    have hinserted : Inserted Entry.key key (items groups) entry
        (place Entry.priority entry (drop Entry.key key (items groups)))
        (lookup Entry.key key (items groups)).isNone :=
      (inserted_drop hparts.distinct entry).perm perm_place
    have hpriorities : Champ.update (fun key ↦ priorityOf key (items groups)) key priority =
        fun key' ↦ priorityOf key'
          (place Entry.priority entry (drop Entry.key key (items groups))) := by
      funext key'
      rw [Champ.update, priorityOf, priorityOf, hinserted.lookup BEq.rfl hparts.distinct]
      split <;> rfl
    rw [hpriorities, priorityOf, Option.isNone_map, ← hinserted.length] at hanswers
    simp only [hleave, hjoin, hassoc]
    refine ⟨_, rfl, _, ⟨?_, hbuckets', ?_⟩, hplace.symm⟩
    · rw [hplace]
      exact hanswers
    · rw [hplace]
      exact hinserted.distinct BEq.rfl hparts.distinct

theorem popFirstValue :
    ∃ map', map.popFirstValue keyHash = .ok map' ∧ Holds keyHash map' entries.tail := by
  obtain ⟨listed, hiter, hsame⟩ := h.iter_eq
  rw [Standard.popFirstValue, peekFirstEntry, hiter]
  cases hsame with
  | nil => exact ⟨map, rfl, h⟩
  | @cons first entry _ rest hfirst _ =>
    obtain ⟨map', hdissoc, hholds⟩ := h.dissocValue hash_eq first.1
    have hrest : Absent Entry.key entry.key rest := (distinct_cons.mp h.distinct).1
    rw [hfirst.1, drop_cons, if_pos BEq.rfl, drop_of_absent hrest] at hholds
    exact ⟨map', hdissoc, hholds⟩

theorem popLastValue :
    ∃ map', map.popLastValue keyHash = .ok map' ∧ Holds keyHash map' entries.dropLast := by
  obtain ⟨listed, hiter, hsame⟩ := h.iter_eq
  rw [Standard.popLastValue, peekLastEntry, hiter]
  simp only [bind, Except.bind]
  rw [← head?_reverse]
  rcases eq_nil_or_concat entries with rfl | ⟨rest, entry, rfl⟩
  · cases hsame
    exact ⟨map, rfl, h⟩
  · have hreversed := forall₂_reverse_iff.mpr hsame
    have hdistinct := h.distinct
    rw [concat_eq_append] at h hdistinct hreversed ⊢
    rw [reverse_append] at hreversed
    obtain ⟨last, before, hlast, _, hlisted⟩ := forall₂_cons_right_iff.mp hreversed
    obtain ⟨map', hdissoc, hholds⟩ := h.dissocValue hash_eq last.1
    have hrest : Absent Entry.key entry.key rest := fun other hother ↦
      (pairwise_append.mp hdistinct).2.2 other hother entry mem_cons_self
    have hdrop : drop Entry.key entry.key (rest ++ [entry]) = rest := by
      rw [drop, filter_append, filter_cons_of_neg (by simp), filter_nil, append_nil]
      exact drop_of_absent hrest
    rw [hlast.1, hdrop] at hholds
    rw [hlisted, dropLast_concat]
    exact ⟨map', hdissoc, hholds⟩

end Holds

end Maps

/-! ## Runs -/

inductive Op (K V : Type) where
  | assocValue (key : K) (priority : V)
  | dissocValue (key : K)
  | popFirstValue
  | popLastValue

variable [BEq K] [BEq V] [Ord V]

def Op.apply (keyHash : K → Hash) (map : Standard K V) : Op K V → Except Fault (Standard K V)
  | assocValue key priority => map.assocValue keyHash key priority
  | dissocValue key => map.dissocValue keyHash key
  | popFirstValue => map.popFirstValue keyHash
  | popLastValue => map.popLastValue keyHash

def run (keyHash : K → Hash) (ops : List (Op K V)) : Except Fault (Standard K V) :=
  ops.foldlM (Op.apply keyHash) Standard.new

/-- The operation on the entries, at the given time. -/
def Op.model (now : ℕ) (entries : List (Entry K V)) : Op K V → List (Entry K V)
  | assocValue key priority => reprioritise key priority now entries
  | dissocValue key => drop Entry.key key entries
  | popFirstValue => entries.tail
  | popLastValue => entries.dropLast

/-- The entries after the operations, of which the first is at time `now`. -/
def modelFrom (now : ℕ) (entries : List (Entry K V)) (ops : List (Op K V)) : List (Entry K V) :=
  (ops.zipIdx now).foldl (fun entries step ↦ step.1.model step.2 entries) entries

def model (ops : List (Op K V)) : List (Entry K V) := modelFrom 0 [] ops

/-- In order of priority, then of time; all of them before now. -/
structure Timely (now : ℕ) (entries : List (Entry K V)) : Prop where
  ordered : entries.Pairwise Entry.Before
  past : ∀ entry ∈ entries, entry.since < now

/-- The buckets and the priorities of a map say the same. -/
structure Consistent (keyHash : K → Hash) (map : Standard K V) (buckets : List (V × List K)) :
    Prop where
  listed : map.keysByPriority = .ok buckets
  nonempty : ∀ bucket ∈ buckets, bucket.2 ≠ []
  /-- No two buckets are for one priority. -/
  ascending : Sorted buckets
  /-- A key is in the bucket of its priority. -/
  current : ∀ bucket ∈ buckets, ∀ key ∈ bucket.2,
    ∃ priority, map.get keyHash key = .ok (some priority) ∧ compare priority bucket.1 = .eq
  /-- A key that has a priority is in one place. -/
  once : ∀ key priority, map.get keyHash key = .ok (some priority) →
    (buckets.flatMap Prod.snd).countP (· == key) = 1

section Runs

variable [TransOrd V] {keyHash : K → Hash} {map : Standard K V} {entries : List (Entry K V)}

omit [BEq K] [BEq V] [TransOrd V] in
theorem Timely.sublist {entries' : List (Entry K V)} (h : Timely now entries)
    (hsub : entries'.Sublist entries) : Timely (now + 1) entries' where
  ordered := h.ordered.sublist hsub
  past entry hentry := Nat.lt_succ_of_lt (h.past entry (hsub.mem hentry))

theorem Timely.model (h : Timely now entries) {op : Op K V} :
    Timely (now + 1) (op.model now entries) := by
  cases op with
  | assocValue key priority =>
    rw [Op.model, reprioritise]
    by_cases hsame : (priorityOf key entries == some priority) = true
    · rw [if_pos hsame]
      exact h.sublist (.refl entries)
    · rw [if_neg hsame]
      have hpast : ∀ entry ∈ drop Entry.key key entries, entry.since < now :=
        fun entry hentry ↦ h.past entry (mem_of_mem_filter hentry)
      refine ⟨pairwise_place (h.ordered.filter _) hpast, ?_⟩
      intro entry hentry
      rcases mem_place.mp hentry with rfl | hentry
      · exact Nat.lt_succ_self now
      · exact Nat.lt_succ_of_lt (hpast entry hentry)
  | dissocValue key => exact h.sublist filter_sublist
  | popFirstValue => exact h.sublist (tail_sublist entries)
  | popLastValue => exact h.sublist (dropLast_sublist entries)

theorem Timely.modelFrom (h : Timely now entries) (ops : List (Op K V)) :
    Timely (now + ops.length) (modelFrom now entries ops) := by
  induction ops generalizing now entries with
  | nil => exact h
  | cons op ops ih =>
    rw [length_cons, ← Nat.add_assoc, Nat.add_right_comm]
    exact ih h.model

variable [EquivBEq K] (hash_eq : Respects keyHash)
include hash_eq

theorem Holds.apply (h : Holds keyHash map entries) (op : Op K V) :
    ∃ map', op.apply keyHash map = .ok map' ∧ Holds keyHash map' (op.model now entries) := by
  cases op with
  | assocValue key priority => exact h.assocValue hash_eq priority
  | dissocValue key => exact h.dissocValue hash_eq key
  | popFirstValue => exact h.popFirstValue hash_eq
  | popLastValue => exact h.popLastValue hash_eq

theorem Holds.applyAll (h : Holds keyHash map entries) (ops : List (Op K V)) (now : ℕ) :
    ∃ map', ops.foldlM (Op.apply keyHash) map = .ok map' ∧
      Holds keyHash map' (modelFrom now entries ops) := by
  induction ops generalizing map entries now with
  | nil => exact ⟨map, rfl, h⟩
  | cons op ops ih =>
    obtain ⟨map', hop, hholds⟩ := h.apply hash_eq op
    obtain ⟨map'', hops, hholds'⟩ := ih hholds (now + 1)
    refine ⟨map'', ?_, hholds'⟩
    rw [foldlM_cons, hop]
    exact hops

omit [BEq V] [TransOrd V] in
theorem Holds.consistent (h : Holds keyHash map entries) :
    ∃ buckets, Consistent keyHash map buckets := by
  have hget := h.get_eq hash_eq
  obtain ⟨groups, hparts, rfl⟩ := h
  have hkeys : (groups.map fun g ↦ (g.1, g.2.map Entry.key)).flatMap Prod.snd =
      (items groups).map Entry.key := by
    rw [flatMap_map, items, map_flatMap]
  refine ⟨_, hparts.keysByPriority_eq, ?_, ?_, ?_, ?_⟩
  · intro bucket hbucket
    obtain ⟨g, hg, rfl⟩ := mem_map.mp hbucket
    exact fun hnil ↦ hparts.buckets.grouped.nonempty g hg (map_eq_nil_iff.mp hnil)
  · exact pairwise_map.mpr hparts.buckets.grouped.sorted
  · intro bucket hbucket key hkey
    obtain ⟨g, hg, rfl⟩ := mem_map.mp hbucket
    obtain ⟨entry, hentry, rfl⟩ := mem_map.mp hkey
    have hfound : lookup Entry.key entry.key (items groups) = some entry :=
      (lookup_eq_some_iff hparts.distinct).mpr ⟨mem_items.mpr ⟨g, hg, hentry⟩, BEq.rfl⟩
    refine ⟨entry.priority, ?_, hparts.buckets.grouped.priority_eq g hg entry hentry⟩
    rw [hget, priorityOf, hfound]
    rfl
  · intro key priority hpriority
    rw [hget] at hpriority
    obtain ⟨entry, hentry, _⟩ := Option.map_eq_some_iff.mp (Except.ok.inj hpriority)
    have hothers : (drop Entry.key key (items groups)).countP ((· == key) ∘ Entry.key) = 0 := by
      refine countP_eq_zero.mpr fun other hother ↦ ?_
      rw [Function.comp_apply, absent_drop _ other hother]
      exact Bool.false_ne_true
    have hkey : ((· == key) ∘ Entry.key) entry = true :=
      ((lookup_eq_some_iff hparts.distinct).mp hentry).2
    rw [hkeys, countP_map, (perm_drop hparts.distinct hentry).countP_eq, countP_cons_of_pos hkey,
      hothers]

end Runs

/-- After every run the two parts of the map are consistent, and the map lists the entries of the
model, which are in order of priority and, within a priority, of the time at which the keys took
it. -/
theorem priorityMap_refines [EquivBEq K] [TransOrd V] (keyHash : K → Hash)
    (hash_eq : Respects keyHash) (ops : List (Op K V)) :
    ∃ map, run keyHash ops = .ok map ∧ (∃ buckets, Consistent keyHash map buckets) ∧
      (∃ listed, map.iter = .ok listed ∧ List.Forall₂ Same listed (model ops)) ∧
      (model ops).Pairwise Entry.Before ∧
      (model ops).Pairwise (fun a b ↦ (a.key == b.key) = false) ∧
      map.len = (model ops).length ∧
      ∀ key, map.get keyHash key = .ok (priorityOf key (model ops)) := by
  obtain ⟨map, hrun, hholds⟩ := Holds.new.applyAll hash_eq ops 0
  have htimely : Timely 0 ([] : List (Entry K V)) := ⟨.nil, nofun⟩
  exact ⟨map, hrun, hholds.consistent hash_eq, hholds.iter_eq, (htimely.modelFrom ops).ordered,
    hholds.distinct, hholds.len_eq, hholds.get_eq hash_eq⟩

/-- A tie, a key that goes to another priority, a priority that is set again, and both ends. -/
def movingOps : List (Op ℕ ℕ) :=
  [.assocValue 0 2, .assocValue 3 1, .assocValue 1 1, .assocValue 3 2, .assocValue 0 2,
    .assocValue 6 1, .popFirstValue, .assocValue 4 5, .popLastValue]

theorem priorityMap_refines_movingOps :
    (∃ map, run Champ.coarseHash movingOps = .ok map ∧
      (∃ buckets, Consistent Champ.coarseHash map buckets) ∧
      (∃ listed, map.iter = .ok listed ∧ List.Forall₂ Same listed (model movingOps)) ∧
      (model movingOps).Pairwise Entry.Before ∧
      (model movingOps).Pairwise (fun a b ↦ (a.key == b.key) = false) ∧
      map.len = (model movingOps).length ∧
      ∀ key, map.get Champ.coarseHash key = .ok (priorityOf key (model movingOps))) ∧
    model movingOps = [⟨6, 1, 5⟩, ⟨0, 2, 0⟩, ⟨3, 2, 3⟩] :=
  ⟨priorityMap_refines Champ.coarseHash (fun k k' h ↦ by rw [eq_of_beq h]) movingOps, by decide⟩

end Hara.PriorityMap
