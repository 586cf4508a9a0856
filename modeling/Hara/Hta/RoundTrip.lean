import Hara.Hta.Parts

/-!
# The round trip of HTA0

Every value that can be encoded has a frame: the decoder reads its normal form from the bytes, and
the normal form is encoded as the same bytes again. The induction is on the levels that are left,
with one case for every kind of value.
-/

namespace Hara.Hta

open Codec Hara.Lib
open List hiding set

variable {left : ℕ}

/-! ## The remaining kinds of values -/

theorem exists_frame_nil : Framable (left + 1) .nil := by
  intro hsucceeds
  have hdecodes : Decodes (readTagged (value left) .nil) [] .nil := .pure _
  exact ⟨_, .of_leaf hsucceeds (by simp) (fun _ ↦ emits_push .nil) hdecodes⟩

theorem exists_frame_boolean {b : Bool} : Framable (left + 1) (.boolean b) := by
  intro hsucceeds
  cases b with
  | false =>
    have hdecodes : Decodes (readTagged (value left) .falseTag) [] (.boolean false) := .pure _
    exact ⟨_, .of_leaf hsucceeds (by simp) (fun _ ↦ emits_push .falseTag) hdecodes⟩
  | true =>
    have hdecodes : Decodes (readTagged (value left) .trueTag) [] (.boolean true) := .pure _
    exact ⟨_, .of_leaf hsucceeds (by simp) (fun _ ↦ emits_push .trueTag) hdecodes⟩

variable {values : List ImmutableValue}

theorem length_of_succeeds_mapEntry
    (hsucceeds : Succeeds (encodeValue (left + 1) (.mapEntry values))) : values.length = 2 := by
  by_contra hne
  rw [encodeValue, encodeMapEntry, if_pos hne] at hsucceeds
  exact not_succeeds_throw hsucceeds

theorem encodeValue_mapEntry (h : values.length = 2) (left : ℕ) :
    encodeValue (left + 1) (.mapEntry values) =
      encodeSequence (encodeValue left) .mapEntry values := by
  rw [encodeValue, encodeMapEntry, if_neg (not_not_intro h)]

section

variable (ih : AllFramed left)

include ih

/-- The encoder checks that a map entry has two values, and so does the decoder. -/
theorem exists_frame_mapEntry : Framable (left + 1) (.mapEntry values) := by
  intro hsucceeds
  have hpair := length_of_succeeds_mapEntry hsucceeds
  have hpair' : (values.map normalForm).length = 2 := by rw [length_map, hpair]
  have hnormal : normalForm (.mapEntry values) = .mapEntry (values.map normalForm) := by
    rw [normalForm]
  refine exists_frame_sequence ih hsucceeds (encodeValue_mapEntry hpair) ?_ ?_ ?_
  · intro left
    rw [hnormal, encodeValue_mapEntry hpair']
  · intro hv value hvalue
    exact hv.of_mem_parts hvalue
  · intro _ data hdata
    rw [hnormal]
    refine hdata.bind_pure ?_
    rw [if_neg (not_not_intro hpair')]
    exact .pure _

/-- The decoder does not read an empty cons, which the encoder would write. -/
theorem exists_frame_cons : Framable (left + 1) (.cons values) := by
  intro hsucceeds
  have hnormal : normalForm (.cons values) = .cons (values.map normalForm) := by
    rw [normalForm]
  refine exists_frame_sequence ih hsucceeds (fun _ ↦ rfl) ?_ ?_ ?_
  · intro left
    rw [hnormal]
    rfl
  · intro hv value hvalue
    exact hv.of_mem_parts hvalue
  · intro hv data hdata
    have hne : values ≠ [] := hv.own
    have hempty : (values.map normalForm).isEmpty = false := by
      rw [isEmpty_map, isEmpty_eq_false_iff]
      exact hne
    rw [hnormal]
    refine hdata.bind_pure ?_
    rw [hempty]
    exact .pure _

/-- The frame of a sequence about which nothing is checked. -/
theorem exists_frame_plain {make make' : List ImmutableValue → ImmutableValue} {tag : Tag}
    (hsucceeds : Succeeds (encodeValue (left + 1) (make values)))
    (hencode : ∀ left, encodeValue (left + 1) (make values) =
      encodeSequence (encodeValue left) tag values)
    (hencode' : ∀ left values, encodeValue (left + 1) (make' values) =
      encodeSequence (encodeValue left) tag values)
    (hnormal : normalForm (make values) = make' (values.map normalForm))
    (hparts : (make values).parts = values)
    (hread : readTagged (value left) tag = make' <$> sequence (value left)) :
    ∃ data, Frame (left + 1) (make values) data := by
  refine exists_frame_sequence ih hsucceeds hencode ?_ ?_ ?_
  · intro left
    rw [hnormal, hencode']
  · intro hv value hvalue
    rw [← hparts] at hvalue
    exact hv.of_mem_parts hvalue
  · intro _ data hdata
    rw [hnormal, hread]
    exact hdata.bind_pure (.pure _)

/-- The frame of an ordered or a sorted map. -/
theorem exists_frame_entries {make : Entries → ImmutableValue} {tag : Tag} {values : Entries}
    (hsucceeds : Succeeds (encodeValue (left + 1) (make values)))
    (hencode : ∀ left values, encodeValue (left + 1) (make values) =
      encodeMap (encodeValue left) tag values false)
    (hnormal : normalForm (make values) = make (values.map normalEntry))
    (hparts : (make values).parts = values.flatMap fun entry ↦ [entry.1, entry.2])
    (hread : readTagged (value left) tag = make <$> entries (value left)) :
    ∃ data, Frame (left + 1) (make values) data := by
  refine exists_frame_orderedMap ih hsucceeds (fun left ↦ hencode left values) ?_ ?_ ?_
  · intro left
    rw [hnormal, hencode]
  · intro hv entry hentry
    have hpart : ∀ part ∈ [entry.1, entry.2], part.Admissible := by
      intro part hpart
      refine hv.of_mem_parts ?_
      rw [hparts]
      exact mem_flatMap.mpr ⟨entry, hentry, hpart⟩
    constructor
    · exact hpart _ mem_cons_self
    · exact hpart _ (mem_cons_of_mem _ (mem_singleton_self _))
  · intro data hdata
    rw [hnormal, hread]
    exact hdata.bind_pure (.pure _)

end

/-- The entry that a key of a trie and its value are. -/
def stringEntry (entry : String × ImmutableValue) : ImmutableValue × ImmutableValue :=
  (.string entry.1, entry.2)

theorem map_normalEntry_stringEntry (values : Fields) :
    (values.map stringEntry).map normalEntry = (normalFields values).map stringEntry := by
  rw [normalFields, map_map, map_map]
  refine map_congr_left ?_
  intro entry _
  exact Prod.ext (normalForm_string entry.1) rfl

theorem mapM_trieEntry (values : Fields) :
    (values.map stringEntry).mapM trieEntry = .ok values := by
  rw [Except.mapM_eq_ok, forall₂_map_left_iff, forall₂_same]
  intro _ _
  rfl

theorem encodeValue_trie (left : ℕ) (values : Fields) :
    encodeValue (left + 1) (.trie values) =
      encodeMap (encodeValue left) .trie (values.map stringEntry) false := rfl

theorem exists_frame_trie {values : Fields} (ih : AllFramed left) :
    Framable (left + 1) (.trie values) := by
  intro hsucceeds
  have hnormal : normalForm (.trie values) = .trie (normalFields values) := by
    rw [normalForm, normalFields]
  refine exists_frame_orderedMap ih hsucceeds (encodeValue_trie · values) ?_ ?_ ?_
  · intro left
    rw [hnormal, encodeValue_trie, map_normalEntry_stringEntry]
  · intro hv entry hentry
    obtain ⟨field, hfield, rfl⟩ := mem_map.mp hentry
    exact ⟨admissible_string field.1, hv.of_mem_parts (mem_map_of_mem hfield)⟩
  · intro data hdata
    rw [map_normalEntry_stringEntry] at hdata
    rw [hnormal]
    refine hdata.bind_pure ?_
    rw [mapM_trieEntry]
    exact .pure _

/-! ## Every value -/

/-- What can be encoded has a frame. -/
theorem exists_frame {left : ℕ} (hleft : left ≤ maxNestingDepth + 1) (v : ImmutableValue)
    (hsucceeds : Succeeds (encodeValue left v)) : ∃ data, Frame left v data := by
  induction left generalizing v with
  | zero => exact absurd hsucceeds not_succeeds_throw
  | succ left ih =>
    have hleft := Nat.le_of_succ_le hleft
    have ih := ih hleft
    cases v with
    | nil => exact exists_frame_nil hsucceeds
    | boolean b => exact exists_frame_boolean hsucceeds
    | string text =>
      exact exists_frame_text (fun _ ↦ rfl) rfl (normalForm_string text) hsucceeds
    | integer n => exact exists_frame_integer n hsucceeds
    | float bits => exact exists_frame_float hsucceeds
    | character c => exact exists_frame_character c hsucceeds
    | bigInteger text => exact exists_frame_bigInteger hsucceeds
    | regex text =>
      exact exists_frame_text (fun _ ↦ rfl) rfl (by simp) hsucceeds
    | bytes bytes => exact exists_frame_bytes hsucceeds
    | keyword text =>
      exact exists_frame_text (fun _ ↦ rfl) rfl (normalForm_keyword text) hsucceeds
    | symbol text =>
      exact exists_frame_text (fun _ ↦ rfl) rfl (normalForm_symbol text) hsucceeds
    | list values | vector values | queue values | orderedSet values =>
      exact exists_frame_plain ih hsucceeds (fun _ ↦ rfl) (fun _ _ ↦ rfl) (by rw [normalForm])
        rfl rfl
    | mapEntry values => exact exists_frame_mapEntry ih hsucceeds
    | tuple values =>
      -- a tuple is written, and then read, as a vector
      exact exists_frame_plain ih hsucceeds (fun _ ↦ rfl) (fun _ _ ↦ rfl) (by rw [normalForm])
        rfl rfl
    | cons values => exact exists_frame_cons ih hsucceeds
    | set values | sortedSet values =>
      exact exists_frame_unordered hleft ih hsucceeds (fun _ _ ↦ rfl)
        (by rw [normalForm, bytedItems]) (fun hv _ ↦ hv.of_mem_parts) rfl
    | map values => exact exists_frame_map hleft ih hsucceeds
    | orderedMap values | sortedMap values =>
      exact exists_frame_entries ih hsucceeds (fun _ _ ↦ rfl) (by rw [normalForm]; rfl) rfl rfl
    | trie values => exact exists_frame_trie ih hsucceeds
    | record fields => exact exists_frame_record hleft ih hsucceeds
    | tagged tag form => exact exists_frame_tagged ih hsucceeds
    | exceptionInfo message data cause provenance => exact exists_frame_exceptionInfo ih hsucceeds
    | struct name fields values => exact exists_frame_struct ih hsucceeds
    | pointer context fields => exact exists_frame_pointer ih hsucceeds
    | varRef symbol => exact exists_frame_varRef ih hsucceeds

/-! ## The round trip -/

variable {v : ImmutableValue}

/-- The bytes of a value are the magic and its frame. -/
theorem exists_frame_of_encodeImmutable {b : List UInt8} (h : encodeImmutable v = .ok b) :
    ∃ data, b = magic ++ data ∧ b.length ≤ maxFrameBytes ∧
      Frame (maxNestingDepth + 1) v data := by
  have hrun := encoded_eq_ok.mp h
  have hsucceeds : Succeeds (encodeValue (maxNestingDepth + 1) v) :=
    (Succeeds.seq ⟨[], (), b, hrun⟩).2
  obtain ⟨data, hframe⟩ := exists_frame le_rfl v hsucceeds
  have hemits := (emits_write magic).seq (hframe.emits 0)
  obtain rfl : b = [] ++ (magic ++ data) := hemits.eq [] b hrun
  exact ⟨data, rfl, hemits.le [] _ hrun nofun, hframe⟩

theorem decodeImmutable_frame (hv : v.Admissible) {data : List UInt8}
    (hframe : Frame (maxNestingDepth + 1) v data) (hfits : (magic ++ data).length ≤ maxFrameBytes) :
    decodeImmutable (magic ++ data) = .ok (normalForm v) := by
  have hmagic : magic.isPrefixOf (magic ++ data) = true :=
    isPrefixOf_iff_prefix.mpr (prefix_append _ _)
  simp only [decodeImmutable, Except.bind_eq_ok, Except.ensure_eq_ok]
  exact ⟨(), hfits, (), hmagic, _, (hframe.decodes hv).read, (), rfl, rfl⟩

/-- A value that can be encoded is read back in its normal form, the normal form has the same
bytes, and the canonical decoder accepts them under every limit that they fit. -/
theorem immutable_round_trip (v : ImmutableValue) (hv : v.Admissible) (b : List UInt8)
    (h : encodeImmutable v = .ok b) :
    decodeImmutable b = .ok (normalForm v) ∧ encodeImmutable (normalForm v) = .ok b ∧
      ∀ n, n ≠ 0 → n ≤ maxFrameBytes → b.length ≤ n →
        decodeImmutableCanonical b n = .ok (normalForm v) := by
  obtain ⟨data, rfl, hfits, hframe⟩ := exists_frame_of_encodeImmutable h
  have hdecode := decodeImmutable_frame hv hframe hfits
  have hagain : encodeImmutable (normalForm v) = .ok (magic ++ data) :=
    ((emits_write magic).seq (hframe.again 0)).encoded hfits
  refine ⟨hdecode, hagain, ?_⟩
  intro n hpos hmax hlen
  simp only [decodeImmutableCanonical, Except.bind_eq_ok, Except.ensure_eq_ok]
  exact ⟨(), ⟨hpos, hmax⟩, (), hlen, _, hdecode, _, hagain, (), rfl, rfl⟩

/-- A map with keywords for keys, out of order, with a tuple and a set that repeats an item. -/
def keywordMap : ImmutableValue :=
  .map [(.keyword "b", .set [.integer 2, .integer 1, .integer 2]),
    (.keyword "a", .tuple [.bigInteger "007"])]

/-- The record that `keywordMap` is read as. -/
def keywordRecord : ImmutableValue :=
  .record [("a", .vector [.integer 7]), ("b", .set [.integer 1, .integer 2])]

def keywordBytes : List UInt8 :=
  magic ++ [11, 0, 0, 0, 2,
    6, 0, 0, 0, 1, 97, 9, 0, 0, 0, 1, 3, 0, 0, 0, 0, 0, 0, 0, 7,
    6, 0, 0, 0, 1, 98, 10, 0, 0, 0, 2, 3, 0, 0, 0, 0, 0, 0, 0, 1, 3, 0, 0, 0, 0, 0, 0, 0, 2]

theorem admissible_keywordMap : keywordMap.Admissible := by
  have hleaf (n : Int64) : (ImmutableValue.integer n).Admissible := .of_leaf trivial rfl
  refine ⟨trivial, ?_⟩
  simp only [keywordMap, ImmutableValue.parts, flatMap_cons, cons_append, nil_append,
    forall_mem_cons]
  refine ⟨admissible_keyword, ⟨trivial, ?_⟩, admissible_keyword, ⟨trivial, ?_⟩, forall_mem_nil _⟩
  · simp only [ImmutableValue.parts, forall_mem_cons]
    exact ⟨hleaf _, hleaf _, hleaf _, forall_mem_nil _⟩
  · simp only [ImmutableValue.parts, forall_mem_cons]
    exact ⟨.of_leaf trivial rfl, forall_mem_nil _⟩

theorem immutable_round_trip_keywordMap :
    encodeImmutable keywordMap = .ok keywordBytes ∧ normalForm keywordMap = keywordRecord ∧
      encodeImmutable keywordRecord = .ok keywordBytes ∧
      decodeImmutableCanonical keywordBytes 64 = .ok keywordRecord := by
  have hencode : encodeImmutable keywordMap = .ok keywordBytes := by rfl
  obtain ⟨hdecode, hagain, hcanonical⟩ :=
    immutable_round_trip keywordMap admissible_keywordMap keywordBytes hencode
  have hnormal : normalForm keywordMap = keywordRecord := by
    have hread : decodeImmutable keywordBytes = .ok keywordRecord := by rfl
    exact Except.ok.inj (hdecode.symm.trans hread)
  rw [hnormal] at hagain hcanonical
  exact ⟨hencode, hnormal, hagain, hcanonical 64 (by decide) (by decide) (by decide)⟩

end Hara.Hta
