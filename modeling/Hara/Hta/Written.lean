import Hara.Hta.RoundTrip

/-!
# What stands in a frame

The frame of a container, taken apart: the frames of its parts, in the order in which they are
written, behind the tag and the count. Whoever reads a frame, the decoder or a view, meets these
pieces one after the other.
-/

namespace Hara.Hta

open Codec Hara.Lib

variable {left : ℕ} {v : ImmutableValue} {data : List UInt8} {tag : Tag}
  {values : List ImmutableValue}

theorem Frame.succeeds (h : Frame left v data) : Succeeds (encodeValue left v) := by
  have hrun := (h.emits 0).ok [] (by rw [List.length_nil, Nat.zero_add]; exact h.fits)
  exact ⟨[], (), [] ++ data, hrun⟩

/-- The bytes of a frame are those that the encoder writes. -/
theorem Frame.eq_of_emits (h : Frame left v data) {data' : List UInt8}
    (hemits : Emits maxFrameBytes (encodeValue left v) data') : data = data' :=
  (h.emits 0).unique hemits h.succeeds

/-! ## Items -/

theorem mem_mergedDatas {datas : List (List UInt8)} : data ∈ mergedDatas datas ↔ data ∈ datas := by
  rw [mergedDatas, mem_destutter_ne, (sortBy_perm rank datas).mem_iff]

/-- The bytes of a sequence or a set with these items. -/
def itemBytes (tag : Tag) (datas : List (List UInt8)) : List UInt8 :=
  [tag.code] ++ (be 4 datas.length ++ datas.flatten)

/-- The items are frames of the values, in some order. -/
structure ItemFrames (left : ℕ) (values : List ImmutableValue)
    (datas : List (List UInt8)) : Prop where
  length_lt : datas.length < 2 ^ 32
  exists_value : ∀ d ∈ datas, ∃ v ∈ values, Frame left v d
  exists_data : ∀ v ∈ values, ∃ d ∈ datas, Frame left v d

theorem ItemFrames.ne_nil {datas : List (List UInt8)} (h : ItemFrames left values datas) :
    ∀ d ∈ datas, d ≠ [] := by
  intro d hd
  obtain ⟨v, -, hframe⟩ := h.exists_value d hd
  exact hframe.ne_nil

/-! ## Entries -/

/-- The bytes of the entries of a map, in the order in which they are written. -/
def entryDatas (canonicalOrder : Bool) (values : Entries) : EntryDatas :=
  orderedDatas canonicalOrder (values.map fun entry ↦ (encodedBytes entry.1, encodedBytes entry.2))

/-- The bytes are those of a map or a record with these entries. -/
structure MapFrame (left : ℕ) (tag : Tag) (canonicalOrder : Bool) (values : Entries)
    (data : List UInt8) : Prop where
  length_lt : (entryDatas canonicalOrder values).length < 2 ^ 32
  frames : ∀ entry ∈ values, EntryFrame left entry (encodedBytes entry.1, encodedBytes entry.2)
  ascending : canonicalOrder = true → Ascending keyRank (entryDatas canonicalOrder values)
  data_eq : data = [tag.code] ++ (be 4 (entryDatas canonicalOrder values).length ++
    entryBytes (entryDatas canonicalOrder values))

section Entries

variable {values : Entries} {canonicalOrder : Bool}

theorem mem_entryDatas (canonicalOrder : Bool) {d : List UInt8 × List UInt8} :
    d ∈ entryDatas canonicalOrder values ↔
      ∃ entry ∈ values, (encodedBytes entry.1, encodedBytes entry.2) = d := by
  rw [← List.mem_map, entryDatas, orderedDatas]
  split
  · exact (sortBy_perm keyRank _).mem_iff
  · rfl

/-- A condition on the bytes of the entries follows from their frames. -/
theorem MapFrame.forall_datas (h : MapFrame left tag canonicalOrder values data)
    {P : List UInt8 × List UInt8 → Prop}
    (hP : ∀ entry ∈ values, ∀ d, EntryFrame left entry d → P d) :
    ∀ d ∈ entryDatas canonicalOrder values, P d := by
  intro d hd
  obtain ⟨entry, hentry, rfl⟩ := (mem_entryDatas _).mp hd
  exact hP entry hentry _ (h.frames entry hentry)

theorem MapFrame.ne_nil (h : MapFrame left tag canonicalOrder values data) :
    ∀ d ∈ entryDatas canonicalOrder values, d.1 ≠ [] ∧ d.2 ≠ [] :=
  h.forall_datas fun _ _ _ hframe ↦ ⟨hframe.1.ne_nil, hframe.2.ne_nil⟩

end Entries

/-! ## Frames taken apart -/

section

variable (hleft : left ≤ maxNestingDepth + 1)

include hleft

section

variable (h : Frame (left + 1) v data)

include h

/-- The frame of a sequence. -/
theorem Frame.items_sequence
    (hencode : encodeValue (left + 1) v = encodeSequence (encodeValue left) tag values) :
    ItemFrames left values (values.map encodedBytes) ∧
      data = itemBytes tag (values.map encodedBytes) := by
  have hsucceeds := h.succeeds
  rw [hencode] at hsucceeds
  have hlen := lt_of_succeeds_writeLen hsucceeds.seq.2.seq.1
  obtain ⟨datas, hframes⟩ := exists_frames (exists_frame hleft) hsucceeds.seq.2.seq.2.forM
  have hemits := h.eq_of_emits (hencode ▸ emits_encodeSequence tag hlen (emits_frames hframes 0))
  obtain rfl := map_encodedBytes hleft hframes
  rw [hframes.length_eq] at hlen hemits
  exact ⟨⟨hlen, fun _ ↦ exists_of_mem_right hframes, fun _ ↦ exists_of_mem_left hframes⟩, hemits⟩

/-- The frame of a set. -/
theorem Frame.items_unordered
    (hencode : encodeValue (left + 1) v = encodeUnorderedSequence (encodeValue left) tag values) :
    ItemFrames left values (mergedDatas (values.map encodedBytes)) ∧
      data = itemBytes tag (mergedDatas (values.map encodedBytes)) := by
  have hsucceeds := h.succeeds
  rw [hencode] at hsucceeds
  obtain ⟨datas, hdatas, hsucceeds⟩ := hsucceeds.lift
  have hlen : (mergedDatas datas).length < 2 ^ 32 := lt_of_succeeds_writeLen hsucceeds.seq.2.seq.1
  have hframes := frames_of_mapM (exists_frame hleft) hdatas
  have hemits := h.eq_of_emits (hencode ▸ emits_encodeUnorderedSequence hdatas hlen)
  obtain rfl := map_encodedBytes hleft hframes
  refine ⟨⟨hlen, fun d hd ↦ exists_of_mem_right hframes (mem_mergedDatas.mp hd), fun v hv ↦ ?_⟩,
    hemits⟩
  simp only [mem_mergedDatas]
  exact exists_of_mem_left hframes hv

/-- The frame of a map, in the order of its bytes or in its own. -/
theorem Frame.mapFrame {values : Entries} {canonicalOrder : Bool}
    (hencode : encodeValue (left + 1) v =
      encodeMap (encodeValue left) tag values canonicalOrder) :
    MapFrame left tag canonicalOrder values data := by
  have hsucceeds := h.succeeds
  rw [hencode] at hsucceeds
  obtain ⟨datas, hdatas, hchain, hlen⟩ := succeeds_encodeMap hsucceeds
  have hframes := entryFrames_of_mapM (exists_frame hleft) hdatas
  have hemits := h.eq_of_emits (hencode ▸ emits_encodeMap tag hdatas hchain hlen)
  obtain rfl := map_encodedEntries hleft hframes
  refine ⟨hlen, entryFrame_encodedBytes hleft hframes, ?_, hemits⟩
  rintro rfl
  exact ascending_of_isChain pairwise_sortBy (hchain.imp fun _ _ hne heq ↦ hne (rank_injective heq))

omit h in
/-- The frame of a record is that of a map. -/
theorem Frame.mapFrame_record {fields : Fields} (h : Frame (left + 1) (.record fields) data)
    (hfields : Ascending fieldRank fields) :
    MapFrame left .map true (fields.map keywordEntry) data := by
  obtain ⟨hlen, datas, hframes⟩ := exists_fieldFrames (exists_frame hleft) h.succeeds
  have hascending := ascending_fields hleft hframes hfields
  have hencoded := (List.forall₂_map_left_iff.mp hframes).imp fun _ _ hframe ↦ hframe.encoded 0
  have hemits := h.eq_of_emits (emits_encodeRecord hencoded hlen)
  have hlength : fields.length = (sortBy keyRank datas).length := by
    rw [(sortBy_perm keyRank datas).length_eq, ← hframes.length_eq, List.length_map]
  obtain rfl := map_encodedEntries hleft hframes
  rw [hlength] at hlen hemits
  exact ⟨hlen, entryFrame_encodedBytes hleft hframes, fun _ ↦ hascending, hemits⟩

/-- The frame of a value that is written as its tag and then as the given values. -/
theorem Frame.exists_parts {parts : List ImmutableValue}
    (hencode : encodeValue (left + 1) v = push tag >>= fun _ ↦ parts.forM (encodeValue left)) :
    ∃ datas, List.Forall₂ (Frame left) parts datas ∧ data = [tag.code] ++ datas.flatten := by
  have hsucceeds := h.succeeds
  rw [hencode] at hsucceeds
  obtain ⟨datas, hframes⟩ := exists_frames (exists_frame hleft) hsucceeds.seq.2.forM
  refine ⟨datas, hframes, h.eq_of_emits ?_⟩
  rw [hencode]
  exact (emits_push tag).seq (emits_frames hframes 0)

end

end

end Hara.Hta
