import Hara.Hta.Containers

/-!
# Frames of maps

The frames of maps that keep their order, and of the maps and records that are written in the order
of the bytes of their keys.
-/

namespace Hara.Hta

open Codec Hara.Lib List

variable {left : ℕ}

/-! ## Entries -/

/-- The frames of a key and a value. -/
def EntryFrame (left : ℕ) (entry : ImmutableValue × ImmutableValue)
    (data : List UInt8 × List UInt8) : Prop :=
  Frame left entry.1 data.1 ∧ Frame left entry.2 data.2

def normalEntry (entry : ImmutableValue × ImmutableValue) : ImmutableValue × ImmutableValue :=
  (normalForm entry.1, normalForm entry.2)

/-- The encodings of the keys and the values of entries. -/
abbrev EntryDatas := List (List UInt8 × List UInt8)

/-- The bytes of entries. -/
def entryBytes (datas : List (List UInt8 × List UInt8)) : List UInt8 :=
  (datas.map fun data ↦ data.1 ++ data.2).flatten

variable {encode : ImmutableValue → ByteWriter String Unit}
  {entry : ImmutableValue × ImmutableValue} {data : List UInt8 × List UInt8}

theorem encodeEntry_eq_ok :
    encodeEntry encode entry = .ok data ↔
      encoded (encode entry.1) = .ok data.1 ∧ encoded (encode entry.2) = .ok data.2 := by
  rw [encodeEntry, Except.bind_eq_ok]
  constructor
  · rintro ⟨key, hkey, h⟩
    obtain ⟨value, hvalue, h⟩ := Except.bind_eq_ok.mp h
    obtain rfl := Except.pure_eq_ok.mp h
    exact ⟨hkey, hvalue⟩
  · rintro ⟨hkey, hvalue⟩
    exact ⟨data.1, hkey, Except.bind_eq_ok.mpr ⟨data.2, hvalue, rfl⟩⟩

theorem EntryFrame.encoded (h : EntryFrame left entry data) (k : ℕ) :
    encodeEntry (encodeValue (left + k)) entry = .ok data :=
  encodeEntry_eq_ok.mpr ⟨h.1.encoded k, h.2.encoded k⟩

theorem EntryFrame.encoded_again (h : EntryFrame left entry data) (k : ℕ) :
    encodeEntry (encodeValue (left + k)) (normalEntry entry) = .ok data :=
  encodeEntry_eq_ok.mpr ⟨h.1.encoded_again k, h.2.encoded_again k⟩

theorem EntryFrame.decodes (h : EntryFrame left entry data)
    (hentry : entry.1.Admissible ∧ entry.2.Admissible) :
    Decodes (readEntry (value left)) (data.1 ++ data.2) (normalEntry entry) :=
  (h.1.decodes hentry.1).bind ((h.2.decodes hentry.2).bind_pure (.pure _))

variable {values : Entries} {datas : EntryDatas} {read : Reader String ImmutableValue}

theorem entryFrames_of_mapM (ih : AllFramed left)
    (h : values.mapM (encodeEntry (encodeValue left)) = .ok datas) :
    List.Forall₂ (EntryFrame left) values datas := by
  refine (Except.mapM_eq_ok.mp h).imp ?_
  intro entry data hentry
  obtain ⟨hkey, hvalue⟩ := encodeEntry_eq_ok.mp hentry
  exact ⟨frame_of_encoded ih hkey, frame_of_encoded ih hvalue⟩

theorem emits_writeEntries (datas : EntryDatas) :
    Emits maxFrameBytes (datas.forM writeEntry) (entryBytes datas) := by
  refine .forM (forall₂_map_right_iff.mpr (forall₂_same.mpr ?_))
  intro data _
  exact (emits_write data.1).seq (emits_write data.2)

theorem length_le_entryBytes (hne : ∀ data ∈ datas, data.1 ≠ [] ∧ data.2 ≠ []) :
    datas.length ≤ (entryBytes datas).length / 2 := by
  have hle : (datas.map fun data ↦ data.1 ++ data.2).length * 2 ≤ (entryBytes datas).length := by
    refine length_mul_le_flatten (forall_mem_map.mpr fun data hdata ↦ ?_)
    obtain ⟨hkey, hvalue⟩ := hne data hdata
    rw [length_append]
    exact Nat.add_le_add (length_pos_iff.mpr hkey) (length_pos_iff.mpr hvalue)
  rw [length_map] at hle
  omega

theorem remaining_entryBytes {α : Type} {e : String} {read : Reader String α}
    (hne : ∀ data ∈ datas, data.1 ≠ [] ∧ data.2 ≠ []) (rest : List UInt8) :
    (do
      let n ← remaining
      if n / 2 < datas.length then throw e else read) (entryBytes datas ++ rest) =
      read (entryBytes datas ++ rest) := by
  have hremaining : remaining (entryBytes datas ++ rest) = .ok _ _ := rfl
  have hle : datas.length ≤ (entryBytes datas ++ rest).length / 2 := by
    rw [length_append]
    exact (length_le_entryBytes hne).trans (Nat.div_le_div_right (Nat.le_add_right _ _))
  rw [EStateM.bind_of_ok hremaining, if_neg (Nat.not_lt.mpr hle)]

theorem decodes_entries
    (h : List.Forall₂ (fun entry data ↦ Decodes (readEntry read) (data.1 ++ data.2) entry) values
      datas) (hne : ∀ data ∈ datas, data.1 ≠ [] ∧ data.2 ≠ []) (hlen : values.length < 2 ^ 32) :
    Decodes (entries read) (be 4 values.length ++ entryBytes datas) values := by
  refine (decodes_readLen hlen).bind ?_
  intro rest
  rw [h.length_eq, remaining_entryBytes hne, ← h.length_eq]
  exact Decodes.many (forall₂_map_right_iff.mpr h) rest

theorem ne_nil_of_entryFrames (h : List.Forall₂ (EntryFrame left) values datas) :
    ∀ data ∈ datas, data.1 ≠ [] ∧ data.2 ≠ [] := by
  induction h with
  | nil => nofun
  | cons hframe _ ih => exact forall_mem_cons.mpr ⟨⟨hframe.1.ne_nil, hframe.2.ne_nil⟩, ih⟩

/-- The order in which the entries of a map are written. -/
def orderedDatas (canonicalOrder : Bool) (datas : List (List UInt8 × List UInt8)) :
    List (List UInt8 × List UInt8) :=
  if canonicalOrder then sortBy keyRank datas else datas

theorem emits_encodeMap (tag : Tag) {canonicalOrder : Bool}
    (h : values.mapM (encodeEntry encode) = .ok datas)
    (hchain : (orderedDatas canonicalOrder datas).IsChain fun a b ↦ a.1 ≠ b.1)
    (hlen : (orderedDatas canonicalOrder datas).length < 2 ^ 32) :
    Emits maxFrameBytes (encodeMap encode tag values canonicalOrder)
      ([tag.code] ++ (be 4 (orderedDatas canonicalOrder datas).length ++
        entryBytes (orderedDatas canonicalOrder datas))) := by
  rw [orderedDatas] at hchain hlen ⊢
  rw [encodeMap, h, lift_ok_bind, if_pos hchain]
  exact (emits_push tag).seq ((emits_writeLen hlen).seq (emits_writeEntries _))

/-- What the encoder checked about a map that it wrote. -/
theorem succeeds_encodeMap {tag : Tag} {canonicalOrder : Bool}
    (h : Succeeds (encodeMap encode tag values canonicalOrder)) :
    ∃ datas, values.mapM (encodeEntry encode) = .ok datas ∧
      ((orderedDatas canonicalOrder datas).IsChain fun a b ↦ a.1 ≠ b.1) ∧
      (orderedDatas canonicalOrder datas).length < 2 ^ 32 := by
  obtain ⟨datas, hdatas, h⟩ := h.lift
  refine ⟨datas, hdatas, ?_⟩
  dsimp only at h
  rw [← orderedDatas] at h
  split at h
  · next hchain => exact ⟨hchain, lt_of_succeeds_writeLen h.seq.2.seq.1⟩
  · exact absurd h not_succeeds_throw

/-! ## Maps that keep their order -/

/-- The frame of a map that is written in its own order. -/
theorem exists_frame_orderedMap {v : ImmutableValue} {tag : Tag} (ih : AllFramed left)
    (hsucceeds : Succeeds (encodeValue (left + 1) v))
    (hencode : ∀ left, encodeValue (left + 1) v = encodeMap (encodeValue left) tag values false)
    (hagain : ∀ left, encodeValue (left + 1) (normalForm v) =
      encodeMap (encodeValue left) tag (values.map normalEntry) false)
    (hadmissible : v.Admissible → ∀ entry ∈ values, entry.1.Admissible ∧ entry.2.Admissible)
    (hread : ∀ data, Decodes (entries (value left)) data (values.map normalEntry) →
      Decodes (readTagged (value left) tag) data (normalForm v)) :
    ∃ data, Frame (left + 1) v data := by
  have hmap := hsucceeds
  rw [hencode] at hmap
  obtain ⟨datas, hdatas, hchain, hlen⟩ := succeeds_encodeMap hmap
  have hframes := entryFrames_of_mapM ih hdatas
  refine ⟨_, .of_tagged tag (be 4 datas.length ++ entryBytes datas) hsucceeds ?_ ?_ ?_⟩
  · intro k
    rw [hencode]
    refine emits_encodeMap tag (Except.mapM_eq_ok.mpr ?_) hchain hlen
    exact hframes.imp fun _ _ hframe ↦ hframe.encoded k
  · intro k
    rw [hagain]
    refine emits_encodeMap tag (Except.mapM_eq_ok.mpr ?_) hchain hlen
    exact forall₂_map_left_iff.mpr (hframes.imp fun _ _ hframe ↦ hframe.encoded_again k)
  · intro hv
    apply hread
    rw [← hframes.length_eq, ← values.length_map normalEntry]
    refine decodes_entries ?_ (ne_nil_of_entryFrames hframes) ?_
    · rw [forall₂_map_left_iff]
      refine (forall₂_and_mem hframes).imp ?_
      rintro entry data ⟨hentry, -, hframe⟩
      exact hframe.decodes (hadmissible hv entry hentry)
    · rwa [length_map, hframes.length_eq]

/-! ## Records -/

/-- The entry that a field of a record is. -/
def keywordEntry (field : String × ImmutableValue) : ImmutableValue × ImmutableValue :=
  (.keyword field.1, field.2)

theorem exists_keywordEntry (h : entry.1.isKeyword = true) :
    ∃ field, entry = keywordEntry field := by
  obtain ⟨key, value⟩ := entry
  cases key with
  | keyword key => exact ⟨(key, value), rfl⟩
  | _ => cases h

/-- Entries with keywords are fields. -/
theorem exists_fields {entries : Entries} (h : ∀ entry ∈ entries, entry.1.isKeyword = true) :
    ∃ fields : Fields, entries = fields.map keywordEntry := by
  induction entries with
  | nil => exact ⟨[], rfl⟩
  | cons entry entries ih =>
    obtain ⟨hentry, hentries⟩ := forall_mem_cons.mp h
    obtain ⟨field, rfl⟩ := exists_keywordEntry hentry
    obtain ⟨fields, rfl⟩ := ih hentries
    exact ⟨field :: fields, rfl⟩

theorem filterMap_fieldOf? (fields : Fields) :
    (fields.map keywordEntry).filterMap fieldOf? = fields := by
  rw [filterMap_map]
  exact filterMap_some

theorem all_isKeyword {fields : Fields} :
    ((fields.map keywordEntry).all fun entry ↦ entry.1.isKeyword) = true := by
  rw [all_map]
  exact all_eq_true.mpr fun _ _ ↦ rfl

theorem mapOrRecord_keywordEntry (fields : Fields) :
    mapOrRecord (fields.map keywordEntry) = .record (sortBy fieldRank fields) := by
  rw [mapOrRecord, if_pos all_isKeyword, filterMap_fieldOf?]

/-- Fields with different names are all inserted. -/
theorem insertFields_spec (record : Fields) {fields : Fields}
    (hnodup : ((record ++ fields).map Prod.fst).Nodup) (hsorted : Ascending fieldRank record) :
    ∃ result, insertFields (fields.map keywordEntry) record = .ok result ∧
      Ascending fieldRank result ∧ result.Perm (record ++ fields) := by
  induction fields generalizing record with
  | nil => exact ⟨record, rfl, hsorted, by rw [append_nil]⟩
  | cons field fields ih =>
    obtain ⟨key, value⟩ := field
    have hperm : (record ++ (key, value) :: fields).Perm ((key, value) :: (record ++ fields)) :=
      perm_middle
    have hnodup' := (hperm.map Prod.fst).nodup_iff.mp hnodup
    have hkey : key ∉ record.map Prod.fst := by
      intro hmem
      refine (nodup_cons.mp hnodup').1 ?_
      exact map_subset Prod.fst (subset_append_left record fields) hmem
    have hrank : fieldRank (key, value) ∉ record.map fieldRank := by
      intro hmem
      obtain ⟨field, hfield, heq⟩ := mem_map.mp hmem
      have hname : field.1 = key := Utf8.bytes_injective (rank_injective heq)
      exact hkey (hname ▸ mem_map_of_mem hfield)
    have hinsert := perm_orderedInsert (fun a b ↦ fieldRank a ≤ fieldRank b) (key, value) record
    obtain ⟨result, hresult, hascending, hperm'⟩ := ih _
      (((hinsert.append_right fields).map Prod.fst).nodup_iff.mpr hnodup')
      (hsorted.orderedInsert hrank)
    refine ⟨result, ?_, hascending, hperm'.trans ((hinsert.append_right fields).trans hperm.symm)⟩
    rw [map_cons, keywordEntry, insertFields, if_neg hkey]
    exact hresult

variable {fields : Fields}

theorem insertFields_eq (hnodup : (fields.map Prod.fst).Nodup) :
    insertFields (fields.map keywordEntry) [] = .ok (sortBy fieldRank fields) := by
  obtain ⟨result, hresult, hascending, hperm⟩ := insertFields_spec [] hnodup .nil
  rw [nil_append] at hperm
  rw [hresult, sortBy_eq_of_perm hperm.symm hascending]

/-- Reading the entries of a map or of a record. -/
theorem decodes_readMap {data : List UInt8} (hkeys : values.Pairwise fun a b ↦ a.1 ≠ b.1)
    (h : Decodes (entries read) data values) :
    Decodes (readMap read) data (mapOrRecord values) := by
  refine h.bind_pure ?_
  rw [mapOrRecord]
  split
  · next hall =>
    obtain ⟨fields, rfl⟩ := exists_fields (all_eq_true.mp hall)
    have hnodup : (fields.map Prod.fst).Nodup := by
      refine pairwise_map.mpr ((pairwise_map.mp hkeys).imp ?_)
      intro a b hne heq
      exact hne (congrArg ImmutableValue.keyword heq)
    rw [insertFields_eq hnodup, filterMap_fieldOf?]
    exact .pure _
  · exact .pure _

theorem emits_encodeRecord
    (h : List.Forall₂ (fun field data ↦ encodeEntry encode (keywordEntry field) = .ok data)
      fields datas) (hlen : fields.length < 2 ^ 32) :
    Emits maxFrameBytes (encodeRecord encode fields)
      ([Tag.map.code] ++ (be 4 fields.length ++
        entryBytes (sortBy keyRank datas))) := by
  have hentries := emits_writeEntries (sortBy keyRank datas)
  rw [← lift_ok_bind (ε := String) fun datas ↦
    (sortBy keyRank datas).forM writeEntry, ← Except.mapM_eq_ok.mpr h] at hentries
  exact (emits_push .map).seq ((emits_writeLen hlen).seq hentries)

/-! ## Maps and records in the order of their bytes -/

/-- The entries as they are written, with their bytes. -/
def canonicalItems (values : List (ImmutableValue × ImmutableValue)) :
    List ((List UInt8 × List UInt8) × (ImmutableValue × ImmutableValue)) :=
  sortBy (fun item ↦ keyRank item.1)
    (values.map fun entry ↦ ((encodedBytes entry.1, encodedBytes entry.2), normalEntry entry))

section Canonical

section

variable (hleft : left ≤ maxNestingDepth + 1) (h : List.Forall₂ (EntryFrame left) values datas)

include hleft h

theorem entryFrame_encodedBytes :
    ∀ entry ∈ values, EntryFrame left entry (encodedBytes entry.1, encodedBytes entry.2) := by
  induction h with
  | nil => nofun
  | cons hframe _ ih =>
    refine forall_mem_cons.mpr ⟨?_, ih⟩
    rwa [hframe.1.encodedBytes_eq hleft, hframe.2.encodedBytes_eq hleft]

theorem map_encodedEntries :
    (values.map fun entry ↦ (encodedBytes entry.1, encodedBytes entry.2)) = datas := by
  rw [← forall₂_eq_eq_eq, forall₂_map_left_iff]
  refine h.imp ?_
  rintro entry data ⟨hkey, hvalue⟩
  exact Prod.ext (hkey.encodedBytes_eq hleft) (hvalue.encodedBytes_eq hleft)

theorem map_fst_canonicalItems : (canonicalItems values).map Prod.fst = sortBy keyRank datas := by
  rw [canonicalItems, map_sortBy keyRank Prod.fst, map_map, ← map_encodedEntries hleft h]
  rfl

end

theorem map_snd_canonicalItems :
    (canonicalItems values).map Prod.snd =
      sortedEntries (values.map fun entry ↦
        (encodedBytes entry.1, normalForm entry.1, normalForm entry.2)) := by
  have hmap := map_sortBy (fun entry : List UInt8 × ImmutableValue × ImmutableValue ↦ rank entry.1)
    (fun item : (List UInt8 × List UInt8) × (ImmutableValue × ImmutableValue) ↦ (item.1.1, item.2))
    (values.map fun entry ↦ ((encodedBytes entry.1, encodedBytes entry.2), normalEntry entry))
  rw [map_map] at hmap
  -- the bytes of the values do not matter for the order
  calc (canonicalItems values).map Prod.snd
      = ((canonicalItems values).map fun item ↦ (item.1.1, item.2)).map Prod.snd := by
        rw [map_map]
        rfl
    _ = sortedEntries (values.map fun entry ↦
          (encodedBytes entry.1, normalForm entry.1, normalForm entry.2)) :=
        congrArg (List.map Prod.snd) hmap

theorem mem_canonicalItems (hleft : left ≤ maxNestingDepth + 1)
    (h : List.Forall₂ (EntryFrame left) values datas) :
    ∀ item ∈ canonicalItems values, ∃ entry ∈ values,
      EntryFrame left entry item.1 ∧ item.2 = normalEntry entry := by
  intro item hitem
  obtain ⟨entry, hentry, rfl⟩ := mem_map.mp ((sortBy_perm _ _).mem_iff.mp hitem)
  exact ⟨entry, hentry, entryFrame_encodedBytes hleft h entry hentry, rfl⟩

/-- Equal normal forms have the same bytes. -/
theorem Frame.eq_of_normalForm_eq {v v' : ImmutableValue} {data data' : List UInt8}
    (h : Frame left v data) (h' : Frame left v' data') (heq : normalForm v = normalForm v') :
    data = data' := by
  have hencoded := h.encoded_again 0
  rw [heq, h'.encoded_again 0] at hencoded
  exact (Except.ok.inj hencoded).symm

section

variable (hleft : left ≤ maxNestingDepth + 1)
  (h : List.Forall₂ (EntryFrame left) values datas)
  (hascending : Ascending keyRank (sortBy keyRank datas))

include hleft h hascending

/-- The keys that are written are different. -/
theorem pairwise_canonicalItems :
    ((canonicalItems values).map Prod.snd).Pairwise fun a b ↦ a.1 ≠ b.1 := by
  rw [← map_fst_canonicalItems hleft h] at hascending
  refine pairwise_map.mpr ?_
  refine (pairwise_map.mp hascending).imp_of_mem ?_
  intro a b ha hb hlt heq
  obtain ⟨entry, -, hframe, ha⟩ := mem_canonicalItems hleft h a ha
  obtain ⟨entry', -, hframe', hb⟩ := mem_canonicalItems hleft h b hb
  rw [ha, hb] at heq
  have hbytes : a.1.1 = b.1.1 := hframe.1.eq_of_normalForm_eq hframe'.1 heq
  exact hlt.ne (congrArg rank hbytes)

/-- Reading what was written in the order of the bytes. -/
theorem decodes_canonicalItems (hlen : datas.length < 2 ^ 32)
    (hadmissible : ∀ entry ∈ values, entry.1.Admissible ∧ entry.2.Admissible) :
    Decodes (readMap (value left))
      (be 4 datas.length ++ entryBytes (sortBy keyRank datas))
      (mapOrRecord ((canonicalItems values).map Prod.snd)) := by
  refine decodes_readMap (pairwise_canonicalItems hleft h hascending) ?_
  have hlength : datas.length = ((canonicalItems values).map Prod.snd).length := by
    rw [← (sortBy_perm keyRank datas).length_eq, ← map_fst_canonicalItems hleft h, length_map,
      length_map]
  rw [hlength] at hlen ⊢
  rw [← map_fst_canonicalItems hleft h]
  refine decodes_entries ?_ ?_ hlen
  · rw [forall₂_map_left_iff, forall₂_map_right_iff, forall₂_same]
    intro item hitem
    obtain ⟨entry, hentry, hframe, hitem⟩ := mem_canonicalItems hleft h item hitem
    rw [hitem]
    exact hframe.decodes (hadmissible entry hentry)
  · intro data hdata
    obtain ⟨item, hitem, rfl⟩ := mem_map.mp hdata
    obtain ⟨entry, -, hframe, -⟩ := mem_canonicalItems hleft h item hitem
    exact ⟨hframe.1.ne_nil, hframe.2.ne_nil⟩

/-- Writing the normal form of a map. -/
theorem emits_mapOrRecord (hlen : datas.length < 2 ^ 32) {k : ℕ} :
    Emits maxFrameBytes
      (encodeValue (left + k + 1) (mapOrRecord ((canonicalItems values).map Prod.snd)))
      ([Tag.map.code] ++ (be 4 datas.length ++ entryBytes (sortBy keyRank datas))) := by
  have hlength := (sortBy_perm keyRank datas).length_eq
  have hencoded : List.Forall₂
      (fun entry data ↦ encodeEntry (encodeValue (left + k)) entry = .ok data)
      ((canonicalItems values).map Prod.snd) (sortBy keyRank datas) := by
    rw [← map_fst_canonicalItems hleft h, forall₂_map_left_iff, forall₂_map_right_iff, forall₂_same]
    intro item hitem
    obtain ⟨entry, -, hframe, hitem⟩ := mem_canonicalItems hleft h item hitem
    rw [hitem]
    exact hframe.encoded_again k
  by_cases hall : ((canonicalItems values).map Prod.snd).all fun entry ↦ entry.1.isKeyword
  · -- a record, whose fields are sorted by name and then by their bytes again
    obtain ⟨fields, hfields⟩ := exists_fields (all_eq_true.mp hall)
    rw [hfields, forall₂_map_left_iff] at hencoded
    obtain ⟨datas', hdatas', hperm⟩ := perm_comp_forall₂ (sortBy_perm fieldRank fields) hencoded
    have hsort : sortBy keyRank datas' = sortBy keyRank datas := sortBy_eq_of_perm hperm hascending
    have hlength' : (sortBy fieldRank fields).length = datas.length := by
      rw [hdatas'.length_eq, hperm.length_eq, hlength]
    have hemits := emits_encodeRecord hdatas' (by rwa [hlength'])
    rw [hlength', hsort] at hemits
    rw [hfields, mapOrRecord_keywordEntry]
    exact hemits
  · rw [mapOrRecord, if_neg hall]
    have hordered : orderedDatas true (sortBy keyRank datas) = sortBy keyRank datas :=
      sortBy_of_pairwise hascending.le
    have hchain : (sortBy keyRank datas).IsChain fun a b ↦ a.1 ≠ b.1 :=
      hascending.isChain.imp fun _ _ hne heq ↦ hne (congrArg rank heq)
    have hemits := emits_encodeMap .map (Except.mapM_eq_ok.mpr hencoded)
      (by rwa [hordered]) (by rwa [hordered, hlength])
    rw [hordered, hlength] at hemits
    exact hemits

end

end Canonical

/-- The frame of a map. -/
theorem exists_frame_map (hleft : left ≤ maxNestingDepth + 1) (ih : AllFramed left) :
    Framable (left + 1) (.map values) := by
  intro hsucceeds
  obtain ⟨datas, hdatas, hchain, hlen⟩ := succeeds_encodeMap hsucceeds
  have hframes := entryFrames_of_mapM ih hdatas
  have hascending : Ascending keyRank (sortBy keyRank datas) :=
    ascending_of_isChain pairwise_sortBy
      (hchain.imp fun _ _ hne heq ↦ hne (rank_injective heq))
  have hlength : (orderedDatas true datas).length = datas.length :=
    (sortBy_perm keyRank datas).length_eq
  rw [hlength] at hlen
  have hnormal : normalForm (.map values) =
      mapOrRecord ((canonicalItems values).map Prod.snd) := by
    rw [normalForm, map_snd_canonicalItems]
  refine ⟨_, .of_tagged .map (be 4 datas.length ++ entryBytes (sortBy keyRank datas)) hsucceeds
    ?_ ?_ ?_⟩
  · intro k
    have hmapM := Except.mapM_eq_ok.mpr (hframes.imp fun _ _ hframe ↦ hframe.encoded k)
    have hemits := emits_encodeMap .map hmapM hchain (by rwa [hlength])
    rw [hlength] at hemits
    exact hemits
  · intro k
    rw [hnormal]
    exact emits_mapOrRecord hleft hframes hascending hlen
  · intro hv
    rw [hnormal]
    refine decodes_canonicalItems hleft hframes hascending hlen ?_
    intro entry hentry
    constructor
    · exact hv.of_mem_parts (mem_flatMap.mpr ⟨entry, hentry, mem_cons_self⟩)
    · exact hv.of_mem_parts (mem_flatMap.mpr ⟨entry, hentry, by simp⟩)

theorem normalForm_keyword (name : String) : normalForm (.keyword name) = .keyword name := by
  simp

theorem admissible_keyword {name : String} : (ImmutableValue.keyword name).Admissible :=
  .of_leaf trivial rfl

/-- The fields of a record with their normal forms. -/
def normalFields (fields : List (String × ImmutableValue)) : List (String × ImmutableValue) :=
  fields.map fun field ↦ (field.1, normalForm field.2)

theorem map_normalEntry_keywordEntry :
    (fields.map keywordEntry).map normalEntry = (normalFields fields).map keywordEntry := by
  rw [normalFields, map_map, map_map]
  refine map_congr_left ?_
  intro field _
  exact Prod.ext (normalForm_keyword field.1) rfl

section Record

/-- Different names have different bytes. -/
theorem ascending_fields (hleft : left ≤ maxNestingDepth + 1)
    (h : List.Forall₂ (EntryFrame left) (fields.map keywordEntry) datas)
    (hfields : Ascending fieldRank fields) : Ascending keyRank (sortBy keyRank datas) := by
  refine ascending_sortBy ?_
  rw [← map_encodedEntries hleft h, map_map, map_map]
  refine pairwise_map.mpr (hfields.imp_of_mem ?_)
  intro a b ha hb hlt heq
  have hframe := (entryFrame_encodedBytes hleft h _ (mem_map_of_mem ha)).1
  have hframe' := (entryFrame_encodedBytes hleft h _ (mem_map_of_mem hb)).1
  have hbytes : encodedBytes (keywordEntry a).1 = encodedBytes (keywordEntry b).1 :=
    rank_injective heq
  -- the decoder would read both names from the same bytes
  have hdecodes := hframe.decodes admissible_keyword
  have hdecodes' := hframe'.decodes admissible_keyword
  rw [hbytes] at hdecodes
  have hresult := (hdecodes []).symm.trans (hdecodes' [])
  rw [keywordEntry, keywordEntry, normalForm_keyword, normalForm_keyword] at hresult
  obtain ⟨hname, -⟩ := EStateM.Result.ok.inj hresult
  rw [fieldRank, ImmutableValue.keyword.inj hname] at hlt
  exact hlt.ne rfl

/-- What is read from a record is the record with normal fields. -/
theorem mapOrRecord_record (hfields : Ascending fieldRank fields) :
    mapOrRecord ((canonicalItems (fields.map keywordEntry)).map Prod.snd) =
      .record (normalFields fields) := by
  have hperm : ((canonicalItems (fields.map keywordEntry)).map Prod.snd).Perm
      ((normalFields fields).map keywordEntry) := by
    rw [← map_normalEntry_keywordEntry]
    refine ((sortBy_perm _ _).map Prod.snd).trans (.of_eq ?_)
    rw [map_map]
    rfl
  obtain ⟨read, hread⟩ : ∃ read : Fields,
      (canonicalItems (fields.map keywordEntry)).map Prod.snd = read.map keywordEntry := by
    apply exists_fields
    intro entry hentry
    obtain ⟨field, -, rfl⟩ := mem_map.mp (hperm.mem_iff.mp hentry)
    rfl
  rw [hread] at hperm ⊢
  have hperm' := hperm.filterMap fieldOf?
  rw [filterMap_fieldOf?, filterMap_fieldOf?] at hperm'
  have hnormal : Ascending fieldRank (normalFields fields) := pairwise_map.mpr hfields
  rw [mapOrRecord_keywordEntry, sortBy_eq_of_perm hperm' hnormal]

end Record

/-- The fields of a record that is encoded have frames. -/
theorem exists_fieldFrames (ih : AllFramed left)
    (hsucceeds : Succeeds (encodeValue (left + 1) (.record fields))) :
    fields.length < 2 ^ 32 ∧
      ∃ datas, List.Forall₂ (EntryFrame left) (fields.map keywordEntry) datas := by
  obtain ⟨datas, hdatas, -⟩ := hsucceeds.seq.2.seq.2.lift
  refine ⟨lt_of_succeeds_writeLen hsucceeds.seq.2.seq.1, datas, entryFrames_of_mapM ih ?_⟩
  rw [Except.mapM_eq_ok, forall₂_map_left_iff]
  exact Except.mapM_eq_ok.mp hdatas

/-- The frame of a record. -/
theorem exists_frame_record (hleft : left ≤ maxNestingDepth + 1) (ih : AllFramed left) :
    Framable (left + 1) (.record fields) := by
  intro hsucceeds
  obtain ⟨hlen, datas, hframes⟩ := exists_fieldFrames ih hsucceeds
  have hlength : fields.length = datas.length := by
    rw [← hframes.length_eq, length_map]
  have hnormal : normalForm (.record fields) = .record (normalFields fields) := by
    rw [normalForm, normalFields]
  refine ⟨_, .of_tagged .map (be 4 fields.length ++ entryBytes (sortBy keyRank datas)) hsucceeds
    ?_ ?_ ?_⟩
  · intro k
    refine emits_encodeRecord ?_ hlen
    exact (forall₂_map_left_iff.mp hframes).imp fun _ _ hframe ↦ hframe.encoded k
  · intro k
    have hagain : List.Forall₂
        (fun entry data ↦ encodeEntry (encodeValue (left + k)) entry = .ok data)
        ((normalFields fields).map keywordEntry) datas := by
      rw [← map_normalEntry_keywordEntry, forall₂_map_left_iff]
      exact hframes.imp fun _ _ hframe ↦ hframe.encoded_again k
    have hemits := emits_encodeRecord (forall₂_map_left_iff.mp hagain)
      (by rwa [normalFields, length_map])
    rw [normalFields, length_map] at hemits
    rw [hnormal]
    exact hemits
  · intro hv
    have hown : Ascending fieldRank fields := hv.own
    rw [hnormal, ← mapOrRecord_record hown, hlength]
    refine decodes_canonicalItems hleft hframes (ascending_fields hleft hframes hown)
      (hlength ▸ hlen) ?_
    intro entry hentry
    obtain ⟨field, hfield, rfl⟩ := mem_map.mp hentry
    exact ⟨admissible_keyword, hv.of_mem_parts (mem_map_of_mem hfield)⟩

end Hara.Hta
