import Hara.Hta.ScanSpec

/-!
# Views agree with the encoder

The frame of a value is parsed, and the views of it and of everything in it give the bytes of the
parts, in the order in which they were written. Each of these views, made a frame again, is what
the encoder writes for the part.
-/

namespace Hara.Hta

open Codec Hara.Lib
open List hiding set
open Except (bind_eq_ok)

/-! ## Nodes of a value -/

/-- The values in a value, at any depth, and the value itself. -/
inductive Node (v : ImmutableValue) : ImmutableValue → Prop
  | self : Node v v
  | part {w part : ImmutableValue} (hw : Node v w) (hpart : part ∈ w.parts) : Node v part

variable {left : ℕ} {v : ImmutableValue} {data : List UInt8} {name : String} {fields : Fields}

/-- A frame does not depend on the depth. -/
theorem Frame.lift (h : Frame left v data) (hleft : left ≤ maxNestingDepth + 1) :
    Frame (maxNestingDepth + 1) v data := by
  have hemits := h.emits (maxNestingDepth + 1 - left)
  rw [Nat.add_sub_cancel' hleft] at hemits
  have hrun := hemits.ok [] (by rw [length_nil, Nat.zero_add]; exact h.fits)
  obtain ⟨data', hframe⟩ := exists_frame le_rfl v ⟨_, _, _, hrun⟩
  rwa [(hframe.encodedBytes_eq le_rfl).symm.trans (h.encodedBytes_eq hleft)] at hframe

theorem length_le_of_mem {datas : List (List UInt8)} (h : data ∈ datas) :
    data.length ≤ datas.flatten.length := (sublist_flatten_of_mem h).length_le

theorem length_le_of_mem_entries {datas : EntryDatas} {entry : List UInt8 × List UInt8}
    (h : entry ∈ datas) :
    entry.1.length ≤ (entryBytes datas).length ∧ entry.2.length ≤ (entryBytes datas).length := by
  have hmem : entry.1 ++ entry.2 ∈ datas.map fun data ↦ data.1 ++ data.2 := mem_map_of_mem h
  have hle := length_le_of_mem hmem
  rw [length_append] at hle
  rw [entryBytes]
  constructor
  · omega
  · omega

/-- A part with a frame below the frame of the whole. -/
def PartFrame (left : ℕ) (part : ImmutableValue) (size : ℕ) : Prop :=
  ∃ lower data, lower ≤ left ∧ Frame lower part data ∧ data.length ≤ size

section Parts

variable (hleft : left ≤ maxNestingDepth + 1) (h : Frame (left + 1) v data)

include hleft h

variable {tag : Tag}

omit hleft h in
theorem ItemFrames.partFrame {values : List ImmutableValue} {datas : List (List UInt8)}
    (hitems : ItemFrames left values datas) :
    ∀ part ∈ values, PartFrame left part (itemBytes tag datas).length := by
  intro part hpart
  obtain ⟨d, hd, hframe⟩ := hitems.exists_data part hpart
  refine ⟨left, d, Nat.le_refl left, hframe, ?_⟩
  have hle := length_le_of_mem hd
  simp only [itemBytes, length_append]
  omega

omit hleft h in
theorem MapFrame.partFrame {values : Entries} {canonicalOrder : Bool}
    (h : MapFrame left tag canonicalOrder values data) :
    ∀ entry ∈ values, PartFrame left entry.1 data.length ∧ PartFrame left entry.2 data.length := by
  intro entry hentry
  obtain ⟨hkey, hvalue⟩ := h.frames entry hentry
  have hle := length_le_of_mem_entries ((mem_entryDatas canonicalOrder).mpr ⟨entry, hentry, rfl⟩)
  rw [h.data_eq, ← append_assoc, length_append]
  constructor
  · exact ⟨left, _, Nat.le_refl left, hkey, Nat.le_add_left_of_le hle.1⟩
  · exact ⟨left, _, Nat.le_refl left, hvalue, Nat.le_add_left_of_le hle.2⟩

theorem partFrame_parts {parts : List ImmutableValue}
    (hencode : encodeValue (left + 1) v = push tag >>= fun _ ↦ parts.forM (encodeValue left)) :
    ∀ part ∈ parts, ∃ d, Frame left part d ∧ d.length ≤ data.length := by
  intro part hpart
  obtain ⟨datas, hframes, rfl⟩ := h.exists_parts hleft hencode
  obtain ⟨d, hd, hframe⟩ := exists_of_mem_left hframes hpart
  refine ⟨d, hframe, ?_⟩
  rw [length_append]
  exact Nat.le_add_left_of_le (length_le_of_mem hd)

end Parts

theorem exists_succ_of_frame (h : Frame left v data) : ∃ lower, left = lower + 1 := by
  cases left with
  | zero => exact absurd h.succeeds not_succeeds_throw
  | succ lower => exact ⟨lower, rfl⟩

theorem partFrame_of_entries {values : Entries} {size : ℕ}
    (h : ∀ entry ∈ values, PartFrame left entry.1 size ∧ PartFrame left entry.2 size) :
    ∀ part ∈ values.flatMap fun entry ↦ [entry.1, entry.2], PartFrame left part size := by
  intro part hpart
  obtain ⟨entry, hentry, hpart⟩ := mem_flatMap.mp hpart
  rcases mem_pair.mp hpart with rfl | rfl
  · exact (h entry hentry).1
  · exact (h entry hentry).2

/-- Every part of a value has a frame of its own. -/
theorem Frame.partFrame (hleft : left ≤ maxNestingDepth + 1) (h : Frame (left + 1) v data)
    (hsorted : v.Sorted) : ∀ part ∈ v.parts, PartFrame left part data.length := by
  cases v with
  | list values | vector values | tuple values | cons values | queue values | orderedSet values =>
    obtain ⟨hitems, rfl⟩ := h.items_sequence hleft rfl
    exact hitems.partFrame
  | mapEntry values =>
    obtain ⟨hitems, rfl⟩ := h.items_sequence hleft
      (encodeValue_mapEntry (length_of_succeeds_mapEntry h.succeeds) left)
    exact hitems.partFrame
  | set values | sortedSet values =>
    obtain ⟨hitems, rfl⟩ := h.items_unordered hleft rfl
    exact hitems.partFrame
  | map values | orderedMap values | sortedMap values =>
    exact partFrame_of_entries (h.mapFrame hleft rfl).partFrame
  | trie values =>
    intro part hpart
    obtain ⟨field, hfield, rfl⟩ := mem_map.mp hpart
    exact ((h.mapFrame hleft (encodeValue_trie ..)).partFrame _ (mem_map_of_mem hfield)).2
  | record fields =>
    intro part hpart
    obtain ⟨field, hfield, rfl⟩ := mem_map.mp hpart
    exact ((h.mapFrame_record hleft hsorted.own).partFrame _ (mem_map_of_mem hfield)).2
  | tagged tag form =>
    intro part hpart
    obtain rfl := mem_singleton.mp hpart
    obtain ⟨d, hframe, hle⟩ := partFrame_parts hleft h (encodeValue_tagged ..) part (by simp)
    exact ⟨left, d, Nat.le_refl left, hframe, hle⟩
  | exceptionInfo message fields cause provenance =>
    intro part hpart
    obtain ⟨hfieldsMap, hcause⟩ := isMap_and_causeValid h.succeeds
    have hmem : part ∈ exceptionParts message fields cause provenance := by
      rcases mem_cons.mp hpart with rfl | hpart
      · simp [exceptionParts]
      · obtain rfl : cause = some part := Option.mem_toList.mp hpart
        simp [exceptionParts]
    obtain ⟨d, hframe, hle⟩ := partFrame_parts hleft h
      (encodeValue_exceptionInfo hfieldsMap hcause left) part hmem
    exact ⟨left, d, Nat.le_refl left, hframe, hle⟩
  | struct name fields values =>
    -- the values stand in a vector, one level further down
    intro part hpart
    have hencode := encodeValue_struct (length_of_succeeds_struct h.succeeds) name left
    obtain ⟨d, hframe, hle⟩ := partFrame_parts hleft h hencode (.vector values) (by simp)
    obtain ⟨lower, rfl⟩ := exists_succ_of_frame hframe
    obtain ⟨hitems, rfl⟩ := hframe.items_sequence (Nat.le_of_succ_le hleft) rfl
    obtain ⟨lower', d', hlower, hpartFrame, hle'⟩ := hitems.partFrame part hpart
    exact ⟨lower', d', Nat.le_succ_of_le hlower, hpartFrame, hle'.trans hle⟩
  | pointer context fields =>
    intro part hpart
    obtain ⟨field, hfield, rfl⟩ := mem_map.mp hpart
    have hencode := encodeValue_pointer h.succeeds
    obtain ⟨d, hframe, hle⟩ := partFrame_parts hleft h hencode (.record fields) (by simp)
    obtain ⟨lower, rfl⟩ := exists_succ_of_frame hframe
    have hmap := hframe.mapFrame_record (Nat.le_of_succ_le hleft) hsorted.own
    obtain ⟨lower', d', hlower, hpartFrame, hle'⟩ := (hmap.partFrame _ (mem_map_of_mem hfield)).2
    exact ⟨lower', d', Nat.le_succ_of_le hlower, hpartFrame, hle'.trans hle⟩
  | _ =>
    intro part hpart
    exact absurd hpart not_mem_nil

/-- A value that can be encoded on its own. -/
structure Portable (v : ImmutableValue) (data : List UInt8) : Prop where
  frame : Frame (maxNestingDepth + 1) v data
  fits : (magic ++ data).length ≤ maxFrameBytes
  sorted : v.Sorted

/-- The value can be encoded on its own. -/
def IsPortable (v : ImmutableValue) : Prop := ∃ data, Portable v data

theorem Portable.of_partFrame {w part : ImmutableValue} (h : Portable w data)
    (hpart : PartFrame maxNestingDepth part data.length) (hsorted : part.Sorted) :
    IsPortable part := by
  obtain ⟨lower, d, hlower, hframe, hle⟩ := hpart
  refine ⟨d, hframe.lift (hlower.trans (Nat.le_succ _)), ?_, hsorted⟩
  have hfits := h.fits
  rw [length_append] at hfits ⊢
  omega

theorem Portable.part {w part : ImmutableValue} (h : Portable w data) (hpart : part ∈ w.parts) :
    IsPortable part :=
  h.of_partFrame (h.frame.partFrame (Nat.le_succ _) h.sorted part hpart)
    (h.sorted.of_mem_parts hpart)

theorem Portable.node (h : Portable v data) {w : ImmutableValue} (hw : Node v w) :
    IsPortable w := by
  induction hw with
  | self => exact ⟨data, h⟩
  | part _ hpart ih =>
    obtain ⟨d, hd⟩ := ih
    exact hd.part hpart

/-! ## The order in which parts are written -/

/-- The items of a set in the order of their bytes, each of them once. -/
def encodedOrder (values : List ImmutableValue) : List ImmutableValue :=
  (sortBy (fun v ↦ rank (encodedBytes v)) values).destutter fun a b ↦
    encodedBytes a ≠ encodedBytes b

/-- The entries of a map in the order of the bytes of their keys. -/
def encodedEntryOrder (values : List (ImmutableValue × ImmutableValue)) :
    List (ImmutableValue × ImmutableValue) :=
  sortBy (fun entry ↦ rank (encodedBytes entry.1)) values

/-- The items of a sequence or a set, as they are written. -/
def itemsOf : ImmutableValue → Option (List ImmutableValue)
  | .list values => some values
  | .vector values => some values
  | .mapEntry values => some values
  | .tuple values => some values
  | .cons values => some values
  | .queue values => some values
  | .orderedSet values => some values
  | .set values => some (encodedOrder values)
  | .sortedSet values => some (encodedOrder values)
  | _ => none

/-- The entries of a map, as they are written. -/
def entriesOf : ImmutableValue → Option (List (ImmutableValue × ImmutableValue))
  | .map values => some (encodedEntryOrder values)
  | .orderedMap values => some values
  | .sortedMap values => some values
  | .trie values => some (values.map stringEntry)
  | .record fields => some (encodedEntryOrder (fields.map keywordEntry))
  | _ => none

/-- The view of a value that was encoded. -/
def viewOf (v : ImmutableValue) : ValueView := ⟨encodedBytes v⟩

/-- The views of a key and of a value. -/
def entryView (entry : ImmutableValue × ImmutableValue) : ValueView × ValueView :=
  (viewOf entry.1, viewOf entry.2)

/-- The view, made a frame, is what the encoder writes. -/
def Framed (v : ImmutableValue) : Prop := encodeImmutable v = .ok (viewOf v).toFrame

/-- What the views of a value and of its parts give. -/
structure ViewAgrees (w : ImmutableValue) : Prop where
  framed : Framed w
  items : ∀ values, itemsOf w = some values →
    (viewOf w).items = .ok (values.map viewOf) ∧ ∀ value ∈ values, Framed value
  mapEntries : ∀ entries, entriesOf w = some entries →
    (viewOf w).mapEntries = .ok (entries.map entryView) ∧
      ∀ entry ∈ entries, Framed entry.1 ∧ Framed entry.2
  field : ∀ fields : List (String × ImmutableValue),
    entriesOf w = some (fields.map keywordEntry) → ∀ name,
      (viewOf w).field name = .ok ((fields.lookup name).map viewOf)
  field_error : ∀ entries, entriesOf w = some entries →
    (∃ entry ∈ entries, entry.1.isKeyword = false) → ∀ name, ∃ e, (viewOf w).field name = .error e

theorem Portable.framed (h : Portable v data) : Framed v := by
  have hbytes := h.frame.encodedBytes_eq le_rfl
  rw [Framed, viewOf, hbytes]
  exact ((emits_write magic).seq (h.frame.emits 0)).encoded h.fits

theorem IsPortable.framed (h : IsPortable v) : Framed v := by
  obtain ⟨data, hdata⟩ := h
  exact hdata.framed

theorem encodedBytes_of_frame (hleft : left ≤ maxNestingDepth + 1) (h : Frame left v data) :
    viewOf v = ⟨data⟩ := congrArg ValueView.mk (h.encodedBytes_eq hleft)

/-! ## Reading views -/

theorem tag_eq (tag : Tag) (rest : List UInt8) :
    ValueView.tag ⟨[tag.code] ++ rest⟩ = .ok tag := by
  simp [ValueView.tag, Tag.ofCode?_code]

/-- The next values are scanned one level below the root. -/
def Scanned (data : List UInt8) : Prop := Decodes (scanValue maxNestingDepth) data ()

theorem items_eq {tag : Tag} {datas : List (List UInt8)} (htag : tag.isSequence = true)
    (h : ∀ data ∈ datas, Scanned data) (hlen : datas.length < 2 ^ 32) :
    ValueView.items ⟨[tag.code] ++ (be 4 datas.length ++ datas.flatten)⟩ =
      .ok (datas.map ValueView.mk) := by
  have hviews : Decodes (ValueView.nextViews datas.length) datas.flatten
      (datas.map ValueView.mk) := by
    rw [← datas.length_map ValueView.mk]
    refine Decodes.many ?_
    rw [forall₂_map_left_iff, forall₂_same]
    intro data hdata
    exact (h data hdata).spanned.bind_pure (.pure _)
  rw [ValueView.items, tag_eq]
  refine bind_eq_ok.mpr ⟨tag, rfl, ?_⟩
  rw [if_pos htag]
  exact bind_eq_ok.mpr ⟨_, ((decodes_readLen hlen).bind hviews).read, rfl⟩

theorem mapEntries_eq {tag : Tag} {datas : EntryDatas} (htag : tag.isMapping = true)
    (h : ∀ data ∈ datas, Scanned data.1 ∧ Scanned data.2) (hlen : datas.length < 2 ^ 32) :
    ValueView.mapEntries ⟨[tag.code] ++ (be 4 datas.length ++ entryBytes datas)⟩ =
      .ok (datas.map fun data ↦ (⟨data.1⟩, ⟨data.2⟩)) := by
  have hviews : Decodes (many ValueView.nextEntry datas.length) (entryBytes datas)
      (datas.map fun data ↦ (⟨data.1⟩, ⟨data.2⟩)) := by
    rw [← datas.length_map fun data ↦ ((⟨data.1⟩, ⟨data.2⟩) : ValueView × ValueView)]
    refine Decodes.many ?_
    rw [forall₂_map_left_iff, forall₂_map_right_iff, forall₂_same]
    intro data hdata
    obtain ⟨hkey, hvalue⟩ := h data hdata
    exact hkey.spanned.bind (hvalue.spanned.bind_pure (.pure _))
  rw [ValueView.mapEntries, tag_eq]
  refine bind_eq_ok.mpr ⟨tag, rfl, ?_⟩
  rw [if_pos htag]
  exact bind_eq_ok.mpr ⟨_, ((decodes_readLen hlen).bind hviews).read, rfl⟩

theorem keyword_eq (hleft : left ≤ maxNestingDepth + 1) (h : Frame left (.keyword name) data) :
    (viewOf (.keyword name)).keyword = .ok name := by
  rw [encodedBytes_of_frame hleft h]
  obtain ⟨lower, rfl⟩ := exists_succ_of_frame h
  have hlen := lt_of_succeeds_writeSized h.succeeds
  obtain rfl := h.eq_of_emits (emits_writeSized hlen)
  refine bind_eq_ok.mpr ⟨.keyword, rfl, ?_⟩
  refine bind_eq_ok.mpr ⟨_, (decodes_sized hlen).read, ?_⟩
  dsimp only
  rw [Utf8.text?_bytes]
  rfl

theorem isKeyword_of_wireTag (h : wireTag v = .keyword) : v.isKeyword = true := by
  cases v with
  | keyword name => rfl
  | boolean b => cases b <;> cases h
  | bigInteger text =>
    rw [wireTag] at h
    split at h <;> cases h
  | _ => cases h

theorem keyword_error (hleft : left ≤ maxNestingDepth + 1) (h : Frame left v data)
    (hsorted : v.Sorted) (hkeyword : v.isKeyword = false) :
    ∃ e, (viewOf v).keyword = .error e := by
  have hhead := (scansFrames hleft v data h hsorted).2
  have htag : (viewOf v).tag = .ok (wireTag v) := by
    rw [encodedBytes_of_frame hleft h, ValueView.tag, hhead, Option.bind_some, Tag.ofCode?_code]
  have hne : wireTag v ≠ .keyword := by
    intro heq
    rw [isKeyword_of_wireTag heq] at hkeyword
    cases hkeyword
  refine ⟨ValueView.kindError "keyword" (wireTag v), ?_⟩
  rw [ValueView.keyword, htag]
  exact if_neg hne

/-! ## The parts of a value that can be encoded -/

section Views

variable (h : Portable v data)

include h

variable {values : List ImmutableValue}

theorem Portable.viewOf_eq : viewOf v = ⟨data⟩ := encodedBytes_of_frame le_rfl h.frame

variable {tag : Tag}

theorem Portable.items {ordered : List ImmutableValue} (htag : tag.isSequence = true)
    (hitems : ItemFrames maxNestingDepth values (ordered.map encodedBytes))
    (hdata : data = itemBytes tag (ordered.map encodedBytes)) (hsorted : ∀ v ∈ values, v.Sorted) :
    (viewOf v).items = .ok (ordered.map viewOf) := by
  have hviews : ordered.map viewOf = (ordered.map encodedBytes).map ValueView.mk := by
    rw [map_map]
    rfl
  rw [h.viewOf_eq, hdata, hviews]
  refine Hta.items_eq htag (fun d hd ↦ ?_) hitems.length_lt
  obtain ⟨v, hv, hframe⟩ := hitems.exists_value d hd
  exact (scansFrames (Nat.le_succ _) v d hframe (hsorted v hv)).1

omit h in
theorem map_encodedOrder :
    (encodedOrder values).map encodedBytes = mergedDatas (values.map encodedBytes) := by
  rw [mergedDatas, ← map_sortBy rank encodedBytes]
  exact map_destutter fun _ _ _ _ ↦ Iff.rfl

omit h in
theorem mem_of_mem_encodedOrder {value : ImmutableValue} (hvalue : value ∈ encodedOrder values) :
    value ∈ values :=
  (sortBy_perm _ _).mem_iff.mp ((destutter_sublist _ _).mem hvalue)

theorem Portable.mapEntries {values ordered : Entries} {canonicalOrder : Bool}
    (hmap : MapFrame maxNestingDepth tag canonicalOrder values data) (htag : tag.isMapping = true)
    (hbytes : ordered.map (fun entry ↦ (encodedBytes entry.1, encodedBytes entry.2)) =
      entryDatas canonicalOrder values) (horder : ordered.Perm values)
    (hsorted : ∀ entry ∈ values, entry.1.Sorted ∧ entry.2.Sorted) :
    (viewOf v).mapEntries = .ok (ordered.map entryView) ∧
      ∀ entry ∈ ordered, IsPortable entry.1 ∧ IsPortable entry.2 := by
  constructor
  · have hviews : ordered.map entryView = (entryDatas canonicalOrder values).map fun data ↦
        ((⟨data.1⟩, ⟨data.2⟩) : ValueView × ValueView) := by
      rw [← hbytes, map_map]
      rfl
    rw [h.viewOf_eq, hviews, hmap.data_eq]
    refine mapEntries_eq htag (hmap.forall_datas ?_) hmap.length_lt
    rintro entry hentry d ⟨hkey, hvalue⟩
    obtain ⟨hsortedKey, hsortedValue⟩ := hsorted entry hentry
    exact ⟨(scansFrames (Nat.le_succ _) _ _ hkey hsortedKey).1,
      (scansFrames (Nat.le_succ _) _ _ hvalue hsortedValue).1⟩
  · intro entry hentry
    have hmem := horder.mem_iff.mp hentry
    obtain ⟨hkey, hvalue⟩ := hmap.partFrame entry hmem
    obtain ⟨hsortedKey, hsortedValue⟩ := hsorted entry hmem
    exact ⟨h.of_partFrame hkey hsortedKey, h.of_partFrame hvalue hsortedValue⟩

omit h in
theorem map_encodedEntryOrder (values : Entries) :
    (encodedEntryOrder values).map (fun entry ↦ (encodedBytes entry.1, encodedBytes entry.2)) =
      entryDatas true values :=
  map_sortBy keyRank
    (fun entry : ImmutableValue × ImmutableValue ↦ (encodedBytes entry.1, encodedBytes entry.2))
    values

theorem Portable.items_eq (hitems : itemsOf v = some values) :
    (viewOf v).items = .ok (values.map viewOf) ∧ ∀ value ∈ values, IsPortable value := by
  have hparts : ∀ part ∈ v.parts, part.Sorted := fun part ↦ h.sorted.of_mem_parts
  cases v with
  | list values | vector values | tuple values | cons values | queue values | orderedSet values =>
    cases hitems
    obtain ⟨hframes, hdata⟩ := h.frame.items_sequence (Nat.le_succ _) rfl
    exact ⟨h.items rfl hframes hdata hparts, fun value ↦ h.part⟩
  | mapEntry values =>
    cases hitems
    have hencode := encodeValue_mapEntry (length_of_succeeds_mapEntry h.frame.succeeds)
      maxNestingDepth
    obtain ⟨hframes, hdata⟩ := h.frame.items_sequence (Nat.le_succ _) hencode
    exact ⟨h.items rfl hframes hdata hparts, fun value ↦ h.part⟩
  | set values | sortedSet values =>
    cases hitems
    obtain ⟨hframes, hdata⟩ := h.frame.items_unordered (Nat.le_succ _) rfl
    rw [← map_encodedOrder] at hframes hdata
    refine ⟨h.items rfl hframes hdata hparts, fun value hvalue ↦ ?_⟩
    exact h.part (mem_of_mem_encodedOrder hvalue)
  | _ => cases hitems

theorem Portable.mapEntries_eq {entries : Entries} (hentries : entriesOf v = some entries) :
    (viewOf v).mapEntries = .ok (entries.map entryView) ∧
      ∀ entry ∈ entries, IsPortable entry.1 ∧ IsPortable entry.2 := by
  have hparts : ∀ part ∈ v.parts, part.Sorted := fun part ↦ h.sorted.of_mem_parts
  cases v with
  | map values =>
    cases hentries
    exact h.mapEntries (h.frame.mapFrame (Nat.le_succ _) rfl) rfl (map_encodedEntryOrder _)
      (sortBy_perm _ _) (sorted_entries hparts)
  | orderedMap values | sortedMap values =>
    cases hentries
    exact h.mapEntries (h.frame.mapFrame (Nat.le_succ _) rfl) rfl rfl (.refl _)
      (sorted_entries hparts)
  | trie values =>
    cases hentries
    exact h.mapEntries (h.frame.mapFrame (Nat.le_succ _) (encodeValue_trie ..)) rfl rfl (.refl _)
      (sorted_stringEntries hparts)
  | record fields =>
    cases hentries
    exact h.mapEntries (h.frame.mapFrame_record (Nat.le_succ _) h.sorted.own) rfl
      (map_encodedEntryOrder _) (sortBy_perm _ _) (sorted_keywordEntries h.sorted)
  | _ => cases hentries

end Views

/-! ## Fields -/

theorem find?_map_viewOf (fields : Fields) (name : String) :
    ((fields.map fun field ↦ (field.1, viewOf field.2)).find? fun entry ↦
      entry.1 = name).map Prod.snd = (fields.lookup name).map viewOf := by
  induction fields with
  | nil => rfl
  | cons field fields ih =>
    obtain ⟨key, value⟩ := field
    by_cases hkey : key = name
    · subst hkey
      simp
    · have hkey' : (name == key) = false := beq_eq_false_iff_ne.mpr (Ne.symm hkey)
      rw [map_cons, find?_cons_of_neg (by simpa using hkey), ih, lookup_cons, hkey']

theorem Portable.keyword_eq (h : IsPortable (.keyword name)) :
    (viewOf (.keyword name)).keyword = .ok name := by
  obtain ⟨d, hd⟩ := h
  exact Hta.keyword_eq le_rfl hd.frame

theorem Portable.field_eq (h : Portable v data)
    (hentries : entriesOf v = some (fields.map keywordEntry)) :
    (viewOf v).field name = .ok ((fields.lookup name).map viewOf) := by
  obtain ⟨hviews, hportable⟩ := h.mapEntries_eq hentries
  have hrecord : (viewOf v).recordEntries =
      .ok (fields.map fun field ↦ (field.1, viewOf field.2)) := by
    refine bind_eq_ok.mpr ⟨_, hviews, ?_⟩
    rw [Except.mapM_eq_ok, map_map, forall₂_map_left_iff, forall₂_map_right_iff, forall₂_same]
    intro field hfield
    have hkey := Portable.keyword_eq (hportable _ (mem_map_of_mem hfield)).1
    exact bind_eq_ok.mpr ⟨field.1, hkey, rfl⟩
  refine bind_eq_ok.mpr ⟨_, hrecord, ?_⟩
  rw [find?_map_viewOf]
  rfl

theorem Portable.field_error (h : Portable v data) {entries : Entries}
    (hentries : entriesOf v = some entries) (hkey : ∃ entry ∈ entries, entry.1.isKeyword = false) :
    ∃ e, (viewOf v).field name = .error e := by
  obtain ⟨hviews, hportable⟩ := h.mapEntries_eq hentries
  obtain ⟨entry, hentry, hkeyword⟩ := hkey
  cases hfield : (viewOf v).field name with
  | error e => exact ⟨e, rfl⟩
  | ok found =>
    -- all keys would be keywords
    obtain ⟨record, hrecord, -⟩ := bind_eq_ok.mp hfield
    obtain ⟨views, hviews', hkeywords⟩ := bind_eq_ok.mp hrecord
    obtain rfl : entries.map entryView = views := Except.ok.inj (hviews.symm.trans hviews')
    obtain ⟨field, -, hfieldKey⟩ := Except.exists_of_mapM_eq_ok hkeywords (mem_map_of_mem hentry)
    obtain ⟨key, hkey, -⟩ := bind_eq_ok.mp hfieldKey
    obtain ⟨d, hd⟩ := (hportable entry hentry).1
    obtain ⟨e, herror⟩ := keyword_error le_rfl hd.frame hd.sorted hkeyword
    rw [entryView, herror] at hkey
    cases hkey

theorem Portable.viewAgrees (h : Portable v data) : ViewAgrees v where
  framed := h.framed
  items values hitems := by
    obtain ⟨hviews, hportable⟩ := h.items_eq hitems
    exact ⟨hviews, fun value hvalue ↦ (hportable value hvalue).framed⟩
  mapEntries entries hentries := by
    obtain ⟨hviews, hportable⟩ := h.mapEntries_eq hentries
    refine ⟨hviews, ?_⟩
    intro entry hentry
    exact ⟨(hportable entry hentry).1.framed, (hportable entry hentry).2.framed⟩
  field fields hentries name := h.field_eq hentries
  field_error entries hentries hkey name := h.field_error hentries hkey

/-! ## The whole frame -/

theorem Portable.parse_eq (h : Portable v data) :
    FrameView.parse (magic ++ data) = .ok ⟨magic ++ data, viewOf v⟩ := by
  have hmagic : magic.isPrefixOf (magic ++ data) = true :=
    isPrefixOf_iff_prefix.mpr (prefix_append _ _)
  refine bind_eq_ok.mpr ⟨(), Except.ensure_eq_ok.mpr h.fits, ?_⟩
  refine bind_eq_ok.mpr ⟨(), Except.ensure_eq_ok.mpr hmagic, ?_⟩
  rw [h.viewOf_eq]
  exact bind_eq_ok.mpr ⟨_, (scansFrames le_rfl v data h.frame h.sorted).1.read, rfl⟩

/-- The frame of a value is parsed, and the views of the value and of everything in it agree with
the encoder. -/
theorem views_agree (v : ImmutableValue) (hsorted : v.Sorted) (b : List UInt8)
    (h : encodeImmutable v = .ok b) :
    FrameView.parse b = .ok ⟨b, viewOf v⟩ ∧ ∀ w, Node v w → ViewAgrees w := by
  obtain ⟨data, rfl, hfits, hframe⟩ := exists_frame_of_encodeImmutable h
  have hportable : Portable v data := ⟨hframe, hfits, hsorted⟩
  refine ⟨hportable.parse_eq, ?_⟩
  intro w hw
  obtain ⟨d, hd⟩ := hportable.node hw
  exact hd.viewAgrees

/-- The field `:a` of a map, and the items of the set at `:b`, whose bytes come in another order
than they were given. -/
theorem views_agree_keywordMap :
    FrameView.parse keywordBytes = .ok ⟨keywordBytes, viewOf keywordMap⟩ ∧
      (viewOf keywordMap).field "a" = .ok (some (viewOf (.tuple [.bigInteger "007"]))) ∧
      (viewOf (.set [.integer 2, .integer 1, .integer 2])).items =
        .ok [viewOf (.integer 1), viewOf (.integer 2)] := by
  have hencode : encodeImmutable keywordMap = .ok keywordBytes := by rfl
  obtain ⟨hparse, hviews⟩ :=
    views_agree keywordMap admissible_keywordMap.sorted keywordBytes hencode
  have hset : Node keywordMap (.set [.integer 2, .integer 1, .integer 2]) :=
    .part .self (by simp [keywordMap, ImmutableValue.parts])
  have hentries : entriesOf keywordMap =
      some ([("a", .tuple [.bigInteger "007"]),
        ("b", .set [.integer 2, .integer 1, .integer 2])].map keywordEntry) := by rfl
  have hitems : itemsOf (.set [.integer 2, .integer 1, .integer 2]) =
      some [.integer 1, .integer 2] := by rfl
  exact ⟨hparse, (hviews _ .self).field _ hentries "a", ((hviews _ hset).items _ hitems).1⟩

end Hara.Hta
