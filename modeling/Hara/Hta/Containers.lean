import Hara.Hta.Frames
import Mathlib.Algebra.Order.BigOperators.Group.List

/-!
# Frames of containers

The frames of sequences, sets, maps and records, from those of their parts.
-/

namespace Hara.Hta

open Codec Hara.Lib List

variable {left : ℕ}

/-! ## Sequences -/

variable {datas : List (List UInt8)}

theorem length_mul_le_flatten {n : ℕ} (h : ∀ data ∈ datas, n ≤ data.length) :
    datas.length * n ≤ datas.flatten.length := by
  rw [length_flatten, ← datas.length_map List.length]
  exact card_nsmul_le_sum _ n (by simpa using h)

variable {values : List ImmutableValue} {encode : ImmutableValue → ByteWriter String Unit}
  {tag : Tag}

/-- The bytes of that many items pass the check of a length. -/
theorem remaining_flatten {α : Type} {e : String} {read : Reader String α}
    (hne : ∀ data ∈ datas, data ≠ []) (rest : List UInt8) :
    (do
      let n ← remaining
      if n < datas.length then throw e else read) (datas.flatten ++ rest) =
      read (datas.flatten ++ rest) := by
  have hremaining : remaining (datas.flatten ++ rest) = .ok _ _ := rfl
  have hle : datas.length ≤ (datas.flatten ++ rest).length := by
    have hle := length_mul_le_flatten fun data hdata ↦ length_pos_iff.mpr (hne data hdata)
    rw [length_append]
    omega
  rw [EStateM.bind_of_ok hremaining, if_neg (Nat.not_lt.mpr hle)]

theorem decodes_sequence {read : Reader String ImmutableValue}
    (h : List.Forall₂ (fun value data ↦ Decodes read data value) values datas)
    (hne : ∀ data ∈ datas, data ≠ []) (hlen : values.length < 2 ^ 32) :
    Decodes (sequence read) (be 4 values.length ++ datas.flatten) values := by
  refine (decodes_readLen hlen).bind ?_
  intro rest
  rw [h.length_eq, remaining_flatten hne, ← h.length_eq]
  exact Decodes.many h rest

/-- The parts of a container have frames if they can be encoded. -/
theorem exists_frames (ih : AllFramed left) (h : ∀ v ∈ values, Succeeds (encodeValue left v)) :
    ∃ datas, List.Forall₂ (Frame left) values datas :=
  exists_forall₂ fun v hv ↦ ih v (h v hv)

section Frames

section

variable (h : List.Forall₂ (Frame left) values datas)

include h

theorem emits_frames (k : ℕ) :
    Emits maxFrameBytes (values.forM (encodeValue (left + k))) datas.flatten :=
  .forM (h.imp fun _ _ hframe ↦ hframe.emits k)

theorem emits_frames_again {k : ℕ} :
    Emits maxFrameBytes ((values.map normalForm).forM (encodeValue (left + k))) datas.flatten :=
  .forM (forall₂_map_left_iff.mpr (h.imp fun _ _ hframe ↦ hframe.again k))

theorem decodes_frames (hadmissible : ∀ v ∈ values, v.Admissible) :
    List.Forall₂ (fun v data ↦ Decodes (value left) data v) (values.map normalForm) datas := by
  induction h with
  | nil => exact .nil
  | cons hframe _ ih =>
    obtain ⟨hv, hvalues⟩ := forall_mem_cons.mp hadmissible
    exact .cons (hframe.decodes hv) (ih hvalues)

theorem ne_nil_of_frames : ∀ data ∈ datas, data ≠ [] := by
  induction h with
  | nil => nofun
  | cons hframe _ ih => exact forall_mem_cons.mpr ⟨hframe.ne_nil, ih⟩

end

theorem emits_encodeSequence (tag : Tag) {data : List UInt8} (hlen : values.length < 2 ^ 32)
    (h : Emits maxFrameBytes (values.forM encode) data) :
    Emits maxFrameBytes (encodeSequence encode tag values)
      ([tag.code] ++ (be 4 values.length ++ data)) :=
  (emits_push tag).seq ((emits_writeLen hlen).seq h)

/-- The frame of a value that is encoded as a sequence. -/
theorem exists_frame_sequence {v : ImmutableValue} (ih : AllFramed left)
    (hsucceeds : Succeeds (encodeValue (left + 1) v))
    (hencode : ∀ left, encodeValue (left + 1) v = encodeSequence (encodeValue left) tag values)
    (hagain : ∀ left, encodeValue (left + 1) (normalForm v) =
      encodeSequence (encodeValue left) tag (values.map normalForm))
    (hadmissible : v.Admissible → ∀ value ∈ values, value.Admissible)
    (hread : v.Admissible → ∀ data, Decodes (sequence (value left)) data (values.map normalForm) →
      Decodes (readTagged (value left) tag) data (normalForm v)) :
    ∃ data, Frame (left + 1) v data := by
  have hsequence := hsucceeds
  rw [hencode] at hsequence
  have hlen := lt_of_succeeds_writeLen hsequence.seq.2.seq.1
  obtain ⟨datas, hframes⟩ := exists_frames ih hsequence.seq.2.seq.2.forM
  refine ⟨_, .of_tagged tag (be 4 values.length ++ datas.flatten) hsucceeds ?_ ?_ ?_⟩
  · intro k
    rw [hencode]
    exact emits_encodeSequence tag hlen (emits_frames hframes k)
  · intro k
    rw [hagain, ← values.length_map normalForm]
    exact emits_encodeSequence tag (by rwa [length_map]) (emits_frames_again hframes)
  · intro hv
    apply hread hv
    rw [← values.length_map normalForm]
    exact decodes_sequence (decodes_frames hframes (hadmissible hv)) (ne_nil_of_frames hframes)
      (by rwa [length_map])

end Frames

/-! ## Sets -/

/-- The bytes of the items of a set, as they are written. -/
def mergedDatas (datas : List (List UInt8)) : List (List UInt8) :=
  (sortBy rank datas).destutter (· ≠ ·)

theorem mergedDatas_mergedDatas : mergedDatas (mergedDatas datas) = mergedDatas datas := by
  have hsorted : (mergedDatas datas).Pairwise fun a b ↦ rank a ≤ rank b :=
    pairwise_sortBy.sublist (destutter_sublist _ _)
  rw [mergedDatas, sortBy_of_pairwise hsorted]
  exact destutter_of_isChain _ _ (isChain_destutter _ _)

theorem emits_encodeUnorderedSequence (h : values.mapM (fun v ↦ encoded (encode v)) = .ok datas)
    (hlen : (mergedDatas datas).length < 2 ^ 32) :
    Emits maxFrameBytes (encodeUnorderedSequence encode tag values)
      ([tag.code] ++ (be 4 (mergedDatas datas).length ++ (mergedDatas datas).flatten)) := by
  rw [encodeUnorderedSequence, h]
  refine (emits_push tag).seq ((emits_writeLen hlen).seq (.forM ?_))
  exact forall₂_same.mpr fun data _ ↦ emits_write data

variable {v : ImmutableValue} {data : List UInt8}

/-- What the encoder wrote into a buffer is a frame. -/
theorem frame_of_encoded (ih : AllFramed left)
    (h : encoded (encodeValue left v) = .ok data) : Frame left v data := by
  have hrun := encoded_eq_ok.mp h
  obtain ⟨data', hframe⟩ := ih v ⟨_, _, _, hrun⟩
  obtain rfl : data = [] ++ data' := (hframe.emits 0).eq [] data hrun
  exact hframe

theorem Frame.encoded (h : Frame left v data) (k : ℕ) :
    Codec.encoded (encodeValue (left + k) v) = .ok data := (h.emits k).encoded h.fits

theorem Frame.encoded_again (h : Frame left v data) (k : ℕ) :
    Codec.encoded (encodeValue (left + k) (normalForm v)) = .ok data :=
  (h.again k).encoded h.fits

/-- The bytes of a frame do not depend on the depth. -/
theorem Frame.encodedBytes_eq (h : Frame left v data) (hleft : left ≤ maxNestingDepth + 1) :
    encodedBytes v = data := by
  have hencoded := h.encoded (maxNestingDepth + 1 - left)
  rw [Nat.add_sub_cancel' hleft] at hencoded
  rw [encodedBytes, hencoded]
  rfl

theorem frames_of_mapM (ih : AllFramed left)
    (h : values.mapM (fun v ↦ encoded (encodeValue left v)) = .ok datas) :
    List.Forall₂ (Frame left) values datas :=
  (Except.mapM_eq_ok.mp h).imp fun _ _ ↦ frame_of_encoded ih

theorem map_encodedBytes (hleft : left ≤ maxNestingDepth + 1)
    (h : List.Forall₂ (Frame left) values datas) : values.map encodedBytes = datas := by
  rw [← forall₂_eq_eq_eq, forall₂_map_left_iff]
  exact h.imp fun _ _ hframe ↦ hframe.encodedBytes_eq hleft

theorem frame_encodedBytes (hleft : left ≤ maxNestingDepth + 1)
    (h : List.Forall₂ (Frame left) values datas) : ∀ v ∈ values, Frame left v (encodedBytes v) := by
  induction h with
  | nil => nofun
  | cons hframe _ ih =>
    refine forall_mem_cons.mpr ⟨?_, ih⟩
    rwa [hframe.encodedBytes_eq hleft]

/-- The items of a set with their bytes. -/
def bytedItems (values : List ImmutableValue) : List (List UInt8 × ImmutableValue) :=
  values.map fun v ↦ (encodedBytes v, normalForm v)

theorem map_fst_bytedItems :
    ((sortBy (fun item ↦ rank item.1) (bytedItems values)).destutter fun a b ↦ a.1 ≠ b.1).map
      Prod.fst = mergedDatas (values.map encodedBytes) := by
  have hfst : (bytedItems values).map Prod.fst = values.map encodedBytes := by
    rw [bytedItems, map_map]
    rfl
  rw [mergedDatas, ← hfst, ← map_sortBy rank Prod.fst]
  exact map_destutter fun _ _ _ _ ↦ Iff.rfl

/-- The frame of a set. -/
theorem exists_frame_unordered {make : List ImmutableValue → ImmutableValue}
    (hleft : left ≤ maxNestingDepth + 1) (ih : AllFramed left)
    (hsucceeds : Succeeds (encodeValue (left + 1) (make values)))
    (hencode : ∀ left values, encodeValue (left + 1) (make values) =
      encodeUnorderedSequence (encodeValue left) tag values)
    (hnormal : normalForm (make values) = make (mergedItems (bytedItems values)))
    (hadmissible : (make values).Admissible → ∀ value ∈ values, value.Admissible)
    (hread : readTagged (value left) tag = make <$> sequence (value left)) :
    ∃ data, Frame (left + 1) (make values) data := by
  have hset := hsucceeds
  rw [hencode] at hset
  obtain ⟨datas, hdatas, hset⟩ := hset.lift
  have hlen : (mergedDatas datas).length < 2 ^ 32 := lt_of_succeeds_writeLen hset.seq.2.seq.1
  have hframes := frames_of_mapM ih hdatas
  -- the items that are written, with their bytes
  obtain ⟨items, hitems⟩ : ∃ items, items =
      (sortBy (fun item ↦ rank item.1) (bytedItems values)).destutter fun a b ↦ a.1 ≠ b.1 :=
    ⟨_, rfl⟩
  have hfst : items.map Prod.fst = mergedDatas datas := by
    rw [hitems, map_fst_bytedItems, map_encodedBytes hleft hframes]
  have hsnd : mergedItems (bytedItems values) = items.map Prod.snd := by rw [hitems]; rfl
  have hmem : ∀ item ∈ items, ∃ v ∈ values, Frame left v item.1 ∧ item.2 = normalForm v := by
    intro item hitem
    rw [hitems] at hitem
    have hsorted := (destutter_sublist _ _).mem hitem
    obtain ⟨v, hv, rfl⟩ := mem_map.mp ((sortBy_perm _ _).mem_iff.mp hsorted)
    exact ⟨v, hv, frame_encodedBytes hleft hframes v hv, rfl⟩
  have hmapM (k : ℕ) : (items.map Prod.snd).mapM (fun v ↦ encoded (encodeValue (left + k) v)) =
      .ok (items.map Prod.fst) := by
    rw [Except.mapM_eq_ok, forall₂_map_left_iff, forall₂_map_right_iff, forall₂_same]
    intro item hitem
    obtain ⟨v, -, hframe, hv⟩ := hmem item hitem
    rw [hv]
    exact hframe.encoded_again k
  refine ⟨_, .of_tagged tag (be 4 (mergedDatas datas).length ++ (mergedDatas datas).flatten)
    hsucceeds ?_ ?_ ?_⟩
  · intro k
    rw [hencode]
    refine emits_encodeUnorderedSequence (Except.mapM_eq_ok.mpr ?_) hlen
    exact hframes.imp fun _ _ hframe ↦ hframe.encoded k
  · intro k
    rw [hnormal, hencode, hsnd, ← mergedDatas_mergedDatas, ← hfst]
    refine emits_encodeUnorderedSequence (hmapM k) ?_
    rwa [hfst, mergedDatas_mergedDatas]
  · intro hv
    rw [hnormal, hread, hsnd, ← hfst, length_map, ← items.length_map Prod.snd]
    refine Decodes.bind_pure (decodes_sequence ?_ ?_ ?_) (.pure _)
    · rw [forall₂_map_left_iff, forall₂_map_right_iff, forall₂_same]
      intro item hitem
      obtain ⟨v, hvalue, hframe, hnf⟩ := hmem item hitem
      rw [hnf]
      exact hframe.decodes (hadmissible hv v hvalue)
    · intro data hdata
      obtain ⟨item, hitem, rfl⟩ := mem_map.mp hdata
      obtain ⟨v, -, hframe, -⟩ := hmem item hitem
      exact hframe.ne_nil
    · rwa [length_map, ← items.length_map Prod.fst, hfst]

end Hara.Hta
