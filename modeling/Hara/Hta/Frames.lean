import Hara.Hta.NormalForm

/-!
# Frames of values

`Frame left value data` says that the encoder writes `data` for the value, with as many levels left
or more, that it writes the same for the normal form, and that the decoder reads the normal form
from it.
-/

namespace Hara.Hta

open Codec Hara.Lib

/-! ## Pieces -/

theorem emits_write (data : List UInt8) : Emits maxFrameBytes (write data) data := .put _ data

theorem emits_push (tag : Tag) : Emits maxFrameBytes (push tag) [tag.code] := emits_write _

variable {len : ℕ}

theorem emits_writeLen (h : len < 2 ^ 32) : Emits maxFrameBytes (writeLen len) (be 4 len) := by
  rw [writeLen, if_pos h]
  exact emits_write _

theorem lt_of_succeeds_writeLen (h : Succeeds (writeLen len)) : len < 2 ^ 32 := by
  rw [writeLen] at h
  split at h
  · assumption
  · exact absurd h not_succeeds_throw

variable {data : List UInt8}

theorem emits_writeSized {tag : Tag} (h : data.length < 2 ^ 32) :
    Emits maxFrameBytes (writeSized tag data) ([tag.code] ++ (be 4 data.length ++ data)) :=
  (emits_push tag).seq ((emits_writeLen h).seq (emits_write data))

theorem emits_writeI64 {n : Int64} :
    Emits maxFrameBytes (writeI64 n) ([Tag.i64.code] ++ be 8 n.toUInt64.toNat) :=
  (emits_push .i64).seq (emits_write _)

theorem decodes_take {size : ℕ} (h : data.length = size) : Decodes (take size) data data := by
  intro rest
  rw [take, if_pos, List.take_left' h, List.drop_left' h]
  rw [List.length_append, h]
  exact Nat.le_add_right _ _

theorem decodes_readByte {b : UInt8} : Decodes readByte [b] b := by
  have htake : Decodes (take 1) [b] [b] := decodes_take rfl
  exact htake.bind_pure (.pure b)

theorem decodes_readLen (h : len < 2 ^ 32) : Decodes readLen (be 4 len) len := by
  refine (decodes_take length_be).bind_pure ?_
  rw [ofBe_be h]
  exact .pure len

theorem decodes_sized (h : data.length < 2 ^ 32) : Decodes sized (be 4 data.length ++ data) data :=
  (decodes_readLen h).bind (decodes_take rfl)

theorem decodes_text {value : String} (h : (Utf8.bytes value).length < 2 ^ 32) :
    Decodes text (be 4 (Utf8.bytes value).length ++ Utf8.bytes value) value := by
  refine (decodes_sized h).bind_pure ?_
  rw [Utf8.text?_bytes]
  exact .pure value

variable {tag : Tag}

/-- A value behind its tag. -/
theorem decodes_value {left : ℕ} {v : ImmutableValue}
    (h : Decodes (readTagged (value left) tag) data v) :
    Decodes (value (left + 1)) ([tag.code] ++ data) v := by
  refine decodes_readByte.bind ?_
  rw [Tag.ofCode?_code]
  exact h

/-! ## Leaves -/

/-- What the encoder and the decoder make of a value. -/
structure Frame (left : ℕ) (v : ImmutableValue) (data : List UInt8) : Prop where
  emits : ∀ k, Emits maxFrameBytes (encodeValue (left + k) v) data
  again : ∀ k, Emits maxFrameBytes (encodeValue (left + k) (normalForm v)) data
  ne_nil : data ≠ []
  fits : data.length ≤ maxFrameBytes
  decodes : v.Admissible → Decodes (value left) data (normalForm v)

/-- What is encoded has a frame. -/
def Framable (left : ℕ) (v : ImmutableValue) : Prop :=
  Succeeds (encodeValue left v) → ∃ data, Frame left v data

def AllFramed (left : ℕ) : Prop := ∀ v, Framable left v

variable {left : ℕ} {v : ImmutableValue}

/-- The frame of a value behind a tag. -/
theorem Frame.of_tagged (tag : Tag) (data : List UInt8)
    (hsucceeds : Succeeds (encodeValue (left + 1) v))
    (hemits : ∀ k, Emits maxFrameBytes (encodeValue (left + k + 1) v) ([tag.code] ++ data))
    (hagain : ∀ k, Emits maxFrameBytes (encodeValue (left + k + 1) (normalForm v))
      ([tag.code] ++ data))
    (hdecodes : v.Admissible → Decodes (readTagged (value left) tag) data (normalForm v)) :
    Frame (left + 1) v ([tag.code] ++ data) where
  emits k := by
    rw [Nat.add_right_comm]
    exact hemits k
  again k := by
    rw [Nat.add_right_comm]
    exact hagain k
  ne_nil := nofun
  fits := (hemits 0).length_le hsucceeds nofun
  decodes hv := decodes_value (hdecodes hv)

/-- The frame of a value that has no parts and is its own normal form. -/
theorem Frame.of_leaf (hsucceeds : Succeeds (encodeValue (left + 1) v)) (hnormal : normalForm v = v)
    (hemits : ∀ left, Emits maxFrameBytes (encodeValue (left + 1) v) ([tag.code] ++ data))
    (hdecodes : Decodes (readTagged (value left) tag) data v) :
    Frame (left + 1) v ([tag.code] ++ data) := by
  refine .of_tagged tag data hsucceeds (fun k ↦ hemits _) ?_ ?_
  · intro k
    rw [hnormal]
    exact hemits _
  · intro _
    rwa [hnormal]

theorem lt_of_succeeds_writeSized (h : Succeeds (writeSized tag data)) : data.length < 2 ^ 32 :=
  lt_of_succeeds_writeLen h.seq.2.seq.1

variable {text : String}

/-- The frame of a text. -/
theorem exists_frame_text {make : String → ImmutableValue}
    (hencode : ∀ left, encodeValue (left + 1) (make text) = writeSized tag (Utf8.bytes text))
    (hread : readTagged (value left) tag = make <$> Hta.text)
    (hnormal : normalForm (make text) = make text) : Framable (left + 1) (make text) := by
  intro hsucceeds
  have hlen : (Utf8.bytes text).length < 2 ^ 32 := by
    rw [hencode] at hsucceeds
    exact lt_of_succeeds_writeSized hsucceeds
  have hemits (left : ℕ) : Emits maxFrameBytes (encodeValue (left + 1) (make text))
      ([tag.code] ++ (be 4 (Utf8.bytes text).length ++ Utf8.bytes text)) := by
    rw [hencode]
    exact emits_writeSized hlen
  refine ⟨_, .of_leaf hsucceeds hnormal hemits ?_⟩
  rw [hread]
  exact (decodes_text hlen).bind_pure (.pure _)

theorem exists_frame_bytes {bytes : List UInt8} : Framable (left + 1) (.bytes bytes) := by
  intro hsucceeds
  have hlen := lt_of_succeeds_writeSized hsucceeds
  have hdecodes : Decodes (readTagged (value left) .bytes) _ (.bytes bytes) :=
    (decodes_sized hlen).bind_pure (.pure _)
  exact ⟨_, .of_leaf hsucceeds (by simp) (fun _ ↦ emits_writeSized hlen) hdecodes⟩

theorem decodes_i64 {n : Int64} :
    Decodes (readTagged (value left) .i64) (be 8 n.toUInt64.toNat) (.integer n) := by
  refine (decodes_take length_be).bind_pure ?_
  rw [ofBe_be n.toUInt64.toNat_lt, UInt64.ofNat_toNat]
  exact .pure _

theorem exists_frame_integer (n : Int64) : Framable (left + 1) (.integer n) := fun hsucceeds ↦
  ⟨_, .of_leaf hsucceeds (by simp) (fun _ ↦ emits_writeI64) decodes_i64⟩

variable {bits : UInt64}

theorem finite_of_succeeds (hsucceeds : Succeeds (encodeValue (left + 1) (.float bits))) :
    ImmutableValue.finite bits = true := by
  rw [encodeValue] at hsucceeds
  split at hsucceeds
  · assumption
  · exact absurd hsucceeds not_succeeds_throw

theorem emits_float (hfinite : ImmutableValue.finite bits = true) (left : ℕ) :
    Emits maxFrameBytes (encodeValue (left + 1) (.float bits))
      ([Tag.f64.code] ++ be 8 bits.toNat) := by
  rw [encodeValue, if_pos hfinite]
  exact (emits_push .f64).seq (emits_write _)

theorem exists_frame_float : Framable (left + 1) (.float bits) := by
  intro hsucceeds
  have hfinite := finite_of_succeeds hsucceeds
  have hdecodes : Decodes (readTagged (value left) .f64) (be 8 bits.toNat) (.float bits) := by
    refine (decodes_take length_be).bind_pure ?_
    rw [ofBe_be bits.toNat_lt, UInt64.ofNat_toNat, if_pos hfinite]
    exact .pure _
  exact ⟨_, .of_leaf hsucceeds (by simp) (emits_float hfinite) hdecodes⟩

theorem exists_frame_character (c : Char) : Framable (left + 1) (.character c) := by
  intro hsucceeds
  have hread : ofBe (be 4 c.toNat) = c.toNat := ofBe_be c.val.toNat_lt
  have hchar (n : ℕ) (hn : n.isValidChar) (heq : n = c.toNat) : Char.ofNatAux n hn = c := by
    subst heq
    rfl
  have hdecodes : Decodes (readTagged (value left) .character) (be 4 c.toNat) (.character c) := by
    refine (decodes_take length_be).bind_pure ?_
    have hvalid : (ofBe (be 4 c.toNat)).isValidChar := hread.symm ▸ c.valid
    rw [dif_pos hvalid, hchar _ hvalid hread]
    exact .pure _
  exact ⟨_, .of_leaf hsucceeds (by simp)
    (fun _ ↦ (emits_push .character).seq (emits_write _)) hdecodes⟩

/-! ## Big integers -/

/-- What the encoder does with a big integer, from its canonical value. -/
theorem encodeValue_bigInteger {canonical : ImmutableValue}
    (h : canonicalBigInteger text = .ok canonical) (left : ℕ) :
    encodeValue (left + 1) (.bigInteger text) = writeCanonical canonical := by
  rw [encodeValue, h]
  rfl

theorem exists_frame_bigInteger : Framable (left + 1) (.bigInteger text) := by
  intro hsucceeds
  obtain ⟨canonical, hcanonical, -⟩ := hsucceeds.lift
  have hencode := encodeValue_bigInteger hcanonical
  have hnormal : normalForm (.bigInteger text) = canonical := by
    rw [normalForm, hcanonical]
    rfl
  cases canonical with
  | integer n =>
    refine ⟨_, .of_tagged .i64 (be 8 n.toUInt64.toNat) hsucceeds (fun k ↦ ?_) (fun k ↦ ?_)
      (fun _ ↦ ?_)⟩
    · rw [hencode]
      exact emits_writeI64
    · rw [hnormal]
      exact emits_writeI64
    · rw [hnormal]
      exact decodes_i64
  | bigInteger canonical =>
    have hagain := encodeValue_bigInteger (canonicalBigInteger_bigInteger hcanonical)
    have hlen : (Utf8.bytes canonical).length < 2 ^ 32 := by
      rw [hencode] at hsucceeds
      exact lt_of_succeeds_writeSized hsucceeds
    refine ⟨_, .of_tagged .bigInteger (be 4 (Utf8.bytes canonical).length ++ Utf8.bytes canonical)
      hsucceeds (fun k ↦ ?_) (fun k ↦ ?_) (fun _ ↦ ?_)⟩
    · rw [hencode]
      exact emits_writeSized hlen
    · rw [hnormal, hagain]
      exact emits_writeSized hlen
    · rw [hnormal]
      refine (decodes_text hlen).bind_pure ?_
      rw [canonicalBigInteger_bigInteger hcanonical]
      exact .pure _
  | _ =>
    rw [hencode] at hsucceeds
    exact absurd hsucceeds not_succeeds_throw

end Hara.Hta
