import Mathlib.Algebra.Order.Ring.Int
import Mathlib.Data.List.Basic

/-!
# Texts as bytes

Texts are Lean strings, what travels over a wire is a list of bytes. The encoder is the one of the
core library, character by character; the decoder accepts exactly what the encoder produces. Bytes
below 128 stand for themselves and occur nowhere else, which is what line-based formats rely on.
-/

namespace Utf8

/-- The UTF-8 bytes of a text. -/
def bytes (text : String) : List UInt8 := text.toList.flatMap String.utf8EncodeChar

/-- The text whose bytes these are, if there is one. -/
def text? (data : List UInt8) : Option String :=
  if h : data.toByteArray.IsValidUTF8 then some (String.ofByteArray data.toByteArray h) else none

theorem toByteArray_bytes (text : String) : (bytes text).toByteArray = text.toByteArray := by
  have h : text.toList.utf8Encode = text.toByteArray := by
    rw [← String.toByteArray_ofList, String.ofList_toList]
  exact h

@[simp] theorem bytes_append (text text' : String) :
    bytes (text ++ text') = bytes text ++ bytes text' := by
  rw [bytes, String.toList_append, List.flatMap_append]
  rfl

theorem bytes_ofList_cons (c : Char) (l : List Char) :
    bytes (String.ofList (c :: l)) = String.utf8EncodeChar c ++ bytes (String.ofList l) := by
  simp only [bytes, String.toList_ofList, List.flatMap_cons]

@[simp] theorem text?_bytes (text : String) : text? (bytes text) = some text := by
  have h : (bytes text).toByteArray.IsValidUTF8 := by
    rw [toByteArray_bytes]
    exact text.isValidUTF8
  rw [text?, dif_pos h, Option.some.injEq, ← String.toByteArray_inj]
  exact toByteArray_bytes text

theorem bytes_injective {text text' : String} (h : bytes text = bytes text') : text = text' := by
  have h' := text?_bytes text
  rw [h, text?_bytes] at h'
  exact (Option.some.inj h').symm

/-! ## ASCII -/

theorem utf8EncodeChar_ascii {c : Char} (h : c.toNat < 128) :
    String.utf8EncodeChar c = [UInt8.ofNat c.toNat] :=
  if_pos (Nat.le_of_lt_succ h)

/-- A byte below 128 is a character of its own. -/
theorem mem_utf8EncodeChar {c : Char} {b : UInt8} (hb : b.toNat < 128) :
    b ∈ String.utf8EncodeChar c ↔ c.toNat = b.toNat := by
  have hc : c.toNat = c.val.toNat := rfl
  have hmem : ∀ n : ℕ, b = UInt8.ofNat n ↔ b.toNat = n % 256 := by
    intro n
    rw [← UInt8.toNat_inj, UInt8.toNat_ofNat']
  rw [String.utf8EncodeChar]
  split
  · rw [List.mem_singleton, hmem]
    omega
  · split
    · simp only [List.mem_cons, List.not_mem_nil, or_false, hmem]
      omega
    · split
      · simp only [List.mem_cons, List.not_mem_nil, or_false, hmem]
        omega
      · simp only [List.mem_cons, List.not_mem_nil, or_false, hmem]
        omega

theorem mem_bytes {text : String} {b : UInt8} (hb : b.toNat < 128) :
    b ∈ bytes text ↔ Char.ofNat b.toNat ∈ text.toList := by
  have hchar : ∀ c : Char, c.toNat = b.toNat ↔ c = Char.ofNat b.toNat := by
    intro c
    constructor
    · intro h
      rw [← h, Char.ofNat_toNat]
    · intro h
      have hvalid : b.toNat.isValidChar := .inl (by omega)
      rw [h, Char.ofNat, dif_pos hvalid]
      rfl
  rw [bytes, List.mem_flatMap]
  constructor
  · rintro ⟨c, hmem, hc⟩
    rw [← (hchar c).mp ((mem_utf8EncodeChar hb).mp hc)]
    exact hmem
  · intro h
    exact ⟨_, h, (mem_utf8EncodeChar hb).mpr ((hchar _).mpr rfl)⟩

theorem bytes_ascii {l : List Char} (h : ∀ c ∈ l, c.toNat < 128) :
    bytes (String.ofList l) = l.map fun c ↦ UInt8.ofNat c.toNat := by
  induction l with
  | nil => rfl
  | cons c l ih =>
    obtain ⟨hc, hl⟩ := List.forall_mem_cons.mp h
    rw [bytes_ofList_cons, utf8EncodeChar_ascii hc, ih hl]
    rfl

end Utf8
