import Hara.Lib.Decimal
import Hara.Values.Atom
import Mathlib.Data.Nat.Digits.Lemmas

/-!
# Java's hash of a decimal

Java hashes a decimal by its unscaled value, without zeros at the end, and its scale. Below `2 ^ 63`
the value is compact and hashed as two words; any other value is hashed as a `BigInteger`, over all
its words. `bigdecimal_hash` tells the two apart by the value modulo `2 ^ 128`. So a longer value of
which the lowest 128 bits are a compact value is hashed as this value, and what is lost is the hash
of the words above.
-/

namespace Hara.Values

open List

/-! ## The hashes of Java -/

/-- `BigInteger.hashCode` of a magnitude: 31-fold over its words, the most significant first. -/
def javaWordsHash (magnitude : ℕ) : BitVec 32 :=
  (Nat.digits (2 ^ 32) magnitude).reverse.foldl (fun h word ↦ 31 * h + BitVec.ofNat 32 word) 0

/-- The hash of a compact value. -/
def javaCompactHash (magnitude : ℕ) : BitVec 32 :=
  31 * BitVec.ofNat 32 (magnitude / 2 ^ 32) + BitVec.ofNat 32 magnitude

/-- `BigDecimal.hashCode`. -/
def javaDecimalHash (sign : ℤ) (magnitude : ℕ) (scale : ℤ) : BitVec 32 :=
  31 * (BitVec.ofInt 32 sign *
    if magnitude < 2 ^ 63 then javaCompactHash magnitude else javaWordsHash magnitude) +
  BitVec.ofInt 32 scale

theorem ofNat_eq_of_mod {i j : ℕ} (h : i % 2 ^ 32 = j % 2 ^ 32) :
    BitVec.ofNat 32 i = BitVec.ofNat 32 j := by
  rw [← BitVec.toNat_inj, BitVec.toNat_ofNat, BitVec.toNat_ofNat, h]

theorem javaWordsHash_eq (m : ℕ) :
    javaWordsHash m = 31 * javaWordsHash (m / 2 ^ 32) + BitVec.ofNat 32 m := by
  rcases Nat.eq_zero_or_pos m with rfl | hm
  · rfl
  · rw [javaWordsHash, Nat.digits_def' (by norm_num) hm, reverse_cons, foldl_append, foldl_cons,
      foldl_nil, ofNat_eq_of_mod (Nat.mod_mod m _), javaWordsHash]

/-- Four words that hold 63 bits are the compact value. -/
theorem javaWordsHash_split {m : ℕ} (hm : m % 2 ^ 128 < 2 ^ 63) :
    javaWordsHash m = javaCompactHash (m % 2 ^ 128) + 31 ^ 4 * javaWordsHash (m / 2 ^ 128) := by
  rw [javaWordsHash_eq m, javaWordsHash_eq (m / 2 ^ 32), javaWordsHash_eq (m / 2 ^ 32 / 2 ^ 32),
    javaWordsHash_eq (m / 2 ^ 32 / 2 ^ 32 / 2 ^ 32), javaCompactHash]
  simp only [Nat.div_div_eq_div_mul, ← pow_add, Nat.reduceAdd]
  have hthird : BitVec.ofNat 32 (m / 2 ^ 64) = 0 := @ofNat_eq_of_mod _ 0 (by omega)
  have hfourth : BitVec.ofNat 32 (m / 2 ^ 96) = 0 := @ofNat_eq_of_mod _ 0 (by omega)
  rw [hthird, hfourth, @ofNat_eq_of_mod (m % 2 ^ 128) m (by omega),
    @ofNat_eq_of_mod (m % 2 ^ 128 / 2 ^ 32) (m / 2 ^ 32) (by omega)]
  ring

/-! ## Words -/

/-- The number of the words, the least significant first. -/
def wordsValue (le : List (BitVec 32)) : ℕ := Nat.ofDigits (2 ^ 32) (le.map BitVec.toNat)

theorem wordsValue_cons (w : BitVec 32) (le : List (BitVec 32)) :
    wordsValue (w :: le) = w.toNat + 2 ^ 32 * wordsValue le := Nat.ofDigits_cons

theorem wordsValue_pushDigit (le : List (BitVec 32)) {carry : ℕ} (hcarry : carry < 2 ^ 32) :
    wordsValue (pushDigit le carry) = 10 * wordsValue le + carry := by
  induction le generalizing carry with
  | nil =>
    rw [pushDigit]
    split
    next hzero => simp [wordsValue, hzero]
    next => simpa [wordsValue] using hcarry
  | cons w le ih =>
    rw [pushDigit, wordsValue_cons, wordsValue_cons, ih (by omega), BitVec.toNat_ofNat]
    omega

theorem wordsValue_rdropWhile (le : List (BitVec 32)) :
    wordsValue (le.rdropWhile (· = 0)) = wordsValue le := by
  induction le using reverseRecOn with
  | nil => rfl
  | append_singleton le w ih =>
    by_cases hw : w = 0
    · rw [rdropWhile_concat_pos _ _ _ (by simpa using hw), ih, hw]
      simp [wordsValue, Nat.ofDigits_append]
    · rw [rdropWhile_concat_neg _ _ _ (by simpa using hw)]

theorem wordsValue_digits {digits : List ℕ} (hdigits : ∀ d ∈ digits, d < 10) :
    wordsValue (digits.reverse.foldl pushDigit [0]) = Nat.ofDigits 10 digits := by
  induction digits with
  | nil => rfl
  | cons d digits ih =>
    have hd : d < 10 := hdigits d mem_cons_self
    rw [reverse_cons, foldl_append, foldl_cons, foldl_nil, wordsValue_pushDigit _ (by omega),
      ih fun e he ↦ hdigits e (mem_cons_of_mem d he), Nat.ofDigits_cons, add_comm]

/-- A fold over the words of a number, from the most significant one on. -/
theorem foldl_words {β : Type} (value : ℕ → β) (m : ℕ) {step : β → BitVec 32 → β}
    (hstep : ∀ (w : BitVec 32) n, value (w.toNat + 2 ^ 32 * n) = step (value n) w) :
    (digitsToWordsBe (Nat.digits 10 m).reverse).foldl step (value 0) = value m := by
  have hvalue (le : List (BitVec 32)) :
      le.reverse.foldl step (value 0) = value (wordsValue le) := by
    induction le with
    | nil => rfl
    | cons w le ih =>
      rw [reverse_cons, foldl_append, ih, wordsValue_cons, hstep, foldl_cons, foldl_nil]
  have hle := hvalue (((Nat.digits 10 m).reverse.foldl pushDigit [0]).rdropWhile (· = 0))
  rw [wordsValue_rdropWhile, wordsValue_digits fun d hd ↦ Nat.digits_lt_base (by decide) hd,
    Nat.ofDigits_digits] at hle
  rw [digitsToWordsBe]
  split
  next hnil =>
    rw [hnil] at hle
    exact (hstep 0 0).symm.trans hle
  next => exact hle

theorem bigintegerHash_eq (m : ℕ) (sign : ℤ) :
    bigintegerHash (digitsToWordsBe (Nat.digits 10 m).reverse) sign =
      BitVec.ofInt 32 sign * javaWordsHash m := by
  rw [bigintegerHash, mul_comm]
  refine congrArg (BitVec.ofInt 32 sign * ·) (foldl_words javaWordsHash m ?_)
  intro w n
  rw [javaWordsHash_eq, ofNat_eq_of_mod (Nat.add_mul_mod_self_left _ _ _), BitVec.ofNat_toNat,
    mul_comm, show (w.toNat + 2 ^ 32 * n) / 2 ^ 32 = n by omega]
  rfl

/-- The words are put together modulo `2 ^ 128`. -/
theorem magnitude_eq (m : ℕ) :
    (digitsToWordsBe (Nat.digits 10 m).reverse).foldl
      (fun (acc : BitVec 128) w ↦ acc <<< 32 ||| w.setWidth 128) 0 = BitVec.ofNat 128 m := by
  refine foldl_words (BitVec.ofNat 128) m ?_
  intro w n
  have hdisjoint : BitVec.ofNat 128 n <<< 32 &&& w.setWidth 128 = 0 := by
    apply BitVec.eq_of_getLsbD_eq
    intro i hi
    by_cases hlow : i < 32
    · simp [hlow]
    · simp [BitVec.getLsbD_of_ge w i (Nat.not_lt.mp hlow)]
  rw [← BitVec.add_eq_or_of_and_eq_zero _ _ hdisjoint, ← BitVec.toNat_inj]
  simp
  omega

/-- What `bigdecimal_hash` makes of a number. -/
theorem bigdecimalHash_eq (m : ℕ) {sign : ℤ} (scale : BitVec 32) (hsign : sign = 1 ∨ sign = -1) :
    bigdecimalHash (digitsToWordsBe (Nat.digits 10 m).reverse) sign scale =
      31 * (BitVec.ofInt 32 sign *
        if m % 2 ^ 128 < 2 ^ 63 then javaCompactHash (m % 2 ^ 128) else javaWordsHash m) +
      scale := by
  have hzero : sign ≠ 0 := by omega
  have hlt : BitVec.ofNat 128 m < 2 ^ 63 ↔ m % 2 ^ 128 < 2 ^ 63 := by
    rw [BitVec.lt_def, BitVec.toNat_ofNat,
      show (2 ^ 63 : BitVec 128).toNat = 2 ^ 63 by decide +kernel]
  have htemp : (BitVec.ofNat 128 m >>> 32).setWidth 32 * 31 + (BitVec.ofNat 128 m).setWidth 32 =
      javaCompactHash (m % 2 ^ 128) := by
    rw [javaCompactHash, mul_comm, ← BitVec.toNat_inj]
    simp [Nat.shiftRight_eq_div_pow]
  rw [bigdecimalHash, if_neg hzero, bigintegerHash_eq, magnitude_eq]
  simp only [hlt, htemp]
  split
  · rcases hsign with rfl | rfl
    · simp
    · rw [if_pos (by decide), show BitVec.ofInt 32 (-1) = -1 from rfl, neg_one_mul]
  · rfl

/-! ## Digits -/

/-- The digits of a text are those of the number. -/
theorem map_toDigits {n : ℕ} (hn : 0 < n) :
    (Nat.toDigits 10 n).map (fun c ↦ c.toNat - '0'.toNat) = (Nat.digits 10 n).reverse := by
  have hdigit {d : ℕ} (hd : d < 10) : d.digitChar.toNat - '0'.toNat = d := by
    interval_cases d <;> rfl
  induction n using Nat.strong_induction_on with
  | h n ih =>
    rw [Nat.toDigits_eq_if (by decide), Nat.digits_def' (by decide) hn, reverse_cons]
    split
    next hlt =>
      rw [map_singleton, hdigit hlt, Nat.div_eq_of_lt hlt, Nat.mod_eq_of_lt hlt]
      rfl
    next => rw [map_append, ih (n / 10) (by omega) (by omega), map_singleton, hdigit (by omega)]

theorem scanDecimal_digits {s : Text} (hs : ∀ c ∈ s, c.isDigit = true) (digits : List ℕ) :
    scanDecimal false digits 0 s = some (digits ++ s.map fun c ↦ c.toNat - '0'.toNat, 0) := by
  induction s generalizing digits with
  | nil => simp [scanDecimal]
  | cons c s ih =>
    have hc : c.isDigit = true := hs c mem_cons_self
    rw [scanDecimal, digit?, if_pos hc]
    simp [ih fun e he ↦ hs e (mem_cons_of_mem c he)]

theorem unsignedDecimal_toDigits (neg : Bool) {n : ℕ} (hn : 0 < n) :
    unsignedDecimal neg (Nat.toDigits 10 n) =
      some ⟨if neg then -1 else 1, (Nat.digits 10 n).reverse, 0⟩ := by
  have hne : Nat.digits 10 n ≠ [] := Nat.digits_ne_nil_iff_ne_zero.mpr hn.ne'
  rw [unsignedDecimal, scanDecimal_digits fun c ↦ Decimal.isDigit_of_mem, nil_append,
    map_toDigits hn, ← dropLast_append_getLast hne, reverse_append, reverse_singleton,
    singleton_append]
  simp [Nat.getLast_digit_ne_zero 10 hn.ne']

theorem parseDecimal_integerText {n : ℤ} (hn : n ≠ 0) :
    parseDecimal (integerText n) = some ⟨n.sign, (Nat.digits 10 n.natAbs).reverse, 0⟩ := by
  have hpos : 0 < n.natAbs := Int.natAbs_pos.mpr hn
  rw [integerText]
  split
  next hneg =>
    rw [Int.sign_eq_neg_one_of_neg hneg]
    exact unsignedDecimal_toDigits true hpos
  next =>
    rw [Int.sign_eq_one_of_pos (by omega), parseDecimal.eq_def]
    split
    · next heq => exact absurd heq (Decimal.toDigits_ne_cons rfl)
    · next heq => exact absurd heq (Decimal.toDigits_ne_cons rfl)
    · exact unsignedDecimal_toDigits false hpos

/-- The zeros at the end of a number. -/
theorem rdropWhile_digits {m : ℕ} (hm : ¬10 ∣ m) (k : ℕ) :
    (Nat.digits 10 (m * 10 ^ k)).reverse.rdropWhile (· = 0) = (Nat.digits 10 m).reverse ∧
      (Nat.digits 10 (m * 10 ^ k)).length = (Nat.digits 10 m).length + k := by
  have hpos : 0 < m := Nat.pos_of_ne_zero fun hzero ↦ hm (hzero ▸ dvd_zero 10)
  rw [mul_comm, Nat.digits_base_pow_mul (by decide) hpos, rdropWhile, reverse_reverse]
  constructor
  · rw [dropWhile_append_of_pos (by simp +contextual), Nat.digits_def' (by decide) hpos,
      dropWhile_cons_of_neg (by simpa using fun h ↦ hm (Nat.dvd_of_mod_eq_zero h))]
  · rw [length_append, length_replicate, add_comm]

section

variable {n : ℤ} {m k : ℕ} (hn : n.natAbs = m * 10 ^ k) (hm : ¬10 ∣ m)

include hn hm

theorem sign_of_stripped : n.sign = 1 ∨ n.sign = -1 := by
  have hne : n ≠ 0 := by
    rintro rfl
    have hzero : m = 0 := by simpa using hn.symm
    exact hm (hzero ▸ dvd_zero 10)
  rcases lt_or_gt_of_ne hne with hneg | hpos
  · exact .inr (Int.sign_eq_neg_one_of_neg hneg)
  · exact .inl (Int.sign_eq_one_of_pos hpos)

theorem integer_hash :
    canonicalDecimalStrHash (integerText n) =
      31 * (BitVec.ofInt 32 n.sign *
        if m % 2 ^ 128 < 2 ^ 63 then javaCompactHash (m % 2 ^ 128) else javaWordsHash m) +
      BitVec.ofInt 32 (-k) := by
  have hsign := sign_of_stripped hn hm
  have hne : n.sign ≠ 0 := by omega
  obtain ⟨hdigits, hlength⟩ := rdropWhile_digits hm k
  rw [canonicalDecimalStrHash, parseDecimal_integerText (fun hzero ↦ hne (by simp [hzero])), hn]
  simp only [canonicalDecimalHash, if_neg hne, hdigits, length_reverse, hlength]
  rw [bigdecimalHash_eq m _ hsign, Nat.add_sub_cancel_left, zero_sub]

omit hn hm in
/-- Nothing is lost only if the hash of the words is zero: `31` can be divided out. -/
theorem lost_eq_zero_iff {x : BitVec 32} {sign : ℤ} (hsign : sign = 1 ∨ sign = -1) :
    31 * (BitVec.ofInt 32 sign * (31 ^ 4 * x)) = 0 ↔ x = 0 := by
  constructor
  · intro h
    have hinv : (0x7f8e435f * 31 ^ 5 : BitVec 32) = 1 := by decide
    have hsquare : BitVec.ofInt 32 sign * BitVec.ofInt 32 sign = 1 := by
      rcases hsign with rfl | rfl <;> rfl
    calc x = 0x7f8e435f * 31 ^ 5 * (BitVec.ofInt 32 sign * BitVec.ofInt 32 sign) * x := by
          rw [hinv, hsquare, one_mul, one_mul]
      _ = 0x7f8e435f * BitVec.ofInt 32 sign * (31 * (BitVec.ofInt 32 sign * (31 ^ 4 * x))) := by
          ring
      _ = 0 := by rw [h, mul_zero]
  · rintro rfl
    simp

/-- **The hash of an integer is that of Java**, unless its stripped magnitude is compact modulo
`2 ^ 128` and the words above have a hash that is not zero. -/
theorem integer_hash_java_iff :
    canonicalDecimalStrHash (integerText 0) = 0 ∧
    (canonicalDecimalStrHash (integerText n) = javaDecimalHash n.sign m (-k) ↔
      2 ^ 63 ≤ m % 2 ^ 128 ∨ javaWordsHash (m / 2 ^ 128) = 0) := by
  refine ⟨by decide, ?_⟩
  rw [integer_hash hn hm, javaDecimalHash]
  by_cases hlow : m % 2 ^ 128 < 2 ^ 63
  · have hjava : (if m < 2 ^ 63 then javaCompactHash m else javaWordsHash m) =
        javaCompactHash (m % 2 ^ 128) + 31 ^ 4 * javaWordsHash (m / 2 ^ 128) := by
      split
      next =>
        rw [Nat.mod_eq_of_lt (by omega), Nat.div_eq_of_lt (by omega)]
        exact (add_zero _).symm
      next => exact javaWordsHash_split hlow
    rw [if_pos hlow, hjava, mul_add, mul_add, add_left_inj, left_eq_add,
      lost_eq_zero_iff (sign_of_stripped hn hm), or_iff_right (Nat.not_le.mpr hlow)]
  · have hlarge : ¬m < 2 ^ 63 := fun hcompact ↦ hlow ((Nat.mod_le _ _).trans_lt hcompact)
    rw [if_neg hlow, if_neg hlarge]
    exact iff_of_true rfl (.inl (Nat.not_lt.mp hlow))

end

/-- Two zeros are stripped from `2500`. -/
theorem integer_hash_2500 :
    canonicalDecimalStrHash (integerText 0) = 0 ∧
    (canonicalDecimalStrHash (integerText 2500) = javaDecimalHash 1 25 (-2) ↔
      2 ^ 63 ≤ 25 % 2 ^ 128 ∨ javaWordsHash (25 / 2 ^ 128) = 0) :=
  integer_hash_java_iff (n := 2500) (m := 25) (k := 2) (by decide) (by decide)

/-- The number `2 ^ 128 + 1` has the hash of `1`. -/
theorem integer_hash_beyond :
    canonicalDecimalStrHash (integerText (2 ^ 128 + 1)) = 31 ∧
      javaDecimalHash 1 (2 ^ 128 + 1) 0 = 31 * (31 ^ 4 + 1) := by
  constructor
  · decide +kernel
  · decide +kernel

end Hara.Values
