import Hara.Values.Data
import Hara.Values.DecimalHash

/-!
# The hashes of equal numbers

An integer and a double with the same value are equal. The double is hashed through its text, which
has only as many digits as it takes to read the double back, and zeros after them. Below `2 ^ 53`
this is the text of the integer; beyond, it may be that of another one.

## Placement

In a hash map, integers of 64 bits and doubles with the text of one are placed by a hash that keeps
the zeros at the end of the decimal, and big integers by one that does not. So a big integer that
ends in zeros may be placed apart from the double with its value.
-/

namespace Hara.Values

open Hara.Lib

namespace Double

/-- How much farther from zero than the double the integer is. -/
def beyond (d : Double) (x : ℤ) : ℚ := if d.negative then d.toRat - x else x - d.toRat

/-- The integer is read as the double. It lies at most half way to the next doubles, of which the
one nearer to zero is nearer at a power of two; half way, the even double is taken. -/
def ReadFrom (d : Double) (x : ℤ) : Prop :=
  let below : ℚ := if d.fraction = 0 ∧ 1 < d.exponentBits then 2 ^ d.exponent / 4
    else 2 ^ d.exponent / 2
  if d.fraction % 2 = 0 then -below ≤ d.beyond x ∧ d.beyond x ≤ 2 ^ d.exponent / 2
  else -below < d.beyond x ∧ d.beyond x < 2 ^ d.exponent / 2

/-- The integer has at most `s` digits before the zeros at its end. -/
def HasDigits (s : ℕ) (x : ℤ) : Prop := ∃ m k : ℕ, x.natAbs = m * 10 ^ k ∧ m < 10 ^ s

/-- The integer `format!` prints for the double: it is read as the double, and none with fewer
digits is. -/
structure Prints (d : Double) (x : ℤ) : Prop where
  readFrom : d.ReadFrom x
  shortest : ∀ y s, d.ReadFrom y → HasDigits s y → HasDigits s x

variable {d : Double} {n x : ℤ}

theorem ReadFrom.abs_sub_le (h : d.ReadFrom x) : |x - d.toRat| ≤ 2 ^ d.exponent / 2 := by
  have hbounds : -(2 ^ d.exponent / 2) ≤ d.beyond x ∧ d.beyond x ≤ 2 ^ d.exponent / 2 := by
    rw [ReadFrom] at h
    split_ifs at h <;> constructor <;> linarith [h.1, h.2]
  rw [abs_le]
  rw [beyond] at hbounds
  split at hbounds <;> constructor <;> linarith [hbounds.1, hbounds.2]

/-- Doubles below `2 ^ 53` are at most one apart. -/
theorem exponent_le_zero (hd : |d.toRat| < 2 ^ 53) : d.exponent ≤ 0 := by
  by_contra hpos
  have hnormal : d.exponentBits ≠ 0 := by
    intro hzero
    rw [exponent, if_pos hzero] at hpos
    omega
  have hsigned : (2 : ℚ) ^ 52 ≤ |(d.signed : ℚ)| := by
    have : (2 : ℤ) ^ 52 ≤ |d.signed| := by
      have hle : (2 : ℤ) ^ 52 ≤ |(d.fraction : ℤ) + 2 ^ 52| :=
        (Int.le_add_of_nonneg_left (Int.natCast_nonneg _)).trans (le_abs_self _)
      rw [signed, if_neg hnormal]
      split
      · rwa [abs_neg]
      · exact hle
    exact_mod_cast this
  have hpow : (2 : ℚ) ≤ 2 ^ d.exponent := by
    calc (2 : ℚ) = 2 ^ (1 : ℤ) := by norm_num
      _ ≤ 2 ^ d.exponent := zpow_le_zpow_right₀ (by norm_num) (by omega)
  rw [toRat, abs_mul, abs_of_pos (zero_lt_two.trans_le hpow)] at hd
  nlinarith

theorem ReadFrom.eq (h : d.ReadFrom x) (hd : d.toRat = n) (hn : |n| < 2 ^ 53) : x = n := by
  have hexponent : d.exponent ≤ 0 := exponent_le_zero (by rw [hd]; exact_mod_cast hn)
  have hulp : (2 : ℚ) ^ d.exponent ≤ 1 := zpow_le_one_of_nonpos₀ (by norm_num) hexponent
  have hdist := h.abs_sub_le
  rw [hd] at hdist
  have hlt : |x - n| < 1 := by
    have : |(x : ℚ) - n| < 1 := by linarith
    exact_mod_cast this
  have := Int.abs_lt_one_iff.mp hlt
  omega

theorem readFrom_self (hd : d.toRat = n) : d.ReadFrom n := by
  have hzero : d.beyond n = 0 := by
    rw [beyond, hd]
    split <;> exact sub_self _
  have hpos : (0 : ℚ) < 2 ^ d.exponent := zpow_pos (by norm_num) _
  rw [ReadFrom, hzero]
  split_ifs <;> constructor <;> linarith

/-- Below `2 ^ 53` the text spells the value. -/
theorem prints_self (hd : d.toRat = n) (hn : |n| < 2 ^ 53) : d.Prints n where
  readFrom := readFrom_self hd
  shortest _ _ hy hs := hy.eq hd hn ▸ hs

end Double

namespace Atom

/-- `numeric_hash`. -/
def numericHash (formatDouble : Double → Text) : Atom → Option (BitVec 32)
  | number n => some (canonicalDecimalStrHash (integerText n.toInt))
  | bigInteger n => some (canonicalDecimalStrHash (integerText n))
  | float d => some (hashDouble formatDouble d)
  | _ => none

/-- The atom is an integer of either kind. -/
def IsInteger (a : Atom) (n : ℤ) : Prop :=
  a = .bigInteger n ∨ ∃ i : I64, a = .number i ∧ i.toInt = n

/-- The text of the double is that of the integer, but for the sign of zero. -/
def Spells (formatDouble : Double → Text) (d : Double) (x : ℤ) : Prop :=
  formatDouble d = integerText x ∨ d.signed = 0 ∧ formatDouble d = ['-', '0']

/-- The integer is placed by the hash that keeps the zeros at the end, or has none, or is too large
for it. -/
def PlacedByText (a : Atom) (n : ℤ) : Prop :=
  (∃ i : I64, a = .number i) ∨ ¬(-2 ^ 63 ≤ n ∧ n < 2 ^ 63) ∨ ¬10 ∣ n ∨ n = 0

theorem foldl_digits (digits : Text) (m : ℕ) :
    digits.foldl (fun (n : ℤ) c ↦ n * 10 + (c.toNat - '0'.toNat : ℕ)) m =
      (Nat.ofDigitChars 10 digits m : ℕ) := by
  induction digits generalizing m with
  | nil => rfl
  | cons c digits ih =>
    rw [List.foldl_cons, Nat.ofDigitChars_cons, ← ih]
    congr 1
    push_cast
    ring

theorem parseDigits_toDigits (neg : Bool) (m : ℕ) :
    parseDigits neg (Nat.toDigits 10 m) =
      if -2 ^ 63 ≤ (if neg then -m else m : ℤ) ∧ (if neg then -m else m : ℤ) < 2 ^ 63
        then some (if neg then -m else m : ℤ) else none := by
  have hvalue := foldl_digits (Nat.toDigits 10 m) 0
  rw [Nat.ofDigitChars_ten_toDigits, Nat.cast_zero] at hvalue
  rw [parseDigits, if_neg, hvalue]
  rw [not_or, not_not]
  exact ⟨by simp, List.all_eq_true.mpr fun c ↦ Decimal.isDigit_of_mem⟩

/-- An `i64` is read from its text. -/
theorem parseI64_integerText (n : ℤ) :
    parseI64 (integerText n) = if -2 ^ 63 ≤ n ∧ n < 2 ^ 63 then some n else none := by
  rw [integerText]
  split
  next hneg =>
    rw [parseI64, parseDigits_toDigits, if_pos rfl, show -(n.natAbs : ℤ) = n by omega]
  next hneg =>
    have hn : (n.natAbs : ℤ) = n := by omega
    rw [parseI64.eq_def]
    split
    · next heq => exact absurd heq (Decimal.toDigits_ne_cons rfl)
    · next heq => exact absurd heq (Decimal.toDigits_ne_cons rfl)
    · rw [parseDigits_toDigits, if_neg Bool.false_ne_true, hn]

/-- Without zeros at the end, both hashes of an integer are the same. -/
theorem hashLongPlacement_eq {n : ℤ} (h : ¬10 ∣ n ∨ n = 0) :
    hashLongPlacement n = canonicalDecimalStrHash (integerText n) := by
  rcases h with hdvd | rfl
  · have hzero : n ≠ 0 := fun hn ↦ hdvd (hn ▸ dvd_zero 10)
    have hm : ¬10 ∣ n.natAbs := fun hn ↦ hdvd (Int.natCast_dvd.mpr hn)
    have hstrip := (rdropWhile_digits hm 0).1
    rw [pow_zero, mul_one] at hstrip
    have hsign : n.sign ≠ 0 := by rwa [ne_eq, Int.sign_eq_zero_iff_zero]
    rw [hashLongPlacement, canonicalDecimalStrHash, parseDecimal_integerText hzero]
    simp only [canonicalDecimalHash, if_neg hsign, hstrip, Nat.sub_self, Nat.cast_zero, sub_zero]
  · decide

section

variable {formatDouble : Double → Text} {a : Atom} {n : ℤ} {d : Double} (ha : a.IsInteger n)
  (hd : d.toRat = n)

include ha hd

theorem canonical_eq : a.canonical = (float d).canonical := by
  have hfloat : (float d).canonical = .inl (n : ℚ) := congrArg Sum.inl hd
  rw [hfloat]
  rcases ha with rfl | ⟨i, rfl, rfl⟩ <;> rfl

omit hd in
theorem numericHash_integer :
    a.numericHash formatDouble = some (canonicalDecimalStrHash (integerText n)) := by
  rcases ha with rfl | ⟨i, rfl, rfl⟩ <;> rfl

omit ha in
theorem hashDouble_eq (htext : Spells formatDouble d n) :
    hashDouble formatDouble d = canonicalDecimalStrHash (integerText n) := by
  rw [hashDouble]
  split
  next hzero =>
    have hn : (n : ℚ) = 0 := by rw [← hd, Double.toRat, hzero, Int.cast_zero, zero_mul]
    rw [Int.cast_eq_zero.mp hn]
    rfl
  next hne =>
    rcases htext with htext | ⟨hzero, -⟩
    · rw [htext]
    · exact absurd hzero hne

omit ha in
theorem parseI64_of_spells (htext : Spells formatDouble d n) :
    parseI64 (formatDouble d) = if -2 ^ 63 ≤ n ∧ n < 2 ^ 63 then some n else none := by
  rcases htext with htext | ⟨hzero, htext⟩
  · rw [htext, parseI64_integerText]
  · have hn : (n : ℚ) = 0 := by rw [← hd, Double.toRat, hzero, Int.cast_zero, zero_mul]
    rw [htext, Int.cast_eq_zero.mp hn]
    rfl

/-- The two are placed alike. -/
theorem placement_eq (htext : Spells formatDouble d n) (hplaced : PlacedByText a n) :
    placement formatDouble (some a) (a.javaHash formatDouble .rapid) =
      placement formatDouble (some (float d)) ((float d).javaHash formatDouble .rapid) := by
  have hden : d.toRat.den = 1 := by rw [hd, Rat.den_intCast]
  have hfloat : (float d).numberPlacement formatDouble =
      if -2 ^ 63 ≤ n ∧ n < 2 ^ 63 then some (hashLongPlacement n) else none := by
    rw [numberPlacement, if_pos hden, parseI64_of_spells hd htext]
    split <;> rfl
  have hhash : (float d).javaHash formatDouble .rapid =
      (canonicalDecimalStrHash (integerText n)).signExtend 64 := by
    rw [← hashDouble_eq hd htext]
    rfl
  rw [placement, placement, Option.bind_some, Option.bind_some, hfloat, hhash]
  rcases ha with rfl | ⟨i, rfl, rfl⟩
  · -- a big integer has no placement of its own
    by_cases hrange : -2 ^ 63 ≤ n ∧ n < 2 ^ 63
    · have hzeros : ¬10 ∣ n ∨ n = 0 := by
        rcases hplaced with ⟨i, hi⟩ | hout | hzeros
        · cases hi
        · exact absurd hrange hout
        · exact hzeros
      rw [if_pos hrange, hashLongPlacement_eq hzeros]
      rfl
    · rw [if_neg hrange]
      rfl
  · have hrange : -2 ^ 63 ≤ i.toInt ∧ i.toInt < 2 ^ 63 := ⟨BitVec.le_toInt i, BitVec.toInt_lt⟩
    rw [if_pos hrange]
    rfl

end

/-- A lookup does not tell equal atoms apart that are placed alike. -/
theorem get_eq_get {formatDouble : Double → Text} {n : ℕ} {V : Type} {x y : Atom}
    (hxy : x.canonical = y.canonical)
    (hplaced : placement formatDouble (some x) (x.javaHash formatDouble .rapid) =
      placement formatDouble (some y) (y.javaHash formatDouble .rapid))
    (s : Champ.Standard (layer formatDouble n).Carrier V) :
    s.get (layer formatDouble n).placementHash ((layer formatDouble n).ofAtom x) =
      s.get (layer formatDouble n).placementHash ((layer formatDouble n).ofAtom y) := by
  have hatom (z : Atom) : z.eq x = z.eq y := by
    rw [Bool.eq_iff_iff, eq_iff, eq_iff, hxy]
  have heq (key : (layer formatDouble n).Carrier) :
      (key == (layer formatDouble n).ofAtom x) = (key == (layer formatDouble n).ofAtom y) := by
    cases n with
    | zero => exact hatom key
    | succ n =>
      cases key with
      | atom z => exact hatom z
      | _ => rfl
  have hhash : (layer formatDouble n).placementHash ((layer formatDouble n).ofAtom x) =
      (layer formatDouble n).placementHash ((layer formatDouble n).ofAtom y) := by
    cases n <;> exact hplaced
  rw [Champ.Standard.get, Champ.Standard.get, hhash, Champ.findNode_congr heq]

/-- **Equal numbers.** An integer and a double with its value are equal. If the text of the double
spells the value, as it does below `2 ^ 53`, they have one hash; and if they are placed alike, every
hash map finds the same under both. -/
theorem equal_hash_found {formatDouble : Double → Text} {a : Atom} {n x : ℤ} {d : Double}
    (ha : a.IsInteger n) (hd : d.toRat = n) (hx : d.Prints x) (htext : Spells formatDouble d x) :
    numericEqual a (.float d) = some true ∧ numericEqual (.float d) a = some true ∧
    (|n| < 2 ^ 53 → x = n) ∧
    (x = n →
      a.numericHash formatDouble = (float d).numericHash formatDouble ∧
      (PlacedByText a n → ∀ (level : ℕ) (V : Type)
        (s : Champ.Standard (layer formatDouble level).Carrier V),
        s.get (layer formatDouble level).placementHash ((layer formatDouble level).ofAtom a) =
          s.get (layer formatDouble level).placementHash
            ((layer formatDouble level).ofAtom (.float d)))) := by
  have hvalue : a.value? = some (n : ℚ) := by
    rcases ha with rfl | ⟨i, rfl, rfl⟩ <;> rfl
  have hvalue' : (float d).value? = some (n : ℚ) := congrArg some hd
  refine ⟨?_, ?_, hx.readFrom.eq hd, ?_⟩
  · rw [numericEqual, numericTotalCompare_eq, hvalue, hvalue']
    simp
  · rw [numericEqual, numericTotalCompare_eq, hvalue, hvalue']
    simp
  · rintro rfl
    constructor
    · rw [numericHash_integer ha, numericHash, hashDouble_eq hd htext]
    · intro hplaced level V s
      exact get_eq_get (canonical_eq ha hd) (placement_eq ha hd htext hplaced) s

end Atom

/-! ## A double that is printed as another integer -/

/-- The double `2 ^ 60`. -/
def twoPow60 : Double := ⟨0x43b0000000000000, by decide⟩

theorem readFrom_twoPow60 {x : ℤ} : twoPow60.ReadFrom x ↔ 2 ^ 60 - 64 ≤ x ∧ x ≤ 2 ^ 60 + 128 := by
  have hvalue : twoPow60.toRat = 2 ^ 60 := by decide +kernel
  have hexponent : twoPow60.exponent = 8 := by decide
  have hbeyond : twoPow60.beyond x = x - 2 ^ 60 := by
    rw [Double.beyond, hvalue]
    exact if_neg (by decide)
  rw [Double.ReadFrom, hbeyond, hexponent, if_pos (by decide), if_pos (by decide)]
  rw [← @Int.cast_le ℚ, ← @Int.cast_le ℚ]
  push_cast
  constructor
  · rintro ⟨hlow, hhigh⟩
    exact ⟨by linarith, by linarith⟩
  · rintro ⟨hlow, hhigh⟩
    exact ⟨by linarith, by linarith⟩

/-- Sixteen digits are needed for it. -/
theorem prints_twoPow60 : twoPow60.Prints 1152921504606847000 where
  readFrom := readFrom_twoPow60.mpr (by decide)
  shortest := by
    rintro y s hy ⟨m, k, hdigits, hm⟩
    rw [readFrom_twoPow60] at hy
    refine ⟨1152921504606847, 3, by decide, ?_⟩
    by_contra hs
    rcases Nat.lt_or_ge k 4 with hk | hk
    · have hk' : 10 ^ k ≤ 10 ^ 3 := Nat.pow_le_pow_right (by decide) (by omega)
      have hle := Nat.mul_le_mul (by omega : m ≤ 1152921504606846) hk'
      omega
    · obtain ⟨j, rfl⟩ := Nat.exists_eq_add_of_le hk
      rw [pow_add, Nat.mul_left_comm] at hdigits
      omega

/-- The double `100`. -/
def hundred : Double := ⟨0x4059000000000000, by decide⟩

/-- The hash map with an entry under the key. -/
def keyMap (key : Atom) : Champ.Standard (layer (fun _ ↦ integerText 100) 0).Carrier Unit :=
  completed .new
    (Champ.Standard.assocValue (layer (fun _ ↦ integerText 100) 0).placementHash .new key ())

/-- A map finds under the double what is stored under the number. -/
theorem equal_hash_found_hundred :
    (Atom.number 100).numericHash (fun _ ↦ integerText 100) =
      (Atom.float hundred).numericHash (fun _ ↦ integerText 100) ∧
    (keyMap (.number 100)).get (layer (fun _ ↦ integerText 100) 0).placementHash
      (Atom.float hundred) = .ok (some ()) := by
  have hvalue : hundred.toRat = (100 : ℤ) := by decide +kernel
  have htext : Atom.Spells (fun _ ↦ integerText 100) hundred 100 := .inl rfl
  obtain ⟨-, -, -, hfound⟩ := Atom.equal_hash_found (.inr ⟨100, rfl, rfl⟩) hvalue
    (Double.prints_self hvalue (by decide)) htext
  obtain ⟨hhash, hget⟩ := hfound rfl
  refine ⟨hhash, ?_⟩
  refine (hget (.inl ⟨100, rfl⟩) 0 Unit (keyMap (.number 100))).symm.trans ?_
  decide +kernel

/-- An integer and a double that are equal and have different hashes, and a big integer and a double
that have one hash but are placed apart. -/
theorem twoPow60_hash :
    Atom.numericEqual (.bigInteger (2 ^ 60)) (.float twoPow60) = some true ∧
    twoPow60.Prints 1152921504606847000 ∧
    (Atom.bigInteger (2 ^ 60)).numericHash (fun _ ↦ integerText 1152921504606847000) ≠
      (Atom.float twoPow60).numericHash (fun _ ↦ integerText 1152921504606847000) ∧
    Atom.numericEqual (.bigInteger 100) (.float hundred) = some true ∧
    (keyMap (.bigInteger 100)).get (layer (fun _ ↦ integerText 100) 0).placementHash
      (Atom.bigInteger 100) = .ok (some ()) ∧
    (keyMap (.bigInteger 100)).get (layer (fun _ ↦ integerText 100) 0).placementHash
      (Atom.float hundred) = .ok none :=
  ⟨by decide +kernel, prints_twoPow60, by decide +kernel, by decide +kernel, by decide +kernel,
    by decide +kernel⟩

end Hara.Values
