import Hara.Values.Hashing
import Mathlib.Data.Rat.Floor

/-!
# Values without parts

Nil, booleans, numbers, characters, strings, keywords and symbols, with what `numeric.rs` and
`core/value.rs` do on them. A keyword or symbol is its full text, on which its equality, its order
and its hash depend.

## Numbers

A number is an `i64`, an integer of any size, or a finite double. They are compared by their exact
values (`numericTotalCompare_eq`).

The text of a double is a parameter: it is the shortest text that is read back as the double, which
Rust's standard library finds.
-/

namespace Hara.Values

/-! ## Doubles -/

/-- A double that is neither infinite nor no number, by its bits. -/
structure Double where
  bits : BitVec 64
  finite : bits.toNat / 2 ^ 52 % 2 ^ 11 ≠ 0x7ff
  deriving DecidableEq

namespace Double

def exponentBits (d : Double) : ℕ := d.bits.toNat / 2 ^ 52 % 2 ^ 11

def fraction (d : Double) : ℕ := d.bits.toNat % 2 ^ 52

def negative (d : Double) : Bool := 2 ^ 63 ≤ d.bits.toNat

/-- The significand with its sign. -/
def signed (d : Double) : ℤ :=
  let significand : ℤ := if d.exponentBits = 0 then d.fraction else d.fraction + 2 ^ 52
  if d.negative then -significand else significand

def exponent (d : Double) : ℤ :=
  if d.exponentBits = 0 then -1022 - 52 else d.exponentBits - 1023 - 52

/-- The exact value. -/
def toRat (d : Double) : ℚ := d.signed * 2 ^ d.exponent

/-- `partial_cmp` of two doubles, which compares their values. -/
def partialCmp (a b : Double) : Ordering := compare a.toRat b.toRat

end Double

def compareIntegerToFloat (integer : ℤ) (floating : Double) : Ordering :=
  if floating.signed = 0 then compare integer 0
  else if 0 ≤ floating.exponent then
    compare integer (floating.signed * 2 ^ floating.exponent.toNat)
  else compare (integer * 2 ^ (-floating.exponent).toNat) floating.signed

theorem compare_intCast (m n : ℤ) : compare (m : ℚ) (n : ℚ) = compare m n := by
  simp only [compare, compareOfLessAndEq, Int.cast_lt, Int.cast_inj]

theorem compareIntegerToFloat_eq (integer : ℤ) (floating : Double) :
    compareIntegerToFloat integer floating = compare (integer : ℚ) floating.toRat := by
  rw [compareIntegerToFloat, Double.toRat]
  by_cases hzero : floating.signed = 0
  · rw [hzero, ← compare_intCast]
    simp
  · rw [if_neg hzero]
    by_cases hexp : 0 ≤ floating.exponent
    · rw [if_pos hexp, ← compare_intCast]
      push_cast
      rw [← zpow_natCast, Int.toNat_of_nonneg hexp]
    · -- both sides times a power of two
      rw [if_neg hexp, ← compare_intCast]
      push_cast
      have hpow : (2 : ℚ) ^ (-floating.exponent).toNat = 2 ^ (-floating.exponent) := by
        rw [← zpow_natCast, Int.toNat_of_nonneg (by omega)]
      have hpos : (0 : ℚ) < 2 ^ (-floating.exponent) := zpow_pos (by norm_num) _
      have hscale : (floating.signed : ℚ) =
          floating.signed * 2 ^ floating.exponent * 2 ^ (-floating.exponent) := by
        rw [mul_assoc, ← zpow_add₀ (by norm_num), add_neg_cancel, zpow_zero, mul_one]
      rw [hpow]
      nth_rewrite 1 [hscale]
      simp only [compare, compareOfLessAndEq, mul_lt_mul_iff_left₀ hpos, mul_left_inj' hpos.ne']

/-! ## Atoms -/

/-- The signed value of an `i64`. -/
abbrev I64 := BitVec 64

inductive Atom where
  | nil
  | bool (b : Bool)
  | number (n : I64)
  | bigInteger (n : ℤ)
  | float (d : Double)
  | character (c : Char)
  | string (s : Text)
  | keyword (full : Text)
  | symbol (full : Text)
  deriving DecidableEq

namespace Atom

/-- The exact value of a number. -/
def value? : Atom → Option ℚ
  | number n => some n.toInt
  | bigInteger n => some n
  | float d => some d.toRat
  | _ => none

/-- `numeric_total_compare`. -/
def numericTotalCompare : Atom → Atom → Option Ordering
  | float a, float b => some (a.partialCmp b)
  | float a, number n => some (compareIntegerToFloat n.toInt a).swap
  | float a, bigInteger n => some (compareIntegerToFloat n a).swap
  | number n, float b => some (compareIntegerToFloat n.toInt b)
  | bigInteger n, float b => some (compareIntegerToFloat n b)
  | number m, number n => some (compare m.toInt n.toInt)
  | number m, bigInteger n => some (compare m.toInt n)
  | bigInteger m, number n => some (compare m n.toInt)
  | bigInteger m, bigInteger n => some (compare m n)
  | _, _ => none

/-- `numeric_equal`. -/
def numericEqual (a b : Atom) : Option Bool := (numericTotalCompare a b).map (· == .eq)

/-- `==`, of which the comparison of numbers is the first part. -/
def eq (a b : Atom) : Bool :=
  match numericEqual a b with
  | some equal => equal
  | none => decide (a = b)

/-- The comparison of numbers is that of their values. -/
theorem numericTotalCompare_eq (a b : Atom) :
    numericTotalCompare a b =
      (value? a).bind fun x ↦ (value? b).map fun y ↦ compare x y := by
  have hswap (x y : ℚ) : (compare x y).swap = compare y x := Std.OrientedCmp.eq_swap.symm
  cases a <;> cases b <;>
    simp only [numericTotalCompare, value?, hswap, compareIntegerToFloat_eq, Double.partialCmp,
      compare_intCast, Option.bind_some, Option.bind_none, Option.map_some, Option.map_none]

/-- A number by its value, and any other atom by itself. -/
def canonical (a : Atom) : ℚ ⊕ Atom :=
  match value? a with
  | some x => .inl x
  | none => .inr a

theorem eq_iff {a b : Atom} : eq a b = true ↔ canonical a = canonical b := by
  rw [eq, numericEqual, numericTotalCompare_eq, canonical, canonical]
  rcases ha : value? a with _ | x <;> rcases hb : value? b with _ | y
  · simp
  · -- a number and something else
    refine iff_of_false ?_ nofun
    simp only [Option.bind_none, Option.map_none, decide_eq_true_eq]
    rintro rfl
    rw [ha] at hb
    cases hb
  · refine iff_of_false ?_ nofun
    simp only [Option.bind_some, Option.map_none, decide_eq_true_eq]
    rintro rfl
    rw [ha] at hb
    cases hb
  · simp

/-! ## Texts -/

variable (formatDouble : Double → Text)

/-- The category `Cc`. -/
def isControl (c : Char) : Bool := c.toNat < 0x20 || (0x7f ≤ c.toNat && c.toNat < 0xa0)

/-- Four hexadecimal digits, or more. -/
def hex4 (n : ℕ) : Text :=
  let digits := (Nat.toDigits 16 n).map Char.toUpper
  List.replicate (4 - digits.length) '0' ++ digits

def displayCharacter (c : Char) : Text :=
  if c = '\n' then "\\newline".toList
  else if c = ' ' then "\\space".toList
  else if c = '\t' then "\\tab".toList
  else if c = '\x08' then "\\backspace".toList
  else if c = '\x0c' then "\\formfeed".toList
  else if c = '\r' then "\\return".toList
  else if isControl c then "\\u".toList ++ hex4 c.toNat
  else ['\\', c]

def escape (c : Char) : Text :=
  if c = '\n' then "\\n".toList
  else if c = '\r' then "\\r".toList
  else if c = '\t' then "\\t".toList
  else if c = '\x08' then "\\b".toList
  else if c = '\x0c' then "\\f".toList
  else if c = '\\' then "\\\\".toList
  else if c = '"' then "\\\"".toList
  else if isControl c then "\\u".toList ++ hex4 c.toNat
  else [c]

def displayString (s : Text) : Text := '"' :: s.flatMap escape ++ ['"']

def display : Atom → Text
  | nil => "nil".toList
  | bool b => if b then "true".toList else "false".toList
  | number n => integerText n.toInt
  | bigInteger n => integerText n
  | float d => "(double ".toList ++ formatDouble d ++ [')']
  | character c => displayCharacter c
  | string s => displayString s
  | keyword full => ':' :: full
  | symbol full => full

/-! ## Hashes -/

def hashDouble (d : Double) : BitVec 32 :=
  if d.signed = 0 then 0 else canonicalDecimalStrHash (formatDouble d)

def javaHash (hashType : HashType) : Atom → BitVec 64
  | nil => 0
  | bool b => (hashBool b).signExtend 64
  | number n => (hashLong n.toInt).signExtend 64
  | bigInteger n => (canonicalDecimalStrHash (integerText n)).signExtend 64
  | float d => (hashDouble formatDouble d).signExtend 64
  | character c => (hashChar c).signExtend 64
  | string s => (javaStringHash s).signExtend 64
  | keyword full => hashStringType hashType ("::KEYWORD|:".toList ++ full)
  | symbol full =>
    hashStringType hashType ("::SYMBOL|hara.lang.data.Symbol<".toList ++ full ++ ['>'])

/-- An `i64` from the digits after its sign. -/
def parseDigits (neg : Bool) (digits : Text) : Option ℤ :=
  if digits.isEmpty ∨ ¬digits.all Char.isDigit then none
  else
    let n : ℤ := digits.foldl (fun n c ↦ n * 10 + (c.toNat - '0'.toNat : ℕ)) 0
    let n := if neg then -n else n
    if -2 ^ 63 ≤ n ∧ n < 2 ^ 63 then some n else none

/-- An `i64` from its decimal text. -/
def parseI64 : Text → Option ℤ
  | '-' :: rest => parseDigits true rest
  | '+' :: rest => parseDigits false rest
  | rest => parseDigits false rest

/-- What `Hash` writes for a number when a map places it, if it is not the hash of the value. -/
def numberPlacement : Atom → Option (BitVec 32)
  | number n => some (hashLongPlacement n.toInt)
  | float d =>
    if d.toRat.den = 1 then (parseI64 (formatDouble d)).map hashLongPlacement else none
  | _ => none

/-! ## Equal atoms -/

/-- Equal atoms that are not doubles are the same up to the size of integers. -/
theorem cases_of_eq {x y : Atom} (hx : ∀ d, x ≠ .float d) (hy : ∀ d, y ≠ .float d)
    (h : x.eq y = true) :
    x = y ∨ ∃ n : I64, (x = .number n ∧ y = .bigInteger n.toInt) ∨
      (x = .bigInteger n.toInt ∧ y = .number n) := by
  rw [eq_iff, canonical, canonical] at h
  rcases hvx : x.value? with _ | v <;> rcases hvy : y.value? with _ | w <;> rw [hvx, hvy] at h
  · exact .inl (Sum.inr.inj h)
  · cases h
  · cases h
  -- two integers with one value
  · obtain rfl : v = w := Sum.inl.inj h
    cases x with
    | number m =>
      obtain rfl : (m.toInt : ℚ) = v := Option.some.inj hvx
      cases y with
      | number n =>
        have hn : n.toInt = m.toInt := Int.cast_injective (Option.some.inj hvy)
        exact .inl (congrArg _ (BitVec.toInt_inj.mp hn.symm))
      | bigInteger n =>
        obtain rfl : n = m.toInt := Int.cast_injective (Option.some.inj hvy)
        exact .inr ⟨m, .inl ⟨rfl, rfl⟩⟩
      | float d => exact absurd rfl (hy d)
      | _ => cases hvy
    | bigInteger m =>
      obtain rfl : (m : ℚ) = v := Option.some.inj hvx
      cases y with
      | number n =>
        obtain rfl : n.toInt = m := Int.cast_injective (Option.some.inj hvy)
        exact .inr ⟨n, .inr ⟨rfl, rfl⟩⟩
      | bigInteger n =>
        obtain rfl : n = m := Int.cast_injective (Option.some.inj hvy)
        exact .inl rfl
      | float d => exact absurd rfl (hy d)
      | _ => cases hvy
    | float d => exact absurd rfl (hx d)
    | _ => cases hvx

theorem javaHash_eq {formatDouble : Double → Text} {hashType : HashType} {x y : Atom}
    (hx : ∀ d, x ≠ .float d) (hy : ∀ d, y ≠ .float d) (h : x.eq y = true) :
    x.javaHash formatDouble hashType = y.javaHash formatDouble hashType := by
  rcases cases_of_eq hx hy h with rfl | ⟨n, ⟨rfl, rfl⟩ | ⟨rfl, rfl⟩⟩
  · rfl
  · rfl
  · rfl

end Atom

end Hara.Values
