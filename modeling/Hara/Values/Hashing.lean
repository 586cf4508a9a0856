import Mathlib.Algebra.Order.Ring.Int
import Mathlib.Data.BitVec
import Mathlib.Data.List.DropRight

/-!
# Hashes

The hash functions of `lang/hash`. Java's `int` is `BitVec 32` and its `long` is `BitVec 64`; all
arithmetic wraps. A text is the list of its characters.

## Numbers

A number is hashed through its decimal text. `parseDecimal` gives the sign, the digits without
leading zeros, and the scale. `canonicalDecimalHash` drops the zeros at the end first, and
`hashLongPlacement` keeps them.
-/

namespace Hara.Values

abbrev Text := List Char

inductive HashType where
  | system
  | rapid
  | murmur3
  | sip
  deriving DecidableEq

/-! ## Texts -/

/-- The UTF-16 code units of a character. -/
def utf16 (c : Char) : List (BitVec 16) :=
  if c.toNat < 0x10000 then [BitVec.ofNat 16 c.toNat]
  else
    let rest := c.toNat - 0x10000
    [BitVec.ofNat 16 (0xd800 + rest / 0x400), BitVec.ofNat 16 (0xdc00 + rest % 0x400)]

def encodeUtf16 (s : Text) : List (BitVec 16) := s.flatMap utf16

/-- The UTF-8 bytes. -/
def asBytes (s : Text) : List (BitVec 8) :=
  s.flatMap fun c ↦ (String.utf8EncodeChar c).map UInt8.toBitVec

def javaStringHash (s : Text) : BitVec 32 :=
  (encodeUtf16 s).foldl (fun h unit ↦ h * 31 + unit.setWidth 32) 0

def hashSeed (objName : Text) : BitVec 32 := javaStringHash ("::".toList ++ objName)

def hashBool (b : Bool) : BitVec 32 := if b then 1231 else 1237

def hashChar (c : Char) : BitVec 32 := BitVec.ofNat 32 c.toNat

/-! ## Rapid -/

namespace Rapid

def seed : BitVec 64 := 0xbdd89aa982704029

def secret0 : BitVec 64 := 0x2d358dccaa6c78a5

def secret1 : BitVec 64 := 0x8bb84b93962eacc9

def secret2 : BitVec 64 := 0x4b33a62ed433d4a3

/-- The low and the high half of a product. -/
def product (a b : BitVec 64) : BitVec 64 × BitVec 64 :=
  (a * b, BitVec.ofNat 64 (a.toNat * b.toNat / 2 ^ 64))

def rapidMix (a b : BitVec 64) : BitVec 64 := (product a b).1 ^^^ (product a b).2

/-- The bytes as a number, the least significant first. -/
def fromLeBytes (bytes : List (BitVec 8)) : BitVec 64 :=
  bytes.foldr (fun b n ↦ n <<< 8 ||| b.setWidth 64) 0

variable (data : List (BitVec 8))

def read64 (offset : ℕ) : BitVec 64 :=
  fromLeBytes ((data.drop offset).take 8)

def read32 (offset : ℕ) : BitVec 64 :=
  fromLeBytes ((data.drop offset).take 4)

def byteAt (offset : ℕ) : BitVec 64 := (data.getD offset 0).setWidth 64

def readSmall (offset k : ℕ) : BitVec 64 :=
  byteAt data offset <<< 56 ||| byteAt data (offset + k / 2) <<< 32 |||
    byteAt data (offset + k - 1)

/-- The loop over blocks of 48 bytes: how far it comes, how much is left, and the seed. -/
def blocks (data : List (BitVec 8)) :
    ℕ → ℕ → ℕ → BitVec 64 → BitVec 64 → BitVec 64 → ℕ × ℕ × BitVec 64
  | 0, p, i, seed, see1, see2 => (p, i, seed ^^^ (see1 ^^^ see2))
  | fuel + 1, p, i, seed, see1, see2 =>
    let seed := rapidMix (read64 data p ^^^ secret0) (read64 data (p + 8) ^^^ seed)
    let see1 := rapidMix (read64 data (p + 16) ^^^ secret1) (read64 data (p + 24) ^^^ see1)
    let see2 := rapidMix (read64 data (p + 32) ^^^ secret2) (read64 data (p + 40) ^^^ see2)
    if i - 48 < 48 then (p + 48, i - 48, seed ^^^ (see1 ^^^ see2))
    else blocks data fuel (p + 48) (i - 48) seed see1 see2

/-- What is mixed at the end: `a`, `b` and the seed. -/
def gather (seed : BitVec 64) : BitVec 64 × BitVec 64 × BitVec 64 :=
  let len := data.length
  if len ≤ 16 then
    if 4 ≤ len then
      let last := len - 4
      let delta := (len &&& 24) >>> (len >>> 3)
      (read32 data 0 <<< 32 ||| read32 data last,
        read32 data delta <<< 32 ||| read32 data (last - delta), seed)
    else if 0 < len then (readSmall data 0 len, 0, seed)
    else (0, 0, seed)
  else
    let (p, i, seed) := if 48 < len then blocks data len 0 len seed seed seed else (0, len, seed)
    let seed := if 16 < i then
      rapidMix (read64 data p ^^^ secret2) (read64 data (p + 8) ^^^ seed ^^^ secret1) else seed
    let seed := if 32 < i then
      rapidMix (read64 data (p + 16) ^^^ secret2) (read64 data (p + 24) ^^^ seed) else seed
    (read64 data (p + i - 16), read64 data (p + i - 8), seed)

def hashWithSeed (seed : BitVec 64) : BitVec 64 :=
  let len := BitVec.ofNat 64 data.length
  let (a, b, seed) := gather data (seed ^^^ (rapidMix (seed ^^^ secret0) secret1 ^^^ len))
  let (low, high) := product (a ^^^ secret1) (b ^^^ seed)
  rapidMix (low ^^^ secret0 ^^^ len) (high ^^^ secret1)

def hash : BitVec 64 := hashWithSeed data seed

end Rapid

/-! ## Murmur3 -/

namespace Murmur3

def mixK1 (k1 : BitVec 32) : BitVec 32 := (k1 * 0xcc9e2d51).rotateLeft 15 * 0x1b873593

def mixH1 (h1 k1 : BitVec 32) : BitVec 32 := (h1 ^^^ k1).rotateLeft 13 * 5 + 0xe6546b64

def mixFull (h1 length : BitVec 32) : BitVec 32 :=
  let h1 := h1 ^^^ length
  let h1 := (h1 ^^^ h1 >>> 16) * 0x85ebca6b
  let h1 := (h1 ^^^ h1 >>> 13) * 0xc2b2ae35
  h1 ^^^ h1 >>> 16

/-- Two units at a time. -/
def mixUnits (h1 : BitVec 32) : List (BitVec 16) → BitVec 32
  | first :: second :: units =>
    mixUnits (mixH1 h1 (mixK1 (first.setWidth 32 ||| second.setWidth 32 <<< 16))) units
  | [unit] => h1 ^^^ mixK1 (unit.setWidth 32)
  | [] => h1

def hashChars (s : Text) : BitVec 32 :=
  let units := encodeUtf16 s
  mixFull (mixUnits 0 units) (BitVec.ofNat 32 units.length * 2)

end Murmur3

/-- Keywords and symbols. -/
def hashStringType (hashType : HashType) (hashed : Text) : BitVec 64 :=
  match hashType with
  | .system => (javaStringHash hashed).signExtend 64
  | .rapid => Rapid.hash (asBytes hashed)
  | .murmur3 => (Murmur3.hashChars hashed).signExtend 64
  | .sip => -1

/-! ## Collections -/

def composeOrdered (objName : Text) (items : List (BitVec 64)) : BitVec 64 :=
  items.foldl (fun acc h ↦ acc * 31 + h) ((hashSeed objName).signExtend 64)

def composeUnordered (objName : Text) (items : List (BitVec 64)) : BitVec 64 :=
  items.foldl (· + ·) ((hashSeed objName).signExtend 64)

def composeEntry (keyHash valueHash : BitVec 64) : BitVec 64 :=
  composeOrdered "SEQUENTIAL".toList [keyHash, valueHash]

/-! ## Numbers -/

/-- The sign, the digits without leading zeros, and the scale. -/
structure Decimal where
  signum : ℤ
  digits : List ℕ
  scale : ℤ
  deriving DecidableEq

def digit? (c : Char) : Option ℕ := if c.isDigit then some (c.toNat - '0'.toNat) else none

/-- The value of the digits at the start of a text, if there are any. It stops at the greatest
`i64`. -/
def exponentDigits : Text → Option ℕ
  | [] => none
  | c :: rest =>
    match digit? c with
    | none => none
    | some _ => some (((c :: rest).takeWhile Char.isDigit).foldl
        (fun n c ↦ min (n * 10 + (c.toNat - '0'.toNat)) (2 ^ 63 - 1)) 0)

def exponent : Text → Option ℤ
  | '-' :: rest => (exponentDigits rest).map fun n ↦ -(n : ℤ)
  | '+' :: rest => (exponentDigits rest).map Int.ofNat
  | rest => (exponentDigits rest).map Int.ofNat

/-- The digits and the scale after a sign, with what was read before. -/
def scanDecimal (seenDot : Bool) (digits : List ℕ) (scale : ℤ) : Text → Option (List ℕ × ℤ)
  | [] => some (digits, scale)
  | c :: rest =>
    match digit? c with
    | some d => scanDecimal seenDot (digits ++ [d]) (if seenDot then scale + 1 else scale) rest
    | none =>
      if c = '.' ∧ seenDot = false then scanDecimal true digits scale rest
      else if c = 'e' ∨ c = 'E' then (exponent rest).map fun e ↦ (digits, scale - e)
      else none

def unsignedDecimal (neg : Bool) (s : Text) : Option Decimal := do
  let (digits, scale) ← scanDecimal false [] 0 s
  if digits.isEmpty then none
  else
    match digits.dropWhile (· = 0) with
    | [] => some ⟨0, [0], 0⟩
    | digits => some ⟨if neg then -1 else 1, digits, scale⟩

def parseDecimal : Text → Option Decimal
  | '-' :: rest => unsignedDecimal true rest
  | '+' :: rest => unsignedDecimal false rest
  | rest => unsignedDecimal false rest

/-- Ten times the number plus a digit. The words are least significant first, and at most one more
is needed. -/
def pushDigit : List (BitVec 32) → ℕ → List (BitVec 32)
  | [], carry => if carry = 0 then [] else [BitVec.ofNat 32 carry]
  | w :: le, carry =>
    BitVec.ofNat 32 (w.toNat * 10 + carry) :: pushDigit le ((w.toNat * 10 + carry) / 2 ^ 32)

/-- The digits as 32-bit words, the most significant first. -/
def digitsToWordsBe (digits : List ℕ) : List (BitVec 32) :=
  match (digits.foldl pushDigit [0]).rdropWhile (· = 0) with
  | [] => [0]
  | le => le.reverse

def bigintegerHash (words : List (BitVec 32)) (signum : ℤ) : BitVec 32 :=
  words.foldl (fun h w ↦ h * 31 + w) 0 * BitVec.ofInt 32 signum

/-- The words are put together in 128 bits. -/
def bigdecimalHash (words : List (BitVec 32)) (signum : ℤ) (scale : BitVec 32) : BitVec 32 :=
  if signum = 0 then scale
  else
    let mag : BitVec 128 := words.foldl (fun acc w ↦ acc <<< 32 ||| w.setWidth 128) 0
    if mag < 2 ^ 63 then
      let temp := (mag >>> 32).setWidth 32 * 31 + mag.setWidth 32
      31 * (if signum < 0 then -temp else temp) + scale
    else 31 * bigintegerHash words signum + scale

def canonicalDecimalHash (number : Decimal) : BitVec 32 :=
  if number.signum = 0 then 0
  else
    let digits := number.digits.rdropWhile (· = 0)
    let scale := number.scale - (number.digits.length - digits.length : ℕ)
    bigdecimalHash (digitsToWordsBe digits) number.signum (BitVec.ofInt 32 scale)

def canonicalDecimalStrHash (s : Text) : BitVec 32 :=
  match parseDecimal s with
  | some decimal => canonicalDecimalHash decimal
  | none => javaStringHash s

/-- The decimal text of an integer. -/
def integerText (n : ℤ) : Text :=
  if n < 0 then '-' :: Nat.toDigits 10 n.natAbs else Nat.toDigits 10 n.natAbs

def hashLong (n : ℤ) : BitVec 32 := canonicalDecimalStrHash (integerText n)

def hashLongPlacement (n : ℤ) : BitVec 32 :=
  match parseDecimal (integerText n) with
  | some decimal =>
    bigdecimalHash (digitsToWordsBe decimal.digits) decimal.signum (BitVec.ofInt 32 decimal.scale)
  | none => javaStringHash (integerText n)

end Hara.Values
