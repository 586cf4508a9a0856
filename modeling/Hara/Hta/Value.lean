import Hara.Lib.Decimal
import Hara.Lib.Except

/-!
# Portable values

The immutable values of the ABI crate, and the parts of the HTA0 codec that do not look at bytes:
the canonical text of a big integer, and the values that stand for where an exception comes from.

Doubles are given by their bits, and a `BTreeMap` by its entries, with ascending keys.
-/

namespace Hara.Hta

open Except

structure ExceptionSite where
  sourceNamespace : Option String
  resource : Option String
  line : UInt64
  column : UInt64
  deriving DecidableEq

structure ExceptionProvenance where
  createdAt : Option ExceptionSite
  throws : List ExceptionSite
  deriving DecidableEq

inductive ImmutableValue where
  | nil
  | boolean (value : Bool)
  | string (value : String)
  | integer (value : Int64)
  | float (bits : UInt64)
  | character (value : Char)
  | bigInteger (value : String)
  | regex (value : String)
  | bytes (value : List UInt8)
  | keyword (value : String)
  | symbol (value : String)
  | list (values : List ImmutableValue)
  | vector (values : List ImmutableValue)
  | mapEntry (values : List ImmutableValue)
  | tuple (values : List ImmutableValue)
  | cons (values : List ImmutableValue)
  | queue (values : List ImmutableValue)
  | set (values : List ImmutableValue)
  | orderedSet (values : List ImmutableValue)
  | sortedSet (values : List ImmutableValue)
  | map (values : List (ImmutableValue × ImmutableValue))
  | orderedMap (values : List (ImmutableValue × ImmutableValue))
  | sortedMap (values : List (ImmutableValue × ImmutableValue))
  | trie (values : List (String × ImmutableValue))
  | record (values : List (String × ImmutableValue))
  | tagged (tag : String) (form : ImmutableValue)
  | exceptionInfo (message : String) (data : ImmutableValue) (cause : Option ImmutableValue)
      (provenance : ExceptionProvenance)
  | struct (name : String) (fields : List String) (values : List ImmutableValue)
  | pointer (context : String) (fields : List (String × ImmutableValue))
  | varRef (symbol : String)

abbrev Entries := List (ImmutableValue × ImmutableValue)

abbrev Fields := List (String × ImmutableValue)

namespace ImmutableValue

/-- `is_finite`, on the bits of a double. -/
def finite (bits : UInt64) : Bool := bits.toNat / 2 ^ 52 % 2 ^ 11 ≠ 2 ^ 11 - 1

/-- The values that are in a value. -/
def parts : ImmutableValue → List ImmutableValue
  | list values => values
  | vector values => values
  | mapEntry values => values
  | tuple values => values
  | cons values => values
  | queue values => values
  | set values => values
  | orderedSet values => values
  | sortedSet values => values
  | map values => values.flatMap fun entry ↦ [entry.1, entry.2]
  | orderedMap values => values.flatMap fun entry ↦ [entry.1, entry.2]
  | sortedMap values => values.flatMap fun entry ↦ [entry.1, entry.2]
  | trie values => values.map Prod.snd
  | record values => values.map Prod.snd
  | tagged _ form => [form]
  | exceptionInfo _ data cause _ => data :: cause.toList
  | struct _ _ values => values
  | pointer _ fields => fields.map Prod.snd
  | _ => []

end ImmutableValue

/-! ## Big integers -/

/-- `parse::<i64>`. -/
def parseI64 (text : List Char) : Option Int64 := do
  let n ← Decimal.int? text
  if -2 ^ 63 ≤ n ∧ n < 2 ^ 63 then some (Int64.ofInt n) else none

/-- The digits without leading zeros. -/
def trimZeros (digits : List Char) : List Char :=
  match digits.dropWhile (· = '0') with
  | [] => ['0']
  | trimmed => trimmed

/-- The text of the number with this sign and these digits. -/
def canonicalText (negative : Bool) (digits : List Char) : List Char :=
  if negative ∧ trimZeros digits ≠ ['0'] then '-' :: trimZeros digits else trimZeros digits

/-- Whether there is a minus sign, and what follows it. -/
def signAndDigits : List Char → Bool × List Char
  | '-' :: digits => (true, digits)
  | digits => (false, digits)

/-- `canonical_big_integer`. -/
def canonicalBigInteger (value : String) : Except String ImmutableValue := do
  let (negative, digits) := signAndDigits value.toList
  ensure (digits ≠ [] ∧ digits.all Char.isDigit) "hta/value-malformed: invalid big integer"
  match parseI64 (canonicalText negative digits) with
  | some value => return .integer value
  | none => return .bigInteger (String.ofList (canonicalText negative digits))

/-! ### Canonical texts -/

variable {digits : List Char}

theorem trimZeros_spec (h : digits.all Char.isDigit) :
    trimZeros digits ≠ [] ∧ (trimZeros digits).all Char.isDigit ∧
      trimZeros (trimZeros digits) = trimZeros digits := by
  rcases hdrop : digits.dropWhile (· = '0') with _ | ⟨c, rest⟩
  · have htrim : trimZeros digits = ['0'] := by rw [trimZeros, hdrop]
    rw [htrim]
    decide
  · have htrim : trimZeros digits = c :: rest := by rw [trimZeros, hdrop]
    have hc : c ≠ '0' := by
      have hhead := List.head_dropWhile_not (· = '0') (l := digits) (by rw [hdrop]; nofun)
      simpa [hdrop] using hhead
    have hsub : ∀ d ∈ c :: rest, d.isDigit = true := by
      intro d hd
      rw [← hdrop] at hd
      exact List.all_eq_true.mp h d ((List.dropWhile_sublist _).mem hd)
    rw [htrim]
    refine ⟨nofun, List.all_eq_true.mpr hsub, ?_⟩
    rw [trimZeros, List.dropWhile_cons_of_neg (by simpa using hc)]

theorem signAndDigits_of_all (h : digits.all Char.isDigit) :
    signAndDigits digits = (false, digits) := by
  rw [signAndDigits.eq_def]
  split
  · exact absurd h (by simp)
  · rfl

/-- The sign and the digits of a canonical text give the same text. -/
theorem canonicalText_canonicalText {negative : Bool} (h : digits.all Char.isDigit) :
    ∃ negative' digits', signAndDigits (canonicalText negative digits) = (negative', digits') ∧
      digits' ≠ [] ∧ digits'.all Char.isDigit = true ∧
      canonicalText negative' digits' = canonicalText negative digits := by
  obtain ⟨hne, hall, htrim⟩ := trimZeros_spec h
  rw [canonicalText]
  split
  · next hminus =>
    refine ⟨true, trimZeros digits, rfl, hne, hall, ?_⟩
    rw [canonicalText, htrim, if_pos ⟨rfl, hminus.2⟩]
  · refine ⟨false, trimZeros digits, signAndDigits_of_all hall, hne, hall, ?_⟩
    rw [canonicalText, htrim, if_neg (by simp)]

theorem canonicalBigInteger_bigInteger {value text : String}
    (h : canonicalBigInteger value = .ok (.bigInteger text)) :
    canonicalBigInteger text = .ok (.bigInteger text) := by
  rcases hvalue : signAndDigits value.toList with ⟨minus, body⟩
  obtain ⟨⟨⟩, hensure, hmatch⟩ := Except.bind_eq_ok.mp h
  obtain ⟨-, hbody⟩ := Except.ensure_eq_ok.mp hensure
  obtain ⟨negative, digits, hsign, hne, hall, hcanonical⟩ := canonicalText_canonicalText hbody
  split at hmatch
  · cases hmatch
  · next hparse =>
    obtain rfl : String.ofList _ = text := ImmutableValue.bigInteger.inj (Except.ok.inj hmatch)
    rw [canonicalBigInteger, String.toList_ofList, hsign]
    refine Except.bind_eq_ok.mpr ⟨(), Except.ensure_eq_ok.mpr ⟨hne, hall⟩, ?_⟩
    rw [hcanonical, hparse]
    rfl

/-! ## Where an exception comes from -/

/-- The text, or `Nil`. -/
def optionalString (value : Option String) : ImmutableValue :=
  (value.map ImmutableValue.string).getD .nil

/-- The fields of `site_value`. -/
def siteFields (site : ExceptionSite) : List (String × ImmutableValue) :=
  [("column", .integer site.column.toInt64), ("line", .integer site.line.toInt64),
    ("namespace", optionalString site.sourceNamespace), ("resource", optionalString site.resource)]

def siteValue (site : ExceptionSite) : ImmutableValue := .record (siteFields site)

/-- The fields of `provenance_value`. -/
def provenanceFields (provenance : ExceptionProvenance) : List (String × ImmutableValue) :=
  [("ex/created-at", (provenance.createdAt.map siteValue).getD .nil),
    ("ex/throws", .vector (provenance.throws.map siteValue))]

def provenanceValue (provenance : ExceptionProvenance) : ImmutableValue :=
  .record (provenanceFields provenance)

/-- `fields.get(name)`. -/
def field (fields : List (String × ImmutableValue)) (name : String) : Option ImmutableValue :=
  fields.lookup name

def decodeOptionalString (fields : List (String × ImmutableValue)) (name : String) :
    Except String (Option String) :=
  match field fields name with
  | some .nil => .ok none
  | some (.string value) => .ok (some value)
  | _ => .error ("hta/value-malformed: invalid exception provenance " ++ name)

def decodeNonnegative (fields : List (String × ImmutableValue)) (name : String) :
    Except String UInt64 :=
  match field fields name with
  | some (.integer value) =>
    if 0 ≤ value.toInt then .ok value.toUInt64
    else .error ("hta/value-malformed: invalid exception provenance " ++ name)
  | _ => .error ("hta/value-malformed: invalid exception provenance " ++ name)

def decodeSite : ImmutableValue → Except String ExceptionSite
  | .record fields => do
    ensure (fields.length = 4 ∧ (field fields "namespace").isSome ∧
        (field fields "resource").isSome ∧ (field fields "line").isSome ∧
        (field fields "column").isSome)
      "hta/value-malformed: invalid exception provenance site"
    let sourceNamespace ← decodeOptionalString fields "namespace"
    let resource ← decodeOptionalString fields "resource"
    let line ← decodeNonnegative fields "line"
    let column ← decodeNonnegative fields "column"
    return { sourceNamespace, resource, line, column }
  | _ => .error "hta/value-malformed: invalid exception provenance site"

/-- The field `ex/created-at`. -/
def decodeCreatedAt : Option ImmutableValue → Except String (Option ExceptionSite)
  | some .nil => .ok none
  | some value => (decodeSite value).map some
  | none => .ok none

def decodeProvenance : ImmutableValue → Except String ExceptionProvenance
  | .record fields => do
    ensure (fields.length = 2 ∧ (field fields "ex/created-at").isSome ∧
        (field fields "ex/throws").isSome)
      "hta/value-malformed: invalid exception provenance fields"
    let createdAt ← decodeCreatedAt (field fields "ex/created-at")
    match field fields "ex/throws" with
    | some (.vector throws) =>
      let throws ← throws.mapM decodeSite
      return { createdAt, throws }
    | _ => .error "hta/value-malformed: invalid exception throws provenance"
  | _ => .error "hta/value-malformed: invalid exception provenance"

end Hara.Hta
