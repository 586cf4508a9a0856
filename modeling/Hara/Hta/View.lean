import Hara.Hta.Codec

/-!
# Borrowed views

The structural scanner of `view.rs`, which checks a frame without making values of it, and the
views that give the bytes of the parts of a value. The scanner knows the tags of the runtime as
well, which the portable decoder does not read.

## Positions

The source passes positions in the frame; here a reader takes bytes from the front. The bytes
between two positions are those that a reader took, `spanned`. Depth is counted as in the codec, by
the levels that are left.
-/

namespace Hara.Hta

open Codec Hara.Lib

/-! ## Scanning -/

/-- `validate_canonical_big_integer`. -/
def validateCanonicalBigInteger (value : String) : Except String Unit := do
  match ← canonicalBigInteger value with
  | .bigInteger canonical =>
    if canonical = value then return ()
    else throw "hta/value-noncanonical: big integer text is not canonical"
  | .integer _ => throw "hta/value-noncanonical: signed 64-bit integers use the i64 tag"
  | _ => throw "canonical big integer returned a non-integer value"

section Containers

variable (scan : Reader String Unit)

/-- A value that has to have the given tag, which is looked at after the value was scanned. -/
def scanTagged (tag : Tag) (message : String) : Reader String Unit := do
  let data ← spanned scan
  if data.head? = some tag.code then return () else throw message

/-- The loop of `scan_sequence`, after the item `previous`. -/
def scanItems (canonicalOrder : Bool) : ℕ → Option (List UInt8) → Reader String Unit
  | 0, _ => return ()
  | n + 1, previous => do
    let current ← spanned scan
    if canonicalOrder ∧ previous.any fun value ↦ rank current ≤ rank value then
      throw "hta/value-noncanonical: set values must be strictly ordered"
    else scanItems canonicalOrder n (if canonicalOrder then some current else previous)

def scanSequence (canonicalOrder : Bool) : Reader String Unit := do
  let count ← readLen
  let remaining ← remaining
  if remaining < count then throw "hta/value-malformed: impossible sequence length"
  else scanItems scan canonicalOrder count none

def scanMapEntry : Reader String Unit := do
  let count ← readLen
  if count ≠ 2 then throw "hta/value-malformed: map entry must contain two values"
  else do
    scan
    scan

/-- The loop of `scan_map`, after the key `previous`. -/
def scanEntries (canonicalOrder : Bool) : ℕ → Option (List UInt8) → Reader String Unit
  | 0, _ => return ()
  | n + 1, previous => do
    let key ← spanned scan
    if canonicalOrder ∧ previous.any fun value ↦ rank key ≤ rank value then
      throw "hta/value-noncanonical: map keys must be strictly ordered"
    else do
      scan
      scanEntries canonicalOrder n (some key)

def scanMap (canonicalOrder : Bool) : Reader String Unit := do
  let count ← readLen
  let remaining ← remaining
  if remaining / 2 < count then throw "hta/value-malformed: impossible map length"
  else scanEntries scan canonicalOrder count none

/-- The loop of `scan_object`. -/
def scanFields : ℕ → Reader String Unit
  | 0 => return ()
  | n + 1 => do
    scanTagged scan .string "hta/value-malformed: invalid object key"
    scan
    scanFields n

def scanObject : Reader String Unit := do
  let count ← readLen
  let remaining ← remaining
  if remaining / 2 < count then throw "hta/value-malformed: impossible object length"
  else scanFields scan count

/-- `sized_range` with the check that the bytes are a text. -/
def scanText (message : String) : Reader String String := do
  let data ← sized
  match Utf8.text? data with
  | some value => return value
  | none => throw message

/-- What stands behind a tag, with the scanner for the level below. -/
def scanBehind : Tag → Reader String Unit
  | .nil => return ()
  | .falseTag => return ()
  | .trueTag => return ()
  | .i64 => do
    let _ ← take 8
  | .f64 => do
    let _ ← take 8
  | .character => do
    let data ← take 4
    if (ofBe data).isValidChar then return ()
    else throw "hta/value-malformed: invalid character scalar"
  | .string => do
    let _ ← scanText "hta/value-malformed: invalid UTF-8"
  | .keyword => do
    let _ ← scanText "hta/value-malformed: invalid UTF-8"
  | .symbol => do
    let _ ← scanText "hta/value-malformed: invalid UTF-8"
  | .namespaceTag => do
    let _ ← scanText "hta/value-malformed: invalid UTF-8"
  | .regex => do
    let _ ← scanText "hta/value-malformed: invalid UTF-8"
  | .bigInteger => do
    let value ← scanText "hta/value-malformed: invalid UTF-8"
    lift (validateCanonicalBigInteger value)
  | .bytes => do
    let _ ← sized
  | .list => scanSequence scan false
  | .vector => scanSequence scan false
  | .array => scanSequence scan false
  | .tuple => scanSequence scan false
  | .cons => scanSequence scan false
  | .queue => scanSequence scan false
  | .orderedSet => scanSequence scan false
  | .mapEntry => scanMapEntry scan
  | .set => scanSequence scan true
  | .sortedSet => scanSequence scan true
  | .map => scanMap scan true
  | .orderedMap => scanMap scan false
  | .sortedMap => scanMap scan false
  | .trie => scanMap scan false
  | .object => scanObject scan
  | .var => do
    scanTagged scan .symbol "hta/value-malformed: invalid var symbol"
    scan
  | .atom => scan
  | .handle => do
    let _ ← scanText "hta/value-malformed: invalid handle owner"
    let _ ← scanText "hta/value-malformed: invalid handle type"
    let _ ← take 8
  | .tagged => do
    scanTagged scan .symbol "hta/value-malformed: invalid tagged literal tag"
    scan
  | .exceptionInfo => do
    scanTagged scan .string "hta/value-malformed: invalid exception message"
    scan
    scan
    scan
  | .struct => do
    scanTagged scan .string "hta/value-malformed: invalid struct name"
    scanTagged scan .vector "hta/value-malformed: invalid struct fields"
    scanTagged scan .vector "hta/value-malformed: invalid struct values"
  | .pointer => do
    scanTagged scan .keyword "hta/value-malformed: invalid pointer context"
    scanTagged scan .map "hta/value-malformed: invalid pointer fields"
  | .varRef => scanTagged scan .symbol "hta/value-malformed: invalid Var reference"

end Containers

/-- `scan_value`. -/
def scanValue : ℕ → Reader String Unit
  | 0 => throw "hta/value-too-deep"
  | left + 1 => do
    let b ← readByte
    match Tag.ofCode? b with
    | some tag => scanBehind (scanValue left) tag
    | none => throw ("hta/value-malformed: unknown tag " ++ toString b)

/-! ## Views -/

/-- The bytes of a value, without the magic. -/
structure ValueView where
  bare : List UInt8
  deriving DecidableEq

structure FrameView where
  bytes : List UInt8
  root : ValueView
  deriving DecidableEq

/-- `FrameView::parse`. -/
def FrameView.parse (bytes : List UInt8) : Except String FrameView := do
  Except.ensure (bytes.length ≤ maxFrameBytes)
    ("hta/frame-too-large: " ++ toString bytes.length ++ " exceeds " ++ toString maxFrameBytes ++
      " bytes")
  Except.ensure (magic.isPrefixOf bytes) "hta/frame-invalid: expected HTA0 magic"
  let bare := bytes.drop magic.length
  let (_, rest) ← read (scanValue (maxNestingDepth + 1)) bare
  Except.ensure (rest = []) "hta/frame-invalid: trailing bytes"
  return ⟨bytes, ⟨bare⟩⟩

/-- The name of a `Kind`, as `Debug` shows it. -/
def Tag.kind : Tag → String
  | .nil => "Nil"
  | .falseTag => "Boolean"
  | .trueTag => "Boolean"
  | .i64 => "Integer"
  | .f64 => "Float"
  | .string => "String"
  | .bytes => "Bytes"
  | .keyword => "Keyword"
  | .symbol => "Symbol"
  | .list => "List"
  | .vector => "Vector"
  | .set => "Set"
  | .map => "Map"
  | .handle => "Handle"
  | .namespaceTag => "Namespace"
  | .var => "Var"
  | .atom => "Atom"
  | .array => "Array"
  | .object => "Object"
  | .character => "Character"
  | .bigInteger => "BigInteger"
  | .regex => "Regex"
  | .tuple => "Tuple"
  | .mapEntry => "MapEntry"
  | .cons => "Cons"
  | .queue => "Queue"
  | .orderedMap => "OrderedMap"
  | .sortedMap => "SortedMap"
  | .trie => "Trie"
  | .orderedSet => "OrderedSet"
  | .sortedSet => "SortedSet"
  | .tagged => "Tagged"
  | .exceptionInfo => "ExceptionInfo"
  | .struct => "Struct"
  | .pointer => "Pointer"
  | .varRef => "VarRef"

/-- The tags of sequences. -/
def Tag.isSequence : Tag → Bool
  | .list | .vector | .set | .array | .tuple | .mapEntry | .cons | .queue | .orderedSet
  | .sortedSet => true
  | _ => false

/-- The tags of maps. -/
def Tag.isMapping : Tag → Bool
  | .map | .orderedMap | .sortedMap | .trie => true
  | _ => false

namespace ValueView

variable (view : ValueView)

/-- `to_frame`. -/
def toFrame : List UInt8 := magic ++ view.bare

/-- The tag of a view. A view that was parsed has one. -/
def tag (view : ValueView) : Except String Tag :=
  match view.bare.head?.bind Tag.ofCode? with
  | some tag => .ok tag
  | none => .error "validated ValueView always has a known tag"

def kindError (expected : String) (actual : Tag) : String :=
  "hta/value-kind: expected " ++ expected ++ ", found " ++ actual.kind

/-- The views of the next values, which stand one level below. -/
def nextViews (count : ℕ) : Reader String (List ValueView) :=
  many (ValueView.mk <$> spanned (scanValue maxNestingDepth)) count

/-- `sequence_items`. -/
def sequenceItems : Except String (List ValueView) := do
  let (views, _) ← read (readLen >>= nextViews) (view.bare.drop 1)
  return views

/-- `items`. -/
def items : Except String (List ValueView) := do
  let tag ← view.tag
  if tag.isSequence then view.sequenceItems else .error (kindError "sequence" tag)

/-- A key and a value. -/
def nextEntry : Reader String (ValueView × ValueView) := do
  let key ← spanned (scanValue maxNestingDepth)
  let value ← spanned (scanValue maxNestingDepth)
  return (⟨key⟩, ⟨value⟩)

/-- `map_entries`. -/
def mapEntries : Except String (List (ValueView × ValueView)) := do
  let tag ← view.tag
  if tag.isMapping then do
    let (entries, _) ← read (readLen >>= many nextEntry) (view.bare.drop 1)
    return entries
  else .error (kindError "map" tag)

/-- `keyword`. -/
def keyword (view : ValueView) : Except String String := do
  let tag ← view.tag
  if tag = .keyword then do
    let (payload, _) ← read sized (view.bare.drop 1)
    match Utf8.text? payload with
    | some value => return value
    | none => .error "hta/value-malformed: keyword is not valid UTF-8"
  else .error (kindError "keyword" tag)

/-- `record_entries`. -/
def recordEntries : Except String (List (String × ValueView)) := do
  let entries ← view.mapEntries
  entries.mapM fun entry ↦ return (← entry.1.keyword, entry.2)

/-- `field`. -/
def field (name : String) : Except String (Option ValueView) := do
  let entries ← view.recordEntries
  return (entries.find? fun entry ↦ entry.1 = name).map Prod.snd

end ValueView

end Hara.Hta
