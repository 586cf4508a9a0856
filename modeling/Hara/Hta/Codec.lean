import Hara.Hta.Value
import Hara.Lib.SortBy
import Hara.Lib.Utf8
import Hara.Lib.Writer

/-!
# The HTA0 codec

The encoder and the decoder of the `hta-codec` crate. Values are written behind a tag; the entries
of maps and the items of sets are encoded on their own first, so that they can be put in the order
of their bytes.

## Depth

The source counts the nesting depth up to `MAX_NESTING_DEPTH`. Here `left` is the number of levels
that may still be entered, so that a value at depth `d` has `left = MAX_NESTING_DEPTH + 1 - d`.
-/

namespace Hara.Hta

open Codec Hara.Lib

def magic : List UInt8 := [72, 84, 65, 48]

def maxFrameBytes : ℕ := 64 * 1024 * 1024

def maxNestingDepth : ℕ := 256

/-! ## Tags -/

inductive Tag where
  | nil
  | falseTag
  | trueTag
  | i64
  | string
  | bytes
  | keyword
  | symbol
  | list
  | vector
  | set
  | map
  | handle
  | namespaceTag
  | var
  | f64
  | atom
  | array
  | object
  | character
  | bigInteger
  | regex
  | tuple
  | cons
  | queue
  | orderedMap
  | sortedMap
  | trie
  | orderedSet
  | sortedSet
  | tagged
  | exceptionInfo
  | struct
  | pointer
  | varRef
  | mapEntry
  deriving DecidableEq

namespace Tag

def code : Tag → UInt8
  | nil => 0
  | falseTag => 1
  | trueTag => 2
  | i64 => 3
  | string => 4
  | bytes => 5
  | keyword => 6
  | symbol => 7
  | list => 8
  | vector => 9
  | set => 10
  | map => 11
  | handle => 12
  | namespaceTag => 13
  | var => 14
  | f64 => 15
  | atom => 16
  | array => 17
  | object => 18
  | character => 19
  | bigInteger => 20
  | regex => 22
  | tuple => 23
  | cons => 24
  | queue => 25
  | orderedMap => 26
  | sortedMap => 27
  | trie => 28
  | orderedSet => 29
  | sortedSet => 30
  | tagged => 31
  | exceptionInfo => 32
  | struct => 33
  | pointer => 34
  | varRef => 35
  | mapEntry => 38

def all : List Tag :=
  [nil, falseTag, trueTag, i64, string, bytes, keyword, symbol, list, vector, set, map, handle,
    namespaceTag, var, f64, atom, array, object, character, bigInteger, regex, tuple, cons, queue,
    orderedMap, sortedMap, trie, orderedSet, sortedSet, tagged, exceptionInfo, struct, pointer,
    varRef, mapEntry]

def ofCode? (b : UInt8) : Option Tag := all.find? fun tag ↦ tag.code = b

theorem ofCode?_code (tag : Tag) : ofCode? tag.code = some tag := by
  cases tag <;> rfl

end Tag

/-! ## Writing -/

def write (data : List UInt8) : ByteWriter String Unit :=
  put maxFrameBytes
    ("hta/frame-too-large: encoded frame exceeds " ++ toString maxFrameBytes ++ " bytes") data

def push (tag : Tag) : ByteWriter String Unit := write [tag.code]

def writeLen (len : ℕ) : ByteWriter String Unit :=
  if len < 2 ^ 32 then write (be 4 len)
  else throw "hta/value-too-large: container or scalar length exceeds u32"

def writeSized (tag : Tag) (data : List UInt8) : ByteWriter String Unit := do
  push tag
  writeLen data.length
  write data

def writeI64 (value : Int64) : ByteWriter String Unit := do
  push .i64
  write (be 8 value.toUInt64.toNat)

/-- What `canonical_big_integer` can return. -/
def writeCanonical : ImmutableValue → ByteWriter String Unit
  | .integer value => writeI64 value
  | .bigInteger value => writeSized .bigInteger (Utf8.bytes value)
  | _ => throw "canonical big integer returned a non-integer value"

section Containers

variable (encode : ImmutableValue → ByteWriter String Unit)

def encodeSequence (tag : Tag) (values : List ImmutableValue) : ByteWriter String Unit := do
  push tag
  writeLen values.length
  values.forM encode

def encodeMapEntry (values : List ImmutableValue) : ByteWriter String Unit :=
  if values.length ≠ 2 then throw "hta/value-invalid: map entry must contain two values"
  else encodeSequence encode .mapEntry values

/-- `sort` and `dedup` on what the values are encoded as. -/
def encodeUnorderedSequence (tag : Tag) (values : List ImmutableValue) :
    ByteWriter String Unit := do
  let datas ← lift (values.mapM fun value ↦ encoded (encode value))
  let datas := (sortBy rank datas).destutter (· ≠ ·)
  push tag
  writeLen datas.length
  datas.forM write

/-- A key and a value, each in a buffer of its own. -/
def encodeEntry (entry : ImmutableValue × ImmutableValue) :
    Except String (List UInt8 × List UInt8) := do
  let key ← encoded (encode entry.1)
  let value ← encoded (encode entry.2)
  return (key, value)

/-- What the entries of a map are sorted by. -/
def keyRank (entry : List UInt8 × List UInt8) : Rank := rank entry.1

def writeEntry (entry : List UInt8 × List UInt8) : ByteWriter String Unit := do
  write entry.1
  write entry.2

def encodeMap (tag : Tag) (values : List (ImmutableValue × ImmutableValue))
    (canonicalOrder : Bool) : ByteWriter String Unit := do
  let entries ← lift (values.mapM (encodeEntry encode))
  let entries := if canonicalOrder then sortBy keyRank entries else entries
  if entries.IsChain fun a b ↦ a.1 ≠ b.1 then
    push tag
    writeLen entries.length
    entries.forM writeEntry
  else throw "hta/value-invalid: duplicate map key"

def encodeRecord (values : List (String × ImmutableValue)) : ByteWriter String Unit := do
  push .map
  writeLen values.length
  let entries ← lift (values.mapM fun entry ↦ encodeEntry encode (.keyword entry.1, entry.2))
  (sortBy keyRank entries).forM writeEntry

end Containers

def ImmutableValue.isMap : ImmutableValue → Bool
  | .map _ => true
  | .record _ => true
  | _ => false

def ImmutableValue.isException : ImmutableValue → Bool
  | .exceptionInfo .. => true
  | _ => false

def ImmutableValue.isKeyword : ImmutableValue → Bool
  | .keyword _ => true
  | _ => false

def encodeValue : ℕ → ImmutableValue → ByteWriter String Unit
  | 0, _ => throw "hta/value-too-deep"
  | left + 1, value =>
    match value with
    | .nil => push .nil
    | .boolean false => push .falseTag
    | .boolean true => push .trueTag
    | .integer value => writeI64 value
    | .float bits =>
      if ImmutableValue.finite bits then do
        push .f64
        write (be 8 bits.toNat)
      else throw "hta/non-finite number"
    | .character value => do
      push .character
      write (be 4 value.toNat)
    | .bigInteger value => do
      let canonical ← lift (canonicalBigInteger value)
      writeCanonical canonical
    | .string value => writeSized .string (Utf8.bytes value)
    | .bytes value => writeSized .bytes value
    | .keyword value => writeSized .keyword (Utf8.bytes value)
    | .regex value => writeSized .regex (Utf8.bytes value)
    | .symbol value => writeSized .symbol (Utf8.bytes value)
    | .list values => encodeSequence (encodeValue left) .list values
    | .vector values => encodeSequence (encodeValue left) .vector values
    | .mapEntry values => encodeMapEntry (encodeValue left) values
    | .tuple values => encodeSequence (encodeValue left) .vector values
    | .cons values => encodeSequence (encodeValue left) .cons values
    | .queue values => encodeSequence (encodeValue left) .queue values
    | .set values => encodeUnorderedSequence (encodeValue left) .set values
    | .orderedSet values => encodeSequence (encodeValue left) .orderedSet values
    | .sortedSet values => encodeUnorderedSequence (encodeValue left) .sortedSet values
    | .map values => encodeMap (encodeValue left) .map values true
    | .orderedMap values => encodeMap (encodeValue left) .orderedMap values false
    | .sortedMap values => encodeMap (encodeValue left) .sortedMap values false
    | .trie values =>
      encodeMap (encodeValue left) .trie (values.map fun entry ↦ (.string entry.1, entry.2)) false
    | .record values => encodeRecord (encodeValue left) values
    | .tagged tag form => do
      push .tagged
      encodeValue left (.symbol tag)
      encodeValue left form
    | .exceptionInfo message data cause provenance =>
      if ¬data.isMap then throw "hta/value-invalid: exception data must be a map"
      else if cause.any fun cause ↦ ¬cause.isException then
        throw "hta/value-invalid: exception cause must be an Exception"
      else do
        push .exceptionInfo
        encodeValue left (.string message)
        encodeValue left data
        encodeValue left (cause.getD .nil)
        encodeValue left (provenanceValue provenance)
    | .struct name fields values =>
      if fields.length ≠ values.length then throw "hta/value-invalid: struct arity mismatch"
      else do
        push .struct
        encodeValue left (.string name)
        encodeValue left (.vector (fields.map .string))
        encodeValue left (.vector values)
    | .pointer context fields => do
      push .pointer
      encodeValue left (.keyword context)
      -- `encode_record` does not look at the depth, but the keyword before it did
      match left with
      | 0 => throw "hta/value-too-deep"
      | left + 1 => encodeRecord (encodeValue left) fields
    | .varRef symbol => do
      push .varRef
      encodeValue left (.symbol symbol)

/-- `encode_immutable`. -/
def encodeImmutable (value : ImmutableValue) : Except String (List UInt8) :=
  encoded do
    write magic
    encodeValue (maxNestingDepth + 1) value

/-! ## Reading -/

def take (size : ℕ) : Reader String (List UInt8) := fun data ↦
  if size ≤ data.length then .ok (data.take size) (data.drop size)
  else .error "hta/value-malformed: truncated value" data

def readByte : Reader String UInt8 := do
  match ← take 1 with
  | [b] => return b
  | _ => throw "hta/value-malformed: truncated value"

def readLen : Reader String ℕ := do
  let data ← take 4
  return ofBe data

def sized : Reader String (List UInt8) := do
  let len ← readLen
  take len

def text : Reader String String := do
  let data ← sized
  match Utf8.text? data with
  | some value => return value
  | none => throw "hta/value-malformed: invalid UTF-8"

def remaining : Reader String ℕ := fun data ↦ .ok data.length data

section Containers

variable (value : Reader String ImmutableValue)

/-- `sequence`, with the reader for the items. -/
def sequence : Reader String (List ImmutableValue) := do
  let len ← readLen
  let remaining ← remaining
  if remaining < len then throw "hta/value-malformed: impossible sequence length"
  else many value len

def readEntry : Reader String (ImmutableValue × ImmutableValue) := do
  let key ← value
  let value ← value
  return (key, value)

def entries : Reader String (List (ImmutableValue × ImmutableValue)) := do
  let len ← readLen
  let remaining ← remaining
  if remaining / 2 < len then throw "hta/value-malformed: impossible map length"
  else many (readEntry value) len

/-- What a field of a record is sorted by. -/
def fieldRank (entry : String × ImmutableValue) : Rank := rank (Utf8.bytes entry.1)

/-- The loop that makes a record of entries, after those in `record`. -/
def insertFields : List (ImmutableValue × ImmutableValue) → List (String × ImmutableValue) →
    Except String (List (String × ImmutableValue))
  | [], record => .ok record
  | (.keyword key, value) :: entries, record =>
    if key ∈ record.map Prod.fst then
      .error ("hta/value-malformed: duplicate portable record key :" ++ key)
    else
      insertFields entries
        (record.orderedInsert (fun a b ↦ fieldRank a ≤ fieldRank b) (key, value))
  | _ :: _, _ => .error "unreachable"

/-- `map` at the tag of the same name. -/
def readMap : Reader String ImmutableValue := do
  let entries ← entries value
  if entries.all fun entry ↦ entry.1.isKeyword then
    return .record (← lift (insertFields entries []))
  else return .map entries

/-- The key of a trie. -/
def trieEntry : ImmutableValue × ImmutableValue → Except String (String × ImmutableValue)
  | (.string key, value) => .ok (key, value)
  | _ => .error "hta/value-malformed: invalid trie key"

def structField : ImmutableValue → Except String String
  | .string value => .ok value
  | _ => .error "hta/value-malformed: invalid struct field"

def structure_ : Reader String ImmutableValue := do
  match ← value with
  | .string name =>
    match ← value with
    | .vector fieldValues =>
      let fields ← lift (fieldValues.mapM structField)
      match ← value with
      | .vector values =>
        if fields.length ≠ values.length then throw "hta/value-malformed: struct arity mismatch"
        else return .struct name fields values
      | _ => throw "hta/value-malformed: invalid struct values"
    | _ => throw "hta/value-malformed: invalid struct fields"
  | _ => throw "hta/value-malformed: invalid struct name"

/-- The cause of an exception. -/
def readCause : ImmutableValue → Reader String (Option ImmutableValue)
  | .nil => return none
  | .exceptionInfo message data cause provenance =>
    return some (.exceptionInfo message data cause provenance)
  | _ => throw "hta/value-malformed: invalid exception cause"

def readException : Reader String ImmutableValue := do
  match ← value with
  | .string message =>
    let data ← value
    let cause ← readCause (← value)
    if ¬data.isMap then throw "hta/value-malformed: invalid exception data"
    else
      let provenance ← lift (decodeProvenance (← value))
      return .exceptionInfo message data cause provenance
  | _ => throw "hta/value-malformed: invalid exception message"

/-- What stands behind a tag, with the reader for the level below. -/
def readTagged : Tag → Reader String ImmutableValue
  | .nil => return .nil
  | .falseTag => return .boolean false
  | .trueTag => return .boolean true
  | .i64 => do
    let data ← take 8
    return .integer (UInt64.ofNat (ofBe data)).toInt64
  | .f64 => do
    let data ← take 8
    let bits := UInt64.ofNat (ofBe data)
    if ImmutableValue.finite bits then return .float bits else throw "hta/non-finite number"
  | .character => do
    let data ← take 4
    if h : (ofBe data).isValidChar then return .character (Char.ofNatAux (ofBe data) h)
    else throw "hta/value-malformed: invalid character scalar"
  | .string => return .string (← text)
  | .bytes => return .bytes (← sized)
  | .keyword => return .keyword (← text)
  | .symbol => return .symbol (← text)
  | .bigInteger => do lift (canonicalBigInteger (← text))
  | .regex => return .regex (← text)
  | .list => return .list (← sequence value)
  | .vector => return .vector (← sequence value)
  | .tuple => return .tuple (← sequence value)
  | .mapEntry => do
    let values ← sequence value
    if values.length ≠ 2 then throw "hta/value-malformed: map entry must contain two values"
    else return .mapEntry values
  | .cons => do
    let values ← sequence value
    if values.isEmpty then throw "hta/value-malformed: empty cons" else return .cons values
  | .queue => return .queue (← sequence value)
  | .set => return .set (← sequence value)
  | .orderedSet => return .orderedSet (← sequence value)
  | .sortedSet => return .sortedSet (← sequence value)
  | .map => readMap value
  | .orderedMap => return .orderedMap (← entries value)
  | .sortedMap => return .sortedMap (← entries value)
  | .trie => do
    let entries ← entries value
    return .trie (← lift (entries.mapM trieEntry))
  | .tagged => do
    match ← value with
    | .symbol tag => return .tagged tag (← value)
    | _ => throw "hta/value-malformed: invalid tagged literal tag"
  | .exceptionInfo => readException value
  | .struct => structure_ value
  | .pointer => do
    match ← value with
    | .keyword context =>
      match ← value with
      | .record fields => return .pointer context fields
      | _ => throw "hta/value-malformed: invalid pointer fields"
    | _ => throw "hta/value-malformed: invalid pointer context"
  | .varRef => do
    match ← value with
    | .symbol symbol => return .varRef symbol
    | _ => throw "hta/value-malformed: invalid Var reference"
  | tag =>
    throw ("hta/value-unsupported: runtime wire tag " ++ toString tag.code ++ " is not portable")

end Containers

/-- `Reader::value`. -/
def value : ℕ → Reader String ImmutableValue
  | 0 => throw "hta/value-too-deep"
  | left + 1 => do
    let b ← readByte
    match Tag.ofCode? b with
    | some tag => readTagged (value left) tag
    | none => throw ("hta/value-malformed: unknown tag " ++ toString b)

/-- `decode_immutable`. -/
def decodeImmutable (bytes : List UInt8) : Except String ImmutableValue := do
  Except.ensure (bytes.length ≤ maxFrameBytes)
    ("hta/frame-too-large: " ++ toString bytes.length ++ " exceeds " ++ toString maxFrameBytes ++
      " bytes")
  Except.ensure (magic.isPrefixOf bytes) "hta/frame-invalid: expected HTA0 magic"
  let (value, rest) ← read (value (maxNestingDepth + 1)) (bytes.drop magic.length)
  Except.ensure (rest = []) "hta/frame-invalid: trailing bytes"
  return value

/-- `decode_immutable_canonical`. -/
def decodeImmutableCanonical (bytes : List UInt8) (maxBytes : ℕ) :
    Except String ImmutableValue := do
  Except.ensure (maxBytes ≠ 0 ∧ maxBytes ≤ maxFrameBytes)
    ("hta/maximum-invalid: requested maximum must be between 1 and " ++ toString maxFrameBytes ++
      " bytes")
  Except.ensure (bytes.length ≤ maxBytes)
    ("hta/frame-too-large: " ++ toString bytes.length ++ " exceeds requested maximum " ++
      toString maxBytes ++ " bytes")
  let value ← decodeImmutable bytes
  let canonical ← encodeImmutable value
  Except.ensure (canonical = bytes)
    "hta/frame-noncanonical: decoded value has different canonical bytes"
  return value

end Hara.Hta
