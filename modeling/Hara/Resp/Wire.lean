import Hara.Lib.Decimal
import Hara.Lib.Hoare
import Hara.Lib.Utf8

/-!
# The wire format

`RespConnection` of `resp.rs`: values as they travel over the socket. The reader consumes a list of
bytes, the end of the list is the end of the stream; the writer appends to the bytes already
written. Both keep what they have consumed or written when they fail, as the streams do.

`encode` says what a complete value looks like on the wire. The writer produces it for every value
whose lines have no line break in them, and the reader takes it back within its limits.
-/

namespace Hara.Resp

open EStateM
open List hiding length modify toString

def maxLine : ℕ := 64 * 1024
def maxBulk : ℕ := 64 * 1024 * 1024
def maxNesting : ℕ := 64

/-- `RespValue`; an array that is `None` is a constructor of its own. Integers are `i64`. -/
inductive RespValue where
  | simple (text : String)
  | error (text : String)
  | integer (value : ℤ)
  | bulk (data : Option (List UInt8))
  | nullArray
  | array (values : List RespValue)
  deriving Repr, Inhabited

namespace RespValue

/-- `RespValue::text`. -/
def text : RespValue → Option String
  | simple value | error value => some value
  | integer value => some (toString value)
  | bulk (some data) => Utf8.text? data
  | _ => none

/-- `RespValue::bulk`. -/
def ofText (value : String) : RespValue := bulk (some (Utf8.bytes value))

/-- `RespValue::array`. -/
def ofTexts (values : List String) : RespValue := array (values.map ofText)

@[simp] theorem text_ofText (value : String) : (ofText value).text = some value :=
  Utf8.text?_bytes value

end RespValue

/-! ## Reading -/

/-- A computation on the unread input. -/
abbrev ReadM := EStateM String (List UInt8)

def byteOf (c : Char) : UInt8 := UInt8.ofNat c.toNat

def crlfBytes : List UInt8 := [byteOf '\r', byteOf '\n']

/-- `read_exact`; at the end of the stream the rest is lost. -/
def readExact (n : ℕ) : ReadM (List UInt8) := fun input ↦
  if n ≤ input.length then .ok (input.take n) (input.drop n)
  else .error "RESP read failed: failed to fill whole buffer" []

/-- `read_until`: up to and including the delimiter, or everything. -/
def readUntil (delimiter : UInt8) : ReadM (List UInt8) := fun input ↦
  let count := (input.takeWhile (· != delimiter)).length + 1
  .ok (input.take count) (input.drop count)

/-- `RespConnection::line`. -/
def line : ReadM String := do
  let bytes ← readUntil (byteOf '\n')
  if bytes.length < 2 ∨ bytes.drop (bytes.length - 2) ≠ crlfBytes then
    throw "Invalid RESP line ending"
  else if maxLine < bytes.length then
    throw "RESP line limit exceeded"
  else
    match Utf8.text? (bytes.take (bytes.length - 2)) with
    | some text => pure text
    | none => throw "RESP line is not UTF-8"

/-- `str::parse::<i64>`. -/
def parseI64 (text : String) : Option ℤ :=
  (Decimal.int? text.toList).filter fun n ↦ -2 ^ 63 ≤ n ∧ n < 2 ^ 63

/-- A line that is an `i64`. -/
def integerLine (failure : String) : ReadM ℤ := do
  match parseI64 (← line) with
  | some n => pure n
  | none => throw failure

/-- `RespConnection::length`. -/
def length : ReadM ℤ := integerLine "Invalid RESP length"

/-- `RespConnection::crlf`. -/
def crlf : ReadM Unit := do
  let ending ← readExact 2
  if ending ≠ crlfBytes then
    throw "Invalid RESP bulk ending"

/-- The body of a bulk value. -/
def readBulk : ReadM RespValue := do
  let n ← length
  if n < 0 then
    pure (.bulk none)
  else if maxBulk < n.toNat then
    throw "RESP bulk limit exceeded"
  else
    let data ← readExact n.toNat
    crlf
    pure (.bulk (some data))

/-- `count` values, one after the other. -/
def readElements (readOne : ReadM RespValue) : ℕ → ReadM (List RespValue)
  | 0 => pure []
  | count + 1 => do
    let value ← readOne
    let values ← readElements readOne count
    pure (value :: values)

/-- The body of an array whose elements `readOne` reads. -/
def readArray (readOne : ReadM RespValue) : ReadM RespValue := do
  let n ← length
  if n < 0 then
    pure .nullArray
  else if maxLine < n.toNat then
    throw "RESP array limit exceeded"
  else
    let values ← readElements readOne n.toNat
    pure (.array values)

/-- `RespConnection::read_after_prefix`, with the number of levels that may still be opened. -/
def readAfterTag : ℕ → UInt8 → ReadM RespValue
  | 0, _ => throw "RESP nesting limit exceeded"
  | levels + 1, tag =>
    if tag = byteOf '+' then do return .simple (← line)
    else if tag = byteOf '-' then do return .error (← line)
    else if tag = byteOf ':' then do return .integer (← integerLine "Invalid RESP integer")
    else if tag = byteOf '$' then readBulk
    else if tag = byteOf '*' then
      readArray do
        let tag ← readExact 1
        readAfterTag levels (tag.headD 0)
    else throw "Unknown RESP type"

/-- An element of an array. -/
def readValue (levels : ℕ) : ReadM RespValue := do
  let tag ← readExact 1
  readAfterTag levels (tag.headD 0)

/-- `RespConnection::read`; `none` at the end of the stream. -/
def read : ReadM (Option RespValue) := fun input ↦
  match input with
  | [] => .ok none []
  | tag :: input => (some <$> readAfterTag (maxNesting + 1) tag) input

/-! ## Writing -/

/-- A computation on the bytes written so far. -/
abbrev WriteM := EStateM String (List UInt8)

def writeAll (bytes : List UInt8) : WriteM Unit := modify (· ++ bytes)

/-- Whether a text can stand in a line. -/
def singleLine (text : String) : Bool := !text.toList.contains '\r' && !text.toList.contains '\n'

/-- `line_value`. -/
def lineValue (tag : Char) (value : String) : WriteM Unit := do
  if !singleLine value then
    throw "RESP line values cannot contain CR or LF"
  writeAll [byteOf tag]
  writeAll (Utf8.bytes value)
  writeAll crlfBytes

mutual

/-- `write_value`. -/
def writeValue : RespValue → WriteM Unit
  | .simple value => lineValue '+' value
  | .error value => lineValue '-' value
  | .integer value => lineValue ':' (toString value)
  | .bulk none => writeAll (Utf8.bytes "$-1\r\n")
  | .bulk (some bytes) => do
    writeAll (Utf8.bytes s!"${bytes.length}\r\n")
    writeAll bytes
    writeAll crlfBytes
  | .nullArray => writeAll (Utf8.bytes "*-1\r\n")
  | .array values => do
    writeAll (Utf8.bytes s!"*{values.length}\r\n")
    writeValues values

def writeValues : List RespValue → WriteM Unit
  | [] => pure ()
  | value :: values => do
    writeValue value
    writeValues values

end

/-- What is written when nobody looks at the result: `let _ = connection.write(..)`. -/
def write (value : RespValue) (output : List UInt8) : List UInt8 :=
  match writeValue value output with
  | .ok _ output' | .error _ output' => output'

/-! ## Complete values -/

/-- A line of the wire format. -/
def encodeLine (tag : Char) (value : String) : List UInt8 :=
  byteOf tag :: (Utf8.bytes value ++ crlfBytes)

mutual

/-- The bytes of a value. -/
def encode : RespValue → List UInt8
  | .simple value => encodeLine '+' value
  | .error value => encodeLine '-' value
  | .integer value => encodeLine ':' (toString value)
  | .bulk none => encodeLine '$' "-1"
  | .bulk (some bytes) => encodeLine '$' (toString bytes.length) ++ (bytes ++ crlfBytes)
  | .nullArray => encodeLine '*' "-1"
  | .array values => encodeLine '*' (toString values.length) ++ encodeAll values

def encodeAll : List RespValue → List UInt8
  | [] => []
  | value :: values => encode value ++ encodeAll values

end

theorem encodeAll_append (l l' : List RespValue) :
    encodeAll (l ++ l') = encodeAll l ++ encodeAll l' := by
  induction l with
  | nil => rfl
  | cons v l ih => rw [cons_append, encodeAll, encodeAll, ih, append_assoc]

/-- No line of the value has a line break in it. -/
inductive RespValue.Printable : RespValue → Prop
  | simple {text : String} : singleLine text → Printable (.simple text)
  | error {text : String} : singleLine text → Printable (.error text)
  | integer (value : ℤ) : Printable (.integer value)
  | bulk (data : Option (List UInt8)) : Printable (.bulk data)
  | nullArray : Printable .nullArray
  | array {values : List RespValue} : (∀ value ∈ values, Printable value) →
    Printable (.array values)

/-! ## What the writer writes -/

variable {text : String}

theorem singleLine_iff : singleLine text = true ↔ '\r' ∉ text.toList ∧ '\n' ∉ text.toList := by
  simp [singleLine]

theorem singleLine_append {a b : String} (ha : singleLine a) (hb : singleLine b) :
    singleLine (a ++ b) := by
  rw [singleLine_iff] at ha hb ⊢
  rw [String.toList_append, List.mem_append, List.mem_append]
  exact ⟨not_or.mpr ⟨ha.1, hb.1⟩, not_or.mpr ⟨ha.2, hb.2⟩⟩

theorem singleLine_toString (n : ℤ) : singleLine (toString n) = true := by
  rw [singleLine_iff]
  constructor <;>
  · intro h
    rcases Decimal.mem_toString_int h with h | h
    · exact absurd h (by decide)
    · exact absurd h (by decide)

theorem lineValue_singleLine {value : String} (h : singleLine value) {tag : Char}
    {output : List UInt8} :
    lineValue tag value output = .ok () (output ++ encodeLine tag value) := by
  have hlist : output ++ encodeLine tag value =
      output ++ [byteOf tag] ++ Utf8.bytes value ++ crlfBytes := by
    simp [encodeLine]
  rw [lineValue, h, hlist]
  rfl

/-- The line that announces a number of bytes or elements. -/
theorem writeHeader (mark : String) (tag : Char) (hmark : Utf8.bytes mark = [byteOf tag]) (n : ℕ)
    (output : List UInt8) :
    writeAll (Utf8.bytes (toString mark ++ toString n ++ toString "\r\n")) output =
      .ok () (output ++ encodeLine tag (toString n)) := by
  have hlist : Utf8.bytes (mark ++ toString n ++ "\r\n") = encodeLine tag (toString n) := by
    rw [Utf8.bytes_append, Utf8.bytes_append, hmark]
    rfl
  exact congrArg (fun bytes ↦ Result.ok () (output ++ bytes)) hlist

variable {value : RespValue}

/-- The writer writes a printable value completely. -/
theorem writeValue_printable (h : value.Printable) (output : List UInt8) :
    writeValue value output = .ok () (output ++ encode value) := by
  induction h generalizing output with
  | simple h | error h => exact lineValue_singleLine h
  | integer value => exact lineValue_singleLine (singleLine_toString value)
  | bulk data =>
    cases data with
    | none => exact congrArg (Result.ok ()) (congrArg (output ++ ·) (by decide))
    | some bytes =>
      rw [writeValue, bind_of_ok (writeHeader "$" '$' (by decide) bytes.length output)]
      simp only [encode, ← append_assoc]
      rfl
  | nullArray => exact congrArg (Result.ok ()) (congrArg (output ++ ·) (by decide))
  | array hvalues ih =>
    rename_i values
    have hall : ∀ output, writeValues values output = .ok () (output ++ encodeAll values) := by
      clear hvalues
      induction values with
      | nil =>
        intro output
        rw [encodeAll, append_nil]
        rfl
      | cons value values ihvalues =>
        intro output
        have hvalue := ih value mem_cons_self output
        rw [writeValues, bind_of_ok hvalue, encodeAll, ← append_assoc]
        exact ihvalues (fun v hv ↦ ih v (mem_cons_of_mem _ hv)) _
    rw [writeValue, bind_of_ok (writeHeader "*" '*' (by decide) values.length output), hall, encode,
      append_assoc]

theorem write_printable (h : value.Printable) (output : List UInt8) :
    write value output = output ++ encode value := by
  rw [write, writeValue_printable h]

/-! ## What the reader reads -/

variable {rest : List UInt8} {readOne : ReadM RespValue} {values : List RespValue}

theorem readUntil_append {delimiter : UInt8} {bytes : List UInt8} (h : delimiter ∉ bytes) :
    readUntil delimiter (bytes ++ delimiter :: rest) = .ok (bytes ++ [delimiter]) rest := by
  have htake : (bytes ++ delimiter :: rest).takeWhile (· != delimiter) = bytes := by
    rw [takeWhile_append_of_pos]
    · simp
    · intro b hb
      rw [bne_iff_ne]
      rintro rfl
      exact h hb
  have hlist : bytes ++ delimiter :: rest = (bytes ++ [delimiter]) ++ rest := by simp
  have hcount : bytes.length + 1 = (bytes ++ [delimiter]).length := by simp
  rw [readUntil, htake, hcount, hlist, take_left, drop_left]

theorem readExact_append {bytes : List UInt8} :
    readExact bytes.length (bytes ++ rest) = .ok bytes rest := by
  rw [readExact, if_pos (by simp), take_left, drop_left]

/-- A line that the reader accepts. -/
def LineFits (text : String) : Prop :=
  '\n' ∉ text.toList ∧ (Utf8.bytes text).length + 2 ≤ maxLine

theorem line_encode (h : LineFits text) (rest : List UInt8) :
    line (Utf8.bytes text ++ crlfBytes ++ rest) = .ok text rest := by
  obtain ⟨hbreak, hlimit⟩ := h
  have hnl : byteOf '\n' ∉ Utf8.bytes text ++ [byteOf '\r'] := by
    intro hmem
    rcases mem_append.mp hmem with hmem | hmem
    · exact hbreak ((Utf8.mem_bytes (by decide)).mp hmem)
    · exact absurd (mem_singleton.mp hmem) (by decide)
  have hlist : Utf8.bytes text ++ crlfBytes ++ rest =
      Utf8.bytes text ++ [byteOf '\r'] ++ byteOf '\n' :: rest := by
    simp [crlfBytes]
  have hbytes : Utf8.bytes text ++ [byteOf '\r'] ++ [byteOf '\n'] =
      Utf8.bytes text ++ crlfBytes := by
    simp [crlfBytes]
  have hlength : (Utf8.bytes text ++ crlfBytes).length = (Utf8.bytes text).length + 2 := by
    simp [crlfBytes]
  have hending : ¬((Utf8.bytes text ++ crlfBytes).length < 2 ∨
      (Utf8.bytes text ++ crlfBytes).drop ((Utf8.bytes text ++ crlfBytes).length - 2) ≠
        crlfBytes) := by
    rw [hlength]
    simp
  rw [line, hlist, bind_of_ok (readUntil_append hnl), hbytes, if_neg hending,
    if_neg (by omega), hlength, Nat.add_sub_cancel, take_left, Utf8.text?_bytes]
  rfl

/-- An `i64`. -/
def InI64 (n : ℤ) : Prop := -2 ^ 63 ≤ n ∧ n < 2 ^ 63

instance (n : ℤ) : Decidable (InI64 n) := inferInstanceAs (Decidable (_ ∧ _))

theorem lineFits_toString {n : ℤ} (h : InI64 n) : LineFits (toString n) := by
  refine ⟨(singleLine_iff.mp (singleLine_toString n)).2, ?_⟩
  have hascii : ∀ c ∈ (toString n).toList, c.toNat < 128 := by
    intro c hc
    rcases Decimal.mem_toString_int hc with rfl | hdigit
    · decide
    · exact (Char.isDigit_iff_toNat.mp hdigit).2.trans_lt (by decide)
  have hbytes := Utf8.bytes_ascii hascii
  rw [String.ofList_toList] at hbytes
  obtain ⟨hlow, hhigh⟩ := h
  have hlength := Decimal.length_toString_int (n := n) (k := 20) (by decide) (by omega)
  rw [hbytes, length_map, maxLine]
  omega

theorem integerLine_encode {n : ℤ} (h : InI64 n) {failure : String} :
    integerLine failure (Utf8.bytes (toString n) ++ crlfBytes ++ rest) = .ok n rest := by
  have hparse : parseI64 (toString n) = some n := by
    rw [parseI64, Decimal.int?_repr, Option.filter_some, if_pos]
    exact decide_eq_true h
  rw [integerLine, bind_of_ok (line_encode (lineFits_toString h) rest), hparse]
  rfl

/-- The line that announces a number of bytes or elements is read back. -/
theorem length_encode {n : ℕ} (h : n ≤ maxBulk) :
    length (Utf8.bytes (toString n) ++ crlfBytes ++ rest) = .ok n rest := by
  rw [maxBulk] at h
  exact integerLine_encode (n := (n : ℤ)) ⟨by omega, by omega⟩

theorem length_negative (rest : List UInt8) :
    length (Utf8.bytes "-1" ++ crlfBytes ++ rest) = .ok (-1) rest := by
  have htext : "-1" = toString (-1 : ℤ) := by decide
  rw [htext]
  exact integerLine_encode (by decide)

/-- Within the limits of the reader, with so many levels left. -/
def Fits : ℕ → RespValue → Prop
  | 0, _ => False
  | _ + 1, .simple text | _ + 1, .error text => LineFits text
  | _ + 1, .integer n => InI64 n
  | _ + 1, .bulk none | _ + 1, .nullArray => True
  | _ + 1, .bulk (some data) => data.length ≤ maxBulk
  | levels + 1, .array values => values.length ≤ maxLine ∧ ∀ value ∈ values, Fits levels value

theorem encodeLine_append (tag : Char) (text : String) (rest : List UInt8) :
    encodeLine tag text ++ rest = byteOf tag :: (Utf8.bytes text ++ crlfBytes ++ rest) := rfl

theorem readBulk_encode {data : List UInt8} (h : data.length ≤ maxBulk) (rest : List UInt8) :
    readBulk (Utf8.bytes (toString data.length) ++ crlfBytes ++ (data ++ crlfBytes ++ rest)) =
      .ok (.bulk (some data)) rest := by
  have hnonneg : ¬((data.length : ℤ) < 0) := by omega
  rw [readBulk, bind_of_ok (length_encode h), if_neg hnonneg, Int.toNat_natCast, if_neg
    (Nat.not_lt.mpr h), append_assoc data, bind_of_ok readExact_append]
  rfl

section

variable (h : ∀ value ∈ values, ∀ rest, readOne (encode value ++ rest) = .ok value rest)

include h

theorem readElements_encode :
    readElements readOne values.length (encodeAll values ++ rest) = .ok values rest := by
  induction values with
  | nil => rfl
  | cons value values ih =>
    obtain ⟨hvalue, hvalues⟩ := forall_mem_cons.mp h
    rw [length_cons, readElements, encodeAll, append_assoc, bind_of_ok (hvalue _),
      bind_of_ok (ih hvalues)]
    rfl

theorem readArray_encode (hlimit : values.length ≤ maxLine) (rest : List UInt8) :
    readArray readOne (Utf8.bytes (toString values.length) ++ crlfBytes ++
      (encodeAll values ++ rest)) = .ok (.array values) rest := by
  have hnonneg : ¬((values.length : ℤ) < 0) := by omega
  have hbulk : values.length ≤ maxBulk := hlimit.trans (by decide)
  rw [readArray, bind_of_ok (length_encode hbulk), if_neg hnonneg, Int.toNat_natCast,
    if_neg (Nat.not_lt.mpr hlimit), bind_of_ok (readElements_encode h)]
  rfl

end

section Tags

variable (levels : ℕ)

theorem readAfterTag_simple :
    readAfterTag (levels + 1) (byteOf '+') = (do return .simple (← line)) := rfl

theorem readAfterTag_error :
    readAfterTag (levels + 1) (byteOf '-') = (do return .error (← line)) := rfl

theorem readAfterTag_integer :
    readAfterTag (levels + 1) (byteOf ':') =
      (do return .integer (← integerLine "Invalid RESP integer")) := rfl

theorem readAfterTag_bulk : readAfterTag (levels + 1) (byteOf '$') = readBulk := rfl

theorem readAfterTag_array :
    readAfterTag (levels + 1) (byteOf '*') = readArray (readValue levels) := rfl

end Tags

/-- Complete values are read back. -/
theorem readAfterTag_encode {levels : ℕ} (h : Fits levels value) (rest : List UInt8) :
    ∃ tag input, encode value ++ rest = tag :: input ∧
      readAfterTag levels tag input = .ok value rest := by
  induction levels generalizing value rest with
  | zero => exact h.elim
  | succ levels ih =>
    have hone : ∀ value, Fits levels value → ∀ rest,
        readValue levels (encode value ++ rest) = .ok value rest := by
      intro value hvalue rest
      obtain ⟨tag, input, hinput, hread⟩ := ih hvalue rest
      rw [hinput]
      exact hread
    cases value with
    | simple text =>
      refine ⟨_, _, encodeLine_append '+' text rest, ?_⟩
      rw [readAfterTag_simple, bind_of_ok (line_encode h rest)]
      rfl
    | error text =>
      refine ⟨_, _, encodeLine_append '-' text rest, ?_⟩
      rw [readAfterTag_error, bind_of_ok (line_encode h rest)]
      rfl
    | integer n =>
      refine ⟨_, _, encodeLine_append ':' _ rest, ?_⟩
      rw [readAfterTag_integer, bind_of_ok (integerLine_encode h)]
      rfl
    | nullArray =>
      refine ⟨_, _, encodeLine_append '*' "-1" rest, ?_⟩
      rw [readAfterTag_array, readArray, bind_of_ok (length_negative rest)]
      rfl
    | bulk data =>
      cases data with
      | none =>
        refine ⟨_, _, encodeLine_append '$' "-1" rest, ?_⟩
        rw [readAfterTag_bulk, readBulk, bind_of_ok (length_negative rest)]
        rfl
      | some data =>
        have hinput : encode (.bulk (some data)) ++ rest =
            encodeLine '$' (toString data.length) ++ (data ++ crlfBytes ++ rest) := by
          rw [encode, append_assoc]
        rw [hinput]
        refine ⟨_, _, encodeLine_append '$' _ _, ?_⟩
        rw [readAfterTag_bulk, readBulk_encode h rest]
    | array values =>
      have hinput : encode (.array values) ++ rest =
          encodeLine '*' (toString values.length) ++ (encodeAll values ++ rest) := by
        rw [encode, append_assoc]
      rw [hinput]
      refine ⟨_, _, encodeLine_append '*' _ _, ?_⟩
      exact readArray_encode (fun value hvalue ↦ hone value (h.2 value hvalue)) h.1 rest

theorem read_encode (h : Fits (maxNesting + 1) value) (rest : List UInt8) :
    read (encode value ++ rest) = .ok (some value) rest := by
  obtain ⟨tag, input, hinput, hread⟩ := readAfterTag_encode h rest
  rw [hinput]
  simp only [read, Functor.map, EStateM.map, hread]

/-! ## Reading consumes input -/

/-- The computation never puts input back. -/
def Consumes {α : Type} (x : ReadM α) : Prop :=
  ∀ input : List UInt8, Ensures x input (fun _ rest ↦ rest.length ≤ input.length)
    fun _ rest ↦ rest.length ≤ input.length

section Consumes

variable {α β : Type}

theorem Consumes.pure (a : α) : Consumes (pure a : ReadM α) := fun _ ↦ le_rfl

theorem Consumes.throw (e : String) : Consumes (throw e : ReadM α) := fun _ ↦ le_rfl

theorem Consumes.bind {x : ReadM α} {f : α → ReadM β} (hx : Consumes x)
    (hf : ∀ a, Consumes (f a)) : Consumes (x >>= f) := by
  intro input
  refine (hx input).bind fun a rest hrest ↦ ?_
  exact (hf a rest).mono (fun _ _ h ↦ h.trans hrest) fun _ _ h ↦ h.trans hrest

theorem consumes_readExact (n : ℕ) : Consumes (readExact n) := by
  intro input
  rw [Ensures, readExact]
  split
  · next h =>
    split at h
    · cases h
      rw [length_drop]
      exact Nat.sub_le _ _
    · cases h
  · next h =>
    split at h
    · cases h
    · cases h
      exact Nat.zero_le _

theorem consumes_readUntil {delimiter : UInt8} : Consumes (readUntil delimiter) := by
  intro input
  simp only [Ensures, readUntil, length_drop]
  exact Nat.sub_le _ _

theorem consumes_line : Consumes line := by
  refine consumes_readUntil.bind fun bytes ↦ ?_
  split
  · exact .throw _
  · split
    · exact .throw _
    · split
      · exact .pure _
      · exact .throw _

theorem consumes_integerLine (failure : String) : Consumes (integerLine failure) := by
  refine consumes_line.bind fun text ↦ ?_
  split
  · exact .pure _
  · exact .throw _

theorem consumes_readBulk : Consumes readBulk := by
  refine (consumes_integerLine _).bind fun n ↦ ?_
  split
  · exact .pure _
  · split
    · exact .throw _
    · refine (consumes_readExact _).bind fun data ↦ Consumes.bind ?_ fun _ ↦ .pure _
      refine (consumes_readExact 2).bind fun ending ↦ ?_
      split
      · exact .throw _
      · exact .pure _

theorem consumes_readElements (h : Consumes readOne) (count : ℕ) :
    Consumes (readElements readOne count) := by
  induction count with
  | zero => exact .pure _
  | succ count ih => exact h.bind fun _ ↦ ih.bind fun _ ↦ .pure _

theorem consumes_readAfterTag {levels : ℕ} (tag : UInt8) : Consumes (readAfterTag levels tag) := by
  induction levels generalizing tag with
  | zero => exact .throw _
  | succ levels ih =>
    rw [readAfterTag]
    split
    · exact consumes_line.bind fun _ ↦ .pure _
    · split
      · exact consumes_line.bind fun _ ↦ .pure _
      · split
        · exact (consumes_integerLine _).bind fun _ ↦ .pure _
        · split
          · exact consumes_readBulk
          · split
            · refine (consumes_integerLine _).bind fun n ↦ ?_
              split
              · exact .pure _
              · split
                · exact .throw _
                · refine (consumes_readElements ?_ _).bind fun _ ↦ .pure _
                  exact (consumes_readExact 1).bind fun tag ↦ ih _
            · exact .throw _

/-- Before the end of the input something is consumed. -/
theorem read_consumes (tag : UInt8) (input : List UInt8) :
    Ensures read (tag :: input) (fun value rest ↦ value.isSome ∧ rest.length ≤ input.length)
      fun _ rest ↦ rest.length ≤ input.length := by
  have hread : Ensures (some <$> readAfterTag (maxNesting + 1) tag) input
      (fun value rest ↦ value.isSome ∧ rest.length ≤ input.length)
      fun _ rest ↦ rest.length ≤ input.length := by
    rw [ensures_map]
    exact (consumes_readAfterTag tag input).imp fun _ _ h ↦ ⟨rfl, h⟩
  exact hread

end Consumes

end Hara.Resp
