import Hara.Kernel.Namespace
import Mathlib.Data.List.Basic

/-!
# Runtime values and source forms

`Value` follows `core::Value` and `Form` follows `kernel::Form`. Kinds whose contents the modelled
code reads are spelled out; every heap-allocated kind it only passes around is an address tagged
with its `HeapKind`. A function, a promise and a Var are addresses too, since the machine compares
and looks them up by identity. Persistent metadata attached to values is not represented.
-/

namespace Hara

/-- A source position (`kernel::reader::Position`). -/
structure Position where
  offset : ℕ
  line : ℕ
  column : ℕ
  deriving DecidableEq, Repr, Inhabited

/-- Where an exception was created or thrown (`core::ExceptionSite`). -/
structure ExceptionSite where
  ns : Option String
  resource : Option String
  line : ℕ
  column : ℕ
  deriving DecidableEq, Repr

/-- The kinds of runtime object that are only passed around. -/
inductive HeapKind where
  | bytes | byteBuffer | array | object | atom | delay | orderedMap | sortedMap | trie
  | orderedSet | sortedSet | cons | deque | queue | priorityMap | pointer | mapEntry
  | mutableCollection | seq | iterator | ns | extension | structType | mutableType | protocol
  | nativeType | schema | coroutine | stream | result
  deriving DecidableEq, Repr

/-- `core::Value`. -/
inductive Value where
  | number (value : Int64)
  | float (bits : UInt64)
  | bigInteger (value : Int)
  | character (value : Char)
  | regex (pattern : String)
  | tagged (tag : String) (form : Value)
  | bool (value : Bool)
  | string (value : String)
  | keyword (name : String)
  | symbol (name : String)
  | list (items : List Value)
  | vector (items : List Value)
  | tuple (items : List Value)
  | map (entries : List (Value × Value))
  | set (items : List Value)
  | recur (values : List Value)
  | promise (address : ℕ)
  | function (address : ℕ)
  | var (address : ℕ)
  /-- `ex` values; the address is that of the shared provenance cell. -/
  | exceptionInfo (message : String) (data : Value) (address : ℕ)
  /-- A `Struct` or, when `isMutable`, a `Mutable` instance of the named type. -/
  | record (typeName : String) (isMutable : Bool) (address : ℕ)
  | heap (kind : HeapKind) (address : ℕ)
  | nil
  deriving Repr, Inhabited

namespace Value

/-- `Value::truthy`: only `nil` and `false` are false. -/
def truthy : Value → Bool
  | bool false | nil => false
  | _ => true

/-- `core::map_entries`. -/
def mapEntries : Value → Option (List (Value × Value))
  | map entries => some entries
  | _ => none

def isExceptionInfo : Value → Bool
  | exceptionInfo .. => true
  | _ => false

/-- `Machine::callable_key`: the identity of a function value. -/
def callableKey : Value → Option ℕ
  | function address => some address
  | _ => none

end Value

/-- `kernel::Form`, the reader's output. -/
inductive Form where
  /-- Owned process-local quoted data, never produced by the reader. -/
  | runtimeLiteral (value : Value)
  | nil
  | bool (value : Bool)
  | number (value : Int64)
  | float (bits : UInt64)
  | bigInteger (value : Int)
  | character (value : Char)
  | regex (pattern : String)
  | tagged (tag : String) (form : Form)
  | metadata (attributes : Form) (form : Form)
  | symbol (name : String)
  | keyword (name : String)
  | string (value : String)
  | map (entries : List (Form × Form))
  | set (items : List Form)
  | vector (items : List Form)
  | list (items : List Form)
  deriving Repr, Inhabited

/-- `core::form_without_metadata`. -/
def Form.withoutMetadata : Form → Form
  | .metadata _ form => form.withoutMetadata
  | form => form

mutual

/-- `core::value_to_form`; `none` stands for the error `cannot use … as code`. -/
def valueToForm : Value → Option Form
  | .nil => some .nil
  | .bool b => some (.bool b)
  | .number n => some (.number n)
  | .float bits => some (.float bits)
  | .bigInteger n => some (.bigInteger n)
  | .character c => some (.character c)
  | .regex p => some (.regex p)
  | .string s => some (.string s)
  | .keyword k => some (.keyword k)
  | .symbol s => some (.symbol s)
  | .tagged tag v => (valueToForm v).map (.tagged (Kernel.Symbol.getName tag))
  -- Quoted runtime data that is no portable form is kept as a literal.
  | .list [.symbol "quote", data] =>
    some (.list [.symbol "quote", (valueToForm data).getD (.runtimeLiteral data)])
  | .list items => (valuesToForms items).map .list
  | .vector items => (valuesToForms items).map .vector
  | .tuple items => (valuesToForms items).map .vector
  | .set items => (valuesToForms items).map .set
  | .map entries => (entriesToForms entries).map .map
  | _ => none

def valuesToForms : List Value → Option (List Form)
  | [] => some []
  | v :: vs => do
    let form ← valueToForm v
    let forms ← valuesToForms vs
    pure (form :: forms)

def entriesToForms : List (Value × Value) → Option (List (Form × Form))
  | [] => some []
  | (k, v) :: entries => do
    let key ← valueToForm k
    let value ← valueToForm v
    let forms ← entriesToForms entries
    pure ((key, value) :: forms)

end

end Hara
