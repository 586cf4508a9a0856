import Hara.Core.Value

/-!
# Instructions and programs of the bytecode VM

The instruction set of `vm/opcode.rs` with its static stack effects, and the program
representation of `vm/program.rs`. Operands are natural numbers: the widths of the source's
operand types bound what the compiler can emit, not what the validator or the machine do with it.
-/

namespace Hara.Vm

/-! ## Limits -/

/-- Maximum number of entries in the constant pool. -/
def maxConstants : ℕ := 2 ^ 24

/-- Maximum number of instructions per function prototype. -/
def maxInstructions : ℕ := 2 ^ 24

/-- Maximum number of local slots per frame. -/
def maxLocals : ℕ := 65535

/-- Maximum computed operand-stack depth for any function. -/
def maxOperandStack : ℕ := 4096

/-- Maximum number of arguments in one primitive call. -/
def maxPrimitiveArguments : ℕ := 255

/-- Maximum number of captured values in one closure. -/
def maxCaptures : ℕ := 255

/-! ## Instructions -/

/-- `vm::opcode::Instruction`. Jump operands are absolute instruction indexes; `constant`, `target`,
`name` and `method` operands index the constant pool. -/
inductive Instruction where
  | constant (index : ℕ)
  | nil
  | true
  | false
  | loadLocal (slot : ℕ)
  | storeLocal (slot : ℕ)
  | pop
  | dup
  | intrinsicCall (target argc : ℕ)
  | jump (target : ℕ)
  | jumpIfFalse (target : ℕ)
  | closure (prototype captures : ℕ)
  | call (argc : ℕ)
  | callStatic (prototype argc : ℕ)
  | throw
  | rethrow
  | getGlobal (index : ℕ)
  | defGlobal (name : ℕ) (metadata : Option ℕ)
  | setGlobal (index : ℕ)
  | varGlobal (index : ℕ)
  | declareGlobal (index : ℕ)
  | mutableFieldGet (index : ℕ)
  | mutableFieldSet (index : ℕ)
  | instanceOf
  | makeMultiArity (name count : ℕ)
  | buildVector (count : ℕ)
  | buildMap (pairs : ℕ)
  | buildSet (count : ℕ)
  | buildList (count : ℕ)
  | concatList (count : ℕ)
  | toVector
  | defMacro (name : ℕ) (metadata : Option ℕ)
  | intrinsicValue (target : ℕ)
  | builtinValue (index : ℕ)
  | namespaceValue (index : ℕ)
  | namespaceOperation (index : ℕ)
  | dynamicBind (index : ℕ)
  | dynamicUnbind (index : ℕ)
  | await
  | yield
  | hostCall
  | dotCall (method argc : ℕ)
  | protocolCall (target argc : ℕ)
  | ret
  deriving DecidableEq, Repr, Inhabited

namespace Instruction

/-- The jump target, when the instruction transfers control. -/
def jumpTarget : Instruction → Option ℕ
  | jump target | jumpIfFalse target => some target
  | _ => none

/-- Whether control falls through to the next instruction. -/
def fallsThrough : Instruction → Bool
  | jump _ | ret | throw | rethrow => .false
  | _ => .true

/-- Static stack effect; `none` for the terminals, which are validated separately. -/
def stackEffect : Instruction → Option Int
  | constant _ | nil | true | false | loadLocal _ => some 1
  | storeLocal _ | pop | jumpIfFalse _ => some (-1)
  | dup => some 1
  | intrinsicCall _ argc | protocolCall _ argc | callStatic _ argc => some (1 - argc)
  | closure _ captures => some (1 - captures)
  | call argc => some (-argc)
  | getGlobal _ | varGlobal _ | declareGlobal _ => some 1
  | intrinsicValue _ => some 1
  | builtinValue _ => some 1
  | namespaceValue _ | namespaceOperation _ => some 1
  | dynamicBind _ => some 0
  | dynamicUnbind _ => some 1
  | yield => some 0
  | defGlobal _ _ | setGlobal _ | mutableFieldGet _ => some 0
  | mutableFieldSet _ => some (-1)
  | instanceOf => some (-1)
  | makeMultiArity _ count => some (1 - count)
  | buildVector count | buildSet count | buildList count | concatList count => some (1 - count)
  | buildMap pairs => some (1 - 2 * pairs)
  | toVector => some 0
  | defMacro _ _ => some 0
  | await => some 0
  | hostCall => some (-2)
  | dotCall _ argc => some (-argc)
  | jump _ => some 0
  | ret | throw | rethrow => none

end Instruction

/-! ## Programs -/

/-- One `catch` clause of a `TryEntry`. -/
structure CatchEntry where
  /-- The dispatch class; `Exception` for the implicit three-element shape. -/
  cls : String
  binding : ℕ
  target : ℕ
  deriving DecidableEq, Repr

/-- A static handler table entry: the protected range `[start, stop)` and its catch and finally
regions. Registered outermost-first, so a reverse search finds the innermost covering entry. -/
structure TryEntry where
  start : ℕ
  stop : ℕ
  /-- Operand-stack height at try entry; the machine truncates to it on unwind. -/
  depth : ℕ
  catches : List CatchEntry
  finally_ : Option ℕ
  /-- Hidden slot of the pending result, present exactly when `finally_` is. -/
  pendingValue : Option ℕ
  /-- Hidden slot of the error flag, present exactly when `finally_` is. -/
  pendingError : Option ℕ
  deriving DecidableEq, Repr

/-- The targets an unwind from `entry` can continue at. -/
def TryEntry.targets (entry : TryEntry) : List ℕ :=
  entry.catches.map (·.target) ++ entry.finally_.toList

/-- Per-instruction source positions. -/
structure SourceMap where
  positions : List (Option Position)
  deriving DecidableEq, Repr, Inhabited

namespace SourceMap

def record (map : SourceMap) (position : Option Position) : SourceMap :=
  ⟨map.positions ++ [position]⟩

def pop (map : SourceMap) : SourceMap := ⟨map.positions.dropLast⟩

/-- The source position recorded for an instruction, when available. -/
def position (map : SourceMap) (instruction : ℕ) : Option Position :=
  map.positions[instruction]?.join

def length (map : SourceMap) : ℕ := map.positions.length

end SourceMap

/-- A compiled function. -/
structure FunctionPrototype where
  name : Option String
  asyncFunction : Bool
  /-- Required argument count; when `variadic`, only the fixed parameters. -/
  arity : ℕ
  variadic : Bool
  /-- Number of captured values, in the slots directly above the parameters. -/
  captureCount : ℕ
  localCount : ℕ
  /-- Declared operand-stack high-water mark. -/
  maxStack : ℕ
  code : List Instruction
  sourceMap : SourceMap
  handlers : List TryEntry
  deriving DecidableEq, Repr, Inhabited

/-- `kernel::SchemaType`, with the kinds no VM check looks into collapsed into `composite`. A
function schema lists, for each arity, the fixed parameters and the rest parameter. -/
inductive SchemaType where
  | primitive (name : String)
  | reference (target : String)
  | function (arities : List (List SchemaType × Option SchemaType))
  | composite
  deriving Repr, Inhabited

/-- A compiled program: a constant pool plus function prototypes. -/
structure Program where
  /-- Owning namespace for a module; source snippets have none. -/
  ns : Option String
  constants : List Value
  /-- Number of metadata tables for `defGlobal`; their contents go to the runtime unread. -/
  varMetadata : ℕ
  schemaTypes : List (String × SchemaType)
  functionTypes : List (String × SchemaType)
  inferredFunctionTypes : List (String × SchemaType)
  functions : List FunctionPrototype
  entry : ℕ
  deriving Repr, Inhabited

namespace Program

/-- Follows named-schema references; a reference met twice or without a definition is kept. -/
def followReferences (types : List (String × SchemaType)) :
    ℕ → List String → SchemaType → SchemaType
  | fuel + 1, visited, .reference target =>
    if target ∈ visited then .reference target
    else
      match types.lookup target with
      | none => .reference target
      | some resolved => followReferences types fuel (target :: visited) resolved
  | _, _, schema => schema

/-- The normalized annotation for a compiled prototype. -/
def functionSchema (program : Program) (function : ℕ) : Option SchemaType := do
  let prototype ← program.functions[function]?
  let name ← prototype.name
  let qualified ←
    if name.toList.contains '/' then some name
    else program.ns.map fun ns ↦ ns ++ "/" ++ name
  let schema ← (program.functionTypes.lookup qualified).or
    (program.inferredFunctionTypes.lookup qualified)
  some (followReferences program.schemaTypes (program.schemaTypes.length + 1) [] schema)

/-- `machine/constants.rs`: the string constant at `index`. -/
def constantString (program : Program) (index : ℕ) : Option String :=
  match program.constants[index]? with
  | some (.string value) => some value
  | _ => none

end Program

end Hara.Vm
