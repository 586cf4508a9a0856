import Hara.Lib.Worklist
import Hara.Vm.Program

/-!
# Program validation

`vm/validate.rs`: one abstract-interpretation pass over every code vector before execution. The
pass computes the operand-stack height at each instruction with the worklist of
`Hara.Lib.Worklist`; visiting an instruction checks its operands and returns the heights it forces
elsewhere.
-/

namespace Hara.Vm

/-- A program rejected by the validator, with the instruction the failure concerns. -/
structure ValidationError where
  message : String
  instruction : Option ℕ
  deriving DecidableEq, Repr

variable (program : Program) (function : FunctionPrototype)

/-- Global-instruction name operands must index a string constant. -/
def stringConstant (index ip : ℕ) : Except ValidationError Unit :=
  match program.constants[index]? with
  | some (.string _) => .ok ()
  | some _ => .error ⟨s!"global name constant {index} is not a string", some ip⟩
  | none => .error ⟨s!"constant index {index} out of range", some ip⟩

/-- A name operand that is reported as `what` when it is not a string constant. -/
def nameConstant (what : String) (index ip : ℕ) : Except ValidationError Unit :=
  match program.constants[index]? with
  | some (.string _) => .ok ()
  | _ => .error ⟨s!"{what} name constant {index} is invalid", some ip⟩

/-- Whether a constant is a `ns`, `ns+` or `require` form. -/
def isNamespaceForm (value : Value) : Bool :=
  match (valueToForm value).map Form.withoutMetadata with
  | some (.list (.symbol operator :: _)) => operator ∈ ["ns", "ns+", "require"]
  | _ => false

/-- Operand checks independent of control flow. -/
def checkOperands (ip : ℕ) : Instruction → Except ValidationError Unit
  | .constant index =>
    if program.constants.length ≤ index then
      .error ⟨s!"constant index {index} out of range", some ip⟩
    else .ok ()
  | .loadLocal slot | .storeLocal slot =>
    if function.localCount ≤ slot then .error ⟨s!"local slot {slot} out of range", some ip⟩
    else .ok ()
  | .intrinsicCall target _ | .protocolCall target _ | .intrinsicValue target =>
    stringConstant program target ip
  | .builtinValue index => nameConstant program "builtin" index ip
  | .namespaceValue index => nameConstant program "namespace" index ip
  | .namespaceOperation index =>
    match program.constants[index]? with
    | none => .error ⟨s!"constant index {index} out of range", some ip⟩
    | some value =>
      if isNamespaceForm value then .ok ()
      else .error ⟨s!"namespace-management constant {index} is invalid", some ip⟩
  | .dynamicBind index | .dynamicUnbind index => nameConstant program "binding" index ip
  | .jump target | .jumpIfFalse target =>
    if function.code.length ≤ target then
      .error ⟨s!"jump target {target} out of range", some ip⟩
    else .ok ()
  | .closure prototype captures =>
    match program.functions[prototype]? with
    | none => .error ⟨s!"closure prototype {prototype} out of range", some ip⟩
    | some target =>
      let expected := target.captureCount
      if captures = expected then .ok ()
      else .error ⟨s!"closure captures {captures} but prototype expects {expected}", some ip⟩
  | .callStatic prototype argc =>
    match program.functions[prototype]? with
    | none => .error ⟨s!"callstatic target {prototype} out of range", some ip⟩
    | some target =>
      let arity := target.arity
      if (if target.variadic then arity ≤ argc else argc = arity) then
        if target.captureCount = function.captureCount then .ok ()
        else .error ⟨"callstatic capture count differs from current function", some ip⟩
      else .error ⟨s!"callstatic argc {argc} but prototype expects {arity}", some ip⟩
  | .getGlobal index | .setGlobal index | .varGlobal index | .mutableFieldGet index
  | .mutableFieldSet index | .declareGlobal index => stringConstant program index ip
  | .defGlobal name metadata | .defMacro name metadata => do
    stringConstant program name ip
    match metadata with
    | some index =>
      if program.varMetadata ≤ index then
        .error ⟨s!"var metadata index {index} out of range", some ip⟩
      else .ok ()
    | none => .ok ()
  | .makeMultiArity name _ => stringConstant program name ip
  | _ => .ok ()

/-- A catch or finally target, with the height it is reached at. -/
def regionSeed (what : String) (codeLength start height target : ℕ) :
    Except ValidationError (ℕ × ℕ) := do
  Except.ensure (target < codeLength) ⟨s!"{what} target {target} out of range", some start⟩
  pure (target, height)

/-- The heights an unwind into the regions of one entry forces. -/
def entrySeeds (codeLength height : ℕ) (entry : TryEntry) :
    Except ValidationError (List (ℕ × ℕ)) := do
  let catches ← entry.catches.mapM fun clause ↦
    regionSeed "catch" codeLength entry.start height clause.target
  let final ← entry.finally_.toList.mapM (regionSeed "finally" codeLength entry.start height)
  pure (catches ++ final)

/-- The heights the entries starting at `ip` force. -/
def handlerSeeds (codeLength ip height : ℕ) (handlers : List TryEntry) :
    Except ValidationError (List (ℕ × ℕ)) := do
  let seeds ← (handlers.filter fun entry ↦ entry.start = ip).mapM (entrySeeds codeLength height)
  pure seeds.flatten

/-- `push_fallthrough`. -/
def pushFallthrough (codeLength ip height : ℕ) : Except ValidationError (List (ℕ × ℕ)) :=
  if ip + 1 = codeLength then
    .error ⟨"missing return: control falls off the end of the function", some ip⟩
  else .ok [(ip + 1, height)]

/-- Stack effect and successors of one instruction. -/
def successors (codeLength ip height : ℕ) (instruction : Instruction) :
    Except ValidationError (List (ℕ × ℕ)) :=
  match instruction.stackEffect with
  | none =>
    if instruction = .ret then
      if height = 1 then .ok []
      else .error ⟨s!"return with stack height {height}, expected 1", some ip⟩
    else if height < 1 then .error ⟨"stack underflow", some ip⟩
    else .ok []
  | some effect =>
    let next := height + effect
    if next < 0 then .error ⟨"stack underflow", some ip⟩
    else if maxOperandStack < next.toNat then
      .error ⟨s!"operand stack exceeds limit of {maxOperandStack}", some ip⟩
    else
      match instruction with
      | .jump target => .ok [(target, next.toNat)]
      | .jumpIfFalse target => do
        let rest ← pushFallthrough codeLength ip next.toNat
        pure ((target, next.toNat) :: rest)
      | _ => pushFallthrough codeLength ip next.toNat

/-- The body of the `stack_heights` loop for an instruction met for the first time. -/
def visitInstruction (ip height : ℕ) : Except ValidationError (List (ℕ × ℕ)) := do
  let seeds ← handlerSeeds function.code.length ip height function.handlers
  match function.code[ip]? with
  | none => .error ⟨"instruction index out of range", some ip⟩
  | some instruction =>
    checkOperands program function ip instruction
    let next ← successors function.code.length ip height instruction
    pure (seeds ++ next)

/-- Two different heights meet at `ip`. -/
def heightClash (ip old new : ℕ) : ValidationError :=
  ⟨s!"inconsistent stack heights {old} and {new} at join", some ip⟩

/-- The number of catch and finally regions of a function. -/
def regionCount (handlers : List TryEntry) : ℕ :=
  (handlers.map fun entry ↦ entry.catches.length + 1).sum

/-- Reads the finished table; a cell never reached is dead code. -/
def collectHeights (ip : ℕ) : List (Option ℕ) → Except ValidationError (List ℕ)
  | [] => .ok []
  | none :: _ => .error ⟨"unreachable instruction", some ip⟩
  | some height :: table => do
    let heights ← collectHeights (ip + 1) table
    pure (height :: heights)

/-- The unique operand-stack height at every instruction. The budget covers every pair the
worklist can ever hold, see `stackHeights_budget`. -/
def stackHeights : Except ValidationError (List ℕ) :=
  let codeLength := function.code.length
  if codeLength = 0 then .error ⟨"function has no code", none⟩
  else if maxInstructions < codeLength then
    .error ⟨s!"code exceeds limit of {maxInstructions} instructions", none⟩
  else if maxLocals < function.localCount then
    .error ⟨"local count exceeds slot limit", none⟩
  else
    match Worklist.explore (visitInstruction program function) heightClash
        (1 + (2 + regionCount function.handlers) * codeLength) [(0, 0)]
        (List.replicate codeLength none) with
    | none => .error ⟨"worklist budget exhausted", none⟩
    | some (.error e) => .error e
    | some (.ok table) => collectHeights 0 table

/-- Two protected ranges are disjoint or nested. -/
def TryEntry.Compatible (entry other : TryEntry) : Prop :=
  (entry.stop ≤ other.start ∨ other.stop ≤ entry.start) ∨
    (entry.start ≤ other.start ∧ other.stop ≤ entry.stop) ∨
    (other.start ≤ entry.start ∧ entry.stop ≤ other.stop)

instance (entry other : TryEntry) : Decidable (entry.Compatible other) :=
  inferInstanceAs (Decidable (_ ∨ _))

/-- The pending slots of an entry: present exactly when `finally` is, and in range. -/
def validatePending (codeLength localCount : ℕ) (entry : TryEntry) :
    Except ValidationError Unit :=
  let start := some entry.start
  match entry.finally_, entry.pendingValue, entry.pendingError with
  | some target, some value, some flag => do
    Except.ensure (target < codeLength) ⟨s!"finally target {target} out of range", start⟩
    Except.ensure (value < localCount ∧ flag < localCount) ⟨"pending slot out of range", start⟩
  | none, none, none => .ok ()
  | _, _, _ =>
    .error ⟨"pending slots must be present exactly when finally is present", start⟩

/-- The checks on one handler entry and its nesting with the entries after it. -/
def validateHandler (heights : List ℕ) (entry : TryEntry) (others : List TryEntry) :
    Except ValidationError Unit := do
  let codeLength := function.code.length
  let start := entry.start
  let stop := entry.stop
  let computed := heights.getD start 0
  let depth := entry.depth
  Except.ensure (start < stop ∧ stop ≤ codeLength)
    ⟨s!"try range [{start}, {stop}) out of bounds or empty", some start⟩
  Except.ensure (computed = depth)
    ⟨s!"handler depth {depth} disagrees with computed {computed}", some start⟩
  entry.catches.forM fun clause ↦ do
    let target := clause.target
    let binding := clause.binding
    Except.ensure (target < codeLength) ⟨s!"catch target {target} out of range", some start⟩
    Except.ensure (binding < function.localCount)
      ⟨s!"catch binding slot {binding} out of range", some start⟩
  validatePending codeLength function.localCount entry
  others.forM fun other ↦
    Except.ensure (entry.Compatible other) ⟨"try ranges must not partially overlap", some start⟩

/-- `validate_handlers`. -/
def validateHandlers (function : FunctionPrototype) (heights : List ℕ) :
    List TryEntry → Except ValidationError Unit
  | [] => .ok ()
  | entry :: others => do
    validateHandler function heights entry others
    validateHandlers function heights others

/-- `validate_function`. -/
def validateFunction : Except ValidationError Unit := do
  Except.ensure (function.sourceMap.length = function.code.length)
    ⟨"source map length does not match code length", none⟩
  let heights ← stackHeights program function
  let computed := heights.foldl max 0
  let declared := function.maxStack
  Except.ensure (computed = declared)
    ⟨s!"declared max_stack {declared} disagrees with computed {computed}", none⟩
  validateHandlers function heights function.handlers

/-- `validate_declared_arity`: an annotated function must have the arity it is compiled with. The
schema is looked up by the index cut to 16 bits. -/
def validateDeclaredArity (index : ℕ) (function : FunctionPrototype) :
    Except ValidationError Unit :=
  match program.functionSchema (index % 2 ^ 16) with
  | some (.function arities) =>
    if arities.any fun schema ↦
        schema.1.length == function.arity && schema.2.isSome == function.variadic then
      .ok ()
    else
      let name := function.name.getD "<anonymous>"
      let arity := function.arity
      let rest := if function.variadic then " with rest arguments" else ""
      .error ⟨s!"function schema for {name} has no {arity}-argument arity{rest}", none⟩
  | _ => .ok ()

/-- Errors name the function when the program has several. -/
def ValidationError.inFunction (multiple : Bool) (index : ℕ) (error : ValidationError) :
    ValidationError :=
  let message := error.message
  if multiple then { error with message := s!"function {index}: {message}" } else error

/-- Validates a whole program. -/
def validate : Except ValidationError Unit := do
  Except.ensure (program.constants.length ≤ maxConstants)
    ⟨s!"constant pool exceeds limit of {maxConstants}", none⟩
  Except.ensure (program.functions ≠ []) ⟨"program has no functions", none⟩
  Except.ensure (program.entry < program.functions.length)
    ⟨"entry function index out of range", none⟩
  let multiple := decide (1 < program.functions.length)
  program.functions.zipIdx.forM fun (function, index) ↦
    Except.mapError (ValidationError.inFunction multiple index) do
      validateDeclaredArity program index function
      validateFunction program function

end Hara.Vm
