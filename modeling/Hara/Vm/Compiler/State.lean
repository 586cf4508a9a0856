import Hara.Vm.Compiler.Destructure
import Hara.Vm.Program

/-!
# Compiler state

The state of `vm/compiler.rs` with the scopes of `vm/compiler/scope.rs`: a constant pool and a stack
of function contexts of which the innermost is current. What the forms modelled here ask of the
runtime core is the parameter `CompileCore`; `W` is all that the compiler keeps besides (prototypes,
metadata tables, the world of macro expansion).

Reader spans matter through their start alone. A form travels as a `Child`: the form, its position,
and the reader's nodes for its elements when there are any.
-/

namespace Hara.Vm

/-! ## Errors -/

/-- What went wrong while compiling a form. -/
inductive CompileErrorKind where
  | parse
  | unsupportedForm
  | unboundSymbol
  | arity
  | recur
  | invalidEffect
  | limit
  | internal
  deriving DecidableEq, Repr

structure CompileError where
  kind : CompileErrorKind
  message : String
  position : Option Position
  deriving DecidableEq, Repr

/-- Why a compilation stops. The source has no counterpart of `exhausted`: the recursion of the
model is on a budget. -/
inductive CompileStop where
  | error (error : CompileError)
  | panic
  | exhausted
  deriving DecidableEq, Repr

/-! ## Scopes -/

/-- One scope: its names, latest first, and `next_slot` when it was pushed. -/
structure Scope where
  names : List (String × ℕ)
  savedNext : ℕ
  deriving DecidableEq, Repr, Inhabited

/-- `ScopeStack`, innermost scope first. -/
structure ScopeStack where
  scopes : List Scope
  nextSlot : ℕ
  /-- Maximum number of simultaneously live slots. -/
  highWater : ℕ
  deriving DecidableEq, Repr, Inhabited

namespace ScopeStack

variable (stack : ScopeStack)

def pushScope : ScopeStack :=
  { stack with scopes := ⟨[], stack.nextSlot⟩ :: stack.scopes }

def popScope : ScopeStack :=
  match stack.scopes with
  | [] => stack
  | scope :: scopes => { stack with scopes, nextSlot := scope.savedNext }

/-- The next free slot, counted as live. -/
def declareHidden : Except CompileError (ℕ × ScopeStack) :=
  if maxLocals ≤ stack.nextSlot then
    .error ⟨.limit, s!"local slots exceed limit of {maxLocals}", none⟩
  else
    .ok (stack.nextSlot,
      { stack with
        nextSlot := stack.nextSlot + 1, highWater := max stack.highWater (stack.nextSlot + 1) })

/-- Registers `name` in the innermost scope. -/
def bindName (name : String) (slot : ℕ) : ScopeStack :=
  match stack.scopes with
  | [] => stack
  | scope :: scopes =>
    { stack with scopes := { scope with names := (name, slot) :: scope.names } :: scopes }

/-- Allocates a fresh slot for `name`; a repeated name shadows its earlier binding. -/
def declare (name : String) : Except CompileError (ℕ × ScopeStack) := do
  let (slot, stack) ← stack.declareHidden
  pure (slot, stack.bindName name slot)

/-- Resolves a symbol innermost-first. -/
def resolve (name : String) : Option ℕ :=
  stack.scopes.findSome? fun scope ↦ scope.names.lookup name

end ScopeStack

/-! ## Source forms -/

/-- `kernel::SpannedForm`. -/
structure SpannedForm where
  form : Form
  start : Position
  children : List SpannedForm
  deriving Repr, Inhabited

/-- A form paired with its span and, where the reader provided them, the nodes of its elements. -/
structure Child where
  form : Form
  span : Position
  children : Option (List SpannedForm)
  deriving Repr, Inhabited

/-- A form without nodes of its own, reported at `span`. -/
def Child.bare (form : Form) (span : Position) : Child := ⟨form, span, none⟩

def SpannedForm.toChild (node : SpannedForm) : Child := ⟨node.form, node.start, some node.children⟩

/-- `Compiler::list_children`: when the nodes do not match the element count (reader macros expand
to synthetic lists), the elements inherit the parent span. -/
def listChildren (elements : List Form) (span : Position)
    (children : Option (List SpannedForm)) : List Child :=
  match children with
  | some nodes =>
    if nodes.length = elements.length then nodes.map SpannedForm.toChild
    else elements.map (Child.bare · span)
  | none => elements.map (Child.bare · span)

/-! ## Services of the runtime core -/

/-- The lookups of the namespace registry, which answer the symbol of a Var. `local…` go through
the compilation namespace. -/
structure Registry where
  find : String → Bool
  resolve : String → Option String
  localResolve : String → Option String
  localLazyTarget : String → Option String

/-- What the compiler asks of the runtime core. -/
structure CompileCore (W : Type) where
  /-- The namespace of the compilation. -/
  ns : String
  registry : W → Option Registry
  /-- `Value::eq`, which keys the constant pool. -/
  valueEq : Value → Value → Bool
  eq_string {value : Value} {text : String} :
    valueEq value (.string text) = true → value = .string text

/-! ## The compiler -/

structure LoopContext where
  header : ℕ
  slots : List ℕ
  deriving DecidableEq, Repr, Inhabited

/-- A `try` region currently being compiled; `loopDepth` is the number of loops around it. -/
structure TryContext where
  hasFinally : Bool
  loopDepth : ℕ
  deriving DecidableEq, Repr, Inhabited

/-- One in-progress function body. Loops and tries are listed innermost first. -/
structure FnContext where
  code : List Instruction
  sourceMap : SourceMap
  scopes : ScopeStack
  loops : List LoopContext
  tries : List TryContext
  handlers : List TryEntry
  /-- Whether control can reach the next emitted instruction. -/
  fallthrough : Bool
  deriving Repr, Inhabited

/-- `Compiler`. `context` is the innermost of the source's `contexts`, `outer` are the others. -/
structure Compiler (W : Type) where
  constants : List Value
  constantIndex : List (Value × ℕ)
  context : FnContext
  outer : List FnContext
  globals : List String
  topLevel : Bool
  nextDestructureId : ℕ
  world : W

/-- A computation of the compiler. -/
abbrev CompileM (W : Type) := EStateM CompileStop (Compiler W)

variable {W : Type}

/-- The index of the next instruction. -/
def Compiler.here (c : Compiler W) : ℕ := c.context.code.length

/-! ## Emission -/

def compileError {α : Type} (kind : CompileErrorKind) (message : String)
    (position : Option Position) : CompileM W α :=
  throw (.error ⟨kind, message, position⟩)

/-- Reports an error unless `condition` holds. -/
def ensure (condition : Bool) (kind : CompileErrorKind) (message : String) (position : Position) :
    CompileM W Unit :=
  if condition then pure () else compileError kind message (some position)

def modifyContext (f : FnContext → FnContext) : CompileM W Unit :=
  modify fun c ↦ { c with context := f c.context }

def setFallthrough (fallthrough : Bool) : CompileM W Unit :=
  modifyContext fun ctx ↦ { ctx with fallthrough }

def setTopLevel (topLevel : Bool) : CompileM W Unit :=
  modify fun c ↦ { c with topLevel }

def falls : CompileM W Bool := do return (← get).context.fallthrough

/-- Goes on only where control can arrive. -/
def whenFalls (rest : CompileM W Unit) : CompileM W Unit := do
  if ← falls then rest else pure ()

def codeLength : CompileM W ℕ := do return (← get).here

def FnContext.emit (ctx : FnContext) (instruction : Instruction) (position : Option Position) :
    FnContext :=
  { ctx with code := ctx.code ++ [instruction], sourceMap := ctx.sourceMap.record position }

/-- `Compiler::emit`; returns the instruction's index. -/
def emit (instruction : Instruction) (position : Option Position) : CompileM W ℕ :=
  modifyGet fun c ↦ (c.here, { c with context := c.context.emit instruction position })

/-- `emit` where the index is not needed. -/
def emit_ (instruction : Instruction) (position : Option Position) : CompileM W Unit := do
  let _ ← emit instruction position

/-- The instruction with its jump operand replaced; nothing else is ever patched. -/
def Instruction.retarget (target : ℕ) : Instruction → Instruction
  | .jump _ => .jump target
  | .jumpIfFalse _ => .jumpIfFalse target
  | i => i

/-- `Compiler::patch_jump`. -/
def patchJump (ip target : ℕ) : CompileM W Unit :=
  modifyContext fun ctx ↦ { ctx with code := ctx.code.modify ip (Instruction.retarget target) }

def patchJumps (jumps : List ℕ) (target : ℕ) : CompileM W Unit :=
  jumps.forM (patchJump · target)

/-! ## Scopes of the current context -/

def pushScope : CompileM W Unit :=
  modifyContext fun ctx ↦ { ctx with scopes := ctx.scopes.pushScope }

def popScope : CompileM W Unit :=
  modifyContext fun ctx ↦ { ctx with scopes := ctx.scopes.popScope }

/-- Applies an allocation to the current scopes, reporting its error at `position`. -/
def allocateSlot (f : ScopeStack → Except CompileError (ℕ × ScopeStack))
    (position : Option Position) : CompileM W ℕ := do
  let c ← get
  match f c.context.scopes with
  | .ok (slot, scopes) => do
    modifyContext fun ctx ↦ { ctx with scopes }
    pure slot
  | .error e => compileError e.kind e.message position

def declareName (name : String) (position : Option Position) : CompileM W ℕ :=
  allocateSlot (·.declare name) position

def declareHidden : CompileM W ℕ := allocateSlot ScopeStack.declareHidden none

/-! ## Constants -/

section Constants

variable (core : CompileCore W)

/-- Numbers are not interned: equal numbers of different types stay apart. -/
def isInterned : Value → Bool
  | .number _ | .float _ | .bigInteger _ => false
  | _ => true

/-- `Compiler::constant_index_of`. -/
def constantIndexOf (value : Value) (span : Position) : CompileM W ℕ := do
  let c ← get
  let known := if isInterned value then
    c.constantIndex.find? fun entry ↦ core.valueEq entry.1 value else none
  match known with
  | some entry => pure entry.2
  | none => do
    ensure (c.constants.length < maxConstants) .limit
      s!"constant pool exceeds limit of {maxConstants}" span
    set { c with
      constants := c.constants ++ [value]
      constantIndex := if isInterned value then (value, c.constants.length) :: c.constantIndex
        else c.constantIndex }
    pure c.constants.length

/-- `Compiler::constant`. -/
def constant (value : Value) (span : Position) : CompileM W Unit := do
  let index ← constantIndexOf core value span
  emit_ (.constant index) (some span)

/-! ## Global names -/

/-- `str::split_once('/')`. -/
def splitOnce (name : String) : Option (String × String) :=
  match name.toList.span (· != '/') with
  | (_, []) => none
  | (owner, _ :: rest) => some (.ofList owner, .ofList rest)

/-- The rest of a name that starts with a dash and a slash. -/
def stripCurrent (name : String) : Option String :=
  match name.toList with
  | '-' :: '/' :: rest => some (.ofList rest)
  | _ => none

/-- The Var a global reference is bound to at compile time. -/
def Compiler.qualifiedName (c : Compiler W) (registry : Registry) (name : String) :
    Option String :=
  match stripCurrent name with
  | some localName => some (core.ns ++ "/" ++ localName)
  | none =>
    match splitOnce name with
    | none =>
      if c.globals.contains name then some (core.ns ++ "/" ++ name) else registry.resolve name
    | some (owner, localName) =>
      (if registry.find owner then registry.resolve name else registry.localResolve name).or
        ((registry.localLazyTarget owner).map fun target ↦ target ++ "/" ++ localName)

/-- The name that stands in the code for a global name. -/
def Compiler.globalName (c : Compiler W) (name : String) : String :=
  ((core.registry c.world).bind fun registry ↦ c.qualifiedName core registry name).getD name

/-- `Compiler::global_name_constant`. -/
def globalNameConstant (name : String) (span : Position) : CompileM W ℕ := do
  let c ← get
  constantIndexOf core (.string (c.globalName core name)) span

end Constants

end Hara.Vm
