import Hara.Core.Exception
import Hara.Lib.Hoare
import Hara.Vm.Program

/-!
# The stack machine: slots, frames and state

`vm/slot.rs`, `vm/frame.rs` and the state of `vm/machine.rs`. The operand stack is a list with its
top first; vectors that only recycle allocations (`scratch`, `free_locals`, `free_args`) have no
counterpart.

The services of the runtime core are a parameter `Runtime`: arbitrary functions on the shared
`World`. What is proved about the machine holds whatever they do. The traces of the JIT, and what it
has counted and recorded, are part of the world too: at a back edge it may answer with new values
for the local slots, from which the machine goes on at the header of the loop.
-/

namespace Hara.Vm

/-! ## Slots -/

mutual

/-- `vm::slot::VmSlot`. Reference-counted closures carry the identity that `Rc::ptr_eq` compares. -/
inductive VmSlot where
  | number (value : Int64)
  | bool (value : Bool)
  | nil
  | value (value : Value)
  | inlineClosure (prototype identity : ℕ)
  | closure (identity : ℕ) (closure : VmClosure)
  | multiArity (identity : ℕ) (name : String) (clauses : List VmClosure)

/-- `vm::slot::VmClosure`. -/
inductive VmClosure where
  | mk (prototype : ℕ) (captures : List VmSlot)

end

deriving instance Repr, Inhabited for VmSlot, VmClosure

namespace VmClosure

def prototype : VmClosure → ℕ
  | mk prototype _ => prototype

def captures : VmClosure → List VmSlot
  | mk _ captures => captures

end VmClosure

namespace VmSlot

/-- `VmSlot::runtime_value`: closures have no runtime value of their own. -/
def runtimeValue : VmSlot → Option Value
  | number n => some (.number n)
  | bool b => some (.bool b)
  | nil => some .nil
  | value v => some v
  | inlineClosure .. | closure .. | multiArity .. => none

def truthy : VmSlot → Bool
  | bool false | nil => false
  | _ => true

/-- `impl From<Value> for VmSlot`. -/
def ofValue : Value → VmSlot
  | .number n => number n
  | .bool b => bool b
  | .nil => nil
  | v => value v

def isFunction : VmSlot → Bool
  | inlineClosure .. | closure .. => true
  | _ => false

end VmSlot

/-! ## Faults and errors -/

/-- The internal failures a validated program is meant to exclude. `panic` is an index that the
source takes without a check. -/
inductive Fault where
  | stackUnderflow
  | constantIndex (index : ℕ)
  | localSlot (slot : ℕ)
  | intrinsicTarget (index : ℕ)
  | builtinName (index : ℕ)
  | namespaceName (index : ℕ)
  | bindingName (index : ℕ)
  | dotMethod
  | closurePrototype (prototype : ℕ)
  | callStaticTarget (prototype : ℕ)
  | captureSlots
  | handlerDepth
  | catchBinding
  | pendingSlot
  | pendingSlotsMissing
  | functionIndex
  | instructionPointer
  | panic
  deriving DecidableEq, Repr

def Fault.message : Fault → String
  | stackUnderflow => "stack underflow"
  | constantIndex index => s!"constant index {index} out of range"
  | localSlot slot => s!"local slot {slot} out of range"
  | intrinsicTarget index => s!"intrinsic target constant {index} is invalid"
  | builtinName index => s!"builtin name constant {index} is invalid"
  | namespaceName index => s!"namespace name constant {index} is invalid"
  | bindingName index => s!"binding name constant {index} is invalid"
  | dotMethod => "dot method constant is invalid"
  | closurePrototype prototype => s!"closure prototype {prototype} out of range"
  | callStaticTarget prototype => s!"callstatic target {prototype} out of range"
  | captureSlots => "capture slots out of range"
  | handlerDepth => "handler stack depth out of range"
  | catchBinding => "catch binding slot out of range"
  | pendingSlot => "pending slot out of range"
  | pendingSlotsMissing => "handler pending slots missing"
  | functionIndex => "function index out of range"
  | instructionPointer => "instruction pointer out of range"
  | panic => "index out of bounds"

/-- A failure: an internal fault, or an error of the guest program or of the runtime core. -/
inductive Trap where
  | fault (fault : Fault)
  | error (message : String)
  deriving DecidableEq, Repr

def Trap.message : Trap → String
  | fault f => f.message
  | error message => message

/-- `vm::error::VmError`. -/
structure VmError where
  trap : Trap
  instruction : ℕ
  position : Option Position
  deriving DecidableEq, Repr

/-- Where a failing instruction goes: through the handler table, or straight out of the run. -/
inductive Exit where
  | raised (trap : Trap)
  | failed (trap : Trap)
  deriving DecidableEq, Repr

/-! ## Frames -/

/-- `jit::TraceValue`: a local slot as a trace sees it. -/
inductive TraceValue where
  | i64 (value : Int64)
  | bool (value : Bool)
  | nil
  | indexed (value : Value)
  /-- The values from the start on, which is at most their number. -/
  | vectorSlice (values : List Int64) (start : ℕ)
  | unsupported
  deriving Repr

/-- The slot that a trace leaves. -/
def TraceValue.slot : TraceValue → Option VmSlot
  | i64 n => some (.number n)
  | bool b => some (.bool b)
  | nil => some .nil
  | indexed v => some (.value v)
  | vectorSlice values start => some (.value (.vector ((values.drop start).map .number)))
  | unsupported => none

/-- A slot for a trace, and whether the trace may write it. -/
def VmSlot.traceLocal : VmSlot → TraceValue × Bool
  | number n => (.i64 n, true)
  | bool b => (.bool b, true)
  | nil => (.nil, true)
  | value (.tuple items) => (.indexed (.tuple items), true)
  | value (.vector items) => (.indexed (.vector items), true)
  | _ => (.unsupported, false)

/-- One execution frame: the local slots and the operand-stack base. -/
structure Frame where
  locals : List VmSlot
  base : ℕ
  deriving Repr

namespace Frame

def entry (localCount : ℕ) : Frame := ⟨List.replicate localCount .nil, 0⟩

/-- Writes `values` into consecutive slots from `start`; out-of-range writes are dropped. -/
def fill : ℕ → List VmSlot → List VmSlot → List VmSlot
  | _, [], locals => locals
  | start, value :: values, locals => fill (start + 1) values (locals.set start value)

/-- `Frame::call_reusing`. -/
def call (localCount arity : ℕ) (args captures : List VmSlot) (base : ℕ) : Frame :=
  ⟨fill arity captures (fill 0 args (List.replicate localCount .nil)), base⟩

def localAt (frame : Frame) (slot : ℕ) : Option VmSlot := frame.locals[slot]?

/-- `Frame::slot_range`. -/
def slotRange (frame : Frame) (start count : ℕ) : Option (List VmSlot) :=
  if frame.locals.length < start + count then none
  else some ((frame.locals.drop start).take count)

/-- `Frame::store`; `none` when the slot is out of range. -/
def store (frame : Frame) (slot : ℕ) (value : VmSlot) : Option Frame :=
  if slot < frame.locals.length then some { frame with locals := frame.locals.set slot value }
  else none

/-- `Frame::trace_locals`. -/
def traceLocals (frame : Frame) : List (TraceValue × Bool) := frame.locals.map VmSlot.traceLocal

/-- The slots from `index` on, after a trace: a slot is written if the trace may and does. -/
def applyFrom : ℕ → List TraceValue → List Bool → List VmSlot → List VmSlot
  | index, value :: values, writable :: rest, locals =>
    applyFrom (index + 1) values rest
      (if writable then (value.slot.map fun slot ↦ locals.set index slot).getD locals else locals)
  | _, _, _, locals => locals

/-- `Frame::apply_trace_locals`. -/
def applyTraceLocals (frame : Frame) (values : List TraceValue) (writable : List Bool) : Frame :=
  { frame with locals := applyFrom 0 values writable frame.locals }

end Frame

/-! ## The machine -/

structure SavedFrame where
  function : ℕ
  frame : Frame
  callIp : ℕ
  deriving Repr

/-- `vm::machine::Machine` together with the world it runs in. -/
structure Machine (H : Type) where
  function : ℕ
  frame : Frame
  /-- The operand stack shared by all frames, top first. -/
  stack : List VmSlot
  calls : List SavedFrame
  vmGlobals : List (ℕ × VmSlot)
  nextClosureIdentity : ℕ
  /-- Fresh identities for reference-counted closures. -/
  nextAllocation : ℕ
  ip : ℕ
  world : World H

/-! ## The runtime core -/

inductive PromiseRejection where
  | message (message : String)
  | value (value : Value)
  | cancelled (value : Value)

inductive PromiseState where
  | pending
  | fulfilled (value : Value)
  | rejected (error : PromiseRejection)

/-- Functions of the runtime core the machine calls with evaluated operands. -/
inductive CoreCall where
  | applyIntrinsicName (name : String)
  | protocolIntrinsicCall (name : String)
  /-- The Foundation Var's callable, or the direct function of that name. -/
  | intrinsicCallable (name : String)
  | bytecodeCallableValue (name : String)
  | vmResolveNamespaceValue (name : String)
  | evalBytecodeManagement
  | bytecodeDynamicBind (name : String)
  | bytecodeDynamicUnbind (name : String)
  /-- `vm_resolve_global` followed by `deref_value`. -/
  | getGlobal (name : String)
  | vmDefGlobal (name : String) (metadata : Option ℕ)
  | vmDefMacro (name : String) (metadata : Option ℕ)
  /-- Resolve, check that the binding is local, reset the root. -/
  | setGlobal (name : String)
  | vmResolveGlobal (name : String)
  | vmDeclareGlobal (name : String)
  | mutableFieldValue (field : String)
  | mutableFieldSet (field : String)
  | namedInstanceOf
  | vmBuildVector
  | vmBuildMap
  | vmBuildSet
  | vmConcatList
  | vmToVector
  | callHostValue
  | dotCallValues (method : String)
  | callValue (site : Option ExceptionSite)
  deriving DecidableEq, Repr

/-- The services of the runtime core. -/
structure Runtime (H : Type) extends Throwing H where
  call : CoreCall → List Value → World H → Except String Value × World H
  /-- `Machine::closure_value`: the address of a fresh function value for a closure. -/
  closureValue : VmClosure → World H → ℕ × World H
  arityDispatcher : String → List ℕ → World H → Value × World H
  derefVar : Value → World H → Value
  currentExceptionSite : World H → Option ExceptionSite
  /-- `Promise::state`, which may poll. -/
  promiseState : ℕ → World H → PromiseState × World H
  /-- Starts a child machine; the address of its result promise. -/
  spawnAsync : Machine H → World H → ℕ × World H
  /-- `JitRuntime::backedge` at the header of a loop in a function: the local slots of the exit
  snapshot. Every snapshot resumes at the header. -/
  backedge : ℕ → ℕ → List TraceValue → World H → Option (List TraceValue) × World H

variable {H : Type}

/-- `PromiseRejection::message`. -/
def PromiseRejection.text (rt : Runtime H) (heap : H) : PromiseRejection → String
  | message m => m
  | value v | cancelled v => rt.display v heap

/-- `core::promise_rejection_error`. -/
def promiseRejectionError (rt : Runtime H) (world : World H) :
    PromiseRejection → String × World H
  | .message m => (m, world)
  | .value v | .cancelled v =>
    thrownErrorAt rt.toThrowing v (rt.currentExceptionSite world) world

/-- Terminal state of a machine run. -/
inductive VmOutcome where
  | returned (value : Value)
  | failed (error : VmError)
  | suspended (promise : ℕ)
  | yielded (value : Value)

end Hara.Vm
