import Hara.Vm.Machine

/-!
# Single-instruction dispatch

`vm/machine/dispatch.rs` and the instruction helpers of `vm/machine/globals.rs` and
`vm/machine.rs`. Executing an instruction is a program over the machine that either names the next
control action or leaves through an `Exit`; the operands it had already taken stay taken.
-/

namespace Hara.Vm

/-- Result of executing one instruction. -/
inductive Dispatch where
  | next (ip : ℕ)
  | call (callee : VmSlot) (args : List VmSlot)
  | callStatic (prototype : ℕ) (args captures : List VmSlot)
  | callStaticDirect (prototype argc : ℕ)
  | returned (value : VmSlot)
  | suspended (promise : ℕ)
  | yielded (value : Value)

variable {H : Type}

/-- Instruction bodies: machine state, and an exit that keeps it. -/
abbrev Exec (H : Type) := EStateM Exit (Machine H)

def Exit.underflow (exit : Trap → Exit) : Exit := exit (.fault .stackUnderflow)

/-! ## Operands -/

def push (slot : VmSlot) : Exec H Unit := modify fun m ↦ { m with stack := slot :: m.stack }

/-- Pops one operand; `exit` says how an empty stack is reported. -/
def popOr (exit : Trap → Exit) : Exec H VmSlot := do
  let m ← get
  match m.stack with
  | [] => throw (Exit.underflow exit)
  | slot :: rest =>
    set { m with stack := rest }
    pure slot

/-- Fails unless `count` operands are on the stack. -/
def need (exit : Trap → Exit) (count : ℕ) : Exec H Unit := do
  let m ← get
  if m.stack.length < count then throw (Exit.underflow exit)

/-- Drains the `count` topmost operands, oldest first. -/
def drain (count : ℕ) : Exec H (List VmSlot) :=
  modifyGet fun m ↦ ((m.stack.take count).reverse, { m with stack := m.stack.drop count })

/-- Runs a world-changing service of the runtime core. -/
def onWorld {α : Type} (f : World H → α × World H) : Exec H α :=
  modifyGet fun m ↦ ((f m.world).1, { m with world := (f m.world).2 })

variable (rt : Runtime H) (program : Program)

/-- A core call; `exit` says how its error is reported. -/
def coreOr (exit : Trap → Exit) (call : CoreCall) (args : List Value) : Exec H Value := do
  match ← onWorld (rt.call call args) with
  | .ok value => pure value
  | .error message => throw (exit (.error message))

def core (call : CoreCall) (args : List Value) : Exec H Value := coreOr rt .raised call args

/-- `Machine::into_value`: closures leave the machine as fresh function values. -/
def intoValue : VmSlot → Exec H Value
  | .number n => pure (.number n)
  | .bool b => pure (.bool b)
  | .nil => pure .nil
  | .value v => pure v
  | .inlineClosure prototype _ => do
    let address ← onWorld (rt.closureValue (.mk prototype []))
    pure (.function address)
  | .closure _ closure => do
    let address ← onWorld (rt.closureValue closure)
    pure (.function address)
  | .multiArity _ name clauses => do
    let functions ← clauses.mapM fun closure ↦ onWorld (rt.closureValue closure)
    onWorld (rt.arityDispatcher name functions)

variable (function : FunctionPrototype)

/-- The site of an exception raised by the current instruction. -/
def exceptionSite (ip : ℕ) : Option ExceptionSite :=
  (function.sourceMap.position ip).map fun position ↦
    { ns := program.ns, resource := none, line := position.line, column := position.column }

/-- `remember_vm_global`. -/
def rememberVmGlobal (value : Value) (slot : VmSlot) : Exec H Unit :=
  match value.callableKey with
  | some key => modify fun m ↦ { m with vmGlobals := (key, slot) :: m.vmGlobals }
  | none => pure ()

/-! ## Instruction helpers -/

/-- A string constant, or the fault it is reported as. -/
def constantStringOr (exit : Exit) (index : ℕ) : Exec H String :=
  match program.constantString index with
  | some name => pure name
  | none => throw exit

/-- `exec_build_collection` and `exec_build_list`. -/
def execBuild (count : ℕ) (build : List Value → Exec H Value) : Exec H Unit := do
  need .raised count
  let operands ← drain count
  let values ← operands.mapM (intoValue rt)
  let value ← build values
  push (.ofValue value)

/-- The helpers that read a name constant, take one operand and push one result. -/
def execNamedUnary (index : ℕ) (run : String → VmSlot → Exec H VmSlot) : Exec H Unit := do
  let name ← constantStringOr program (.raised (.fault (.constantIndex index))) index
  let slot ← popOr .raised
  let result ← run name slot
  push result

/-- The metadata table of a definition is indexed without a check. -/
def metadataTable : Option ℕ → Exec H Unit
  | some index => if program.varMetadata ≤ index then throw (.failed (.fault .panic)) else pure ()
  | none => pure ()

/-- `exec_def_global`. -/
def execDefGlobal (name : ℕ) (metadata : Option ℕ) : Exec H Unit :=
  execNamedUnary program name fun text slot ↦ do
    metadataTable program metadata
    let value ← intoValue rt slot
    let var ← core rt (.vmDefGlobal text metadata) [value]
    rememberVmGlobal value slot
    pure (.ofValue var)

/-- `exec_def_macro`. -/
def execDefMacro (name : ℕ) (metadata : Option ℕ) : Exec H Unit :=
  execNamedUnary program name fun text slot ↦ do
    metadataTable program metadata
    let value ← intoValue rt slot
    let var ← core rt (.vmDefMacro text metadata) [value]
    let m ← get
    rememberVmGlobal (rt.derefVar var m.world) slot
    pure slot

/-- `exec_set_global`. -/
def execSetGlobal (index : ℕ) : Exec H Unit :=
  execNamedUnary program index fun text slot ↦ do
    let value ← intoValue rt slot
    let _ ← core rt (.setGlobal text) [value]
    rememberVmGlobal value slot
    pure slot

/-- `exec_mutable_field_get`. -/
def execMutableFieldGet (index : ℕ) : Exec H Unit :=
  execNamedUnary program index fun field slot ↦ do
    let value ← intoValue rt slot
    let result ← core rt (.mutableFieldValue field) [value]
    pure (.ofValue result)

/-- `exec_mutable_field_set`: the replacement is on top of its receiver. -/
def execMutableFieldSet (index : ℕ) : Exec H Unit := do
  let field ← constantStringOr program (.raised (.fault (.constantIndex index))) index
  let replacement ← popOr .raised
  let receiver ← popOr .raised
  let replacement ← intoValue rt replacement
  let receiver ← intoValue rt receiver
  let value ← core rt (.mutableFieldSet field) [receiver, replacement]
  push (.ofValue value)

/-- `exec_get_global`, `exec_var_global` and `exec_declare_global`. -/
def execGlobal (index : ℕ) (call : String → CoreCall) : Exec H Value := do
  let name ← constantStringOr program (.raised (.fault (.constantIndex index))) index
  core rt (call name) []

/-- `exec_instance_of`. -/
def execInstanceOf : Exec H Unit := do
  let value ← popOr .raised
  let ty ← popOr .raised
  let ty ← intoValue rt ty
  let value ← intoValue rt value
  let result ← core rt .namedInstanceOf [ty, value]
  push (.ofValue result)

/-- A fresh identity for a reference-counted closure. -/
def allocate : Exec H ℕ :=
  modifyGet fun m ↦ (m.nextAllocation, { m with nextAllocation := m.nextAllocation + 1 })

/-- The clause a multi-arity dispatcher keeps for a function operand. -/
def clauseOf : VmSlot → VmClosure
  | .inlineClosure prototype _ => .mk prototype []
  | .closure _ closure => closure
  | _ => .mk 0 []

/-- `exec_make_multi_arity`. -/
def execMakeMultiArity (name count : ℕ) : Exec H Unit := do
  need .raised count
  let text ← constantStringOr program (.raised (.fault (.constantIndex name))) name
  let m ← get
  if (m.stack.take count).any fun slot ↦ !slot.isFunction then
    throw (.raised (.error "multi-arity clauses must be functions"))
  let operands ← drain count
  let identity ← allocate
  push (.multiArity identity text (operands.map clauseOf))

/-- `exec_closure`. -/
def execClosure (prototype captures : ℕ) : Exec H Unit := do
  need .raised captures
  match program.functions[prototype]? with
  | none => throw (.raised (.fault (.closurePrototype prototype)))
  | some _ =>
    if captures = 0 then
      let identity ← modifyGet fun m ↦ (m.nextClosureIdentity,
        { m with nextClosureIdentity := (m.nextClosureIdentity + 1) % 2 ^ 64 })
      push (.inlineClosure prototype identity)
    else
      let captured ← drain captures
      let identity ← allocate
      push (.closure identity (.mk prototype captured))

/-- `collect_call`. -/
def collectCall (argc : ℕ) : Exec H (VmSlot × List VmSlot) := do
  need .raised (argc + 1)
  let args ← drain argc
  let callee ← popOr .raised
  pure (callee, args)

/-- `collect_call_static`: the callee's captures are the current frame's capture slots. -/
def collectCallStatic (prototype argc : ℕ) : Exec H (List VmSlot × List VmSlot) := do
  need .raised argc
  match program.functions[prototype]? with
  | none => throw (.raised (.fault (.callStaticTarget prototype)))
  | some proto =>
    let args ← drain argc
    let m ← get
    let captureBase := function.arity + function.variadic.toNat
    match m.frame.slotRange captureBase proto.captureCount with
    | none => throw (.raised (.fault .captureSlots))
    | some captures => pure (args, captures)

/-- Equality of two operands: closures compare by identity and equal no other value. -/
def execEqual : Exec H VmSlot := do
  let right ← popOr .raised
  let left ← popOr .raised
  match left, right with
  | .closure l _, .closure r _ => pure (.bool (l == r))
  | .inlineClosure _ l, .inlineClosure _ r => pure (.bool (l == r))
  | .multiArity l _ _, .multiArity r _ _ => pure (.bool (l == r))
  | left, right =>
    match left.runtimeValue, right.runtimeValue with
    | some l, some r => VmSlot.ofValue <$> core rt (.applyIntrinsicName "=") [l, r]
    | _, _ => pure (.bool false)

/-- The promise a `deref` protocol call has to wait for. -/
def pendingDeref (protocol : Bool) (name : String) (argc : ℕ) : Exec H (Option ℕ) := do
  let m ← get
  if protocol ∧ name = "std.protocol.ideref.IDeref/deref" ∧ argc = 1 then
    match m.stack.head?.bind VmSlot.runtimeValue with
    | some (.promise address) =>
      match ← onWorld (rt.promiseState address) with
      | .pending => pure (some address)
      | _ => pure none
    | _ => pure none
  else pure none

/-- Applies an intrinsic or a protocol method to the `argc` topmost operands. -/
def execApply (protocol : Bool) (name : String) (argc : ℕ) : Exec H VmSlot :=
  if name = "=" ∧ argc = 2 then execEqual rt
  else do
    let operands ← drain argc
    let values ← operands.mapM (intoValue rt)
    let call := if protocol then CoreCall.protocolIntrinsicCall name
      else CoreCall.applyIntrinsicName name
    VmSlot.ofValue <$> core rt call values

/-- `IntrinsicCall` and `ProtocolCall`. -/
def execIntrinsic (protocol : Bool) (target argc : ℕ) : Exec H (Option ℕ) := do
  let name ← constantStringOr program (.failed (.fault (.intrinsicTarget target))) target
  need .raised argc
  let waiting ← pendingDeref rt protocol name argc
  match waiting with
  | some promise => pure (some promise)
  | none => do
    let result ← execApply rt protocol name argc
    push result
    pure none

/-- `Throw`. -/
def execThrow {α : Type} : Exec H α := do
  let slot ← popOr .raised
  let value ← intoValue rt slot
  let m ← get
  if value.isExceptionInfo then
    let message ← onWorld
      (thrownErrorAt rt.toThrowing value (exceptionSite program function m.ip))
    throw (.raised (.error message))
  else throw (.failed (.error "throw expects an Exception value created by ex"))

/-- `Rethrow`: an exception value is thrown again, a string is the pending message itself. -/
def execRethrow {α : Type} : Exec H α := do
  let slot ← popOr .raised
  let m ← get
  match slot.runtimeValue with
  | some (.string message) => throw (.raised (.error message))
  | some value =>
    if value.isExceptionInfo then
      let message ← onWorld
        (thrownErrorAt rt.toThrowing value (exceptionSite program function m.ip))
      throw (.raised (.error message))
    else throw (.raised (.error "rethrow expects an Exception or pending error value"))
  | none => throw (.raised (.error "rethrow expects a string message"))

/-- `Await`: a pending promise suspends with the operand still on the stack. -/
def execAwait : Exec H (Option ℕ) := do
  let m ← get
  match m.stack with
  | [] => throw (.failed (.fault .stackUnderflow))
  | slot :: rest =>
    match slot.runtimeValue with
    | some (.promise address) =>
      match ← onWorld (rt.promiseState address) with
      | .pending => pure (some address)
      | .fulfilled value =>
        modify fun m ↦ { m with stack := .ofValue value :: rest }
        pure none
      | .rejected error =>
        modify fun m ↦ { m with stack := rest }
        let m ← get
        throw (.raised (.error (error.text rt m.world.heap)))
    | _ => throw (.raised (.error "await expects a promise"))

/-- `HostCall`: service, method and argument vector, none of which may be a closure. -/
def execHostCall : Exec H Unit := do
  need .failed 3
  let operands ← drain 3
  match operands.mapM VmSlot.runtimeValue with
  | none => throw (.failed (.error "Host/call expects values"))
  | some values =>
    let value ← core rt .callHostValue values
    push (.ofValue value)

/-- `DotCall`: the receiver lies below its arguments. -/
def execDotCall (method argc : ℕ) : Exec H Unit := do
  need .failed (argc + 1)
  let name ← constantStringOr program (.failed (.fault .dotMethod)) method
  let operands ← drain (argc + 1)
  let values ← operands.mapM (intoValue rt)
  let value ← core rt (.dotCallValues name) values
  push (.ofValue value)

/-! ## Dispatch -/

/-- Continues at `next` unless the instruction has to wait for a promise. -/
def nextUnless (next : ℕ) : Option ℕ → Dispatch
  | some promise => .suspended promise
  | none => .next next

/-- Executes one instruction of `function`. -/
def dispatch (instruction : Instruction) : Exec H Dispatch := do
  let m ← get
  let next := m.ip + 1
  match instruction with
  | .constant index =>
    match program.constants[index]? with
    | none => throw (.raised (.fault (.constantIndex index)))
    | some value =>
      push (.ofValue value)
      pure (.next next)
  | .nil => do push .nil; pure (.next next)
  | .true => do push (.bool true); pure (.next next)
  | .false => do push (.bool false); pure (.next next)
  | .loadLocal slot =>
    match m.frame.localAt slot with
    | none => throw (.raised (.fault (.localSlot slot)))
    | some value =>
      push value
      pure (.next next)
  | .storeLocal slot => do
    let value ← popOr .raised
    match m.frame.store slot value with
    | none => throw (.raised (.fault (.localSlot slot)))
    | some frame =>
      modify fun m ↦ { m with frame }
      pure (.next next)
  | .pop => do
    let _ ← popOr .raised
    pure (.next next)
  | .dup =>
    match m.stack with
    | [] => throw (.failed (.fault .stackUnderflow))
    | slot :: _ =>
      push slot
      pure (.next next)
  | .intrinsicCall target argc => nextUnless next <$> execIntrinsic rt program false target argc
  | .protocolCall target argc => nextUnless next <$> execIntrinsic rt program true target argc
  | .jump target => pure (.next target)
  | .jumpIfFalse target => do
    let condition ← popOr .raised
    pure (.next (if condition.truthy then next else target))
  | .intrinsicValue target => do
    let name ← constantStringOr program (.failed (.fault (.intrinsicTarget target))) target
    let value ← coreOr rt .failed (.intrinsicCallable name) []
    push (.ofValue value)
    pure (.next next)
  | .builtinValue index => do
    let name ← constantStringOr program (.failed (.fault (.builtinName index))) index
    let value ← coreOr rt .failed (.bytecodeCallableValue name) []
    push (.ofValue value)
    pure (.next next)
  | .namespaceValue index => do
    let name ← constantStringOr program (.failed (.fault (.namespaceName index))) index
    let value ← coreOr rt .failed (.vmResolveNamespaceValue name) []
    push (.ofValue value)
    pure (.next next)
  | .namespaceOperation index =>
    match program.constants[index]? with
    | none => throw (.failed (.fault (.constantIndex index)))
    | some value => do
      let value ← core rt .evalBytecodeManagement [value]
      push (.ofValue value)
      pure (.next next)
  | .dynamicBind index => do
    let name ← constantStringOr program (.failed (.fault (.bindingName index))) index
    let slot ← popOr .failed
    let value ← intoValue rt slot
    let _ ← core rt (.bytecodeDynamicBind name) [value]
    push .nil
    pure (.next next)
  | .dynamicUnbind index => do
    let name ← constantStringOr program (.failed (.fault (.bindingName index))) index
    let _ ← core rt (.bytecodeDynamicUnbind name) []
    push .nil
    pure (.next next)
  | .closure prototype captures => do
    execClosure program prototype captures
    pure (.next next)
  | .call argc => do
    let (callee, args) ← collectCall argc
    pure (.call callee args)
  | .callStatic prototype argc => do
    let direct := program.functions[prototype]?.any fun proto ↦
      proto.captureCount == 0 && !proto.asyncFunction && !proto.variadic
    if direct then
      need .raised argc
      pure (.callStaticDirect prototype argc)
    else
      let (args, captures) ← collectCallStatic program function prototype argc
      pure (.callStatic prototype args captures)
  | .throw => execThrow rt program function
  | .rethrow => execRethrow rt program function
  | .getGlobal index => do
    let value ← execGlobal rt program index .getGlobal
    push (.ofValue value)
    pure (.next next)
  | .defGlobal name metadata => do
    execDefGlobal rt program name metadata
    pure (.next next)
  | .setGlobal index => do
    execSetGlobal rt program index
    pure (.next next)
  | .varGlobal index => do
    let value ← execGlobal rt program index .vmResolveGlobal
    push (.ofValue value)
    pure (.next next)
  | .declareGlobal index => do
    let _ ← execGlobal rt program index .vmDeclareGlobal
    push .nil
    pure (.next next)
  | .mutableFieldGet index => do
    execMutableFieldGet rt program index
    pure (.next next)
  | .mutableFieldSet index => do
    execMutableFieldSet rt program index
    pure (.next next)
  | .instanceOf => do
    execInstanceOf rt
    pure (.next next)
  | .makeMultiArity name count => do
    execMakeMultiArity program name count
    pure (.next next)
  | .buildVector count => do
    execBuild rt count (core rt .vmBuildVector)
    pure (.next next)
  | .buildMap pairs => do
    -- `saturating_mul` on a `u16` count
    execBuild rt (min (pairs * 2) 65535) (core rt .vmBuildMap)
    pure (.next next)
  | .buildSet count => do
    execBuild rt count (core rt .vmBuildSet)
    pure (.next next)
  | .buildList count => do
    execBuild rt count fun values ↦ pure (.list values)
    pure (.next next)
  | .concatList count => do
    execBuild rt count (core rt .vmConcatList)
    pure (.next next)
  | .toVector => do
    let slot ← popOr .raised
    let value ← intoValue rt slot
    let value ← core rt .vmToVector [value]
    push (.ofValue value)
    pure (.next next)
  | .defMacro name metadata => do
    execDefMacro rt program name metadata
    pure (.next next)
  | .await => nextUnless next <$> execAwait rt
  | .yield => do
    let slot ← popOr .failed
    let value ← intoValue rt slot
    pure (.yielded value)
  | .hostCall => do
    execHostCall rt
    pure (.next next)
  | .dotCall method argc => do
    execDotCall rt program method argc
    pure (.next next)
  | .ret => do
    let value ← popOr .failed
    pure (.returned value)

end Hara.Vm
