import Hara.Vm.Dispatch

/-!
# Calls, unwinding and the run loop

The rest of `vm/machine.rs`: entering callables, `raise`, one turn of the `run` loop as a function
on machines, and the resumption of a suspended machine. Runs are iterations of `step`, with
resumptions in between when the machine stopped at an `Await`, a pending `deref` or a `Yield`.
-/

namespace Hara.Vm

variable {H : Type} (rt : Runtime H) (program : Program)

/-! ## Unwinding -/

variable (m : Machine H)

/-- `Vec::truncate` on the operand stack. -/
def Machine.truncate (depth : ℕ) : Machine H :=
  { m with stack := m.stack.drop (m.stack.length - depth) }

/-- Stores a value that an unwind delivers, or reports the fault. -/
def Machine.deliver (slot : ℕ) (value : VmSlot) (fault : Fault) : Except Fault (Machine H) :=
  match m.frame.store slot value with
  | some frame => .ok { m with frame }
  | none => .error fault

/-- The operands above `depth` are dropped and the error is caught. -/
def Machine.unwindTo (depth : ℕ) (message : String) : Machine H :=
  { m.truncate depth with world := (caughtError message m.world).2 }

/-- What one handler entry does with an error raised at the machine's instruction: `none` when
the search goes on. -/
def raiseEntry (message : String) (m : Machine H) (entry : TryEntry) :
    Option (Except Fault (ℕ × Machine H)) :=
  if m.ip < entry.start ∨ entry.stop ≤ m.ip then none
  else
    let depth := m.frame.base + entry.depth
    let caught := VmSlot.ofValue (caughtError message m.world).1
    let unwound := m.unwindTo depth message
    if m.stack.length < depth then some (.error .handlerDepth)
    else
      match entry.catches.find? fun clause ↦ catchMatches message clause.cls m.world with
      | some clause =>
        some ((unwound.deliver clause.binding caught .catchBinding).map (clause.target, ·))
      | none =>
        match entry.finally_ with
        | none => none
        | some target =>
          match entry.pendingValue, entry.pendingError with
          | some valueSlot, some flagSlot =>
            some (((unwound.deliver valueSlot caught .pendingSlot).bind fun m ↦
              m.deliver flagSlot (.bool true) .pendingSlot).map (target, ·))
          | _, _ => some (.error .pendingSlotsMissing)

/-- The machine after its current frame was dropped for `caller`. -/
def Machine.dropFrame (caller : SavedFrame) (rest : List SavedFrame) : Machine H :=
  { m.truncate m.frame.base with
    function := caller.function, frame := caller.frame, ip := caller.callIp, calls := rest }

/-- `Machine::raise`, on the frames in `calls`: the innermost entry covering the failing
instruction first, then outer entries, then the callers. -/
def raiseThrough (trap : Trap) : List SavedFrame → Machine H → Except VmError (ℕ × Machine H)
  | calls, m =>
    match program.functions[m.function]? with
    | none => .error ⟨.fault .panic, m.ip, none⟩
    | some function =>
      match function.handlers.reverse.findSome? (raiseEntry trap.message m) with
      | some (.ok result) => .ok result
      | some (.error fault) =>
        .error ⟨.fault fault, m.ip, function.sourceMap.position m.ip⟩
      | none =>
        match calls with
        | [] => .error ⟨trap, m.ip, function.sourceMap.position m.ip⟩
        | caller :: rest => raiseThrough trap rest (m.dropFrame caller rest)

/-- `Machine::raise`. -/
def raise (trap : Trap) : Except VmError (ℕ × Machine H) :=
  raiseThrough program trap m.calls m

/-! ## Entering callables -/

/-- `Machine::check_arity`. -/
def checkArity (prototype argc : ℕ) : Exec H Unit :=
  match program.functions[prototype]? with
  | none => throw (.failed (.fault .panic))
  | some proto =>
    if (!proto.variadic && argc != proto.arity) || (proto.variadic && argc < proto.arity) then
      let arity := proto.arity
      let expectation := if proto.variadic then s!"at least {arity}" else s!"{arity}"
      throw (.raised (.error s!"function expects {expectation} arguments"))
    else pure ()

/-- Packs the arguments above the fixed parameters of a variadic function into a list; returns the
frame's arity with the arguments. -/
def packArguments (proto : FunctionPrototype) (args : List VmSlot) :
    Exec H (ℕ × List VmSlot) :=
  if proto.variadic then do
    let fixed := min proto.arity args.length
    let rest ← (args.drop fixed).mapM (intoValue rt)
    pure (fixed + 1, args.take fixed ++ [.value (.list rest)])
  else pure (proto.arity, args)

/-- Makes `frame` the current frame of `prototype` and saves the caller. -/
def Machine.pushFrame (prototype : ℕ) (frame : Frame) : Machine H :=
  { m with
    calls := ⟨m.function, m.frame, m.ip⟩ :: m.calls, function := prototype, frame, ip := 0 }

/-- `Machine::enter_prototype`. -/
def enterPrototype (prototype : ℕ) (proto : FunctionPrototype) (args captures : List VmSlot) :
    Exec H Unit := do
  let (arity, args) ← packArguments rt proto args
  modify fun m ↦
    m.pushFrame prototype (Frame.call proto.localCount arity args captures m.stack.length)

/-- `Machine::call_slots`: the machine for a function call. -/
def Machine.callSlots (prototype : ℕ) (proto : FunctionPrototype) (args captures : List VmSlot)
    (world : World H) : Machine H :=
  let m : Machine H :=
    { function := prototype, frame := Frame.entry 0, stack := [], calls := [], vmGlobals := [],
      nextClosureIdentity := 0, nextAllocation := 0, ip := 0, world }
  match packArguments rt proto args m with
  | .ok (arity, args) m' =>
    { m' with frame := Frame.call proto.localCount arity args captures 0 }
  | .error _ m' => m'

/-- The child for an async call, which knows the closures that its parent has handed out. -/
def Machine.child (prototype : ℕ) (proto : FunctionPrototype) (args captures : List VmSlot) :
    Machine H :=
  { Machine.callSlots rt prototype proto args captures m.world with
    vmGlobals := m.vmGlobals, nextClosureIdentity := m.nextClosureIdentity }

/-- `Machine::enter_or_spawn`: an async prototype becomes a child whose promise is the result. -/
def enterOrSpawn (prototype : ℕ) (args captures : List VmSlot) : Exec H Unit :=
  match program.functions[prototype]? with
  | none => throw (.failed (.fault .panic))
  | some proto =>
    if proto.asyncFunction then do
      let child := (← get).child rt prototype proto args captures
      let promise ← onWorld fun _ ↦ rt.spawnAsync child child.world
      push (.value (.promise promise))
      modify fun m ↦ { m with ip := m.ip + 1 }
    else enterPrototype rt prototype proto args captures

/-- `Machine::enter_static_direct`: operands move straight into the parameter slots. -/
def enterStaticDirect (prototype argc : ℕ) : Exec H Unit :=
  match program.functions[prototype]? with
  | none => throw (.failed (.fault .panic))
  | some proto => do
    if proto.localCount < argc then throw (.failed (.fault .panic))
    let args ← drain argc
    modify fun m ↦
      m.pushFrame prototype
        ⟨Frame.fill 0 args (List.replicate proto.localCount .nil), m.stack.length⟩

/-- The first clause accepting `argc` arguments. -/
def selectClause (argc : ℕ) : List VmClosure → Exec H (Option VmClosure)
  | [] => pure none
  | clause :: clauses =>
    match program.functions[clause.prototype]? with
    | none => throw (.failed (.fault .panic))
    | some proto =>
      if (!proto.variadic && proto.arity == argc) || (proto.variadic && proto.arity ≤ argc) then
        pure (some clause)
      else selectClause argc clauses

/-- A function value that came from this machine is called as the closure it stands for. -/
def Machine.recoverCallee : VmSlot → VmSlot
  | .value v => ((v.callableKey.bind fun key ↦ m.vmGlobals.lookup key)).getD (.value v)
  | slot => slot

/-- The site of a call made by the current instruction. -/
def callSite : Option ExceptionSite :=
  program.functions[m.function]?.bind fun function ↦ exceptionSite program function m.ip

/-- `Machine::enter_callable`. -/
def enterCallable (callee : VmSlot) (args : List VmSlot) : Exec H Unit := do
  let m ← get
  match m.recoverCallee callee with
  | .inlineClosure prototype _ => do
    checkArity program prototype args.length
    enterOrSpawn rt program prototype args []
  | .closure _ closure => do
    checkArity program closure.prototype args.length
    enterOrSpawn rt program closure.prototype args closure.captures
  | .multiArity _ name clauses => do
    match ← selectClause program args.length clauses with
    | some closure => enterOrSpawn rt program closure.prototype args closure.captures
    | none =>
      let argc := args.length
      throw (.raised (.error s!"{name} has no arity {argc}"))
  | slot => do
    let callee ← intoValue rt slot
    let values ← args.mapM (intoValue rt)
    let value ← core rt (.callValue (callSite program m)) (callee :: values)
    push (.ofValue value)
    modify fun m ↦ { m with ip := m.ip + 1 }

/-! ## The run loop -/

/-- A machine between two turns of the run loop, or stopped with an outcome. -/
inductive Status (H : Type) where
  | running (m : Machine H)
  | stopped (outcome : VmOutcome) (m : Machine H)

/-- Continues where an unwind landed, or stops with its error. -/
def afterRaise : Except VmError (ℕ × Machine H) → Status H
  | .ok (target, m') => .running { m' with ip := target }
  | .error error => .stopped (.failed error) m

/-- Leaves an instruction through its exit. -/
def leave : Exit → Status H
  | .raised trap => afterRaise m (raise program m trap)
  | .failed trap =>
    let position := program.functions[m.function]?.bind fun f ↦ f.sourceMap.position m.ip
    .stopped (.failed ⟨trap, m.ip, position⟩) m

/-- Runs the part of a turn that follows the dispatch and may fail. -/
def finish (x : Exec H Unit) : Status H :=
  match x m with
  | .ok () m' => .running m'
  | .error exit m' => leave program m' exit

/-- `Dispatch::Returned`: hands the value to the caller, or out of the run. -/
def returnFrom (value : VmSlot) : Status H :=
  match m.calls with
  | caller :: rest =>
    let m := m.dropFrame caller rest
    .running { m with ip := caller.callIp + 1, stack := value :: m.stack }
  | [] =>
    match intoValue rt value (m.truncate m.frame.base) with
    | .ok result m' => .stopped (.returned result) m'
    | .error exit m' => leave program m' exit

/-- Goes on at an instruction. At a back edge the JIT may first run a trace of the loop. -/
def continueAt (ip : ℕ) : Machine H :=
  if ip ≤ m.ip then
    match rt.backedge m.function ip (m.frame.traceLocals.map Prod.fst) m.world with
    | (some values, world) =>
      let writable := m.frame.traceLocals.map Prod.snd
      { m with frame := m.frame.applyTraceLocals values writable, world, ip }
    | (none, world) => { m with world, ip }
  else { m with ip }

/-- Leaves a dispatched instruction: where its unwind lands may be the header of a loop. -/
def leaveDispatch : Exit → Status H
  | .raised trap =>
    match raise program m trap with
    | .ok (target, m') => .running (continueAt rt m' target)
    | .error error => .stopped (.failed error) m
  | .failed trap => leave program m (.failed trap)

/-- One turn of the loop in `Machine::run`. -/
def step : Status H :=
  match program.functions[m.function]? with
  | none => .stopped (.failed ⟨.fault .functionIndex, 0, none⟩) m
  | some function =>
    match function.code[m.ip]? with
    | none =>
      .stopped
        (.failed ⟨.fault .instructionPointer, m.ip, function.sourceMap.position m.ip⟩) m
    | some instruction =>
      match dispatch rt program function instruction m with
      | .error exit m' => leaveDispatch rt program m' exit
      | .ok (.next ip) m' => .running (continueAt rt m' ip)
      | .ok (.call callee args) m' => finish program m' (enterCallable rt program callee args)
      | .ok (.callStatic prototype args captures) m' =>
        finish program m' (enterOrSpawn rt program prototype args captures)
      | .ok (.callStaticDirect prototype argc) m' =>
        finish program m' (enterStaticDirect program prototype argc)
      | .ok (.returned value) m' => returnFrom rt program m' value
      | .ok (.suspended promise) m' => .stopped (.suspended promise) m'
      | .ok (.yielded value) m' => .stopped (.yielded value) m'

/-- `run`, for at most `fuel` turns. -/
def run : ℕ → Machine H → Option (VmOutcome × Machine H)
  | 0, _ => none
  | fuel + 1, m =>
    match step rt program m with
    | .running m' => run fuel m'
    | .stopped outcome m' => some (outcome, m')

/-! ## The initial machine -/

/-- The machine for the program's entry function. -/
def Machine.entry (program : Program) (world : World H) : Machine H where
  function := program.entry
  frame := Frame.entry ((program.functions[program.entry]?.map (·.localCount)).getD 0)
  stack := []
  calls := []
  vmGlobals := []
  nextClosureIdentity := 0
  nextAllocation := 0
  ip := 0
  world

/-! ## Resumption -/

/-- Whether an instruction is a `deref` protocol call. -/
def isDeref : Option Instruction → Bool
  | some (.protocolCall target argc) =>
    argc == 1 && program.constantString target == some "std.protocol.ideref.IDeref/deref"
  | _ => false

/-- Applies a promise state at the suspended instruction: a settled value replaces the awaited
operand, a rejection is raised. -/
def settle (deref : Bool) (m : Machine H) : PromiseState → Status H
  | .pending =>
    match m.stack.head?.bind VmSlot.runtimeValue with
    | some (.promise address) => .stopped (.suspended address) m
    | _ =>
      let what := if deref then "deref" else "await"
      leave program m (.failed (.error s!"{what} expects a promise"))
  | .fulfilled value =>
    .running { m with stack := .ofValue value :: m.stack.tail, ip := m.ip + 1 }
  | .rejected error =>
    let m := { m with stack := m.stack.tail }
    if deref then
      let (message, world) := promiseRejectionError rt m.world error
      leave program { m with world } (.raised (.error message))
    else leave program m (.raised (.error (error.text rt m.world.heap)))

/-- `Machine::resume`, up to its call of `run`. -/
def resume (state : PromiseState) (m : Machine H) : Status H :=
  match program.functions[m.function]? with
  | none => .stopped (.failed ⟨.fault .functionIndex, 0, none⟩) m
  | some function =>
    let deref := isDeref program function.code[m.ip]?
    if !deref && function.code[m.ip]? != some .await then
      leave program m (.failed (.error "VM is not suspended at await or deref"))
    else settle rt program deref m state

/-- `Machine::resume_yield`, up to its call of `run`. -/
def resumeYield (value : Value) (m : Machine H) : Status H :=
  match program.functions[m.function]? with
  | none => .stopped (.failed ⟨.fault .functionIndex, 0, none⟩) m
  | some function =>
    if function.code[m.ip]? != some .yield then
      leave program m (.failed (.error "VM is not suspended at yield"))
    else .running { m with stack := .ofValue value :: m.stack, ip := m.ip + 1 }

/-- One transition of a run: a turn of the loop, or a resumption with whatever arrives, in whatever
world is found then. -/
inductive Turn : Status H → Status H → Prop
  | step (m : Machine H) : Turn (.running m) (step rt program m)
  | resume (promise : ℕ) (m : Machine H) (state : PromiseState) (world : World H) :
    Turn (.stopped (.suspended promise) m) (resume rt program state { m with world })
  | resumeYield (yielded value : Value) (m : Machine H) (world : World H) :
    Turn (.stopped (.yielded yielded) m) (resumeYield program value { m with world })

end Hara.Vm
