import Hara.Lib.AssocMap
import Hara.Task.Promise
import Mathlib.Data.Finset.Basic

/-!
# The raw kernel

The sessions, tasks and host calls of the raw Wasm kernel (`crates/raw/src/lib.rs`), with the
entry points the host calls.

## Guest code

The evaluator is a parameter (`Guest`). A *turn* is what it does between two points where the kernel
gets control back: it starts or resumes a fiber, makes host calls, settles promises and ends with
the fiber suspended, completed or failed. All guest data of all sessions is one value `world`, so
nothing is assumed about what guest code of one session can do to the data of another.

Promises carry the subscribers the kernel registered at them. The continuations that guest code
registered are part of the guest: `Guest.settled` answers which promises they settle in turn.

## Conventions

Frames are kept as the events they encode; `Wire` says which events `hta::encode` and `hta::decode`
accept. `drain_ready` walks a hash map, whose order is an argument of the operations, and its loop
need not end when guest code suspends again and again, so it takes a bound. Fibers of the
interpreter and of the bytecode machine are kept in one map. Task and call numbers are unbounded.

Filesystem mounts and the requests that are answered at once (completion, session lists, resources)
are `Request.immediate`.

The fields `started`, `delivered`, `announced`, `turns`, `dropped`, `serial` and `nextSerial` are
not in the source: they record what happened, and tell sessions apart that had the same name.
-/

namespace Hara.Raw

open Lib Hara.Task

/-! ## Values, events and guest code -/

/-- A promise: one made for a host call, or one of the guest's own. -/
inductive Promise
  | host (n : ℕ)
  | guest (n : ℕ)
deriving DecidableEq, Repr

/-- How a task ends. -/
inductive Outcome (V : Type)
  | success (value : V)
  | failure (value : V)
deriving DecidableEq, Repr

/-- A frame for the host. -/
inductive Event (V : Type)
  | terminal (task : ℕ) (outcome : Outcome V)
  | hostCall (call task : ℕ) (session service method : String) (arguments : List V)
deriving DecidableEq, Repr

/-- The codec, as far as the kernel can see it. -/
structure Wire (V : Type) where
  /-- The error of `hta::encode`, if there is one. -/
  encodeError : Event V → Option String
  /-- `hta::decode` accepts the frame. -/
  legible : Event V → Bool
  errorValue : (code message : String) → V
  /-- The value of `PromiseRejection::cancelled`. -/
  cancelled : V
  /-- Maps of keywords and strings can be encoded. -/
  encodeError_errorValue : ∀ task code message,
    encodeError (.terminal task (.failure (errorValue code message))) = none

inductive Engine
  | interpreter
  | vm
deriving DecidableEq, Repr

inductive EvaluationRequest (V : Type)
  | source (source : String) (bindings : List V)
  | halc (modules : List (List UInt8))
  | vm (source : String)
  | preparedVm (program : ℕ)

def EvaluationRequest.engine {V : Type} : EvaluationRequest V → Engine
  | .source .. | .halc _ => .interpreter
  | .vm _ | .preparedVm _ => .vm

/-- A call of the host handler. -/
structure HostCall (V : Type) where
  service : String
  method : String
  arguments : List V

/-- The state of a fiber at the end of a turn. -/
inductive Ending (F V : Type)
  | suspended (fiber : F) (promise : Promise)
  | promised (promise : Promise)
  | completed (value : V)
  | failed (error : String)
  | cancelled
  | yielded
  | running

/-- Promises that get settled, in order. -/
abbrev Settlements (V : Type) := List (Promise × PromiseState V)

structure Turn (F V : Type) where
  calls : List (HostCall V)
  settles : Settlements V
  ending : Ending F V

/-- The evaluator. Sessions are named by their serial numbers; `next` is the number of the promise
the host handler makes for the first call of the turn. -/
structure Guest (W F V : Type) where
  /-- A session is created, as a sandbox or not. -/
  opened : (world : W) → (serial : ℕ) → (sandbox : Bool) → W
  start : (world : W) → (serial next : ℕ) → EvaluationRequest V → Except String (Turn F V) × W
  resume : (world : W) → (serial next : ℕ) → F → PromiseState V → Turn F V × W
  /-- `cancel` of a fiber. -/
  cancelFiber : (world : W) → F → Settlements V × W
  /-- `notify_cancel` of a promise. -/
  notifyCancel : (world : W) → Promise → Settlements V × W
  /-- The continuations that run when the promise is settled. -/
  settled : (world : W) → Promise → PromiseState V → Settlements V × W
  /-- `vm_programs.contains_key`. -/
  hasProgram : (world : W) → (serial program : ℕ) → Bool
  /-- Something other than the closed session still holds the promise. -/
  outlives : (world : W) → Promise → Bool

/-! ## Sessions -/

/-- What the kernel registers at a promise with `on_settle`. -/
inductive Subscriber
  /-- Puts the task on the `ready` queue of the session. -/
  | resume (name : String) (serial task : ℕ)
  /-- Emits the end of the task. -/
  | emit (task : ℕ)
deriving DecidableEq, Repr

structure Session (F V : Type) where
  serial : ℕ
  nextCall : ℕ
  ready : List (ℕ × PromiseState V)
  calls : AssocMap ℕ (ℕ × Promise)
  fibers : AssocMap ℕ (Engine × F)
  tasks : AssocMap ℕ Promise
  activeEvaluation : Option ℕ
  evaluationQueue : List (ℕ × EvaluationRequest V)
  allowHostCalls : Bool
  started : List ℕ

/-- `Session::shared` and `Session::sandbox`. -/
def Session.new {F V : Type} (serial : ℕ) (allowHostCalls : Bool) : Session F V where
  serial := serial
  nextCall := 1
  ready := []
  calls := ∅
  fibers := ∅
  tasks := ∅
  activeEvaluation := none
  evaluationQueue := []
  allowHostCalls := allowHostCalls
  started := []

/-- A host call that was announced to the host. -/
structure Announcement where
  call : ℕ
  serial : ℕ
  task : ℕ
  promise : Promise
deriving DecidableEq, Repr

structure Kernel (W F V : Type) where
  nextTask : ℕ
  events : List (Event V)
  sessions : AssocMap String (Session F V)
  taskSessions : AssocMap ℕ String
  sandboxSessions : Finset String
  world : W
  nextPromise : ℕ
  settled : AssocMap Promise (PromiseState V)
  subscribers : List (Promise × Subscriber)
  nextSerial : ℕ
  delivered : List (Event V)
  announced : List Announcement
  /-- The turns of guest code: the session, and the host calls the turn made. -/
  turns : List (ℕ × List (HostCall V))
  dropped : List ℕ

namespace Kernel

variable {W F V : Type}

/-- `SessionKernel::new`. -/
def new (world : W) : Kernel W F V where
  nextTask := 1
  events := []
  sessions := (∅ : AssocMap String (Session F V)).insert "ROOT" (Session.new 0 true)
  taskSessions := ∅
  sandboxSessions := ∅
  world := world
  nextPromise := 0
  settled := ∅
  subscribers := []
  nextSerial := 1
  delivered := []
  announced := []
  turns := []
  dropped := []

/-- The kernel with an open session changed. -/
def modifySession (k : Kernel W F V) (name : String) (f : Session F V → Session F V) :
    Kernel W F V :=
  match k.sessions.lookup name with
  | none => k
  | some session => { k with sessions := k.sessions.insert name (f session) }

variable (wire : Wire V) (guest : Guest W F V)

/-! ## Events and promises -/

variable (k : Kernel W F V) (name : String) (task : ℕ)

/-- `enqueue_event`, with an error in place of a value that cannot be encoded. -/
def enqueueEvent (outcome : Outcome V) : Kernel W F V :=
  match wire.encodeError (.terminal task outcome) with
  | none => { k with events := k.events ++ [.terminal task outcome] }
  | some error =>
    let fallback : Event V :=
      .terminal task (.failure (wire.errorValue "hta/value-unsupported" error))
    match wire.encodeError fallback with
    | none => { k with events := k.events ++ [fallback] }
    | some _ => k

def emitSettlement : PromiseState V → Kernel W F V
  | .pending => k
  | .fulfilled value => k.enqueueEvent wire task (.success value)
  | .rejected (.value value) | .rejected (.cancelled value) =>
    k.enqueueEvent wire task (.failure value)
  | .rejected (.message message) =>
    k.enqueueEvent wire task (.failure (wire.errorValue "promise/rejected" message))

def isPending : PromiseState V → Bool
  | .pending => true
  | _ => false

/-- A subscriber runs. -/
def notify (state : PromiseState V) : Subscriber → Kernel W F V
  | .resume name serial task =>
    k.modifySession name fun session ↦
      if session.serial = serial then { session with ready := session.ready ++ [(task, state)] }
      else session
  | .emit task => k.emitSettlement wire task state

/-- `Promise::on_settle`. -/
def onSettle (promise : Promise) (subscriber : Subscriber) : Kernel W F V :=
  match k.settled.lookup promise with
  | some state => k.notify wire state subscriber
  | none => { k with subscribers := k.subscribers ++ [(promise, subscriber)] }

/-- `Promise::settle`, up to the continuations of the guest. -/
def settle (promise : Promise) (state : PromiseState V) : Kernel W F V :=
  if isPending state ∨ promise ∈ k.settled then k
  else
    ((k.subscribers.filter (·.1 = promise)).map (·.2)).foldl (fun k ↦ k.notify wire state)
      { k with
        settled := k.settled.insert promise state
        subscribers := k.subscribers.filter (·.1 ≠ promise) }

def settleAll (settlements : Settlements V) : Kernel W F V :=
  settlements.foldl (fun k settlement ↦ k.settle wire settlement.1 settlement.2) k

/-- The kernel settles a promise, and the guest's continuations run. -/
def settleNow (promise : Promise) (state : PromiseState V) : Kernel W F V :=
  match k.settled.lookup promise with
  | some _ => k
  | none =>
    let (settlements, world) := guest.settled k.world promise state
    { k.settle wire promise state with world }.settleAll wire settlements

/-! ## Turns -/

/-- One call that the host handler took in: it is announced, or its promise is rejected. -/
def announce (k : Kernel W F V) (pending : ℕ × Promise × HostCall V) : Kernel W F V :=
  let (call, promise, request) := pending
  let event : Event V :=
    .hostCall call task name request.service request.method request.arguments
  match k.sessions.lookup name with
  | none => k
  | some session =>
    match wire.encodeError event with
    | none =>
      { k with
        sessions := k.sessions.insert name
          { session with calls := session.calls.insert call (task, promise) }
        events := k.events ++ [event]
        announced := k.announced ++ [⟨call, session.serial, task, promise⟩] }
    | some error =>
      k.settleNow wire guest promise (.rejected (.message ("hta/value-unsupported: " ++ error)))

/-- The calls the host handler took in, with their numbers and promises. -/
def pendingCalls (session : Session F V) (calls : List (HostCall V)) :
    List (ℕ × Promise × HostCall V) :=
  calls.zipIdx.map fun call ↦
    (session.nextCall + call.2, .host (k.nextPromise + call.2), call.1)

def collectCalls (calls : List (HostCall V)) : Kernel W F V :=
  match k.sessions.lookup name with
  | none => k
  | some session =>
    -- the handler of a sandbox denies every call
    let taken := if session.allowHostCalls then calls else []
    let pending := k.pendingCalls session taken
    pending.foldl (announce wire guest name task)
      { k with
        sessions := k.sessions.insert name
          { session with nextCall := session.nextCall + taken.length }
        nextPromise := k.nextPromise + taken.length
        turns := k.turns ++ [(session.serial, calls)] }

/-- `finish_evaluation`; `next` is `start_next_evaluation`. -/
def finishEvaluation (next : Kernel W F V → Kernel W F V) (k : Kernel W F V) (name : String)
    (task : ℕ) : Kernel W F V :=
  match k.sessions.lookup name with
  | none => k
  | some session =>
    if session.activeEvaluation = some task then
      next { k with sessions := k.sessions.insert name { session with activeEvaluation := none } }
    else k

/-- The outcome of a fiber that fails. -/
def failureOf (message : String) : Engine → Outcome V
  | .interpreter => .failure (wire.errorValue "eval/error" message)
  | .vm => .failure (wire.errorValue "vm/error" message)

/-- The outcome of a fiber that comes back while it runs. -/
def escapeOf : Engine → Outcome V
  | .interpreter => .failure (wire.errorValue "fiber/invalid-state" "running fiber escaped")
  | .vm => .failure (wire.errorValue "vm/invalid-state" "running VM fiber escaped")

/-- `drive` and `drive_vm`. -/
def drive (next : Kernel W F V → Kernel W F V) (k : Kernel W F V) (name : String) (task : ℕ)
    (engine : Engine) : Ending F V → Kernel W F V
  | .suspended fiber promise =>
    match k.sessions.lookup name with
    | none => k
    | some session =>
      (k.onSettle wire promise (.resume name session.serial task)).modifySession name
        fun session ↦ { session with fibers := session.fibers.insert task (engine, fiber) }
  | .promised promise =>
    ((k.onSettle wire promise (.emit task)).modifySession name fun session ↦
      { session with tasks := session.tasks.insert task promise }).finishEvaluation next name task
  | .completed value => (k.enqueueEvent wire task (.success value)).finishEvaluation next name task
  | .failed error =>
    (k.enqueueEvent wire task (failureOf wire error engine)).finishEvaluation next name task
  | .cancelled =>
    (k.enqueueEvent wire task (.failure wire.cancelled)).finishEvaluation next name task
  | .yielded =>
    (k.enqueueEvent wire task (.failure (wire.errorValue "vm/invalid-state"
      "VM fiber yielded outside of a coroutine driver"))).finishEvaluation next name task
  | .running => (k.enqueueEvent wire task (escapeOf wire engine)).finishEvaluation next name task

/-- What follows a turn: its settlements, its host calls, and the end of the fiber. -/
def endTurn (next : Kernel W F V → Kernel W F V) (k : Kernel W F V) (name : String) (task : ℕ)
    (engine : Engine) (turn : Turn F V) : Kernel W F V :=
  ((k.settleAll wire turn.settles).collectCalls wire guest name task turn.calls).drive wire next
    name task engine turn.ending

/-- The loop of `start_next_evaluation`; every round takes one request from the queue, so the length
of the queue bounds the number of rounds. -/
def startLoop (name : String) : ℕ → Kernel W F V → Kernel W F V
  | 0, k => k
  | rounds + 1, k =>
    match k.sessions.lookup name with
    | none => k
    | some session =>
      match session.activeEvaluation, session.evaluationQueue with
      | some _, _ => k
      | none, [] => k
      | none, (task, request) :: queue =>
        let (result, world) := guest.start k.world session.serial k.nextPromise request
        let k : Kernel W F V := { k with
          sessions := k.sessions.insert name
            { session with
              evaluationQueue := queue
              activeEvaluation := some task
              started := session.started ++ [task] }
          world := world }
        match result with
        | .error error =>
          let k := k.enqueueEvent wire task (.failure (wire.errorValue "eval/error" error))
          startLoop name rounds
            (k.modifySession name fun session ↦ { session with activeEvaluation := none })
        | .ok turn =>
          startLoop name rounds
            (k.endTurn wire guest (startLoop name rounds) name task request.engine turn)

def startNextEvaluation : Kernel W F V :=
  match k.sessions.lookup name with
  | none => k
  | some session => k.startLoop wire guest name session.evaluationQueue.length

/-- `resume_fiber` and `resume_vm_fiber`. -/
def resumeFiber (state : PromiseState V) : Kernel W F V :=
  match k.sessions.lookup name with
  | none => k
  | some session =>
    match session.fibers.lookup task with
    | none => k
    | some (engine, fiber) =>
      let (turn, world) := guest.resume k.world session.serial k.nextPromise fiber state
      endTurn wire guest (fun k ↦ k.startNextEvaluation wire guest name)
        { k with
          sessions := k.sessions.insert name { session with fibers := session.fibers.erase task }
          world := world }
        name task engine turn

/-- The loop of `Session::drain_ready`. -/
def drainSession (name : String) : ℕ → Kernel W F V → Kernel W F V
  | 0, k => k
  | rounds + 1, k =>
    match k.sessions.lookup name with
    | none => k
    | some session =>
      match session.ready with
      | [] => k
      | (task, state) :: ready =>
        drainSession name rounds
          (resumeFiber wire guest
            { k with sessions := k.sessions.insert name { session with ready } } name task state)

/-- How `drain_ready` goes: the order of the sessions, and how many tasks it resumes in each. -/
structure Walk where
  order : List String
  rounds : ℕ

def drainReady (walk : Walk) : Kernel W F V :=
  walk.order.foldl (fun k name ↦ k.drainSession wire guest name walk.rounds) k

/-! ## Requests -/

/-- `validate_session_name`. -/
def validateSessionName : Except String Unit :=
  if name.toList ≠ [] ∧ name.toList.all fun c ↦ c.isAlphanum || c ∈ ['_', '.', '-'] then .ok ()
  else .error "INVALID_SESSION_NAME"

/-- A request of the host, decoded. -/
inductive Request (W V : Type)
  /-- A frame that is not a request, or arguments its target does not take. -/
  | malformed (error : String)
  /-- The targets that evaluate source text, modules or bytecode in a session. -/
  | evaluate (session : String) (request : EvaluationRequest V)
  | invokeVm (session : String) (program : ℕ)
  | sandboxEval (source : String)
  | createSession (name : String)
  | closeSession (name : String)
  /-- The targets that are answered at once. -/
  | immediate (perform : W → Settlements V × Except String V × W)

/-- The name of the sandbox of a task. -/
def sandboxName : String := "__hta_sandbox_" ++ toString task

def maxSandboxSourceBytes : ℕ := 1048576

/-- The task is entered for the session, and its request is put on the queue. -/
def enqueueEvaluation (name : String) (request : EvaluationRequest V) : Kernel W F V :=
  startNextEvaluation wire guest
    (modifySession { k with taskSessions := k.taskSessions.insert task name } name fun session ↦
      { session with evaluationQueue := session.evaluationQueue ++ [(task, request)] }) name

/-- `validate_session_name` and `session` of the source. -/
def checkSession : Except String Unit := do
  validateSessionName name
  if name ∈ k.sessions then .ok () else .error ("NO_SESSION " ++ name)

def openSession (sandbox : Bool) : Kernel W F V :=
  { k with
    sessions := k.sessions.insert name (Session.new k.nextSerial !sandbox)
    nextSerial := k.nextSerial + 1
    world := guest.opened k.world k.nextSerial sandbox }

/-- The tasks that are entered for a session. -/
def ownedTasks : List ℕ :=
  (k.taskSessions.entries.filter (·.2 = name)).map (·.1)

/-- The subscriptions that are left when a session is closed: its promises are gone with it, unless
something else holds them. -/
def survivingSubscribers (owned : List ℕ) : List (Promise × Subscriber) :=
  k.subscribers.filter fun entry ↦
    match entry.2 with
    | .emit task => task ∉ owned ∨ guest.outlives k.world entry.1
    | .resume .. => true

def closeSession : Except String (Kernel W F V) := do
  validateSessionName name
  if name = "ROOT" then .error "ROOT_CANNOT_CLOSE"
  else if name ∉ k.sessions then .error ("NO_SESSION " ++ name)
  else
    let owned := k.ownedTasks name
    let closed := owned.foldl (fun k task ↦
      enqueueEvent wire { k with taskSessions := k.taskSessions.erase task } task
        (.failure (wire.errorValue "session/closed" ("session closed: " ++ name)))) k
    .ok { closed with
      sessions := closed.sessions.erase name
      subscribers := k.survivingSubscribers guest owned
      sandboxSessions := closed.sandboxSessions.erase name }

def createSession : Except String (Kernel W F V) := do
  validateSessionName name
  if name ∈ k.sessions then .error ("SESSION_EXISTS " ++ name)
  else .ok (k.openSession guest name false)

def dispatchSandboxEval (source : String) : Except String (Kernel W F V) :=
  if source.isEmpty then .error "sandbox/eval requires non-empty source"
  else if source.utf8ByteSize > maxSandboxSourceBytes then
    .error "sandbox/source-limit: source exceeds 1048576 bytes"
  else if sandboxName task ∈ k.sessions then
    .error ("sandbox/task-exists: " ++ toString task)
  else
    let k := k.openSession guest (sandboxName task) true
    .ok (enqueueEvaluation wire guest
      { k with sandboxSessions := insert (sandboxName task) k.sandboxSessions }
      task (sandboxName task) (.source source []))

/-- `dispatch`: the kernel afterwards, and the error if the request fails. -/
def dispatch (string : String → V) (yes : V) : Request W V → Kernel W F V × Except String Unit
  | .malformed error => (k, .error error)
  | .evaluate name request =>
    match k.checkSession name with
    | .error error => (k, .error error)
    | .ok () => (k.enqueueEvaluation wire guest task name request, .ok ())
  | .invokeVm name program =>
    match k.checkSession name, k.sessions.lookup name with
    | .ok (), some session =>
      -- the task is entered before the program is looked up
      if guest.hasProgram k.world session.serial program then
        (k.enqueueEvaluation wire guest task name (.preparedVm program), .ok ())
      else
        ({ k with taskSessions := k.taskSessions.insert task name },
          .error ("vm/program-missing: " ++ toString program))
    | .error error, _ => (k, .error error)
    | .ok (), none => (k, .ok ())
  | .sandboxEval source =>
    match k.dispatchSandboxEval wire guest task source with
    | .error error => (k, .error error)
    | .ok k => (k, .ok ())
  | .createSession name =>
    match k.createSession guest name with
    | .error error => (k, .error error)
    | .ok k => (k.enqueueEvent wire task (.success (string name)), .ok ())
  | .closeSession name =>
    match k.closeSession wire guest name with
    | .error error => (k, .error error)
    | .ok k => (k.enqueueEvent wire task (.success yes), .ok ())
  | .immediate perform =>
    let (settlements, result, world) := perform k.world
    let k := { k with world }.settleAll wire settlements
    match result with
    | .error error => (k, .error error)
    | .ok value => (k.enqueueEvent wire task (.success value), .ok ())

/-! ## Entry points -/

def htaStart (string : String → V) (yes : V) (walk : Walk) (request : Request W V) :
    Kernel W F V × ℕ :=
  let task := k.nextTask
  let (k, result) := dispatch wire guest { k with nextTask := task + 1 } task string yes request
  let k := match result with
    | .error error => k.enqueueEvent wire task (.failure (wire.errorValue "eval/error" error))
    | .ok () => k
  (k.drainReady wire guest walk, task)

/-- `terminal_task`. -/
def terminalTask : Event V → Option ℕ
  | .terminal task outcome => if wire.legible (.terminal task outcome) then some task else none
  | .hostCall .. => none

def cleanupTask : Kernel W F V :=
  match k.taskSessions.lookup task with
  | none => k
  | some name =>
    let k := { k with taskSessions := k.taskSessions.erase task }
    if name ∈ k.sandboxSessions then
      { k with
        sandboxSessions := k.sandboxSessions.erase name
        sessions := k.sessions.erase name }
    else k

def htaNextEvent (walk : Walk) : Kernel W F V × Option (Event V) :=
  let k := k.drainReady wire guest walk
  match k.events with
  | [] => (k, none)
  | event :: events =>
    let k := { k with events := events, delivered := k.delivered ++ [event] }
    match terminalTask wire event with
    | some task => (k.cleanupTask task, some event)
    | none => (k, some event)

def htaPoll (walk : Walk) : Kernel W F V × ℕ :=
  let k := k.drainReady wire guest walk
  (k, k.events.length)

/-- The session whose table has the call, in the order of the hash map, with the entry. -/
def routeCall (order : List String) (call : ℕ) : Option (String × ℕ × Promise) :=
  order.findSome? fun name ↦ do
    let session ← k.sessions.lookup name
    let entry ← session.calls.lookup call
    return (name, entry.1, entry.2)

/-- `hta_deliver` of a frame that holds a call number and the state for its promise. -/
def htaDeliver (order : List String) (walk : Walk) (call : ℕ) (state : PromiseState V) :
    Kernel W F V × ℕ :=
  match k.routeCall order call with
  | none => (k, 2)
  | some (name, _, promise) =>
    let k := k.modifySession name fun session ↦
      { session with calls := session.calls.erase call }
    ((k.settleNow wire guest promise state).drainReady wire guest walk, 0)

/-- `Promise::cancel`. -/
def cancelPromise (promise : Promise) : Kernel W F V :=
  match k.settled.lookup promise with
  | some _ => k
  | none =>
    let (settlements, world) := guest.notifyCancel k.world promise
    ({ k with world }.settleAll wire settlements).settleNow wire guest promise
      (.rejected (.cancelled wire.cancelled))

def htaCancel : Kernel W F V × ℕ :=
  match k.taskSessions.lookup task with
  | none => (k, 1)
  | some name =>
    match k.sessions.lookup name with
    | none => (k, 1)
    | some session =>
      if task ∈ session.evaluationQueue.map (·.1) then
        let queue := session.evaluationQueue.eraseP (·.1 = task)
        (enqueueEvent wire
          { k with sessions := k.sessions.insert name { session with evaluationQueue := queue } }
          task (.failure wire.cancelled), 0)
      else
        let session := { session with
          calls := AssocMap.retain session.calls fun _ entry ↦ entry.1 ≠ task }
        match session.fibers.lookup task with
        | some (_, fiber) =>
          let (settlements, world) := guest.cancelFiber k.world fiber
          let k := settleAll wire
            { k with
              sessions := k.sessions.insert name
                { session with fibers := session.fibers.erase task }
              world := world } settlements
          ((k.enqueueEvent wire task (.failure wire.cancelled)).finishEvaluation
            (fun k ↦ k.startNextEvaluation wire guest name) name task, 0)
        | none =>
          match session.tasks.lookup task with
          | some promise =>
            (cancelPromise wire guest
              { k with
                sessions := k.sessions.insert name
                  { session with tasks := session.tasks.erase task } } promise, 0)
          | none => ({ k with sessions := k.sessions.insert name session }, 1)

/-- The fiber of the task is removed and cancelled, if there is one. -/
def dropFiber (session : Session F V) (task : ℕ) : Kernel W F V :=
  match session.fibers.lookup task with
  | none => k
  | some (_, fiber) =>
    let (settlements, world) := guest.cancelFiber k.world fiber
    settleAll wire
      { k with
        sessions := k.sessions.insert name { session with fibers := session.fibers.erase task }
        world := world } settlements

def htaDropTask : Kernel W F V :=
  let k := { k with dropped := k.dropped ++ [task] }
  match k.taskSessions.lookup task with
  | none => k
  | some name =>
    let sandbox := name ∈ k.sandboxSessions
    let k := { k with
      taskSessions := k.taskSessions.erase task
      sandboxSessions := k.sandboxSessions.erase name }
    let k := match k.sessions.lookup name with
      | none => k
      | some session =>
        ((k.dropFiber wire guest name session task).modifySession name fun session ↦
          { session with
            tasks := session.tasks.erase task
            calls := AssocMap.retain session.calls fun _ entry ↦ entry.1 ≠ task
            evaluationQueue := session.evaluationQueue.filter (·.1 ≠ task) }).finishEvaluation
              (fun k ↦ k.startNextEvaluation wire guest name) name task
    if sandbox then { k with sessions := k.sessions.erase name } else k

end Kernel

/-! ## Runs -/

/-- A call of the host. -/
inductive Operation (W V : Type)
  | start (walk : Kernel.Walk) (request : Kernel.Request W V)
  | nextEvent (walk : Kernel.Walk)
  | poll (walk : Kernel.Walk)
  | deliver (order : List String) (walk : Kernel.Walk) (call : ℕ) (state : PromiseState V)
  | cancel (task : ℕ)
  | dropTask (task : ℕ)

/-- Everything around the kernel: the codec, the evaluator, and the values of two answers. -/
structure Setting (W F V : Type) where
  wire : Wire V
  guest : Guest W F V
  /-- `Value::String` and `Value::Bool(true)`. -/
  string : String → V
  yes : V

namespace Kernel

variable {W F V : Type}

/-- The kernel after one call of the host. -/
def step (setting : Setting W F V) (k : Kernel W F V) : Operation W V → Kernel W F V
  | .start walk request =>
    (k.htaStart setting.wire setting.guest setting.string setting.yes walk request).1
  | .nextEvent walk => (k.htaNextEvent setting.wire setting.guest walk).1
  | .poll walk => (k.htaPoll setting.wire setting.guest walk).1
  | .deliver order walk call state =>
    (k.htaDeliver setting.wire setting.guest order walk call state).1
  | .cancel task => (k.htaCancel setting.wire setting.guest task).1
  | .dropTask task => k.htaDropTask setting.wire setting.guest task

/-- The kernel after a sequence of calls. -/
def run (setting : Setting W F V) (k : Kernel W F V) (operations : List (Operation W V)) :
    Kernel W F V :=
  operations.foldl (step setting) k

end Kernel

end Hara.Raw
