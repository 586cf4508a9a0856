import Hara.Lib.Delivery

/-!
# Promises

The promises of `task/promise.rs`. Continuations, pollers, cancel hooks and deferred tasks are
host closures that may call any method of any promise while they run, so a method is not a function
on the store: it may be interrupted by host code at every point where the source calls a closure.
Host code is a tree of calls (`Code`), a method in progress is a frame of the stack, and one
`Machine.step` takes the machine from one such point to the next.

The continuation queue and the flag that it is being drained are thread-local variables of the
source, shared by all promises.
-/

namespace Hara.Task

variable {C V : Type}

/-- `PromiseRejection` of the source. -/
inductive PromiseRejection (V : Type) where
  | message (text : String)
  | value (v : V)
  | cancelled (v : V)
  deriving DecidableEq, Repr

/-- `PromiseState` of the source. -/
inductive PromiseState (V : Type) where
  | pending
  | fulfilled (v : V)
  | rejected (error : PromiseRejection V)
  deriving DecidableEq, Repr

/-- What a deferred task returns: `Result<Value, String>`, with a promise apart from the other
values. -/
inductive TaskResult (V : Type) where
  | ok (v : V)
  | promise (p : ℕ)
  | err (text : String)

/-- What a closure or a method returns. -/
inductive Answer (V : Type) where
  | unit
  | flag (b : Bool)
  | promise (p : ℕ)
  | state (st : PromiseState V)
  | task (result : TaskResult V)

/-- The calls host code can make. Closures are named by `C`. -/
inductive Call (C V : Type) where
  | new
  | state (p : ℕ)
  | resolve (p : ℕ) (v : V)
  | rejectRejection (p : ℕ) (error : PromiseRejection V)
  | onSettle (p : ℕ) (continuation : C)
  | adopt (p other : ℕ)
  | setPoller (p : ℕ) (poller : C)
  | setCancelHook (p : ℕ) (cancel : C)
  | schedule (p delay : ℕ) (task : C)
  | cancel (p : ℕ)

/-- Host code: it returns, or calls a method and goes on with the answer. -/
inductive Code (C V : Type) where
  | done (a : Answer V)
  | call (c : Call C V) (next : Answer V → Code C V)

/-- The closures, the clock, and the value of a cancellation. -/
structure Host (C V : Type) where
  continuation : C → PromiseState V → Code C V
  closure : C → Code C V
  /-- The instant of the `n`-th reading of the clock. -/
  now : ℕ → ℕ
  /-- The map that `PromiseRejection::cancelled` builds. -/
  cancelled : V

/-- A continuation: a host closure, or the one `adopt` registers at its source. -/
inductive Continuation (C : Type) where
  | host (c : C)
  | adopter (destination : ℕ)
  deriving DecidableEq, Repr

/-- A poller: a host closure, or the one `adopt` sets. -/
inductive Poller (C : Type) where
  | host (c : C)
  | source (other : ℕ)

/-- A registered continuation, numbered in the order of registration. The number is not in the
source: it tells two registrations of one closure apart. -/
structure Entry (C : Type) where
  stamp : ℕ
  continuation : Continuation C
  deriving DecidableEq, Repr

/-- A continuation of a promise with the state it is to receive. -/
abbrev ContinuationJob (C V : Type) := Delivery.Job ℕ (Entry C) (PromiseState V)

/-- `PromiseInner` of the source. -/
structure PromiseInner (C V : Type) where
  state : PromiseState V
  continuations : List (Entry C)
  deferred : Option (ℕ × C)
  poller : Option (Poller C)
  cancel : Option C
  adoptedFrom : Option ℕ

/-- `Promise::new`. -/
def PromiseInner.new : PromiseInner C V := ⟨.pending, [], none, none, none, none⟩

/-- A method in progress, at the point where it waits for a closure or another method. -/
inductive Frame (C V : Type) where
  /-- Host code waits for a method. -/
  | code (next : Answer V → Code C V)
  /-- `state` waits for the poller. -/
  | state (p : ℕ)
  /-- `state` waits for the deferred task, before the poller. -/
  | poller (p : ℕ)
  /-- `run_deferred_if_ready` waits for its task. -/
  | deferred (p : ℕ)
  /-- `on_settle` waits for `state`. -/
  | onSettle (p : ℕ) (k : Continuation C)
  /-- `adopt` waits for the state of the other promise. -/
  | adoptOther (p other : ℕ)
  /-- `adopt` waits for the state of the promise itself. -/
  | adoptSelf (p other : ℕ)
  /-- `adopt` waits for `on_settle`. -/
  | adopted
  /-- `cancel` waits for the cancel hook. -/
  | cancel (p : ℕ) (adoptedFrom : Option ℕ)
  /-- The loop of `settle` over the continuations that are left. -/
  | settle (p : ℕ) (continuations : List (Entry C)) (next : PromiseState V)
  /-- The loop of `enqueue_continuation`. -/
  | drain

/-- What happens next. -/
inductive Control (C V : Type) where
  | code (c : Code C V)
  | answer (a : Answer V)
  /-- The calls that `state` makes before it reads the state. -/
  | poll (p : ℕ)

/-- The store, the thread-local queue and flag, and the methods in progress. A number that `new`
has not handed out yet names a promise that nobody holds. `registered` and `ran` are not in the
source: they record the continuations as they are registered and as they are run. -/
structure Machine (C V : Type) where
  store : ℕ → PromiseInner C V
  size : ℕ
  readings : ℕ
  queue : List (ContinuationJob C V)
  draining : Bool
  control : Control C V
  stack : List (Frame C V)
  registered : List (ℕ × Entry C)
  ran : List (ContinuationJob C V)

namespace Machine

def push (f : Frame C V) (m : Machine C V) : Machine C V := { m with stack := f :: m.stack }

def goto (c : Control C V) (m : Machine C V) : Machine C V := { m with control := c }

def modify (p : ℕ) (f : PromiseInner C V → PromiseInner C V) (m : Machine C V) : Machine C V :=
  { m with store := Function.update m.store p (f (m.store p)) }

/-- The thread starts with host code and no promise. -/
def start (main : Code C V) : Machine C V where
  store _ := .new
  size := 0
  readings := 0
  queue := []
  draining := false
  control := .code main
  stack := []
  registered := []
  ran := []

/-! ## The queue -/

/-- `enqueue_continuation`: whoever finds the queue idle drains it. -/
def enqueueContinuation (job : ContinuationJob C V) (m : Machine C V) : Machine C V :=
  let m := { m with queue := m.queue ++ [job] }
  if m.draining then m.goto (.answer .unit)
  else ({ m with draining := true }.push .drain).goto (.answer .unit)

/-- `settle`. The continuations leave the promise before the first of them is enqueued. -/
def settle (p : ℕ) (next : PromiseState V) (m : Machine C V) : Machine C V :=
  match (m.store p).state with
  | .pending =>
    ((m.modify p fun _ ↦ { (.new : PromiseInner C V) with state := next }).push
      (.settle p (m.store p).continuations next)).goto (.answer .unit)
  | _ => m.goto (.answer (.flag false))

/-- `on_settle`, once the state was polled. -/
def register (p : ℕ) (k : Continuation C) (m : Machine C V) : Machine C V :=
  let entry : Entry C := ⟨m.registered.length, k⟩
  let m := { m with registered := m.registered ++ [(p, entry)] }
  match (m.store p).state with
  | .pending =>
    (m.modify p fun inner ↦
      { inner with continuations := inner.continuations ++ [entry] }).goto (.answer .unit)
  | state => m.enqueueContinuation ⟨p, entry, state⟩

/-! ## Polling -/

variable (host : Host C V) (m : Machine C V)

/-- The closure that `adopt` makes of the other promise, or a host closure. -/
def pollerCode : Poller C → Code C V
  | .host c => host.closure c
  | .source other => .call (.state other) fun _ ↦ .done .unit

/-- The poller of a promise, if it has one. -/
def runPoller (p : ℕ) (m : Machine C V) : Machine C V :=
  match (m.store p).poller with
  | some poller => m.goto (.code (pollerCode host poller))
  | none => m.goto (.answer .unit)

/-- `run_deferred_if_ready`, and the poller after it. -/
def poll (p : ℕ) (m : Machine C V) : Machine C V :=
  match (m.store p).deferred with
  | none => m.runPoller host p
  | some (instant, task) =>
    let m' := { m with readings := m.readings + 1 }
    if instant ≤ host.now m.readings then
      (((m'.modify p fun inner ↦ { inner with deferred := none }).push (.poller p)).push
        (.deferred p)).goto (.code (host.closure task))
    else m'.runPoller host p

/-- `settle_result`. -/
def settleResult (p : ℕ) : TaskResult V → Code C V
  | .promise source => .call (.adopt p source) fun _ ↦ .done .unit
  | .ok v => .call (.resolve p v) fun _ ↦ .done .unit
  | .err text => .call (.rejectRejection p (.message text)) fun _ ↦ .done .unit

/-! ## Adoption -/

/-- The loop of `adoption_would_cycle`. Without fuel the answer is that of a promise seen twice:
among `size` promises a walk of more steps has seen one twice. -/
def adoptionWouldCycle (m : Machine C V) (p : ℕ) : ℕ → List ℕ → Option ℕ → Bool
  | _, _, none => false
  | 0, _, some _ => true
  | fuel + 1, seen, some current =>
    if current = p then true
    else if current ∈ seen then true
    else adoptionWouldCycle m p fuel (current :: seen) (m.store current).adoptedFrom

/-- `resolve` or `reject_rejection` with the state of another promise. -/
def forward (p : ℕ) : PromiseState V → Code C V
  | .fulfilled v => .call (.resolve p v) .done
  | .rejected error => .call (.rejectRejection p error) .done
  | .pending => .done .unit

/-- `adopt`, up to the state of the other promise. -/
def adopt (p other : ℕ) (m : Machine C V) : Machine C V :=
  if p = other ∨ adoptionWouldCycle m p (m.size + 1) [] (some other) then
    m.settle p (.rejected (.message "promise adoption cycle"))
  else (m.push (.adoptOther p other)).goto (.poll other)

/-- `adopt` with the state of the other promise. -/
def adoptOther (p other : ℕ) (m : Machine C V) : Machine C V :=
  match (m.store other).state with
  | .pending => (m.push (.adoptSelf p other)).goto (.poll p)
  | state => m.goto (.code (forward p state))

/-- `adopt` from a pending promise. -/
def adoptSelf (p other : ℕ) (m : Machine C V) : Machine C V :=
  match (m.store p).state with
  | .pending =>
    (((m.modify p fun inner ↦
      { inner with adoptedFrom := some other, poller := some (.source other) }).push .adopted).push
        (.onSettle other (.adopter p))).goto (.poll other)
  | _ => m.goto (.answer (.flag false))

/-! ## Calls and returns -/

/-- The rest of `cancel`: the promise that was adopted is cancelled first. -/
def cancelRest (p : ℕ) : Option ℕ → Code C V
  | some source =>
    .call (.cancel source) fun _ ↦ .call (.rejectRejection p (.cancelled host.cancelled)) .done
  | none => .call (.rejectRejection p (.cancelled host.cancelled)) .done

/-- `cancel`, up to the cancel hook. -/
def cancel (host : Host C V) (p : ℕ) (m : Machine C V) : Machine C V :=
  match (m.store p).state with
  | .pending =>
    let m' := m.push (.cancel p (m.store p).adoptedFrom)
    match (m.store p).cancel with
    | some hook => m'.goto (.code (host.closure hook))
    | none => m'.goto (.answer .unit)
  | _ => m.goto (.answer (.flag false))

/-- `schedule`. Without delay the task runs at once. -/
def schedule (p delay : ℕ) (task : C) (m : Machine C V) : Machine C V :=
  if delay = 0 then (m.push (.deferred p)).goto (.code (host.closure task))
  else
    ({ m with readings := m.readings + 1 }.modify p fun inner ↦
      { inner with deferred := some (host.now m.readings + delay, task) }).goto (.answer .unit)

/-- A method is called. -/
def invoke : Call C V → Machine C V
  | .new => { m with size := m.size + 1 }.goto (.answer (.promise m.size))
  | .state p => (m.push (.state p)).goto (.poll p)
  | .resolve p v => m.settle p (.fulfilled v)
  | .rejectRejection p error => m.settle p (.rejected error)
  | .onSettle p k => (m.push (.onSettle p (.host k))).goto (.poll p)
  | .adopt p other => m.adopt p other
  | .setPoller p poller =>
    (m.modify p fun inner ↦ { inner with poller := some (.host poller) }).goto (.answer .unit)
  | .setCancelHook p hook =>
    (m.modify p fun inner ↦ { inner with cancel := some hook }).goto (.answer .unit)
  | .schedule p delay task => m.schedule host p delay task
  | .cancel p => m.cancel host p

/-- What a continuation does with the settled state. -/
def continuationCode : Continuation C → PromiseState V → Code C V
  | .host c, state => host.continuation c state
  | .adopter destination, state => forward destination state

/-- The loop of `enqueue_continuation` takes the next job. -/
def drain (host : Host C V) (m : Machine C V) : Machine C V :=
  match m.queue with
  | [] => { m with draining := false }.goto (.answer .unit)
  | job :: jobs =>
    ({ m with queue := jobs, ran := m.ran ++ [job] }.push .drain).goto
      (.code (continuationCode host job.listener.continuation job.value))

/-- A method in progress goes on with an answer. -/
def resume (a : Answer V) : Frame C V → Machine C V
  | .code next => m.goto (.code (next a))
  | .state p => m.goto (.answer (.state (m.store p).state))
  | .poller p => m.runPoller host p
  | .deferred p =>
    match a with
    | .task result => m.goto (.code (settleResult p result))
    | _ => m.goto (.answer .unit)
  | .onSettle p k => m.register p k
  | .adoptOther p other => m.adoptOther p other
  | .adoptSelf p other => m.adoptSelf p other
  | .adopted => m.goto (.answer (.flag true))
  | .cancel p adoptedFrom => m.goto (.code (cancelRest host p adoptedFrom))
  | .settle _ [] _ => m.goto (.answer (.flag true))
  | .settle p (entry :: rest) next =>
    (m.push (.settle p rest next)).enqueueContinuation ⟨p, entry, next⟩
  | .drain => m.drain host

/-- One step. There is none when the host code of the thread has returned. -/
def step : Option (Machine C V) :=
  match m.control with
  | .code (.done a) => some (m.goto (.answer a))
  | .code (.call c next) => some ((m.push (.code next)).invoke host c)
  | .poll p => some (m.poll host p)
  | .answer a =>
    match m.stack with
    | [] => none
    | f :: rest => some ({ m with stack := rest }.resume host a f)

/-- The machine after `n` steps, or at its end. -/
def after (host : Host C V) (m : Machine C V) : ℕ → Machine C V
  | 0 => m
  | n + 1 =>
    match m.step host with
    | none => m
    | some m' => m'.after host n

/-- The host code has returned. -/
def Halted : Prop := m.step host = none

/-- The next step is a call. -/
def Calling : Prop := ∃ c next, m.control = .code (.call c next)

end Machine

end Hara.Task
