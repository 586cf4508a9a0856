import Hara.Task.Promise

/-!
# Settlement

What a promise owes its continuations. Of a machine only its `Core` matters here: the states and
waiting continuations, the queue, and the loops of `settle` and of the queue that are in progress.
`Machine.step_core` says once what a step does to the core, and the core is a delivery ledger: a
continuation waits at its promise, is passed by the loop of `settle`, queued, and run.

The ledger gives that a promise settles once and that every continuation runs once and receives
the settled state. The order of registration is kept as long as no continuation is registered at a
settled promise while the loop of `settle` still has continuations of that promise to pass
(`Machine.Overtakes`): that one is enqueued before them.
-/

namespace Hara.Task

open Delivery

variable {C V : Type} {strict : Bool} {p : ℕ} {job : ContinuationJob C V}

/-- The state, if the promise is settled. -/
def PromiseState.settled? : PromiseState V → Option (PromiseState V)
  | .pending => none
  | state => some state

theorem PromiseState.settled?_of_ne {st : PromiseState V} (h : st ≠ .pending) :
    st.settled? = some st := by
  cases st with
  | pending => exact absurd rfl h
  | _ => rfl

theorem PromiseState.settled?_eq_some {st st' : PromiseState V} (h : st.settled? = some st') :
    st = st' ∧ st' ≠ .pending := by
  cases st with
  | pending => cases h
  | _ =>
    cases h
    exact ⟨rfl, nofun⟩

/-- The loops that take continuations further. -/
inductive Loop (C V : Type) where
  | settle (p : ℕ) (continuations : List (Entry C)) (next : PromiseState V)
  | drain

namespace Loop

/-- The continuations of a promise that a loop has left. -/
def left (p : ℕ) : Loop C V → List (Entry C)
  | .settle q continuations _ => if q = p then continuations else []
  | .drain => []

def isDrain : Loop C V → Bool
  | .settle .. => false
  | .drain => true

end Loop

def Frame.loop? : Frame C V → Option (Loop C V)
  | .settle p continuations next => some (.settle p continuations next)
  | .drain => some .drain
  | _ => none

/-- What the continuations depend on. -/
@[ext] structure Core (C V : Type) where
  state : ℕ → PromiseState V
  waiting : ℕ → List (Entry C)
  queue : List (ContinuationJob C V)
  draining : Bool
  loops : List (Loop C V)
  registered : List (ℕ × Entry C)
  ran : List (ContinuationJob C V)

namespace Core

/-- The continuations of a promise that `settle` still has to pass. -/
def passing (c : Core C V) (p : ℕ) : List (Entry C) := c.loops.flatMap (Loop.left p)

def enqueue (job : ContinuationJob C V) (c : Core C V) : Core C V :=
  { c with
    queue := c.queue ++ [job]
    draining := true
    loops := if c.draining then c.loops else .drain :: c.loops }

/-- The number a continuation gets. -/
def entry (c : Core C V) (k : Continuation C) : Entry C := ⟨c.registered.length, k⟩

def addRegistered (p : ℕ) (e : Entry C) (c : Core C V) : Core C V :=
  { c with registered := c.registered ++ [(p, e)] }

/-- What a step can do to the core. In a `strict` step no continuation overtakes. -/
inductive Step (strict : Bool) : Core C V → Core C V → Prop
  | keep (c : Core C V) : Step strict c c
  | wait (c : Core C V) (p : ℕ) (k : Continuation C) : c.state p = .pending →
    Step strict c { c.addRegistered p (c.entry k) with
      waiting := Function.update c.waiting p (c.waiting p ++ [c.entry k]) }
  | join (c : Core C V) (p : ℕ) (k : Continuation C) : c.state p ≠ .pending →
    (strict = true → c.passing p = []) →
    Step strict c ((c.addRegistered p (c.entry k)).enqueue ⟨p, c.entry k, c.state p⟩)
  | settle (c : Core C V) (p : ℕ) (next : PromiseState V) : c.state p = .pending →
    next ≠ .pending →
    Step strict c { c with
      state := Function.update c.state p next
      waiting := Function.update c.waiting p []
      loops := .settle p (c.waiting p) next :: c.loops }
  | settled (c : Core C V) (p : ℕ) (next : PromiseState V) (rest : List (Loop C V)) :
    c.loops = .settle p [] next :: rest → Step strict c { c with loops := rest }
  | pass (c : Core C V) (p : ℕ) (e : Entry C) (es : List (Entry C)) (next : PromiseState V)
    (rest : List (Loop C V)) : c.loops = .settle p (e :: es) next :: rest →
    Step strict c ({ c with loops := .settle p es next :: rest }.enqueue ⟨p, e, next⟩)
  | run (c : Core C V) (job : ContinuationJob C V) (jobs : List (ContinuationJob C V)) :
    c.queue = job :: jobs → Step strict c { c with queue := jobs, ran := c.ran ++ [job] }
  | stop (c : Core C V) (rest : List (Loop C V)) : c.loops = .drain :: rest → c.queue = [] →
    Step strict c { c with loops := rest, draining := false }

end Core

namespace Machine

variable {host : Host C V} {m m' : Machine C V}

def core (m : Machine C V) : Core C V where
  state p := (m.store p).state
  waiting p := (m.store p).continuations
  queue := m.queue
  draining := m.draining
  loops := m.stack.filterMap Frame.loop?
  registered := m.registered
  ran := m.ran

/-- The next step registers a continuation at a settled promise, and the loop of `settle` still has
continuations of that promise to pass. -/
def Overtakes (m : Machine C V) : Prop :=
  match m.control, m.stack with
  | .answer _, .onSettle p _ :: _ =>
    (m.store p).state.settled?.isSome = true ∧ (m.core.passing p).isEmpty = false
  | _, _ => False

instance (m : Machine C V) : Decidable m.Overtakes := by
  unfold Overtakes
  split
  · exact instDecidableAnd
  · exact instDecidableFalse

/-! ## What a step does to the core -/

@[simp] theorem core_goto (c : Control C V) : (m.goto c).core = m.core := rfl

theorem core_push {f : Frame C V} (hf : f.loop? = none) : (m.push f).core = m.core := by
  simp [push, core, hf]

theorem core_modify (p : ℕ) (f : PromiseInner C V → PromiseInner C V) :
    (m.modify p f).core = { m.core with
      state := Function.update m.core.state p (f (m.store p)).state
      waiting := Function.update m.core.waiting p (f (m.store p)).continuations } := by
  have hfield {β : Type} (g : PromiseInner C V → β) :
      (fun q ↦ g (Function.update m.store p (f (m.store p)) q)) =
        Function.update (fun q ↦ g (m.store q)) p (g (f (m.store p))) :=
    Function.comp_update g m.store p (f (m.store p))
  simp only [core, modify]
  rw [hfield PromiseInner.state, hfield PromiseInner.continuations]

/-- The other fields of a promise are not in the core. -/
theorem core_modify_of_eq {f : PromiseInner C V → PromiseInner C V}
    (hstate : (f (m.store p)).state = (m.store p).state)
    (hwaiting : (f (m.store p)).continuations = (m.store p).continuations) :
    (m.modify p f).core = m.core := by
  have hstates : Function.update m.core.state p (m.store p).state = m.core.state :=
    Function.update_eq_self p m.core.state
  have hwaitings : Function.update m.core.waiting p (m.store p).continuations = m.core.waiting :=
    Function.update_eq_self p m.core.waiting
  rw [core_modify, hstate, hwaiting, hstates, hwaitings]

theorem core_enqueueContinuation (job : ContinuationJob C V) :
    (m.enqueueContinuation job).core = m.core.enqueue job := by
  cases hdraining : m.draining with
  | true => simp [enqueueContinuation, core, Core.enqueue, goto, hdraining]
  | false => simp [enqueueContinuation, core, Core.enqueue, goto, push, hdraining, Frame.loop?]

theorem core_settle {next : PromiseState V} (hnext : next ≠ .pending) :
    Core.Step strict m.core (m.settle p next).core := by
  rw [settle]
  split
  next hpending =>
    have hcore := congrArg
      (fun c : Core C V ↦ { c with loops := .settle p (m.core.waiting p) next :: c.loops })
      (core_modify (m := m) p fun _ ↦ { (.new : PromiseInner C V) with state := next })
    convert Core.Step.settle m.core p next hpending hnext using 1
    exact hcore
  · exact .keep _

theorem core_register {k : Continuation C}
    (hstrict : strict = true → (m.store p).state ≠ .pending → m.core.passing p = []) :
    Core.Step strict m.core (m.register p k).core := by
  rw [register]
  split
  next hpending =>
    rw [core_goto, core_modify]
    convert Core.Step.wait m.core p k hpending using 1
    exact Core.ext (Function.update_eq_self p m.core.state) rfl rfl rfl rfl rfl rfl
  next hsettled =>
    rw [core_enqueueContinuation]
    exact .join m.core p k hsettled fun h ↦ hstrict h hsettled

theorem core_runPoller : (m.runPoller host p).core = m.core := by
  rw [runPoller]
  split <;> rfl

theorem core_poll (p : ℕ) : (m.poll host p).core = m.core := by
  rw [poll]
  split
  · exact core_runPoller
  next instant task _ =>
    split
    · rw [core_goto, core_push rfl, core_push rfl]
      exact core_modify_of_eq rfl rfl
    · exact core_runPoller

theorem core_adopt {other : ℕ} : Core.Step strict m.core (m.adopt p other).core := by
  rw [adopt]
  split
  · exact core_settle nofun
  · exact .keep _

theorem core_adoptOther (p other : ℕ) : (m.adoptOther p other).core = m.core := by
  rw [adoptOther]
  split
  · rw [core_goto, core_push rfl]
  · rfl

theorem core_adoptSelf (p other : ℕ) : (m.adoptSelf p other).core = m.core := by
  rw [adoptSelf]
  split
  · rw [core_goto, core_push rfl, core_push rfl]
    exact core_modify_of_eq rfl rfl
  · rfl

theorem core_cancel (p : ℕ) : (m.cancel host p).core = m.core := by
  rw [cancel]
  split
  · split <;> rw [core_goto, core_push rfl]
  · rfl

theorem core_schedule (p delay : ℕ) (task : C) :
    (m.schedule host p delay task).core = m.core := by
  rw [schedule]
  split
  · rw [core_goto, core_push rfl]
  · rw [core_goto]
    exact core_modify_of_eq rfl rfl

/-- A call settles a promise or leaves the core alone. -/
theorem core_invoke {c : Call C V} : Core.Step strict m.core (m.invoke host c).core := by
  cases c with
  | new => exact .keep _
  | state p | onSettle p k =>
    exact .keep _
  | resolve p v | rejectRejection p error => exact core_settle nofun
  | adopt p other => exact core_adopt
  | setPoller p k | setCancelHook p k =>
    rw [invoke, core_goto, core_modify_of_eq (by rfl) (by rfl)]
    exact .keep _
  | schedule p delay task =>
    rw [invoke, core_schedule]
    exact .keep _
  | cancel p =>
    rw [invoke, core_cancel]
    exact .keep _

/-- The queue takes a job or stops. Its frame was on top of the stack `m` had. -/
theorem core_drain : Core.Step strict (m.push .drain).core (m.drain host).core := by
  rw [drain]
  split
  next hqueue => exact .stop (m.push .drain).core m.core.loops rfl hqueue
  next job jobs hqueue => exact .run (m.push .drain).core job jobs hqueue

/-- A frame of a loop makes the loop go on. The others leave the core alone, but for the one that
registers a continuation. -/
theorem core_resume {a : Answer V} {f : Frame C V}
    (hstrict : strict = true → ∀ p k, f = .onSettle p k → (m.store p).state ≠ .pending →
      m.core.passing p = []) : Core.Step strict (m.push f).core (m.resume host a f).core := by
  cases f with
  | settle p continuations next =>
    cases continuations with
    | nil => exact .settled (m.push (.settle p [] next)).core p next m.core.loops rfl
    | cons e es =>
      rw [resume, core_enqueueContinuation]
      exact .pass (m.push (.settle p (e :: es) next)).core p e es next m.core.loops rfl
  | drain => exact core_drain
  | onSettle p k =>
    exact core_register fun h ↦ hstrict h p k rfl
  | deferred p =>
    rw [resume.eq_def]
    dsimp only
    split <;> exact .keep _
  | poller p =>
    rw [resume, core_runPoller]
    exact .keep _
  | adoptOther p other =>
    rw [resume, core_adoptOther]
    exact .keep _
  | adoptSelf p other =>
    rw [resume, core_adoptSelf]
    exact .keep _
  | code next | state p | adopted | cancel p q =>
    exact .keep _

/-- **What a step does to the core.** -/
theorem step_core (h : m.step host = some m') (hstrict : strict = true → ¬ m.Overtakes) :
    Core.Step strict m.core m'.core := by
  rw [step] at h
  split at h
  next a _ =>
    cases h
    exact .keep _
  next c next _ =>
    cases h
    have hpush : (m.push (.code next)).core = m.core := core_push rfl
    rw [← hpush]
    exact core_invoke
  next p _ =>
    cases h
    rw [core_poll]
    exact .keep _
  next a hcontrol =>
    split at h
    · cases h
    next f rest hstack =>
      cases h
      have hcore : m.core = ({ m with stack := rest }.push f).core := by
        simp [core, push, hstack]
      rw [hcore]
      refine core_resume ?_
      rintro hs p k rfl hsettled
      have hovertakes := hstrict hs
      rw [Overtakes, hcontrol, hstack] at hovertakes
      by_contra hpassing
      refine hovertakes ⟨?_, ?_⟩
      · rw [PromiseState.settled?_of_ne hsettled]
        rfl
      · rw [hcore, core_push rfl]
        simpa using hpassing

end Machine

/-! ## The core is a ledger -/

namespace Core

variable {c c' : Core C V}

def ledger (c : Core C V) : Ledger ℕ (Entry C) (PromiseState V) where
  value p := (c.state p).settled?
  waiting := c.waiting
  passing := c.passing
  queue := c.queue
  delivered := c.ran
  registered := c.registered

/-- The loops fit the rest. -/
structure Coherent (c : Core C V) : Prop where
  /-- A loop of `settle` passes the state of its promise. -/
  passed : ∀ p es next, .settle p es next ∈ c.loops → c.state p = next ∧ next ≠ .pending
  /-- There is one loop of the queue, while it is being drained. -/
  drains : c.loops.countP Loop.isDrain = if c.draining then 1 else 0
  /-- The queue is empty unless it is being drained. -/
  idle : c.draining = false → c.queue = []
  /-- Registrations are numbered. -/
  stamps : c.registered.map (·.2.stamp) = List.range c.registered.length

theorem Coherent.enqueue (h : c.Coherent) : (c.enqueue job).Coherent where
  passed p es next hmem := by
    refine h.passed p es next ?_
    cases hdraining : c.draining <;> simpa [Core.enqueue, hdraining] using hmem
  drains := by
    have hdrains := h.drains
    cases hdraining : c.draining <;>
      simpa [Core.enqueue, hdraining, List.countP_cons, Loop.isDrain] using hdrains
  idle hidle := by cases hidle
  stamps := h.stamps

theorem Coherent.addRegistered (h : c.Coherent) (p : ℕ) (k : Continuation C) :
    (c.addRegistered p (c.entry k)).Coherent := by
  refine { h with stamps := ?_ }
  simp [Core.addRegistered, h.stamps, Core.entry, List.range_succ]

theorem Step.coherent (h : Step strict c c') (hc : c.Coherent) : c'.Coherent := by
  cases h with
  | keep => exact hc
  | wait p k _ =>
    have hadd := hc.addRegistered p k
    exact ⟨hadd.passed, hadd.drains, hadd.idle, hadd.stamps⟩
  | join p k _ _ => exact (hc.addRegistered p k).enqueue
  | settle p next hpending hnext =>
    refine ⟨fun q es st hmem ↦ ?_, ?_, hc.idle, hc.stamps⟩
    · rcases List.mem_cons.mp hmem with heq | hmem
      · cases heq
        exact ⟨Function.update_self .., hnext⟩
      · obtain ⟨hstate, hst⟩ := hc.passed q es st hmem
        have hne : q ≠ p := by
          rintro rfl
          exact hst (hstate.symm.trans hpending)
        exact ⟨(Function.update_of_ne hne ..).trans hstate, hst⟩
    · exact (List.countP_cons_of_neg (by simp [Loop.isDrain])).trans hc.drains
  | settled p next rest hloops =>
    have hdrains := hc.drains
    rw [hloops] at hdrains
    refine ⟨fun q es st hmem ↦ hc.passed q es st ?_, hdrains, hc.idle, hc.stamps⟩
    rw [hloops]
    exact List.mem_cons_of_mem _ hmem
  | pass p e es next rest hloops =>
    have hrest : Coherent { c with loops := .settle p es next :: rest } := by
      refine ⟨fun q es' st hmem ↦ ?_, ?_, hc.idle, hc.stamps⟩
      · rcases List.mem_cons.mp hmem with heq | hmem
        · cases heq
          exact hc.passed p (e :: es) next (hloops ▸ List.mem_cons_self)
        · exact hc.passed q es' st (hloops ▸ List.mem_cons_of_mem _ hmem)
      · have hdrains := hc.drains
        rw [hloops] at hdrains
        exact (List.countP_cons_of_neg (by simp [Loop.isDrain])).trans hdrains
    exact hrest.enqueue
  | run job jobs hqueue =>
    refine ⟨hc.passed, hc.drains, fun hidle ↦ ?_, hc.stamps⟩
    rw [hc.idle hidle] at hqueue
    cases hqueue
  | stop rest hloops hqueue =>
    refine ⟨fun q es st hmem ↦ ?_, ?_, fun _ ↦ hqueue, hc.stamps⟩
    · exact hc.passed q es st (hloops ▸ List.mem_cons_of_mem _ hmem)
    · have hdrains := hc.drains
      rw [hloops, List.countP_cons_of_pos rfl] at hdrains
      split at hdrains
      · exact Nat.succ.inj hdrains
      · cases hdrains

@[simp] theorem passing_enqueue : (c.enqueue job).passing p = c.passing p := by
  cases hdraining : c.draining <;> simp [Core.enqueue, passing, hdraining, Loop.left]

theorem ledger_value (p : ℕ) : c.ledger.value p = (c.state p).settled? := rfl

/-- **The core refines the ledger.** -/
theorem Step.ledger (h : Step strict c c') (hc : c.Coherent) (hl : c.ledger.Balanced) :
    Ledger.Step strict c.ledger c'.ledger := by
  cases h with
  | keep => exact .idle _
  | wait p k hpending =>
    exact .wait c.ledger p _ (by rw [ledger_value, hpending, PromiseState.settled?])
  | join p k hsettled hstrict =>
    have hvalue : c.ledger.value p = some (c.state p) := PromiseState.settled?_of_ne hsettled
    convert Ledger.Step.join c.ledger p (c.entry k) (c.state p) hvalue hstrict using 1
    refine Ledger.ext rfl rfl (funext fun q ↦ ?_) rfl rfl rfl
    exact passing_enqueue (c := c.addRegistered p (c.entry k))
  | settle p next hpending hnext =>
    have hvalue : c.ledger.value p = none := by rw [ledger_value, hpending, PromiseState.settled?]
    convert Ledger.Step.settle c.ledger p next hvalue using 1
    refine Ledger.ext (funext fun q ↦ ?_) rfl (funext fun q ↦ ?_) rfl rfl rfl
    · by_cases hq : q = p
      · subst hq
        simp [Core.ledger, PromiseState.settled?_of_ne hnext]
      · simp [Core.ledger, Function.update_of_ne hq]
    · by_cases hq : q = p
      · subst hq
        -- nothing of a pending promise is being passed
        have hfresh : c.passing q = [] := hl.fresh q hvalue
        change (Loop.settle q (c.waiting q) next).left q ++ c.passing q = _
        simp [Core.ledger, Loop.left, hfresh]
      · simp [Core.ledger, passing, Loop.left, Function.update_of_ne hq, Ne.symm hq]
  | settled p next rest hloops =>
    convert Ledger.Step.idle c.ledger using 1
    refine Ledger.ext rfl rfl (funext fun q ↦ ?_) rfl rfl rfl
    simp [Core.ledger, passing, hloops, Loop.left]
  | pass p e es next rest hloops =>
    obtain ⟨hstate, hnext⟩ := hc.passed p (e :: es) next (hloops ▸ List.mem_cons_self)
    have hvalue : c.ledger.value p = some next := by
      rw [ledger_value, hstate, PromiseState.settled?_of_ne hnext]
    have hpassing : c.ledger.passing p = e :: (es ++ rest.flatMap (Loop.left p)) := by
      simp [Core.ledger, passing, hloops, Loop.left]
    convert Ledger.Step.pass c.ledger p e _ next hpassing hvalue using 1
    refine Ledger.ext rfl rfl (funext fun q ↦ ?_) rfl rfl rfl
    simp only [Core.ledger, passing_enqueue]
    by_cases hq : q = p
    · subst hq
      simp [passing, Loop.left]
    · simp [passing, Loop.left, hloops, Function.update_of_ne hq, Ne.symm hq]
  | run job jobs hqueue => exact .deliver c.ledger job jobs hqueue
  | stop rest hloops hqueue =>
    convert Ledger.Step.idle c.ledger using 1
    refine Ledger.ext rfl rfl (funext fun q ↦ ?_) rfl rfl rfl
    simp [Core.ledger, passing, hloops, Loop.left]

end Core

end Hara.Task
