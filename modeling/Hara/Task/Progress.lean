import Hara.Task.Settlement

/-!
# Runs of promises

Whole runs of the promise machine. Between two calls the machine takes finitely many steps, since
each of them makes its `Machine.weight` smaller, so host code that makes finitely many calls comes
to an end, and then no continuation of a settled promise is left.
-/

namespace Hara.Task

open Delivery

variable {C V : Type} {host : Host C V} {m m' : Machine C V} {p n : ℕ} {main : Code C V}

/-! ## Steps between calls -/

def Control.weight : Control C V → ℕ
  | .code _ => 1
  | .answer _ => 0
  | .poll _ => 6

/-- A frame weighs more than what it leaves behind when it goes on. -/
def Frame.weight : Frame C V → ℕ
  | .code _ | .poller _ | .deferred _ | .cancel .. => 2
  | .state _ | .adopted | .drain => 1
  | .onSettle .. => 4
  | .adoptSelf .. => 12
  | .adoptOther .. => 19
  | .settle _ continuations _ => 4 * continuations.length + 1

namespace Machine

/-- The weight of the methods in progress and of the queue. -/
def load (m : Machine C V) : ℕ := (m.stack.map Frame.weight).sum + 2 * m.queue.length

def weight (m : Machine C V) : ℕ := m.control.weight + m.load

@[simp] theorem weight_goto (c : Control C V) : (m.goto c).weight = c.weight + m.load := rfl

@[simp] theorem load_push (f : Frame C V) : (m.push f).load = f.weight + m.load := by
  simp [load, push, Nat.add_assoc]

@[simp] theorem load_modify (p : ℕ) (f : PromiseInner C V → PromiseInner C V) :
    (m.modify p f).load = m.load := rfl

theorem weight_runPoller_le (host : Host C V) (m : Machine C V) (p : ℕ) :
    (m.runPoller host p).weight ≤ 1 + m.load := by
  rw [runPoller]
  split <;> simp [Control.weight]

theorem weight_poll_lt : (m.poll host p).weight < 6 + m.load := by
  rw [poll]
  split
  · have hpoller := weight_runPoller_le host m p
    omega
  next instant task _ =>
    dsimp only
    have hload : load { m with readings := m.readings + 1 } = m.load := rfl
    split
    · simp only [weight_goto, load_push, load_modify, Control.weight, Frame.weight]
      omega
    · have hpoller := weight_runPoller_le host { m with readings := m.readings + 1 } p
      omega

theorem weight_enqueueContinuation_le (job : ContinuationJob C V) :
    (m.enqueueContinuation job).weight ≤ 3 + m.load := by
  have hload : load { m with queue := m.queue ++ [job] } = 2 + m.load := by
    simp only [load, List.length_append, List.length_singleton]
    omega
  rw [enqueueContinuation]
  split
  · rw [weight_goto, Control.weight]
    omega
  · have hdraining : load { m with queue := m.queue ++ [job], draining := true } = 2 + m.load :=
      hload
    rw [weight_goto, load_push, hdraining, Control.weight, Frame.weight]
    omega

theorem weight_register_lt {k : Continuation C} : (m.register p k).weight < 4 + m.load := by
  rw [register]
  have hload (l : List (ℕ × Entry C)) : load { m with registered := l } = m.load := rfl
  split
  · rw [weight_goto, load_modify, hload, Control.weight]
    omega
  · refine (weight_enqueueContinuation_le _).trans_lt ?_
    rw [hload]
    omega

theorem weight_adoptOther_lt {other : ℕ} : (m.adoptOther p other).weight < 19 + m.load := by
  rw [adoptOther]
  split <;> simp only [weight_goto, load_push, Control.weight, Frame.weight] <;> omega

theorem weight_adoptSelf_lt {other : ℕ} : (m.adoptSelf p other).weight < 12 + m.load := by
  rw [adoptSelf]
  split <;> simp only [weight_goto, load_push, load_modify, Control.weight, Frame.weight] <;> omega

theorem weight_drain_lt : (m.drain host).weight < 1 + m.load := by
  rw [drain]
  split
  next hqueue =>
    have hload : load { m with draining := false } = m.load := rfl
    rw [weight_goto, Control.weight]
    omega
  next job jobs hqueue =>
    -- the job pays for the frame and for its code
    have hload : load { m with queue := jobs, ran := m.ran ++ [job] } + 2 = m.load := by
      simp only [load, hqueue, List.length_cons]
      omega
    rw [weight_goto, load_push, Control.weight, Frame.weight]
    omega

theorem weight_resume_lt {a : Answer V} {f : Frame C V} :
    (m.resume host a f).weight < f.weight + m.load := by
  cases f with
  | settle p continuations next =>
    cases continuations with
    | nil =>
      simp only [resume, weight_goto, Control.weight, Frame.weight]
      omega
    | cons e es =>
      have henqueue := weight_enqueueContinuation_le (m := m.push (.settle p es next)) ⟨p, e, next⟩
      rw [load_push] at henqueue
      simp only [resume, Frame.weight, List.length_cons] at henqueue ⊢
      omega
  | drain => exact weight_drain_lt
  | onSettle p k => exact weight_register_lt
  | deferred p =>
    rw [resume.eq_def]
    dsimp only
    split <;> simp only [weight_goto, Control.weight, Frame.weight] <;> omega
  | poller p => exact (weight_runPoller_le host m p).trans_lt (by simp [Frame.weight])
  | adoptOther p other => exact weight_adoptOther_lt
  | adoptSelf p other => exact weight_adoptSelf_lt
  | code next | state p | adopted | cancel p q =>
    simp only [resume, weight_goto, Control.weight, Frame.weight]
    omega

/-- A step that is no call makes the machine lighter. -/
theorem weight_step_lt (h : m.step host = some m') (hcalling : ¬ m.Calling) :
    m'.weight < m.weight := by
  rw [step] at h
  split at h
  next a hcontrol =>
    cases h
    rw [weight_goto, weight, hcontrol, Control.weight, Control.weight]
    omega
  next c next hcontrol => exact absurd ⟨c, next, hcontrol⟩ hcalling
  next p hcontrol =>
    cases h
    have hweight : m.weight = 6 + m.load := by rw [weight, hcontrol, Control.weight]
    rw [hweight]
    exact weight_poll_lt
  next a hcontrol =>
    split at h
    · cases h
    next f rest hstack =>
      cases h
      have hweight : m.weight = f.weight + load { m with stack := rest } := by
        simp [weight, hcontrol, Control.weight, load, hstack, Nat.add_assoc]
      rw [hweight]
      exact weight_resume_lt

/-! ## Runs -/

theorem after_of_halted (h : m.Halted host) : m.after host n = m := by
  cases n with
  | zero => rfl
  | succ n => rw [after, h]

theorem after_of_step (h : m.step host = some m') (n : ℕ) :
    m.after host (n + 1) = m'.after host n := by
  rw [after, h]

theorem after_add (n k : ℕ) : m.after host (n + k) = (m.after host n).after host k := by
  induction n generalizing m with
  | zero => rw [Nat.zero_add, after]
  | succ n ih =>
    rw [Nat.add_right_comm]
    cases hstep : m.step host with
    | none => rw [after_of_halted hstep, after_of_halted hstep, after_of_halted hstep]
    | some m' => rw [after_of_step hstep, after_of_step hstep, ih]

/-- The last step of a run. -/
theorem after_succ : (m.after host (n + 1) = m.after host n) ∨
    (m.after host n).step host = some (m.after host (n + 1)) := by
  rw [after_add]
  cases hstep : (m.after host n).step host with
  | none => exact .inl (after_of_halted hstep)
  | some m' => exact .inr (congrArg some (after_of_step hstep 0).symm)

/-- The machine comes to a call or to its end. -/
theorem exists_calling_or_halted (m : Machine C V) :
    ∃ n, (m.after host n).Calling ∨ (m.after host n).Halted host := by
  induction hweight : m.weight using Nat.strongRecOn generalizing m with
  | ind w ih =>
    by_cases hcalling : m.Calling
    · exact ⟨0, .inl hcalling⟩
    cases hstep : m.step host with
    | none => exact ⟨0, .inr hstep⟩
    | some m' =>
      obtain ⟨n, hn⟩ := ih m'.weight (hweight ▸ weight_step_lt hstep hcalling) m' rfl
      rw [← after_of_step hstep] at hn
      exact ⟨n + 1, hn⟩

/-- Host code that makes finitely many calls comes to an end. -/
theorem exists_halted (h : ∀ k, n ≤ k → ¬ (m.after host k).Calling) :
    ∃ k, (m.after host k).Halted host := by
  obtain ⟨k, hk⟩ := exists_calling_or_halted (m.after host n)
  rw [← after_add] at hk
  exact ⟨n + k, hk.resolve_left (h (n + k) (Nat.le_add_right n k))⟩

/-- Loops and ledger are in order. -/
structure Sound (m : Machine C V) : Prop where
  coherent : m.core.Coherent
  balanced : m.core.ledger.Balanced

theorem fresh_start : (start main).core.ledger.Fresh where
  value _ := rfl
  waiting _ := rfl
  passing _ := rfl
  queue := rfl
  delivered := rfl
  registered := rfl

theorem sound_start : (start main).Sound where
  coherent := ⟨nofun, rfl, fun _ ↦ rfl, rfl⟩
  balanced := fresh_start.balanced

/-- A run of the machine is a run of the ledger, strict if no continuation overtakes. -/
theorem Sound.after (h : m.Sound) (host : Host C V) (strict : Bool)
    (hstrict : strict = true → ∀ k < n, ¬ (m.after host k).Overtakes) :
    (m.after host n).Sound ∧ Ledger.Run strict m.core.ledger (m.after host n).core.ledger := by
  induction n with
  | zero => exact ⟨h, .refl⟩
  | succ n ih =>
    obtain ⟨hsound, hrun⟩ := ih fun hs k hk ↦ hstrict hs k (Nat.lt_succ_of_lt hk)
    rcases after_succ with hend | hstep
    · rw [hend]
      exact ⟨hsound, hrun⟩
    · have hcore := step_core hstep fun hs ↦ hstrict hs n (Nat.lt_succ_self n)
      have hledger := hcore.ledger hsound.coherent hsound.balanced
      exact ⟨⟨hcore.coherent hsound.coherent, hledger.balanced hsound.balanced⟩, hrun.tail hledger⟩

/-- The continuations of a promise that have run, in the order they ran. -/
def ranOf (m : Machine C V) (p : ℕ) : List (Entry C) := jobsOf p m.ran

/-- The continuations registered at a promise, in the order of registration. -/
def registeredOf (m : Machine C V) (p : ℕ) : List (Entry C) := registeredAt p m.registered

/-- Settlement is final. -/
theorem Sound.state_after (h : m.Sound) (hp : (m.store p).state ≠ .pending) :
    ((m.after host n).store p).state = (m.store p).state := by
  obtain ⟨-, hrun⟩ := h.after host false nofun
  have hvalue : m.core.ledger.value p = some (m.store p).state := PromiseState.settled?_of_ne hp
  exact (PromiseState.settled?_eq_some (hrun.value hvalue)).1

/-- A continuation runs after settlement and receives the settled state. -/
theorem Sound.value_of_ran (h : m.Sound) {job : ContinuationJob C V} (hjob : job ∈ m.ran) :
    job.value ≠ .pending ∧ (m.store job.source).state = job.value := by
  have hvalue := h.balanced.jobs job (List.mem_append_left _ hjob)
  obtain ⟨hstate, hne⟩ := PromiseState.settled?_eq_some hvalue
  exact ⟨hne, hstate⟩

/-- Each registration has a number of its own. -/
theorem Sound.nodup_stamps (h : m.Sound) : (m.registered.map (·.2.stamp)).Nodup := by
  rw [show m.registered.map (·.2.stamp) = List.range _ from h.coherent.stamps]
  exact List.nodup_range

/-- At the end nothing of a settled promise is under way. -/
theorem Sound.places_of_halted (h : m.Sound) (hhalted : m.Halted host)
    (hp : (m.store p).state ≠ .pending) : m.core.ledger.places p = m.ranOf p := by
  have hstack : m.stack = [] := by
    rw [Halted, step] at hhalted
    split at hhalted <;> try cases hhalted
    split at hhalted
    next hnil => exact hnil
    · cases hhalted
  have hloops : m.core.loops = [] := by simp [core, hstack]
  have hidle : m.core.draining = false := by
    have hdrains := h.coherent.drains
    rw [hloops] at hdrains
    by_contra htrue
    simp [htrue] at hdrains
  have hqueue : m.core.ledger.queue = [] := h.coherent.idle hidle
  have hpassing : m.core.ledger.passing p = [] := by
    simp [Core.ledger, Core.passing, hloops]
  have hvalue : m.core.ledger.value p = some (m.store p).state := PromiseState.settled?_of_ne hp
  have hwaiting : m.core.ledger.waiting p = [] := by
    refine h.balanced.closed p ?_
    rw [hvalue]
    exact Option.some_ne_none _
  rw [Ledger.places, hqueue, hpassing, hwaiting]
  simp [Core.ledger, core, ranOf]

/-- A run settles promises once: up to step `n` and, if it ends there, to its end. -/
structure SettlesOnce (host : Host C V) (m : ℕ → Machine C V) (n : ℕ) : Prop where
  /-- A settled promise keeps its state. -/
  final : ∀ k ≤ n, ∀ p, ((m k).store p).state ≠ .pending →
    ((m n).store p).state = ((m k).store p).state
  /-- A continuation runs after settlement and receives the settled state. -/
  receives : ∀ job ∈ (m n).ran,
    job.value ≠ .pending ∧ ((m n).store job.source).state = job.value
  /-- No two registrations are the same. -/
  distinct : ((m n).registered.map (·.2.stamp)).Nodup
  /-- No continuation runs twice. -/
  once : ∀ p, ((m n).ranOf p).Subperm ((m n).registeredOf p)
  /-- At the end every continuation of a settled promise has run. -/
  complete : (m n).Halted host → ∀ p, ((m n).store p).state ≠ .pending →
    ((m n).ranOf p).Perm ((m n).registeredOf p)
  /-- Finitely many calls come to an end. -/
  ends : (∃ j, ∀ k, j ≤ k → ¬ (m k).Calling) → ∃ k, (m k).Halted host

/-- **Settlement.** Whatever the host code does, promises settle once. -/
theorem settlesOnce : SettlesOnce host ((start main).after host) n := by
  have hsound (k : ℕ) : ((start main).after host k).Sound := (sound_start.after host false nofun).1
  constructor
  · intro k hk p hp
    obtain ⟨j, rfl⟩ := Nat.exists_eq_add_of_le hk
    rw [after_add]
    exact (hsound k).state_after hp
  · exact fun job hjob ↦ (hsound n).value_of_ran hjob
  · exact (hsound n).nodup_stamps
  · intro p
    refine List.Subperm.trans (List.Sublist.subperm ?_) ((hsound n).balanced.account p).subperm
    simp only [Ledger.places, List.append_assoc]
    exact List.sublist_append_left _ _
  · intro hhalted p hp
    rw [← (hsound n).places_of_halted hhalted hp]
    exact (hsound n).balanced.account p
  · rintro ⟨j, hj⟩
    exact exists_halted hj

/-- **Settlement in order.** In a run in which no continuation overtakes, the continuations of a
promise also run in the order in which they were registered. -/
theorem settles_in_order (host : Host C V) (main : Code C V) (n : ℕ)
    (h : ∀ k < n, ¬ ((start main).after host k).Overtakes) :
    SettlesOnce host ((start main).after host) n ∧
    (∀ p, ((start main).after host n).ranOf p <+: ((start main).after host n).registeredOf p) ∧
    (((start main).after host n).Halted host →
      ∀ p, (((start main).after host n).store p).state ≠ .pending →
        ((start main).after host n).ranOf p = ((start main).after host n).registeredOf p) := by
  obtain ⟨hsound, hrun⟩ := sound_start.after host true fun _ ↦ h
  have hordered : ((start main).after host n).core.ledger.Ordered :=
    Ledger.Run.ordered hrun fresh_start.balanced fresh_start.ordered
  refine ⟨settlesOnce, fun p ↦ ?_, fun hhalted p hp ↦ ?_⟩
  · have hplaces := hordered p
    simp only [Ledger.places, List.append_assoc] at hplaces
    exact ⟨_, hplaces⟩
  · rw [← hsound.places_of_halted hhalted hp]
    exact hordered p

/-! ## Continuations that call back -/

/-- The continuation `1` registers the continuation `4` at the promise `1` and resolves it; the
continuation `2` registers `5` there. -/
def busyHost : Host ℕ Unit where
  continuation c _ :=
    if c = 1 then .call (.onSettle 1 4) fun _ ↦ .call (.resolve 1 ()) .done
    else if c = 2 then .call (.onSettle 1 5) .done
    else .done .unit
  closure _ := .done .unit
  now n := n
  cancelled := ()

/-- Two promises with continuations, of which the first is resolved. -/
def twoPromises : Code ℕ Unit :=
  .call .new fun _ ↦ .call .new fun _ ↦ .call (.onSettle 0 1) fun _ ↦
    .call (.onSettle 1 3) fun _ ↦ .call (.onSettle 0 2) fun _ ↦ .call (.resolve 0 ()) .done

/-- The second promise is resolved while the continuations of the first are run, and one of them
registers another at it; all of them run in order. -/
theorem settles_in_order_busyHost :
    (∀ k < 70, ¬ ((start twoPromises).after busyHost k).Overtakes) ∧
    (((start twoPromises).after busyHost 70).step busyHost).isNone = true ∧
    ((start twoPromises).after busyHost 70).ran.map (·.listener.continuation) =
      [.host 1, .host 3, .host 4, .host 2, .host 5] ∧
    ((start twoPromises).after busyHost 70).ranOf 1 =
      ((start twoPromises).after busyHost 70).registeredOf 1 := by
  have h : ∀ k < 70, ¬ ((start twoPromises).after busyHost k).Overtakes := by decide
  have hhalted : ((start twoPromises).after busyHost 70).Halted busyHost := rfl
  refine ⟨h, by decide, by decide, ?_⟩
  exact (settles_in_order _ _ 70 h).2.2 hhalted 1 (by decide)

/-! ## A continuation that overtakes -/

/-- The continuation `1` registers the continuation `3` at the promise `0`. -/
def lateHost : Host ℕ Unit where
  continuation c _ := if c = 1 then .call (.onSettle 0 3) .done else .done .unit
  closure _ := .done .unit
  now n := n
  cancelled := ()

/-- Two continuations are registered at a promise, and it is resolved. -/
def twoContinuations : Code ℕ Unit :=
  .call .new fun _ ↦ .call (.onSettle 0 1) fun _ ↦ .call (.onSettle 0 2) fun _ ↦
    .call (.resolve 0 ()) .done

/-- **The continuation `2` is overtaken.** It was registered before `3`, and runs after it. -/
theorem overtaken_continuation :
    let m := (start twoContinuations).after lateHost 40
    (m.step lateHost).isNone = true ∧
    m.registered.map (·.2.continuation) = [.host 1, .host 2, .host 3] ∧
    m.ran.map (·.listener.continuation) = [.host 1, .host 3, .host 2] := by
  decide

end Machine

end Hara.Task
