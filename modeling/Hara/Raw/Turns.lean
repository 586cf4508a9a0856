import Hara.Raw.Kernel

/-!
# Invariants of turns

Everything between two calls of the host is made of turns: a task is taken from the queue of its
session or from its fibers, guest code runs, and the task ends or is put back. `Stable` lists what
an invariant has to survive. It comes in two forms, one for a kernel at rest and one for a kernel
that has a task in hand, and it then survives all of `start_next_evaluation` and `drain_ready`.
-/

namespace Hara.Raw

open Lib Hara.Task

variable {W F V : Type} {next : Kernel W F V → Kernel W F V} {serial : ℕ}

namespace Kernel

variable {wire : Wire V} {guest : Guest W F V} {k : Kernel W F V} {name : String} {task : ℕ}

/-- What an invariant has to survive: `rest` holds of a kernel at rest, and `hand` of one with a
task of a session in hand. -/
structure Stable (wire : Wire V) (guest : Guest W F V) (rest : Kernel W F V → Prop)
    (hand : String → ℕ → ℕ → Kernel W F V → Prop) : Prop where
  /-- A task is taken from the queue. -/
  take : ∀ {k name session task request queue} (world : W), rest k →
    k.sessions.lookup name = some session → session.activeEvaluation = none →
    session.evaluationQueue = (task, request) :: queue →
    hand name session.serial task { k with
      sessions := k.sessions.insert name { session with
        evaluationQueue := queue
        activeEvaluation := some task
        started := session.started ++ [task] }
      world := world }
  /-- A task is taken from the fibers. -/
  lift : ∀ {k name session task fiber} (world : W), rest k →
    k.sessions.lookup name = some session → session.fibers.lookup task = some fiber →
    hand name session.serial task { k with
      sessions := k.sessions.insert name { session with fibers := session.fibers.erase task }
      world := world }
  /-- An entry is taken from the `ready` queue. -/
  pop : ∀ {k name session} (ready : List (ℕ × PromiseState V)), rest k →
    k.sessions.lookup name = some session →
    rest { k with sessions := k.sessions.insert name { session with ready } }
  settle : ∀ {k name serial task} (promise : Promise) (state : PromiseState V),
    hand name serial task k → hand name serial task (k.settle wire promise state)
  collect : ∀ {k name serial task calls}, hand name serial task k →
    hand name serial task (k.collectCalls wire guest name task calls)
  /-- The task is rejected before it has a fiber. -/
  reject : ∀ {k name serial task} (outcome : Outcome V), hand name serial task k →
    rest ((k.enqueueEvent wire task outcome).modifySession name
      fun session ↦ { session with activeEvaluation := none })
  /-- The task is put back with its fiber. -/
  suspend : ∀ {k name serial task session} (promise : Promise) (fiber : Engine × F),
    hand name serial task k → k.sessions.lookup name = some session →
    rest ((k.onSettle wire promise (.resume name session.serial task)).modifySession name
      fun session ↦ { session with fibers := session.fibers.insert task fiber })
  /-- The task waits for the promise it answered. -/
  await : ∀ {k name serial task} (promise : Promise), hand name serial task k →
    rest (finishEvaluation id ((k.onSettle wire promise (.emit task)).modifySession name
      fun session ↦ { session with tasks := session.tasks.insert task promise }) name task)
  /-- The task ends. -/
  finish : ∀ {k name serial task} (outcome : Outcome V), hand name serial task k →
    rest (finishEvaluation id (k.enqueueEvent wire task outcome) name task)
  /-- A task in hand has an open session. -/
  isOpen : ∀ {k name serial task}, hand name serial task k →
    ∃ session, k.sessions.lookup name = some session

namespace Stable

variable {rest : Kernel W F V → Prop} {hand : String → ℕ → ℕ → Kernel W F V → Prop}

theorem settleAll (h : Stable wire guest rest hand) {settlements : Settlements V}
    (hk : hand name serial task k) : hand name serial task (k.settleAll wire settlements) := by
  induction settlements generalizing k with
  | nil => exact hk
  | cons settlement settlements ih => exact ih (h.settle settlement.1 settlement.2 hk)

theorem finishEvaluation (hnext : ∀ k, rest k → rest (next k))
    (hk : rest (Kernel.finishEvaluation id k name task)) :
    rest (k.finishEvaluation next name task) := by
  rw [Kernel.finishEvaluation] at hk ⊢
  split at hk
  · exact hk
  · split at hk
    next hactive =>
      rw [if_pos hactive]
      exact hnext _ hk
    next hactive =>
      rw [if_neg hactive]
      exact hk

section

variable (h : Stable wire guest rest hand)

include h

theorem drive (hnext : ∀ k, rest k → rest (next k)) (hk : hand name serial task k) {engine : Engine}
    {ending : Ending F V} : rest (k.drive wire next name task engine ending) := by
  cases ending with
  | suspended fiber promise =>
    obtain ⟨session, hsession⟩ := h.isOpen hk
    have hsuspend := h.suspend promise (engine, fiber) hk hsession
    rw [Kernel.drive, hsession]
    exact hsuspend
  | promised promise => exact finishEvaluation hnext (h.await promise hk)
  | completed value | failed error | cancelled | yielded | running =>
    exact finishEvaluation hnext (h.finish _ hk)

theorem endTurn {turn : Turn F V} (hnext : ∀ k, rest k → rest (next k))
    (hk : hand name serial task k) {engine : Engine} :
    rest (k.endTurn wire guest next name task engine turn) :=
  h.drive hnext (h.collect (h.settleAll hk))

theorem startLoop {rounds : ℕ} (hk : rest k) : rest (k.startLoop wire guest name rounds) := by
  induction rounds generalizing k with
  | zero => exact hk
  | succ rounds ih =>
    rw [Kernel.startLoop]
    split
    · exact hk
    next session hsession =>
      split
      · exact hk
      · exact hk
      next task request queue hactive hqueue =>
        dsimp only
        have hhand := h.take (guest.start k.world session.serial k.nextPromise request).2 hk
          hsession hactive hqueue
        split
        next error _ => exact ih (h.reject _ hhand)
        next turn _ => exact ih (h.endTurn (fun _ ↦ ih) hhand)

theorem startNextEvaluation (hk : rest k) : rest (k.startNextEvaluation wire guest name) := by
  rw [Kernel.startNextEvaluation]
  split
  · exact hk
  · exact h.startLoop hk

theorem resumeFiber (hk : rest k) {state : PromiseState V} :
    rest (k.resumeFiber wire guest name task state) := by
  rw [Kernel.resumeFiber]
  split
  · exact hk
  next session hsession =>
    split
    · exact hk
    next engine fiber hfiber =>
      have hhand := h.lift (guest.resume k.world session.serial k.nextPromise fiber state).2 hk
        hsession hfiber
      exact h.endTurn (fun _ ↦ h.startNextEvaluation) hhand

theorem drainSession {rounds : ℕ} (hk : rest k) : rest (k.drainSession wire guest name rounds) := by
  induction rounds generalizing k with
  | zero => exact hk
  | succ rounds ih =>
    rw [Kernel.drainSession]
    split
    · exact hk
    next session hsession =>
      split
      · exact hk
      next task state ready _ => exact ih (h.resumeFiber (h.pop ready hk hsession))

theorem drainReady (hk : rest k) {walk : Walk} : rest (k.drainReady wire guest walk) := by
  rw [Kernel.drainReady]
  induction walk.order generalizing k with
  | nil => exact hk
  | cons name order ih => exact ih (h.drainSession hk)

end

end Stable

end Kernel

end Hara.Raw
