import Mathlib.Algebra.Order.Ring.Int
import Mathlib.Data.List.Perm.Basic

/-!
# Delivery through a queue

Sources take a value once; listeners register at a source before or after that, and each is to get
the value exactly once, in the order of registration. A listener of an open source waits. When the
source takes its value its listeners are handed over to a queue one by one, and the queue delivers
from its front. A listener that comes later goes to the queue directly.

A `Ledger` records where every listener is. The accounts balance in every run (`Ledger.Balanced`):
delivered, queued, passing and waiting listeners are together those that registered. They also stay
in order as long as nobody overtakes: a late listener must not go to the queue while others of the
same source are still being handed over.
-/

namespace Delivery

variable {P E S : Type} [DecidableEq P] {q p : P}

/-- A listener, its source, and the value it gets. -/
structure Job (P E S : Type) where
  source : P
  listener : E
  value : S

/-- Where the listeners are. -/
@[ext] structure Ledger (P E S : Type) where
  value : P → Option S
  waiting : P → List E
  passing : P → List E
  queue : List (Job P E S)
  delivered : List (Job P E S)
  registered : List (P × E)

/-- The listeners of one source among jobs. -/
def jobsOf (p : P) (jobs : List (Job P E S)) : List E :=
  jobs.filterMap fun job ↦ if job.source = p then some job.listener else none

/-- The listeners that registered at one source, in order. -/
def registeredAt (p : P) (l : List (P × E)) : List E :=
  l.filterMap fun entry ↦ if entry.1 = p then some entry.2 else none

@[simp] theorem jobsOf_nil (p : P) : jobsOf p ([] : List (Job P E S)) = [] := rfl

@[simp] theorem jobsOf_append (p : P) (l l' : List (Job P E S)) :
    jobsOf p (l ++ l') = jobsOf p l ++ jobsOf p l' := List.filterMap_append

@[simp] theorem registeredAt_append (p : P) (l l' : List (P × E)) :
    registeredAt p (l ++ l') = registeredAt p l ++ registeredAt p l' := List.filterMap_append

theorem jobsOf_singleton_self (p : P) (e : E) (s : S) : jobsOf p [⟨p, e, s⟩] = [e] := by
  simp [jobsOf]

theorem jobsOf_singleton_of_ne (h : q ≠ p) (e : E) (s : S) : jobsOf p [⟨q, e, s⟩] = [] := by
  simp [jobsOf, h]

theorem registeredAt_singleton_self (p : P) (e : E) : registeredAt p [(p, e)] = [e] := by
  simp [registeredAt]

theorem registeredAt_singleton_of_ne (h : q ≠ p) (e : E) : registeredAt p [(q, e)] = [] := by
  simp [registeredAt, h]

namespace Ledger

/-- What can happen. In a `strict` run nobody overtakes. -/
inductive Step (strict : Bool) : Ledger P E S → Ledger P E S → Prop
  | idle (l : Ledger P E S) : Step strict l l
  /-- A listener registers at an open source. -/
  | wait (l : Ledger P E S) (p : P) (e : E) : l.value p = none →
    Step strict l { l with
      registered := l.registered ++ [(p, e)]
      waiting := Function.update l.waiting p (l.waiting p ++ [e]) }
  /-- A listener comes after the source took its value. -/
  | join (l : Ledger P E S) (p : P) (e : E) (s : S) : l.value p = some s →
    (strict = true → l.passing p = []) →
    Step strict l { l with
      registered := l.registered ++ [(p, e)]
      queue := l.queue ++ [⟨p, e, s⟩] }
  /-- The source takes its value. -/
  | settle (l : Ledger P E S) (p : P) (s : S) : l.value p = none →
    Step strict l { l with
      value := Function.update l.value p (some s)
      passing := Function.update l.passing p (l.passing p ++ l.waiting p)
      waiting := Function.update l.waiting p [] }
  /-- The next listener is handed over. -/
  | pass (l : Ledger P E S) (p : P) (e : E) (rest : List E) (s : S) :
    l.passing p = e :: rest → l.value p = some s →
    Step strict l { l with
      passing := Function.update l.passing p rest
      queue := l.queue ++ [⟨p, e, s⟩] }
  /-- The front of the queue is delivered. -/
  | deliver (l : Ledger P E S) (job : Job P E S) (jobs : List (Job P E S)) :
    l.queue = job :: jobs →
    Step strict l { l with queue := jobs, delivered := l.delivered ++ [job] }

/-- Nothing has happened yet. -/
structure Fresh (l : Ledger P E S) : Prop where
  value : ∀ p, l.value p = none
  waiting : ∀ p, l.waiting p = []
  passing : ∀ p, l.passing p = []
  queue : l.queue = []
  delivered : l.delivered = []
  registered : l.registered = []

/-- Where the listeners of a source are, in the order they would be delivered. -/
def places (l : Ledger P E S) (p : P) : List E :=
  jobsOf p l.delivered ++ jobsOf p l.queue ++ l.passing p ++ l.waiting p

/-- The accounts balance. -/
structure Balanced (l : Ledger P E S) : Prop where
  /-- An open source has handed over nothing. -/
  fresh : ∀ p, l.value p = none → l.passing p = []
  /-- Nobody waits at a source that has its value. -/
  closed : ∀ p, l.value p ≠ none → l.waiting p = []
  /-- Everybody gets the value of the source. -/
  jobs : ∀ job ∈ l.delivered ++ l.queue, l.value job.source = some job.value
  account : ∀ p, (l.places p).Perm (registeredAt p l.registered)

variable {strict : Bool} {l l' : Ledger P E S}

theorem Fresh.balanced (h : l.Fresh) : l.Balanced where
  fresh p _ := h.passing p
  closed p _ := h.waiting p
  jobs job hjob := by simp [h.delivered, h.queue] at hjob
  account p := by
    rw [places, h.delivered, h.queue, h.passing, h.waiting, h.registered]
    exact .refl _

section

variable (h : Step strict l l')

include h

/-- A value that was taken stays. -/
theorem Step.value {s : S} (hs : l.value p = some s) : l'.value p = some s := by
  cases h with
  | settle p' s' hopen =>
    have hne : p ≠ p' := by
      rintro rfl
      rw [hopen] at hs
      cases hs
    simpa [Function.update_of_ne hne] using hs
  | _ => exact hs

/-- What a step does to the listeners of one source: they stay in their order, or one registers.
The newcomer comes last in a strict step. -/
theorem Step.places (hclosed : ∀ p, l.value p ≠ none → l.waiting p = []) :
    (l'.places q = l.places q ∧ registeredAt q l'.registered = registeredAt q l.registered) ∨
    ∃ e, registeredAt q l'.registered = registeredAt q l.registered ++ [e] ∧
      (l'.places q).Perm (l.places q ++ [e]) ∧
      (strict = true → l'.places q = l.places q ++ [e]) := by
  cases h with
  | idle => exact .inl ⟨rfl, rfl⟩
  | wait p e hopen =>
    by_cases hqp : p = q
    · subst hqp
      have hplaces : Ledger.places { l with
          registered := l.registered ++ [(p, e)]
          waiting := Function.update l.waiting p (l.waiting p ++ [e]) } p = l.places p ++ [e] := by
        simp [Ledger.places]
      refine .inr ⟨e, ?_, .of_eq hplaces, fun _ ↦ hplaces⟩
      rw [registeredAt_append, registeredAt_singleton_self]
    · refine .inl ⟨?_, ?_⟩
      · simp [Ledger.places, Function.update_of_ne (Ne.symm hqp)]
      · rw [registeredAt_append, registeredAt_singleton_of_ne hqp, List.append_nil]
  | join p e s hvalue hstrict =>
    by_cases hqp : p = q
    · subst hqp
      have hwaiting : l.waiting p = [] := hclosed p (by simp [hvalue])
      refine .inr ⟨e, ?_, ?_, fun h ↦ ?_⟩
      · rw [registeredAt_append, registeredAt_singleton_self]
      · -- the newcomer overtakes those that are still being handed over
        simp only [Ledger.places, jobsOf_append, jobsOf_singleton_self, hwaiting, List.append_nil,
          List.append_assoc]
        exact (List.perm_append_comm.append_left _).append_left _
      · simp [Ledger.places, jobsOf_singleton_self, hwaiting, hstrict h]
    · refine .inl ⟨?_, ?_⟩
      · simp [Ledger.places, jobsOf_singleton_of_ne hqp]
      · rw [registeredAt_append, registeredAt_singleton_of_ne hqp, List.append_nil]
  | settle p s hopen =>
    refine .inl ⟨?_, rfl⟩
    by_cases hqp : p = q
    · subst hqp
      simp [Ledger.places]
    · simp [Ledger.places, Function.update_of_ne (Ne.symm hqp)]
  | pass p e rest s hpassing hvalue =>
    refine .inl ⟨?_, rfl⟩
    by_cases hqp : p = q
    · subst hqp
      simp [Ledger.places, jobsOf_singleton_self, hpassing]
    · simp [Ledger.places, jobsOf_singleton_of_ne hqp, Function.update_of_ne (Ne.symm hqp)]
  | deliver job jobs hqueue =>
    refine .inl ⟨?_, rfl⟩
    have hcons : jobsOf q l.queue = jobsOf q [job] ++ jobsOf q jobs := by
      rw [hqueue, ← jobsOf_append, List.singleton_append]
    simp [Ledger.places, hcons]

theorem Step.fresh (hl : l.Balanced) (hq : l'.value q = none) : l'.passing q = [] := by
  have hopen : l.value q = none := by
    by_contra hne
    obtain ⟨s, hs⟩ := Option.ne_none_iff_exists'.mp hne
    rw [h.value hs] at hq
    cases hq
  have hpassing := hl.fresh q hopen
  cases h with
  | settle p s _ =>
    have hne : q ≠ p := by
      rintro rfl
      simp at hq
    simpa [Function.update_of_ne hne] using hpassing
  | pass p e rest s _ hvalue =>
    have hne : q ≠ p := by
      rintro rfl
      rw [hopen] at hvalue
      cases hvalue
    simpa [Function.update_of_ne hne] using hpassing
  | _ => exact hpassing

theorem Step.closed (hl : l.Balanced) (hq : l'.value q ≠ none) : l'.waiting q = [] := by
  cases h with
  | wait p e hopen =>
    have hne : q ≠ p := by
      rintro rfl
      exact hq hopen
    simpa [Function.update_of_ne hne] using hl.closed q hq
  | settle p s _ =>
    by_cases hqp : q = p
    · subst hqp
      exact Function.update_self ..
    · simp only [Function.update_of_ne hqp] at hq ⊢
      exact hl.closed q hq
  | _ => exact hl.closed q hq

theorem Step.jobs (hl : l.Balanced) {job : Job P E S}
    (hjob : job ∈ l'.delivered ++ l'.queue) : l'.value job.source = some job.value := by
  -- a job is an old one, or carries the value that was read when it was queued
  have hold : job ∈ l.delivered ++ l.queue ∨ l.value job.source = some job.value := by
    cases h with
    | join p e s hvalue _ | pass p e _ s _ hvalue =>
      rw [← List.append_assoc] at hjob
      rcases List.mem_append.mp hjob with hjob | hjob
      · exact .inl hjob
      · rw [List.mem_singleton.mp hjob]
        exact .inr hvalue
    | deliver job' jobs hqueue =>
      rw [hqueue]
      exact .inl (by simpa using hjob)
    | _ => exact .inl hjob
  exact h.value (hold.elim (hl.jobs job) id)

theorem Step.balanced (hl : l.Balanced) : l'.Balanced where
  fresh _ := h.fresh hl
  closed _ := h.closed hl
  jobs _ := h.jobs hl
  account q := by
    rcases h.places hl.closed with ⟨hplaces, hreg⟩ | ⟨e, hreg, hplaces, -⟩
    · rw [hplaces, hreg]
      exact hl.account q
    · rw [hreg]
      exact hplaces.trans ((hl.account q).append_right [e])

end

/-- Everybody is where the order of registration puts them. -/
def Ordered (l : Ledger P E S) : Prop := ∀ p, l.places p = registeredAt p l.registered

theorem Fresh.ordered (h : l.Fresh) : l.Ordered := fun p ↦ by
  rw [places, h.delivered, h.queue, h.passing, h.waiting, h.registered]
  rfl

/-- Nobody overtakes in a strict step. -/
theorem Step.ordered (h : Step true l l') (hl : l.Balanced) (ho : l.Ordered) : l'.Ordered := by
  intro q
  rcases h.places hl.closed with ⟨hplaces, hreg⟩ | ⟨e, hreg, -, hplaces⟩
  · rw [hplaces, hreg, ho q]
  · rw [hplaces rfl, hreg, ho q]

/-! ## Runs -/

/-- Any number of steps. -/
abbrev Run (strict : Bool) : Ledger P E S → Ledger P E S → Prop :=
  Relation.ReflTransGen (Step strict)

theorem Run.value (h : Run strict l l') {s : S} (hs : l.value p = some s) :
    l'.value p = some s := by
  induction h with
  | refl => exact hs
  | tail _ hstep ih => exact hstep.value ih

theorem Run.balanced (h : Run strict l l') (hl : l.Balanced) : l'.Balanced := by
  induction h with
  | refl => exact hl
  | tail _ hstep ih => exact hstep.balanced ih

theorem Run.ordered (h : Run true l l') (hl : l.Balanced) (ho : l.Ordered) : l'.Ordered := by
  induction h with
  | refl => exact ho
  | tail hrun hstep ih => exact hstep.ordered (Run.balanced hrun hl) ih

end Ledger

end Delivery
