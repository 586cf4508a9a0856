import Hara.Vm.Run

/-!
# Regions of code

A region is a stretch of a function's code in one frame. What its instructions call belongs to it,
and so does waiting for a promise. `Leaves` follows a run from inside a region to the first status
outside it, and `Leaves.cut` splits such a run where it leaves a smaller region. `Lands` tells what
becomes of an error.
-/

namespace Hara.Vm

open List

variable {H : Type} {rt : Runtime H} {program : Program}

/-- The instructions `[start, stop)` of a function, in the frame above `calls`. -/
structure Region where
  function : ℕ
  calls : List SavedFrame
  start : ℕ
  stop : ℕ

namespace Region

variable {R R' : Region} {m : Machine H} {s s' s'' : Status H}

/-- The machine executes an instruction of the region, or something that one of them called. -/
def Holds (R : Region) (m : Machine H) : Prop :=
  ∃ ip, R.start ≤ ip ∧ ip < R.stop ∧
    (m.function = R.function ∧ m.ip = ip ∧ m.calls = R.calls ∨
      ∃ inner frame, m.calls = inner ++ ⟨R.function, frame, ip⟩ :: R.calls)

/-- The run is in the region; a machine that waits goes on where it is. -/
def Goes (R : Region) : Status H → Prop
  | .running m | .stopped (.suspended _) m | .stopped (.yielded _) m => R.Holds m
  | .stopped _ _ => False

/-- The same stretch up to other ends. -/
def within (R : Region) (start stop : ℕ) : Region := { R with start, stop }

theorem Holds.mono {start stop : ℕ} (h : (R.within start stop).Holds m) (hstart : R.start ≤ start)
    (hstop : stop ≤ R.stop) : R.Holds m := by
  obtain ⟨ip, hle, hlt, hm⟩ := h
  exact ⟨ip, hstart.trans hle, hlt.trans_le hstop, hm⟩

theorem Goes.mono {start stop : ℕ} (h : (R.within start stop).Goes s) (hstart : R.start ≤ start)
    (hstop : stop ≤ R.stop) : R.Goes s := by
  match s with
  | .running m | .stopped (.suspended _) m | .stopped (.yielded _) m =>
    exact Holds.mono h hstart hstop

theorem holds_of_ip (hfunction : m.function = R.function) (hcalls : m.calls = R.calls)
    (hstart : R.start ≤ m.ip) (hstop : m.ip < R.stop) : R.Holds m :=
  ⟨m.ip, hstart, hstop, .inl ⟨hfunction, rfl, hcalls⟩⟩

/-- In the frame of the region only its own instructions belong to it. -/
theorem not_holds_of_ip (hcalls : m.calls = R.calls) (hip : m.ip < R.start ∨ R.stop ≤ m.ip) :
    ¬R.Holds m := by
  rintro ⟨ip, hstart, hstop, ⟨-, rfl, -⟩ | ⟨inner, frame, hinner⟩⟩
  · omega
  · rw [hcalls] at hinner
    have hlength := congrArg length hinner
    rw [length_append, length_cons] at hlength
    omega

/-- A machine that has dropped the frame of the region is outside. -/
theorem not_holds_of_dropped (hcalls : m.calls.length < R.calls.length) : ¬R.Holds m := by
  rintro ⟨ip, -, -, ⟨-, -, heq⟩ | ⟨inner, frame, heq⟩⟩
  · rw [heq] at hcalls
    exact lt_irrefl _ hcalls
  · rw [heq, length_append, length_cons] at hcalls
    omega

end Region

/-! ## Leaving a region -/

/-- A run from the first status ends, outside the region for the first time, in the second. -/
inductive Leaves (rt : Runtime H) (program : Program) (R : Region) : Status H → Status H → Prop
  | exit {s s' : Status H} (hturn : Turn rt program s s') (hout : ¬R.Goes s') :
    Leaves rt program R s s'
  | stay {s s' s'' : Status H} (hturn : Turn rt program s s') (hin : R.Goes s')
    (hrest : Leaves rt program R s' s'') : Leaves rt program R s s''

namespace Leaves

variable {R : Region} {s s' : Status H} {m m' : Machine H}

theorem not_goes (h : Leaves rt program R s s') : ¬R.Goes s' := by
  induction h with
  | exit _ hout => exact hout
  | stay _ _ _ ih => exact ih

theorem reaches (h : Leaves rt program R s s') : Relation.ReflTransGen (Turn rt program) s s' := by
  induction h with
  | exit hturn _ => exact .single hturn
  | stay hturn _ _ ih => exact .head hturn ih

/-- A run that leaves a region has left every smaller one before. -/
theorem cut {start stop : ℕ} (h : Leaves rt program R s s') (hstart : R.start ≤ start)
    (hstop : stop ≤ R.stop) :
    ∃ s₁, Leaves rt program (R.within start stop) s s₁ ∧
      (s₁ = s' ∨ R.Goes s₁ ∧ Leaves rt program R s₁ s') := by
  induction h with
  | exit hturn hout =>
    exact ⟨_, .exit hturn fun hin ↦ hout (hin.mono hstart hstop), .inl rfl⟩
  | @stay s s₂ s' hturn hin hrest ih =>
    by_cases hinner : (R.within start stop).Goes s₂
    · obtain ⟨s₁, hleaves, hnext⟩ := ih
      exact ⟨s₁, .stay hturn hinner hleaves, hnext⟩
    · exact ⟨s₂, .exit hturn hinner, .inr ⟨hin, hrest⟩⟩

/-- The first step of a run. -/
theorem step_cases (h : Leaves rt program R (.running m) s) :
    R.Goes (step rt program m) ∧ Leaves rt program R (step rt program m) s ∨
      s = step rt program m := by
  generalize hs : Status.running m = s₀ at h
  cases h with
  | exit hturn hout =>
    subst hs
    cases hturn
    exact .inr rfl
  | stay hturn hin hrest =>
    subst hs
    cases hturn
    exact .inl ⟨hin, hrest⟩

/-- After a step that stays inside, the run goes on. -/
theorem next (h : Leaves rt program R (.running m) s)
    (hstep : step rt program m = .running m') (hin : R.Holds m') :
    Leaves rt program R (.running m') s := by
  rcases h.step_cases with ⟨-, hrest⟩ | rfl
  · exact hstep ▸ hrest
  · exact absurd (hstep ▸ hin : R.Goes (step rt program m)) h.not_goes

/-- After a step that leaves, the run has ended. -/
theorem eq_of_step (h : Leaves rt program R (.running m) s) (hout : ¬R.Goes (step rt program m)) :
    s = step rt program m := by
  rcases h.step_cases with ⟨hin, -⟩ | rfl
  · exact absurd hin hout
  · rfl

end Leaves

/-! ## Frames -/

/-- Both machines execute the same frame, perhaps with other values in it. -/
structure SameFrame (m m' : Machine H) : Prop where
  function : m'.function = m.function
  calls : m'.calls = m.calls
  base : m'.frame.base = m.frame.base
  locals : m'.frame.locals.length = m.frame.locals.length

namespace SameFrame

variable {m m' m'' : Machine H}

theorem trans (h : SameFrame m m') (h' : SameFrame m' m'') : SameFrame m m'' :=
  ⟨h'.function.trans h.function, h'.calls.trans h.calls, h'.base.trans h.base,
    h'.locals.trans h.locals⟩

end SameFrame

/-! ## Where errors land -/

section Raise

variable {m m' : Machine H} {trap : Trap} {message : String} {entry : TryEntry} {target : ℕ}

/-- A delivered value changes the locals only. -/
theorem deliver_spec {slot : ℕ} {value : VmSlot} {fault : Fault}
    (h : m.deliver slot value fault = .ok m') :
    SameFrame m m' ∧ m'.ip = m.ip ∧ m'.world = m.world := by
  rw [Machine.deliver, Frame.store] at h
  split_ifs at h
  cases h
  exact ⟨⟨rfl, rfl, rfl, length_set⟩, rfl, rfl⟩

theorem caughtError_heap (message : String) (w : World H) :
    (caughtError message w).2.heap = w.heap := by
  rw [caughtError]
  split
  · split_ifs <;> rfl
  · rfl

/-- An entry that takes an error goes on at one of its targets, in the same frame. -/
theorem raiseEntry_ok (h : raiseEntry message m entry = some (.ok (target, m'))) :
    entry.start ≤ m.ip ∧ m.ip < entry.stop ∧ target ∈ entry.targets ∧ SameFrame m m' ∧
      m'.world.heap = m.world.heap := by
  rw [raiseEntry] at h
  split at h
  · cases h
  next hcovers =>
    have hheap := caughtError_heap message m.world
    have hunwound : SameFrame m (m.unwindTo (m.frame.base + entry.depth) message) :=
      ⟨rfl, rfl, rfl, rfl⟩
    refine ⟨by omega, by omega, ?_⟩
    simp only at h
    split at h
    · cases h
    · split at h
      next clause hclause =>
        cases hdeliver : (m.unwindTo (m.frame.base + entry.depth) message).deliver clause.binding
            (.ofValue (caughtError message m.world).1) .catchBinding with
        | error fault =>
          rw [hdeliver] at h
          cases h
        | ok m₁ =>
          rw [hdeliver] at h
          cases h
          obtain ⟨hframe, -, hworld⟩ := deliver_spec hdeliver
          refine ⟨?_, hunwound.trans hframe, hworld ▸ hheap⟩
          exact mem_append_left _ (mem_map_of_mem (mem_of_find?_eq_some hclause))
      · split at h
        · cases h
        next hfinally =>
          split at h
          next valueSlot flagSlot hvalue hflag =>
            cases hdeliver : (m.unwindTo (m.frame.base + entry.depth) message).deliver valueSlot
                (.ofValue (caughtError message m.world).1) .pendingSlot with
            | error fault =>
              rw [hdeliver] at h
              cases h
            | ok m₁ =>
              rw [hdeliver] at h
              cases hdeliver' : m₁.deliver flagSlot (.bool true) .pendingSlot with
              | error fault =>
                simp only [Except.bind, hdeliver'] at h
                cases h
              | ok m₂ =>
                simp only [Except.bind, hdeliver'] at h
                cases h
                obtain ⟨hframe, -, hworld⟩ := deliver_spec hdeliver
                obtain ⟨hframe', -, hworld'⟩ := deliver_spec hdeliver'
                refine ⟨?_, (hunwound.trans hframe).trans hframe', ?_⟩
                · exact mem_append_right _ (by simp [hfinally])
                · rw [hworld', hworld]
                  exact hheap
          · cases h

/-- An error is taken by an entry of the current function, or the frame is dropped. -/
theorem raiseThrough_ok {calls : List SavedFrame} (hcalls : m.calls = calls)
    (h : raiseThrough program trap calls m = .ok (target, m')) :
    m'.world.heap = m.world.heap ∧
      ((∃ function, program.functions[m.function]? = some function ∧
        ∃ entry ∈ function.handlers,
          raiseEntry trap.message m entry = some (.ok (target, m'))) ∨
        m'.calls.length < m.calls.length) := by
  -- the saved frames are dropped one by one
  induction calls generalizing m with
  | nil =>
    rw [raiseThrough] at h
    split at h
    · cases h
    next function hfunction =>
      split at h
      next result hsearch =>
        cases h
        obtain ⟨entry, hentry, hraise⟩ := exists_of_findSome?_eq_some hsearch
        obtain ⟨-, -, -, -, hheap⟩ := raiseEntry_ok hraise
        exact ⟨hheap, .inl ⟨function, hfunction, entry, mem_reverse.mp hentry, hraise⟩⟩
      · cases h
      · cases h
  | cons caller rest ih =>
    rw [raiseThrough] at h
    split at h
    · cases h
    next function hfunction =>
      split at h
      next result hsearch =>
        cases h
        obtain ⟨entry, hentry, hraise⟩ := exists_of_findSome?_eq_some hsearch
        obtain ⟨-, -, -, -, hheap⟩ := raiseEntry_ok hraise
        exact ⟨hheap, .inl ⟨function, hfunction, entry, mem_reverse.mp hentry, hraise⟩⟩
      · cases h
      · obtain ⟨hheap, hlanded⟩ := ih rfl h
        refine ⟨hheap, .inr ?_⟩
        have hrest : (m.dropFrame caller rest).calls.length = rest.length := rfl
        rw [hcalls, length_cons]
        rcases hlanded with ⟨_, -, entry, -, hraise⟩ | hless
        · obtain ⟨-, -, -, hframe, -⟩ := raiseEntry_ok hraise
          rw [hframe.calls, hrest]
          exact Nat.lt_succ_self _
        · omega

/-- The innermost entry that takes an error is the last one of the table that does. -/
theorem raise_of_entry {function : FunctionPrototype} {before after : List TryEntry}
    {result : ℕ × Machine H} (hfunction : program.functions[m.function]? = some function)
    (hhandlers : function.handlers = before ++ entry :: after)
    (hafter : ∀ e ∈ after, raiseEntry trap.message m e = none)
    (hentry : raiseEntry trap.message m entry = some (.ok result)) :
    raise program m trap = .ok result := by
  have hsearch : function.handlers.reverse.findSome? (raiseEntry trap.message m) =
      some (.ok result) := by
    have hnone : after.reverse.findSome? (raiseEntry trap.message m) = none :=
      findSome?_eq_none_iff.mpr fun e he ↦ hafter e (mem_reverse.mp he)
    rw [hhandlers, reverse_append, reverse_cons, append_assoc, findSome?_append, hnone,
      Option.none_or, singleton_append, findSome?_cons, hentry]
  rw [raise, raiseThrough.eq_def]
  simp only [hfunction, hsearch]

/-- What becomes of an error raised at a machine: it lands where a handler takes it, perhaps with a
trace of the loop there, or it ends the run. -/
def Lands (rt : Runtime H) (program : Program) (m : Machine H) (trap : Trap) (s : Status H) :
    Prop :=
  match raise program m trap with
  | .ok (target, m') =>
    s = .running { m' with ip := target } ∨ s = .running (continueAt rt m' target)
  | .error error => ∃ m', s = .stopped (.failed error) m' ∧ m'.world = m.world

/-- The machine that runs or has stopped. -/
def Status.machine : Status H → Machine H
  | .running m | .stopped _ m => m

namespace Lands

variable {s : Status H}

theorem leaveDispatch (m : Machine H) (trap : Trap) :
    Lands rt program m trap (leaveDispatch rt program m (.raised trap)) := by
  simp only [Lands, Vm.leaveDispatch]
  cases raise program m trap with
  | ok landed => exact .inr rfl
  | error error => exact ⟨m, rfl, rfl⟩

theorem continueAt_eq {ip : ℕ} (h : m.ip < ip) : continueAt rt m ip = { m with ip } := by
  rw [continueAt, if_neg (by omega)]

/-- An error that a later region of the function takes. -/
theorem handled (h : Lands rt program m trap s) (hraise : raise program m trap = .ok (target, m'))
    (hlt : m'.ip < target) : s = .running { m' with ip := target } := by
  simp only [Lands, hraise, continueAt_eq hlt, or_self] at h
  exact h

variable (h : Lands rt program m trap s)

include h

/-- Neither handlers nor traces change what a view of the heap shows. -/
theorem view {α : Type} {view : H → α}
    (htrace : ∀ function header values w,
      view (rt.backedge function header values w).2.heap = view w.heap) :
    view s.machine.world.heap = view m.world.heap := by
  rw [Lands] at h
  split at h
  next target m' hraise =>
    have hheap := (raiseThrough_ok rfl hraise).1
    rcases h with rfl | rfl
    · exact congrArg view hheap
    · rw [← hheap, Status.machine, continueAt]
      have htrace := htrace m'.function target (m'.frame.traceLocals.map Prod.fst) m'.world
      split_ifs
      · split
        all_goals
          next hbackedge =>
            rw [hbackedge] at htrace
            exact htrace
      · rfl
  next error hraise =>
    obtain ⟨m', rfl, hworld⟩ := h
    rw [Status.machine, hworld]

/-- An error that no handler takes inside the region leaves it. -/
theorem not_goes {R : Region} {function : FunctionPrototype}
    (hfound : m.function = R.function) (hcalls : m.calls = R.calls)
    (hfunction : program.functions[R.function]? = some function)
    (hout : ∀ entry ∈ function.handlers, ∀ target m',
      raiseEntry trap.message m entry = some (.ok (target, m')) →
        target < R.start ∨ R.stop ≤ target) : ¬R.Goes s := by
  rw [Lands] at h
  split at h
  next target m' hraise =>
    -- both landings are in the frame of `m'`, at the target
    have hlanded : ∀ m₁ : Machine H, m₁.calls = m'.calls → m₁.ip = target → ¬R.Holds m₁ := by
      intro m₁ hcalls₁ hip
      rcases (raiseThrough_ok rfl hraise).2 with
        ⟨function', hfunction', entry, hentry, htaken⟩ | hless
      · rw [hfound, hfunction, Option.some.injEq] at hfunction'
        subst hfunction'
        obtain ⟨-, -, -, hframe, -⟩ := raiseEntry_ok htaken
        refine Region.not_holds_of_ip (hcalls₁.trans (hframe.calls.trans hcalls)) ?_
        rw [hip]
        exact hout entry hentry target m' htaken
      · refine Region.not_holds_of_dropped ?_
        rw [hcalls₁, ← hcalls]
        exact hless
    rcases h with rfl | rfl
    · exact hlanded _ rfl rfl
    · refine hlanded _ ?_ ?_
      · rw [continueAt]
        split_ifs
        · split <;> rfl
        · rfl
      · rw [continueAt]
        split_ifs
        · split <;> rfl
        · rfl
  next error hraise =>
    obtain ⟨m', rfl, -⟩ := h
    exact id

end Lands

end Raise

end Hara.Vm
