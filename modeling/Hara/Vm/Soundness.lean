import Hara.Vm.DispatchSpec

/-!
# Soundness of validation

The invariant of a run: the operands above the current frame's base are as many as the height
computed for the current instruction, and the same holds at the call instruction of every saved
frame once its own operands are taken. `step_ok` shows that one turn of the run loop keeps the
invariant and stops with no internal fault, `turn_ok` adds resumptions, and `run_ok` carries both
along whole runs.

Validation checks net stack effects only. What a turn needs beyond it is `CoveredAt`: the current
instruction finds its operands in its own frame, and the frames and handlers it relies on are
large enough.
-/

namespace Hara.Vm

open EStateM
open List hiding modify

variable {H : Type} {rt : Runtime H} {program : Program} {slot : VmSlot} {args : List VmSlot}
  {target function : FunctionPrototype} {message : String} {prototype argc : ℕ} {s : Status H}
  {r : Except Fault (ℕ × Machine H)} {m : Machine H}

/-! ## Frames -/

theorem fill_length (start : ℕ) (values locals : List VmSlot) :
    (Frame.fill start values locals).length = locals.length := by
  induction values generalizing start locals with
  | nil => rfl
  | cons value values ih => rw [Frame.fill, ih, length_set]

theorem mem_fill {start : ℕ} {values locals : List VmSlot}
    (h : slot ∈ Frame.fill start values locals) : slot ∈ values ∨ slot ∈ locals := by
  induction values generalizing start locals with
  | nil => exact .inr h
  | cons value values ih =>
    rcases ih h with h | h
    · exact .inl (mem_cons_of_mem _ h)
    · rcases mem_or_eq_of_mem_set h with h | rfl
      · exact .inr h
      · exact .inl mem_cons_self

theorem mem_fill_nil {start n localCount : ℕ} {values : List VmSlot}
    (hvalues : ∀ slot ∈ values, slot.InRange n) :
    ∀ slot ∈ Frame.fill start values (List.replicate localCount .nil), slot.InRange n := by
  intro slot hslot
  rcases mem_fill hslot with h | h
  · exact hvalues slot h
  · rw [eq_of_mem_replicate h]
    exact inRange_nil

/-- What a trace leaves in the local slots. -/
theorem applyFrom_spec {n index : ℕ} {values : List TraceValue} {writable : List Bool}
    {locals : List VmSlot} (h : ∀ slot ∈ locals, slot.InRange n) :
    (Frame.applyFrom index values writable locals).length = locals.length ∧
      ∀ slot ∈ Frame.applyFrom index values writable locals, slot.InRange n := by
  induction values generalizing index writable locals with
  | nil => exact ⟨rfl, h⟩
  | cons value values ih =>
    cases writable with
    | nil => exact ⟨rfl, h⟩
    | cons writable rest =>
      have hslot {slot : VmSlot} (hs : value.slot = some slot) : slot.InRange n := by
        cases value <;> cases hs <;> exact .plain rfl
      rw [Frame.applyFrom]
      cases writable with
      | false => exact ih h
      | true =>
        rcases hvalue : value.slot with _ | slot
        · exact ih h
        · have hset : ∀ s ∈ locals.set index slot, s.InRange n := by
            intro s hs
            rcases mem_or_eq_of_mem_set hs with hs | rfl
            · exact h s hs
            · exact hslot hvalue
          obtain ⟨hlength, hrange⟩ := @ih (index + 1) rest (locals.set index slot) hset
          exact ⟨hlength.trans length_set, hrange⟩

/-- `i` is one of the two instructions that can save the current frame. -/
def Instruction.IsCall (i : Instruction) : Prop :=
  (∃ argc, i = .call argc) ∨ ∃ prototype argc, i = .callStatic prototype argc

theorem Instruction.IsCall.facts {i : Instruction} (h : i.IsCall) :
    i.mayRaise ∧ i.results = 1 ∧ i.fallsThrough ∧ ∃ effect, i.stackEffect = some effect := by
  rcases h with ⟨argc, rfl⟩ | ⟨prototype, argc, rfl⟩ <;> exact ⟨rfl, rfl, rfl, _, rfl⟩

/-- A function at an instruction whose operands are covered. -/
structure Site (program : Program) (index ip : ℕ) (function : FunctionPrototype)
    (heights : List ℕ) (height : ℕ) (i : Instruction) : Prop where
  found : program.functions[index]? = some function
  validated : Validated program function heights
  instruction : function.code[ip]? = some i
  labelled : heights[ip]? = some height
  covered : Covered program function ip height i

/-- The saved frame `caller` waits at a call whose callee's frame starts at `base`. -/
def CallerOk (program : Program) (base : ℕ) (caller : SavedFrame) : Prop :=
  ∃ function heights height i,
    Site program caller.function caller.callIp function heights height i ∧
    i.IsCall ∧ base = caller.frame.base + (height - i.operands) ∧
    caller.frame.locals.length = function.localCount ∧
    ∀ slot ∈ caller.frame.locals, slot.InRange program.functions.length

/-- All saved frames wait at their calls, innermost first. -/
def CallsOk (program : Program) : ℕ → List SavedFrame → Prop
  | _, [] => True
  | base, caller :: rest => CallerOk program base caller ∧ CallsOk program caller.frame.base rest

/-- The machine runs `function` with `k` operands above the base of its frame. -/
structure Framed (program : Program) (m : Machine H) (function : FunctionPrototype) (k : ℕ) :
    Prop where
  found : program.functions[m.function]? = some function
  stack : m.stack.length = m.frame.base + k
  locals : m.frame.locals.length = function.localCount
  slots : SlotsOk program.functions.length m
  calls : CallsOk program m.frame.base m.calls

/-- **The invariant.** As many operands lie above the frame's base as the validator computed for
the current instruction. -/
def Inv (program : Program) (m : Machine H) : Prop :=
  ∃ function heights height, Validated program function heights ∧
    heights[m.ip]? = some height ∧ Framed program m function height

section Framed

variable {m' : Machine H} {k : ℕ}

section

variable (h : Framed program m function k)

include h

theorem Framed.touched {taken : ℕ} {pushed : List VmSlot}
    (ht : Touched program.functions.length taken pushed m m') (htaken : taken ≤ k) :
    Framed program m' function (k - taken + pushed.length) := by
  refine ⟨by rw [ht.function]; exact h.found, ?_, by rw [ht.locals]; exact h.locals, ht.slots,
    by rw [ht.base, ht.calls]; exact h.calls⟩
  have hstack := h.stack
  rw [ht.stack, ht.base, length_append, length_drop]
  omega

theorem Framed.ip (ip : ℕ) :
    Framed program { m with ip } function k :=
  { h with slots := { h.slots with } }

theorem Framed.push (hslot : slot.InRange program.functions.length) :
    Framed program { m with stack := slot :: m.stack } function (k + 1) := by
  refine { h with stack := ?_, slots := h.slots.push hslot }
  have hstack := h.stack
  simp only [length_cons]
  omega

theorem Framed.truncate {depth : ℕ} (hdepth : depth ≤ k) :
    Framed program (m.truncate (m.frame.base + depth)) function depth := by
  refine { h with stack := ?_, slots := h.slots.drop _ }
  have hstack := h.stack
  simp only [Machine.truncate, length_drop]
  omega

theorem Framed.world (hm : SameButWorld m m') :
    Framed program m' function k := by
  obtain ⟨world, rfl⟩ := hm
  exact { h with slots := { h.slots with } }

theorem Framed.deliver {slot : ℕ} {value : VmSlot} {fault : Fault}
    (hslot : slot < function.localCount) (hvalue : value.InRange program.functions.length) :
    ∃ m', m.deliver slot value fault = .ok m' ∧ Framed program m' function k := by
  have hlt : slot < m.frame.locals.length := by
    rw [h.locals]
    exact hslot
  refine ⟨{ m with frame := { m.frame with locals := m.frame.locals.set slot value } }, ?_, ?_⟩
  · simp [Machine.deliver, Frame.store, hlt]
  · exact { h with locals := length_set.trans h.locals, slots := h.slots.store hvalue }

/-- A trace changes nothing but local slots. -/
theorem Framed.trace (values : List TraceValue) (writable : List Bool) :
    Framed program { m with frame := m.frame.applyTraceLocals values writable } function k := by
  obtain ⟨hlength, hrange⟩ := applyFrom_spec h.slots.locals
  exact { h with locals := hlength.trans h.locals, slots := { h.slots with locals := hrange } }

/-- Dropping the current frame leaves the caller with its call's operands taken. -/
theorem Framed.dropFrame {caller : SavedFrame} {rest : List SavedFrame}
    (hcalls : m.calls = caller :: rest) :
    ∃ function' heights' height' i, Site program caller.function caller.callIp function' heights'
      height' i ∧ i.IsCall ∧
      Framed program (m.dropFrame caller rest) function' (height' - i.operands) := by
  have hok := h.calls
  rw [hcalls] at hok
  obtain ⟨⟨function', heights', height', i, hsite, hcall, hbase, hlocals, hslots⟩, hrest⟩ := hok
  refine ⟨function', heights', height', i, hsite, hcall, hsite.found, ?_, hlocals,
    ⟨(h.slots.drop _).stack, hslots, h.slots.vmGlobals⟩, hrest⟩
  have hstack := h.stack
  simp only [Machine.dropFrame, Machine.truncate, length_drop]
  omega

end

/-- At the header of a loop there are as many operands after a trace as before. -/
theorem Inv.continueAt (rt : Runtime H) {ip : ℕ} (h : Inv program { m with ip }) :
    Inv program (continueAt rt m ip) := by
  obtain ⟨function, heights, height, hval, hheight, hframed⟩ := h
  rw [Vm.continueAt]
  split
  · split
    next values world _ =>
      refine ⟨function, heights, height, hval, hheight, ?_⟩
      exact (hframed.trace values _).world ⟨world, rfl⟩
    next world _ => exact ⟨function, heights, height, hval, hheight, hframed.world ⟨world, rfl⟩⟩
  · exact ⟨function, heights, height, hval, hheight, hframed⟩

end Framed

/-! ## Unwinding -/

section Unwinding

variable {heights : List ℕ} {k : ℕ}

/-- The handlers covering the current instruction find their operands in place. -/
def HandlersFit (function : FunctionPrototype) (ip k : ℕ) : Prop :=
  ∀ entry ∈ function.handlers, entry.start ≤ ip → ip < entry.stop → entry.depth ≤ k

theorem raiseEntry_spec {entry : TryEntry} (hframed : Framed program m function k)
    (hok : HandlerOk function heights entry)
    (hfit : entry.start ≤ m.ip → m.ip < entry.stop → entry.depth ≤ k)
    (h : raiseEntry message m entry = some r) :
    ∃ target m', r = .ok (target, m') ∧ target ∈ entry.targets ∧
      Framed program m' function entry.depth := by
  rw [raiseEntry] at h
  split at h
  · simp at h
  next hcovers =>
    have hdepth : entry.depth ≤ k := hfit (by omega) (by omega)
    have hstack := hframed.stack
    rw [if_neg (by omega)] at h
    have hunwound : Framed program (m.unwindTo (m.frame.base + entry.depth) message) function
        entry.depth := (hframed.truncate hdepth).world ⟨_, rfl⟩
    have hcaught := inRange_ofValue (n := program.functions.length) (caughtError message m.world).1
    split at h
    next clause hclause =>
      have hmem := mem_of_find?_eq_some hclause
      obtain ⟨m', hm', hframed'⟩ := hunwound.deliver (hok.binding clause hmem) hcaught
      refine ⟨clause.target, m', ?_, ?_, hframed'⟩
      · rw [← Option.some.inj h, hm', Except.map]
      · exact mem_append_left _ (mem_map.mpr ⟨clause, hmem, rfl⟩)
    · split at h
      · simp at h
      next target hfinally =>
        obtain ⟨value, flag, hvalue, hflag, hvlt, hflt⟩ := hok.pending target hfinally
        simp only [hvalue, hflag] at h
        obtain ⟨m₁, hm₁, hframed₁⟩ := hunwound.deliver hvlt hcaught
        obtain ⟨m₂, hm₂, hframed₂⟩ := hframed₁.deliver hflt inRange_bool
        refine ⟨target, m₂, ?_, ?_, hframed₂⟩
        · rw [← Option.some.inj h, hm₁, Except.bind, hm₂, Except.map]
        · exact mem_append_right _ (by simp [hfinally])

/-- A handler found in the current function continues where its region's height is the number of
operands left. -/
theorem findHandler_spec (hval : Validated program function heights)
    (hframed : Framed program m function k) (hfit : HandlersFit function m.ip k)
    (h : function.handlers.reverse.findSome? (raiseEntry message m) = some r) :
    ∃ target m', r = .ok (target, m') ∧ Inv program { m' with ip := target } := by
  obtain ⟨entry, hentry, hr⟩ := exists_of_findSome?_eq_some h
  have hentry : entry ∈ function.handlers := mem_reverse.mp hentry
  have hok := hval.handlers entry hentry
  obtain ⟨target, m', rfl, htarget, hframed'⟩ := raiseEntry_spec hframed hok (hfit entry hentry) hr
  exact ⟨target, m', rfl, function, heights, entry.depth, hval,
    hval.heightsOk.target_height hentry hok.depth htarget, hframed'.ip target⟩

/-- An unwind lands in a region whose height is the number of operands left, or ends the run with
the error that was raised. -/
theorem raiseThrough_spec (trap : Trap) (hval : Validated program function heights)
    (hframed : Framed program m function k) (hfit : HandlersFit function m.ip k)
    {calls : List SavedFrame} (hcalls : m.calls = calls) :
    match raiseThrough program trap calls m with
    | .ok (target, m') => Inv program { m' with ip := target }
    | .error error => error.trap = trap := by
  -- the saved frames are dropped one by one
  induction calls generalizing m function heights k with
  | nil =>
    rw [raiseThrough]
    simp only [hframed.found]
    cases hsearch : function.handlers.reverse.findSome? (raiseEntry trap.message m) with
    | none => rfl
    | some r =>
      obtain ⟨target, m', rfl, hinv⟩ := findHandler_spec hval hframed hfit hsearch
      exact hinv
  | cons caller rest ih =>
    rw [raiseThrough]
    simp only [hframed.found]
    cases hsearch : function.handlers.reverse.findSome? (raiseEntry trap.message m) with
    | none =>
      obtain ⟨function', heights', height', i, hsite, hcall, hframed'⟩ := hframed.dropFrame hcalls
      refine ih hsite.validated hframed' (fun entry hentry hstart hstop ↦ ?_) rfl
      have hle := hsite.covered.handlers hcall.facts.1 entry hentry hstart hstop
      omega
    | some r =>
      obtain ⟨target, m', rfl, hinv⟩ := findHandler_spec hval hframed hfit hsearch
      exact hinv

end Unwinding

/-! ## Stopping without a fault -/

/-- The current instruction is covered, whatever heights the validator computed. -/
def CoveredAt (program : Program) (m : Machine H) : Prop :=
  ∀ function heights height i, program.functions[m.function]? = some function →
    stackHeights program function = .ok heights → heights[m.ip]? = some height →
    function.code[m.ip]? = some i → Covered program function m.ip height i

/-- A machine that stopped at `i` with `k` operands of its frame left. -/
def StoppedAt (program : Program) (m : Machine H) (p : Instruction → Prop) (taken : ℕ) : Prop :=
  ∃ function heights height i, Site program m.function m.ip function heights height i ∧ p i ∧
    Framed program m function (height - taken)

/-- What a turn of the run loop may leave behind. -/
def StatusOk (program : Program) : Status H → Prop
  | .running m => Inv program m
  | .stopped (.returned _) _ => True
  | .stopped (.failed error) _ => ∃ message, error.trap = .error message
  | .stopped (.suspended _) m =>
    StoppedAt program m (fun i ↦ i = .await ∨ isDeref program (some i)) 0
  | .stopped (.yielded _) m => StoppedAt program m (· = .yield) 1

section Status

variable {m' : Machine H} {heights : List ℕ} {height k : ℕ} {i : Instruction}

theorem leave_failed : StatusOk program (leave program m (.failed (.error
    message))) :=
  ⟨message, rfl⟩

section

variable (hval : Validated program function heights) (hframed : Framed program m function k)
  (hfit : HandlersFit function m.ip k)

include hval hframed hfit

theorem leave_raised : StatusOk program (leave program m (.raised (.error message))) := by
  have h := raiseThrough_spec (.error message) hval hframed hfit rfl
  simp only [leave, raise]
  cases hr : raiseThrough program (.error message) m.calls m with
  | ok r =>
    rw [hr] at h
    exact h
  | error error =>
    rw [hr] at h
    exact ⟨message, h⟩

theorem leaveDispatch_raised :
    StatusOk program (leaveDispatch rt program m (.raised (.error message))) := by
  have h := raiseThrough_spec (.error message) hval hframed hfit rfl
  simp only [leaveDispatch, raise]
  cases hr : raiseThrough program (.error message) m.calls m with
  | ok r =>
    rw [hr] at h
    exact h.continueAt rt
  | error error =>
    rw [hr] at h
    exact ⟨message, h⟩

end

theorem Site.handlersFit (hsite : Site program m.function m.ip function heights height i)
    (hraise : i.mayRaise) : HandlersFit function m.ip (height - i.operands) := by
  intro entry hentry hstart hstop
  have h := hsite.covered.handlers hraise entry hentry hstart hstop
  omega

theorem HandlersFit.mono {ip : ℕ} (h : HandlersFit function ip k) {k' : ℕ} (hk : k ≤ k') :
    HandlersFit function ip k' :=
  fun entry hentry hstart hstop ↦ (h entry hentry hstart hstop).trans hk

/-- After the operands of `i` were taken and its results left, control may pass on. -/
theorem Site.next (hsite : Site program m.function m.ip function heights height i)
    (hframed : Framed program m' function (height - i.operands + i.results)) {target : ℕ}
    (hflows : i.FlowsTo m.ip target) : Inv program { m' with ip := target } := by
  obtain ⟨effect, heffect⟩ : ∃ effect, i.stackEffect = some effect := by
    cases i <;>
      simp_all [Instruction.FlowsTo, Instruction.fallsThrough, Instruction.jumpTarget,
        Instruction.stackEffect]
  obtain ⟨height', hheight', heq⟩ :=
    hsite.validated.heightsOk.next_height hsite.labelled hsite.instruction heffect hflows
  have hoperands := hsite.covered.operands
  have hresult : height' = height - i.operands + i.results := by
    have := Instruction.stackEffect_eq heffect
    omega
  subst hresult
  exact ⟨function, heights, _, hsite.validated, hheight', hframed.ip target⟩

end Status

/-! ## Calls -/

/-- The machine has taken the operands of the call it stands at. -/
structure Calling (program : Program) (m : Machine H) (function : FunctionPrototype)
    (heights : List ℕ) (height : ℕ) (i : Instruction) : Prop where
  site : Site program m.function m.ip function heights height i
  isCall : i.IsCall
  framed : Framed program m function (height - i.operands)

section Calls

variable {m' : Machine H} {heights : List ℕ} {height : ℕ} {i : Instruction}

section

variable (h : Calling program m function heights height i)

include h

theorem Calling.world (hm : SameButWorld m m') :
    Calling program m' function heights height i := by
  obtain ⟨world, rfl⟩ := hm
  exact ⟨h.site, h.isCall, h.framed.world ⟨world, rfl⟩⟩

theorem Calling.raised (message : String) :
    StatusOk program (leave program m (.raised (.error message))) :=
  leave_raised h.site.validated h.framed (h.site.handlersFit h.isCall.facts.1)

/-- A result in place of the operands, and on to the next instruction. -/
theorem Calling.result (hslot : slot.InRange program.functions.length) :
    Inv program { m with stack := slot :: m.stack, ip := m.ip + 1 } := by
  have hframed := h.framed.push hslot
  obtain ⟨-, hresults, hfalls, -⟩ := h.isCall.facts
  rw [← hresults] at hframed
  exact h.site.next hframed (.inl ⟨hfalls, rfl⟩)

/-- The callee starts with no operands above its base. -/
theorem Calling.pushFrame {heights' : List ℕ} {frame : Frame}
    (htarget : program.functions[prototype]? = some target)
    (hval : Validated program target heights') (hbase : frame.base = m.stack.length)
    (hlocals : frame.locals.length = target.localCount)
    (hslots : ∀ slot ∈ frame.locals, slot.InRange program.functions.length) :
    Inv program (m.pushFrame prototype frame) := by
  refine ⟨target, heights', 0, hval, hval.heightsOk.entry, htarget, hbase.symm, hlocals,
    ⟨h.framed.slots.stack, hslots, h.framed.slots.vmGlobals⟩, ?_, h.framed.calls⟩
  refine ⟨function, heights, height, i, h.site, h.isCall, ?_, h.framed.locals,
    h.framed.slots.locals⟩
  rw [show (m.pushFrame prototype frame).frame = frame from rfl, hbase]
  exact h.framed.stack

end

/-- How entering a callable may end. -/
def Entered (program : Program) {α : Type} (x : Exec H α) (m : Machine H) : Prop :=
  Ensures x m (fun _ ↦ Inv program) (fun e m' ↦ StatusOk program (leave program m' e))

theorem Entered.finish {x : Exec H Unit} (h : Entered program x m) :
    StatusOk program (finish program m x) := by
  rw [Vm.finish]
  cases hx : x m with
  | ok _ m' =>
    exact h.of_ok hx
  | error e m' =>
    exact h.of_error hx

theorem packArguments_spec {n : ℕ} (hargs : ∀ slot ∈ args, slot.InRange n) :
    Ensures (packArguments rt target args) m
      (fun q m' ↦ SameButWorld m m' ∧ ∀ slot ∈ q.2, slot.InRange n) (fun _ _ ↦ False) := by
  rw [packArguments]
  split
  · rw [ensures_bind]
    refine intoValues_spec.imp fun rest m' hm ↦ ?_
    refine ⟨hm, fun slot hslot ↦ ?_⟩
    rcases mem_append.mp hslot with hslot | hslot
    · exact hargs slot (mem_of_mem_take hslot)
    · rw [mem_singleton.mp hslot]
      exact inRange_value
  · exact ⟨.refl m, hargs⟩

theorem enterOrSpawn_spec (hvalid : AllValidated program)
    (h : Calling program m function heights height i) {captures : List VmSlot}
    (hlt : prototype < program.functions.length)
    (hargs : ∀ slot ∈ args, slot.InRange program.functions.length)
    (hcaptures : ∀ slot ∈ captures, slot.InRange program.functions.length) :
    Entered program (enterOrSpawn rt program prototype args captures) m := by
  rw [Entered, enterOrSpawn]
  simp only [getElem?_eq_getElem hlt]
  split
  · exact (h.world ⟨_, rfl⟩).result inRange_value
  · rw [enterPrototype, ensures_bind]
    refine (packArguments_spec hargs).mono ?_ (fun _ _ h ↦ h.elim)
    rintro ⟨arity, args'⟩ m' ⟨hm, hargs'⟩
    obtain ⟨heights', hval'⟩ := hvalid (getElem?_eq_getElem hlt)
    refine (h.world hm).pushFrame (getElem?_eq_getElem hlt) hval' rfl ?_ ?_
    · simp [Frame.call, fill_length]
    · intro slot hslot
      rcases mem_fill hslot with hslot | hslot
      · exact hcaptures slot hslot
      · exact mem_fill_nil hargs' slot hslot

theorem enterStaticDirect_spec (hvalid : AllValidated program)
    (hsite : Site program m.function m.ip function heights height (.callStatic prototype argc))
    (hframed : Framed program m function height)
    (htarget : program.functions[prototype]? = some target) (hfits : argc ≤ target.localCount) :
    Entered program (enterStaticDirect program prototype argc) m := by
  obtain ⟨heights', hval'⟩ := hvalid htarget
  have hargc : argc ≤ height := hsite.covered.operands
  have hcalling : Calling program { m with stack := m.stack.drop argc } function heights height
      (.callStatic prototype argc) :=
    ⟨hsite, .inr ⟨_, _, rfl⟩, hframed.touched (Touched.drop hframed.slots argc) hargc⟩
  rw [Entered, enterStaticDirect]
  simp only [htarget]
  rw [if_neg (by omega)]
  refine hcalling.pushFrame htarget hval' rfl (by simp [fill_length]) ?_
  exact mem_fill_nil (hframed.slots.take argc)

theorem checkArity_spec (hlt : prototype < program.functions.length) :
    Ensures (checkArity program prototype argc) m (fun _ m' ↦ m' = m)
      (fun e m' ↦ m' = m ∧ ∃ message, e = .raised (.error message)) := by
  rw [checkArity]
  simp only [getElem?_eq_getElem hlt]
  split
  · exact ⟨rfl, _, rfl⟩
  · rfl

theorem selectClause_spec {clauses : List VmClosure}
    (hlt : ∀ clause ∈ clauses, clause.prototype < program.functions.length) :
    Ensures (selectClause program argc clauses) m
      (fun clause m' ↦ m' = m ∧ ∀ c, clause = some c → c ∈ clauses) (fun _ _ ↦ False) := by
  induction clauses with
  | nil => exact ⟨rfl, by simp⟩
  | cons first clauses ih =>
    rw [selectClause]
    simp only [getElem?_eq_getElem (hlt first mem_cons_self)]
    split
    · refine ⟨rfl, fun c hc ↦ ?_⟩
      rw [Option.some.inj hc]
      exact mem_cons_self
    · exact (ih fun c hc ↦ hlt c (mem_cons_of_mem _ hc)).imp
        fun _ _ h ↦ ⟨h.1, fun c hc ↦ mem_cons_of_mem _ (h.2 c hc)⟩

theorem mem_of_lookup {entries : List (ℕ × VmSlot)} {key : ℕ} (h : entries.lookup key = some slot) :
    (key, slot) ∈ entries := by
  obtain ⟨l₁, l₂, rfl, -⟩ := lookup_eq_some_iff.mp h
  simp

theorem recoverCallee_inRange {callee : VmSlot} {n : ℕ} (hslots : SlotsOk n m)
    (hcallee : callee.InRange n) : (m.recoverCallee callee).InRange n := by
  cases callee with
  | value v =>
    rw [Machine.recoverCallee]
    cases hkey : v.callableKey.bind fun key ↦ m.vmGlobals.lookup key with
    | none => exact hcallee
    | some slot =>
      obtain ⟨key, -, hlookup⟩ := Option.bind_eq_some_iff.mp hkey
      exact hslots.vmGlobals (key, slot) (mem_of_lookup hlookup)
  | _ => exact hcallee

/-- Calling a value of the runtime core pushes its result. -/
theorem callValue_spec (h : Calling program m function heights height i)
    {site : Option ExceptionSite} :
    Entered program (do
      let callee ← intoValue rt slot
      let values ← args.mapM (intoValue rt)
      let value ← core rt (.callValue site) (callee :: values)
      push (.ofValue value)
      modify fun m ↦ { m with ip := m.ip + 1 } : Exec H Unit) m := by
  rw [Entered, ensures_bind]
  refine (intoValue_spec slot m).mono (fun callee m₁ hm₁ ↦ ?_) (fun _ _ h ↦ h.elim)
  rw [ensures_bind]
  refine intoValues_spec.mono (fun values m₂ hm₂ ↦ ?_) (fun _ _ h ↦ h.elim)
  rw [ensures_bind]
  refine (core_spec _ m₂).mono (fun value m₃ hm₃ ↦ ?_) ?_
  · exact (h.world ((hm₁.trans hm₂).trans hm₃)).result (inRange_ofValue value)
  · rintro e m₃ ⟨⟨message, rfl⟩, hm₃⟩
    exact (h.world ((hm₁.trans hm₂).trans hm₃)).raised message

theorem enterCallable_spec (hvalid : AllValidated program)
    (h : Calling program m function heights height i) {callee : VmSlot}
    (hcallee : callee.InRange program.functions.length)
    (hargs : ∀ slot ∈ args, slot.InRange program.functions.length) :
    Entered program (enterCallable rt program callee args) m := by
  have hrecovered := recoverCallee_inRange h.framed.slots hcallee
  rw [Entered, enterCallable, ensures_bind, ensures_get]
  have hchecked : ∀ {prototype : ℕ} {captures : List VmSlot},
      prototype < program.functions.length →
      (∀ slot ∈ captures, slot.InRange program.functions.length) →
      Entered program (do
        checkArity program prototype args.length
        enterOrSpawn rt program prototype args captures) m := by
    intro prototype captures hlt hcaptures
    rw [Entered, ensures_bind]
    refine (checkArity_spec hlt).mono ?_ ?_
    · rintro - m' rfl
      exact enterOrSpawn_spec hvalid h hlt hargs hcaptures
    · rintro e m' ⟨rfl, message, rfl⟩
      exact h.raised message
  cases hslot : m.recoverCallee callee with
  | inlineClosure prototype identity =>
    rw [hslot] at hrecovered
    cases hrecovered with
    | plain hval => simp [VmSlot.runtimeValue] at hval
    | inlineClosure hlt => exact hchecked hlt (by simp)
  | closure identity closure =>
    rw [hslot] at hrecovered
    cases hrecovered with
    | plain hval => simp [VmSlot.runtimeValue] at hval
    | closure hlt hcaptures => exact hchecked hlt hcaptures
  | multiArity identity name clauses =>
    rw [hslot] at hrecovered
    cases hrecovered with
    | plain hval => simp [VmSlot.runtimeValue] at hval
    | multiArity hlt hcaptures =>
      rw [ensures_bind]
      refine (selectClause_spec hlt).mono ?_ (fun _ _ h ↦ h.elim)
      rintro (_ | clause) m' ⟨rfl, hmem⟩
      · exact h.raised _
      · exact enterOrSpawn_spec hvalid h (hlt clause (hmem clause rfl)) hargs
          (hcaptures clause (hmem clause rfl))
  | number _ | bool _ | nil | value _ => exact callValue_spec h

end Calls

/-! ## One turn -/

section Turns

theorem Inv.site (hinv : Inv program m) (hcovered : CoveredAt program m) :
    ∃ function heights height i, Site program m.function m.ip function heights height i ∧
      Framed program m function height := by
  obtain ⟨function, heights, height, hval, hheight, hframed⟩ := hinv
  obtain ⟨i, hi⟩ := hval.heightsOk.instruction hheight
  exact ⟨function, heights, height, i, ⟨hframed.found, hval, hi, hheight,
    hcovered function heights height i hframed.found hval.computed hheight hi⟩, hframed⟩

theorem Site.dispatch_spec (rt : Runtime H) {heights : List ℕ} {height : ℕ} {i : Instruction}
    (hsite : Site program m.function m.ip function heights height i)
    (hframed : Framed program m function height) :
    Ensures (dispatch rt program function i) m (DispatchOk program i m)
      (DispatchError program i m) := by
  have hok := hsite.validated.heightsOk
  have hoperands := hsite.covered.operands
  have hstack := hframed.stack
  have hbound := hok.bound hsite.labelled
  exact Vm.dispatch_spec hframed.slots (hok.checked hsite.labelled hsite.instruction) (by omega)
    (by omega) hsite.covered.method hsite.covered.frame hframed.locals

theorem returnFrom_spec (hframed : Framed program m function 0) {value : VmSlot}
    (hvalue : value.InRange program.functions.length) :
    StatusOk program (returnFrom rt program m value) := by
  rw [returnFrom]
  split
  next caller rest hcalls =>
    obtain ⟨function', heights', height', i, hsite, hcall, hframed'⟩ := hframed.dropFrame hcalls
    obtain ⟨-, hresults, hfalls, -⟩ := hcall.facts
    have hpushed := hframed'.push hvalue
    rw [← hresults] at hpushed
    exact Site.next (m := m.dropFrame caller rest) hsite hpushed (.inl ⟨hfalls, rfl⟩)
  · cases hv : intoValue rt value (m.truncate m.frame.base) with
    | ok result m' => trivial
    | error e m' => exact ((intoValue_spec value _).of_error hv).elim

/-- **One turn.** From a state with the right number of operands, a covered turn of the run loop
keeps the invariant, or stops without an internal fault. -/
theorem step_ok (hvalid : AllValidated program) (hinv : Inv program m)
    (hcovered : CoveredAt program m) : StatusOk program (step rt program m) := by
  obtain ⟨function, heights, height, i, hsite, hframed⟩ := hinv.site hcovered
  have hspec := hsite.dispatch_spec rt hframed
  rw [step]
  simp only [hsite.found, hsite.instruction]
  cases hd : dispatch rt program function i m with
  | error e m' =>
    obtain ⟨⟨message, hexit⟩, pushed, htouched⟩ := hspec.of_error hd
    have hframed' := hframed.touched htouched hsite.covered.operands
    rcases hexit with ⟨rfl, hraise⟩ | rfl
    · refine leaveDispatch_raised hsite.validated hframed' ?_
      rw [htouched.ip]
      exact (hsite.handlersFit hraise).mono (Nat.le_add_right _ _)
    · exact leave_failed
  | ok d m' =>
    cases hspec.of_ok hd with
    | next hflows hlen htouched =>
      have hframed' := hframed.touched htouched hsite.covered.operands
      rw [hlen] at hframed'
      exact (hsite.next hframed' hflows).continueAt rt
    | call hi hcallee hargs htouched =>
      subst hi
      have hframed' := hframed.touched htouched hsite.covered.operands
      rw [← htouched.function, ← htouched.ip] at hsite
      exact (enterCallable_spec hvalid ⟨hsite, .inl ⟨_, rfl⟩, hframed'⟩ hcallee hargs).finish
    | callStatic hi hargs hcaptures htouched =>
      subst hi
      have hframed' := hframed.touched htouched hsite.covered.operands
      have hchecked := hsite.validated.heightsOk.checked hsite.labelled hsite.instruction
      rw [← htouched.function, ← htouched.ip] at hsite
      refine (enterOrSpawn_spec hvalid ⟨hsite, .inr ⟨_, _, rfl⟩, hframed'⟩ ?_ hargs
        hcaptures).finish
      by_contra hge
      simp [checkOperands, getElem?_eq_none (Nat.not_lt.mp hge)] at hchecked
    | callStaticDirect hi hdirect =>
      rename_i prototype argc
      subst hi
      have hchecked := hsite.validated.heightsOk.checked hsite.labelled hsite.instruction
      cases htarget : program.functions[prototype]? with
      | none => simp [checkOperands, htarget] at hchecked
      | some target =>
        have hfits := hsite.covered.frame target htarget
        rw [if_pos (hdirect target htarget)] at hfits
        exact (enterStaticDirect_spec hvalid hsite hframed htarget hfits).finish
    | returned hi hvalue htouched =>
      subst hi
      have hone := hsite.validated.heightsOk.ret_height hsite.labelled hsite.instruction
      subst hone
      exact returnFrom_spec (hframed.touched htouched (Nat.le_refl 1)) hvalue
    | suspended hi hm =>
      obtain ⟨world, rfl⟩ := hm
      exact ⟨function, heights, height, i, hsite, hi, hframed.world ⟨world, rfl⟩⟩
    | yielded hi htouched =>
      subst hi
      have hframed' := hframed.touched htouched hsite.covered.operands
      rw [← htouched.function, ← htouched.ip] at hsite
      exact ⟨function, heights, height, .yield, hsite, rfl, hframed'⟩

theorem StoppedAt.world {p : Instruction → Prop} {taken : ℕ} (h : StoppedAt program m p taken)
    (world : World H) : StoppedAt program { m with world } p taken := by
  obtain ⟨function, heights, height, i, hsite, hi, hframed⟩ := h
  exact ⟨function, heights, height, i, hsite, hi, hframed.world ⟨world, rfl⟩⟩

/-- Settling a suspended machine continues, waits on, or raises at the awaiting instruction. -/
theorem resume_ok {state : PromiseState}
    (h : StoppedAt program m (fun i ↦ i = .await ∨ isDeref program (some i)) 0) :
    StatusOk program (resume rt program state m) := by
  obtain ⟨function, heights, height, i, hsite, hi, hframed⟩ := h
  have hfacts : i.operands = 1 ∧ i.results = 1 ∧ i.mayRaise ∧ i.fallsThrough := by
    rcases hi with rfl | hi
    · exact ⟨rfl, rfl, rfl, rfl⟩
    · cases i <;> simp [isDeref] at hi
      exact ⟨hi.1, rfl, rfl, rfl⟩
  obtain ⟨hoperands, hresults, hraise, hfalls⟩ := hfacts
  have htaken := hframed.touched (Touched.drop hframed.slots 1) (by
    rw [← hoperands]
    exact hsite.covered.operands)
  have hfit := hsite.handlersFit hraise
  rw [resume]
  simp only [hsite.found, hsite.instruction]
  rw [if_neg (by rcases hi with rfl | hi <;> simp_all)]
  cases state with
  | pending =>
    rw [settle]
    split
    · exact ⟨function, heights, height, i, hsite, hi, hframed⟩
    · exact leave_failed
  | fulfilled value =>
    have hpushed := htaken.push (inRange_ofValue value)
    have hnext : Framed program { m with stack := .ofValue value :: m.stack.tail } function
        (height - i.operands + i.results) := by
      simpa [hoperands, hresults] using hpushed
    exact hsite.next hnext (.inl ⟨hfalls, rfl⟩)
  | rejected error =>
    have hleft : ∀ world : World H, Framed program { m with stack := m.stack.tail, world } function
        (height - i.operands) := by
      intro world
      have : Framed program { m with stack := m.stack.tail } function (height - i.operands) := by
        simpa [hoperands] using htaken
      exact this.world ⟨world, rfl⟩
    rw [settle]
    split
    · exact leave_raised hsite.validated (hleft _) hfit
    · exact leave_raised hsite.validated (hleft m.world) hfit

theorem resumeYield_ok {value : Value} (h : StoppedAt program m (· = .yield) 1) :
    StatusOk program (resumeYield program value m) := by
  obtain ⟨function, heights, height, i, hsite, rfl, hframed⟩ := h
  rw [resumeYield]
  simp only [hsite.found, hsite.instruction]
  exact hsite.next (hframed.push (inRange_ofValue value)) (.inl ⟨rfl, rfl⟩)

end Turns

/-! ## Whole runs -/

/-- A transition whose instruction, if it executes one, is covered. -/
def CoveredTurn (rt : Runtime H) (program : Program) (s s' : Status H) : Prop :=
  Turn rt program s s' ∧ ∀ m, s = .running m → CoveredAt program m

/-- The machines that are started: the entry function, a call of a prototype, and the child of a
machine in the course of its run. -/
inductive Starts (rt : Runtime H) (program : Program) : Machine H → Prop
  | entry (world : World H) : Starts rt program (Machine.entry program world)
  | call {prototype : ℕ} {proto : FunctionPrototype} {args captures : List VmSlot}
    (hproto : program.functions[prototype]? = some proto)
    (hargs : ∀ slot ∈ args, slot.InRange program.functions.length)
    (hcaptures : ∀ slot ∈ captures, slot.InRange program.functions.length) (world : World H) :
    Starts rt program (Machine.callSlots rt prototype proto args captures world)
  | child {parent m : Machine H} {prototype : ℕ} {proto : FunctionPrototype}
    {args captures : List VmSlot} (hparent : Starts rt program parent)
    (hrun : Relation.ReflTransGen (CoveredTurn rt program) (.running parent) (.running m))
    (hproto : program.functions[prototype]? = some proto)
    (hargs : ∀ slot ∈ args, slot.InRange program.functions.length)
    (hcaptures : ∀ slot ∈ captures, slot.InRange program.functions.length) (world : World H) :
    Starts rt program (Machine.child rt { m with world } prototype proto args captures)

theorem turn_ok (hvalid : AllValidated program) {s' : Status H} (hs : StatusOk program s)
    (hturn : CoveredTurn rt program s s') : StatusOk program s' := by
  obtain ⟨hturn, hcovered⟩ := hturn
  cases hturn with
  | step m => exact step_ok hvalid hs (hcovered m rfl)
  | resume promise m state world => exact resume_ok (hs.world world)
  | resumeYield yielded value m world => exact resumeYield_ok (hs.world world)

theorem run_ok (hvalid : AllValidated program) {s' : Status H} (hs : StatusOk program s)
    (hrun : Relation.ReflTransGen (CoveredTurn rt program) s s') : StatusOk program s' := by
  induction hrun with
  | refl => exact hs
  | tail _ hturn ih => exact turn_ok hvalid ih hturn

/-- A machine that starts at its first instruction, with no operands and no callers. -/
theorem start_inv (hvalid : AllValidated program) {proto : FunctionPrototype} {frame : Frame}
    (hproto : program.functions[prototype]? = some proto) (hbase : frame.base = 0)
    (hlocals : frame.locals.length = proto.localCount)
    (hslots : ∀ slot ∈ frame.locals, slot.InRange program.functions.length)
    {vmGlobals : List (ℕ × VmSlot)}
    (hglobals : ∀ entry ∈ vmGlobals, entry.2.InRange program.functions.length)
    (identity allocation : ℕ) (world : World H) :
    Inv program ⟨prototype, frame, [], [], vmGlobals, identity, allocation, 0, world⟩ := by
  obtain ⟨heights, hval⟩ := hvalid hproto
  exact ⟨proto, heights, 0, hval, hval.heightsOk.entry, hproto, hbase.symm, hlocals,
    ⟨nofun, hslots, hglobals⟩, trivial⟩

theorem callSlots_eq (rt : Runtime H) {proto : FunctionPrototype} {captures : List VmSlot} {n : ℕ}
    (hargs : ∀ slot ∈ args, slot.InRange n) (hcaptures : ∀ slot ∈ captures, slot.InRange n)
    (world : World H) : ∃ frame world', Machine.callSlots rt prototype proto args captures world =
        ⟨prototype, frame, [], [], [], 0, 0, 0, world'⟩ ∧
      frame.base = 0 ∧ frame.locals.length = proto.localCount ∧
      ∀ slot ∈ frame.locals, slot.InRange n := by
  rw [Machine.callSlots]
  split
  next arity args' m' hpack =>
    obtain ⟨⟨world', rfl⟩, hargs'⟩ := (packArguments_spec hargs).of_ok hpack
    refine ⟨_, world', rfl, rfl, ?_, ?_⟩
    · simp [Frame.call, fill_length]
    · intro slot hslot
      rcases mem_fill hslot with hslot | hslot
      · exact hcaptures slot hslot
      · exact mem_fill_nil hargs' slot hslot
  next e m' hpack => exact ((packArguments_spec hargs).of_error hpack).elim

theorem starts_inv (hentry : program.entry < program.functions.length)
    (hvalid : AllValidated program) (h : Starts rt program m) : Inv program m := by
  induction h with
  | entry world =>
    refine start_inv hvalid (getElem?_eq_getElem hentry) rfl ?_ ?_ (forall_mem_nil _) 0 0 world
    · simp [Frame.entry, getElem?_eq_getElem hentry]
    · intro slot hslot
      rw [eq_of_mem_replicate hslot]
      exact inRange_nil
  | call hproto hargs hcaptures world =>
    obtain ⟨frame, world', heq, hbase, hlocals, hslots⟩ :=
      callSlots_eq rt hargs hcaptures world
    rw [heq]
    exact start_inv hvalid hproto hbase hlocals hslots (forall_mem_nil _) 0 0 world'
  | @child parent m _ _ _ _ hparent hrun hproto hargs hcaptures world ih =>
    -- the parent has kept to its invariant up to here
    have hok : StatusOk program (.running parent) := ih
    obtain ⟨function, heights, height, -, -, hframed⟩ := run_ok hvalid hok hrun
    obtain ⟨frame, world', heq, hbase, hlocals, hslots⟩ :=
      callSlots_eq rt hargs hcaptures world
    rw [Machine.child, heq]
    exact start_inv hvalid hproto hbase hlocals hslots hframed.slots.vmGlobals _ 0 world'

/-! ## The guarantee -/

/-- The operands above the current frame's base are as many as the height `stackHeights` computed
for the current instruction; a machine that yielded has handed one of them out. -/
def HeightsAgree (program : Program) : Status H → Prop
  | .running m | .stopped (.suspended _) m => ∃ function heights height,
    program.functions[m.function]? = some function ∧
    stackHeights program function = .ok heights ∧ heights[m.ip]? = some height ∧
    m.stack.length = m.frame.base + height
  | .stopped (.yielded _) m => ∃ function heights height,
    program.functions[m.function]? = some function ∧
    stackHeights program function = .ok heights ∧ heights[m.ip]? = some height ∧
    m.stack.length + 1 = m.frame.base + height
  | .stopped _ _ => True

/-- The operands of the frames below the current one. -/
def Machine.below (m : Machine H) : List VmSlot := m.stack.drop (m.stack.length - m.frame.base)

/-- Executing the current instruction leaves the operands of other frames in place, also where it
hands operands to a static call, and exits with no internal fault. -/
def OwnOperands (rt : Runtime H) (program : Program) (m : Machine H) : Prop :=
  ∀ function i, program.functions[m.function]? = some function → function.code[m.ip]? = some i →
    Ensures (dispatch rt program function i) m
      (fun result m' ↦ m.below <:+ m'.stack ∧ ∀ prototype argc,
        result = .callStaticDirect prototype argc → m.frame.base + argc ≤ m'.stack.length)
      (fun exit m' ↦ m.below <:+ m'.stack ∧
        ∀ fault, exit ≠ .raised (.fault fault) ∧ exit ≠ .failed (.fault fault))

/-- The run did not stop with an internal fault. -/
def NoFault (s : Status H) : Prop :=
  ∀ error m fault, s = .stopped (.failed error) m → error.trap ≠ .fault fault

theorem StatusOk.heightsAgree (h : StatusOk program s) : HeightsAgree program s := by
  match s, h with
  | .running m, ⟨function, heights, height, hval, hheight, hframed⟩ =>
    exact ⟨function, heights, height, hframed.found, hval.computed, hheight, hframed.stack⟩
  | .stopped (.suspended _) m, ⟨function, heights, height, i, hsite, _, hframed⟩ =>
    exact ⟨function, heights, height, hsite.found, hsite.validated.computed, hsite.labelled,
      hframed.stack⟩
  | .stopped (.yielded _) m, ⟨function, heights, height, i, hsite, hi, hframed⟩ =>
    refine ⟨function, heights, height, hsite.found, hsite.validated.computed, hsite.labelled, ?_⟩
    have hstack := hframed.stack
    have hoperands := hsite.covered.operands
    rw [hi, Instruction.operands] at hoperands
    omega
  | .stopped (.returned _) _, _ => trivial
  | .stopped (.failed _) _, _ => trivial

theorem StatusOk.noFault (h : StatusOk program s) : NoFault s := by
  rintro error m fault rfl
  obtain ⟨message, hmessage⟩ := h
  simp [hmessage]

theorem Touched.below_suffix {m' : Machine H} {n k : ℕ} {pushed : List VmSlot}
    (h : Touched n k pushed m m') (hk : k ≤ m.stack.length - m.frame.base) :
    m.below <:+ m'.stack := by
  rw [h.stack, Machine.below]
  refine List.IsSuffix.trans ?_ (suffix_append pushed _)
  rw [show m.stack.length - m.frame.base = k + (m.stack.length - m.frame.base - k) by omega,
    ← drop_drop]
  exact drop_suffix _ _

theorem Inv.ownOperands (hinv : Inv program m) (hcovered : CoveredAt program m) :
    OwnOperands rt program m := by
  obtain ⟨function, heights, height, i, hsite, hframed⟩ := hinv.site hcovered
  intro function' i' hfunction hi
  obtain rfl : function = function' := Option.some.inj (hsite.found.symm.trans hfunction)
  obtain rfl : i = i' := Option.some.inj (hsite.instruction.symm.trans hi)
  have hstack := hframed.stack
  have hoperands : i.operands ≤ m.stack.length - m.frame.base := by
    have := hsite.covered.operands
    omega
  refine (hsite.dispatch_spec rt hframed).mono ?_ ?_
  · intro result m' hresult
    cases hresult with
    | next _ _ h => exact ⟨h.below_suffix hoperands, by simp⟩
    | call hcall _ _ h | callStatic hcall _ _ h =>
      exact ⟨h.below_suffix (by rwa [hcall] at hoperands), by simp⟩
    | callStaticDirect hcall _ =>
      refine ⟨drop_suffix _ _, ?_⟩
      rintro prototype argc ⟨⟩
      rw [hcall, Instruction.operands] at hoperands
      omega
    | returned hret _ h => exact ⟨h.below_suffix (by rwa [hret] at hoperands), by simp⟩
    | suspended _ h =>
      obtain ⟨world, rfl⟩ := h
      exact ⟨drop_suffix _ _, by simp⟩
    | yielded hyield h => exact ⟨h.below_suffix (by rwa [hyield] at hoperands), by simp⟩
  · rintro exit m' ⟨⟨message, hexit⟩, pushed, h⟩
    refine ⟨h.below_suffix hoperands, fun fault ↦ ?_⟩
    rcases hexit with ⟨rfl, -⟩ | rfl <;> simp

/-- **Validator soundness.** In every run of a validated program whose instructions are covered,
the operand height is the computed one, every instruction keeps to the operands of its own frame,
and no internal fault or panic is reached. -/
theorem validate_sound (hvalidate : validate program = .ok ()) {m : Machine H}
    (hstart : Starts rt program m) {s : Status H}
    (hrun : Relation.ReflTransGen (CoveredTurn rt program) (.running m) s) :
    HeightsAgree program s ∧ NoFault s ∧
      ∀ m', s = .running m' → CoveredAt program m' → OwnOperands rt program m' := by
  obtain ⟨hentry, hvalid⟩ := validate_ok hvalidate
  have hm : StatusOk program (.running m) := starts_inv hentry hvalid hstart
  have hs : StatusOk program s := run_ok hvalid hm hrun
  refine ⟨hs.heightsAgree, hs.noFault, ?_⟩
  rintro m' rfl hcovered
  exact Inv.ownOperands hs hcovered

/-! ### Covered programs -/

/-- `Covered`, as a check. -/
def coveredCheck (program : Program) (function : FunctionPrototype) (ip height : ℕ)
    (i : Instruction) : Bool :=
  decide (i.operands ≤ height) &&
    (match i with
      | .dotCall method _ => (program.constantString method).isSome
      | .callStatic prototype argc =>
        match program.functions[prototype]? with
        | none => true
        | some target =>
          if target.direct then decide (argc ≤ target.localCount)
          else decide
            (function.arity + function.variadic.toNat + target.captureCount ≤ function.localCount)
      | _ => true) &&
    (!i.mayRaise || function.handlers.all fun entry ↦
      decide (entry.start ≤ ip → ip < entry.stop → entry.depth + i.operands ≤ height))

theorem covered_of_check {ip height : ℕ} {i : Instruction}
    (h : coveredCheck program function ip height i = true) :
    Covered program function ip height i := by
  simp only [coveredCheck, Bool.and_eq_true, decide_eq_true_eq, Bool.or_eq_true, Bool.not_eq_true',
    all_eq_true] at h
  obtain ⟨⟨hoperands, hcase⟩, hhandlers⟩ := h
  refine ⟨hoperands, ?_, ?_, ?_⟩
  · cases i with
    | dotCall => exact hcase
    | _ => trivial
  · cases i with
    | callStatic prototype argc =>
      intro target htarget
      simp only [htarget] at hcase
      split
      next hdirect => simpa [hdirect] using hcase
      next hdirect => simpa [hdirect] using hcase
    | _ => trivial
  · intro hraise entry hentry
    rcases hhandlers with hno | hall
    · rw [hraise] at hno
      cases hno
    · exact hall entry hentry

/-- Every instruction of the program is covered at the height computed for it. -/
def Program.isCovered (program : Program) : Bool :=
  program.functions.all fun function ↦
    match stackHeights program function with
    | .ok heights => (function.code.zip heights).zipIdx.all fun entry ↦
        coveredCheck program function entry.2 entry.1.2 entry.1.1
    | .error _ => true

theorem coveredAt_of_isCovered (h : program.isCovered = true) (m : Machine H) :
    CoveredAt program m := by
  intro function heights height i hfunction hheights hheight hi
  have hcheck := all_eq_true.mp h function (mem_of_getElem? hfunction)
  simp only [hheights, all_eq_true] at hcheck
  refine covered_of_check (hcheck ((i, height), m.ip) ?_)
  rw [mem_zipIdx_iff_getElem?, getElem?_zip_eq_some]
  exact ⟨hi, hheight⟩

/-- The turns of the loop, as long as it runs. -/
def Status.turn (rt : Runtime H) (program : Program) : Status H → Status H
  | .running m => step rt program m
  | .stopped outcome m => .stopped outcome m

theorem reaches_turn (h : program.isCovered = true) (n : ℕ) (s : Status H) :
    Relation.ReflTransGen (CoveredTurn rt program) s ((Status.turn rt program)^[n] s) := by
  induction n with
  | zero => exact .refl
  | succ n ih =>
    rw [Function.iterate_succ_apply']
    refine ih.trans ?_
    cases (Status.turn rt program)^[n] s with
    | running m => exact .single ⟨.step m, fun m' _ ↦ coveredAt_of_isCovered h m'⟩
    | stopped outcome m => exact .refl

/-- A core whose services all answer `nil`. -/
def inertRuntime : Runtime Unit where
  display _ _ := ""
  recordThrow _ _ heap := heap
  call _ _ world := (.ok .nil, world)
  closureValue _ world := (0, world)
  arityDispatcher _ _ world := (.nil, world)
  derefVar _ _ := .nil
  currentExceptionSite _ := none
  promiseState _ world := (.fulfilled .nil, world)
  spawnAsync _ world := (0, world)
  backedge _ _ _ world := (none, world)

def idleWorld : World Unit := ⟨none, ()⟩

/-- A core that also traces loops: in every local slot that a trace may write it leaves `false`. -/
def tracingRuntime : Runtime Unit :=
  { inertRuntime with
    backedge := fun _ _ values world ↦ (some (values.map fun _ ↦ .bool false), world) }

/-- A trace ends the loop, the exception is caught and returned, and every state on the way agrees
with the heights. -/
theorem validate_sound_loopAndCatch :
    (∃ m, (Status.turn tracingRuntime loopAndCatch)^[14]
      (.running (Machine.entry loopAndCatch idleWorld)) =
        .stopped (.returned (.exceptionInfo "late" .nil 0)) m) ∧
    ∀ n, HeightsAgree loopAndCatch ((Status.turn tracingRuntime loopAndCatch)^[n]
        (.running (Machine.entry loopAndCatch idleWorld))) ∧
      NoFault ((Status.turn tracingRuntime loopAndCatch)^[n]
        (.running (Machine.entry loopAndCatch idleWorld))) := by
  refine ⟨⟨_, rfl⟩, fun n ↦ ?_⟩
  have hrun := @reaches_turn _ tracingRuntime loopAndCatch rfl n
    (.running (Machine.entry loopAndCatch idleWorld))
  obtain ⟨hheights, hfault, -⟩ := validate_sound rfl (.entry idleWorld) hrun
  exact ⟨hheights, hfault⟩

/-- Validation accepts a duplication of an operand that is not there. -/
theorem validate_accepts_underflow :
    validate (straightLine [.dup, .ret]) = .ok () ∧
      ∃ s, Relation.ReflTransGen (Turn inertRuntime (straightLine [.dup, .ret]))
        (.running (Machine.entry (straightLine [.dup, .ret]) idleWorld)) s ∧ ¬ NoFault s := by
  refine ⟨rfl, _, .single (.step _), ?_⟩
  intro h
  exact h _ _ .stackUnderflow rfl rfl

end Hara.Vm
