import Hara.Instrumentation.Operations

/-!
# Runs of the hub

Any sequence of calls, with any handles and leases, keeps the hub consistent. A handle whose
instrument or target was removed during the run does not resolve at its end, whatever was
registered in between.
-/

namespace Hara.Instrumentation

open Lib

namespace Operation

/-- The number of instruments a call may register. -/
def instruments : Operation → ℕ
  | .register _ => 1
  | _ => 0

/-- The number of targets a call may register. -/
def targets : Operation → ℕ
  | .registerTarget _ => 1
  | _ => 0

/-- The call removes the instrument of a live handle. -/
def RemovesInstrument (operation : Operation) (hub : InstrumentationHub)
    (handle : InstrumentHandle) : Prop :=
  ∃ record, hub.resolveInstrument handle = .ok record ∧
    match operation with
    | .detach instrument => instrument = handle
    | .detachSession sessionId => record.registration.sessionId = sessionId
    | .clear => True
    | _ => False

/-- The call removes the target of a live handle. -/
def RemovesTarget (operation : Operation) (hub : InstrumentationHub) (handle : TargetHandle) :
    Prop :=
  ∃ record, hub.resolveTarget handle = .ok record ∧
    match operation with
    | .removeTarget target => target = handle
    | .detachSession sessionId => record.descriptor.sessionId = sessionId
    | .clear => True
    | _ => False

end Operation

namespace InstrumentationHub

variable {hub hub' : InstrumentationHub} {n m : ℕ} {operation : Operation}

/-! ## One call -/

section

variable (h : Consistent n m hub)

include h

theorem Consistent.keeps_apply (hn : n + operation.instruments < 2 ^ 64)
    (hm : m + operation.targets < 2 ^ 64) :
    Keeps (n + operation.instruments) (m + operation.targets) hub (hub.apply operation) := by
  cases operation with
  | register registration => exact h.keeps_register hn
  | registerTarget descriptor => exact h.keeps_registerTarget hm
  | attach instrument target => exact h.keeps_attach
  | acquireControl instrument target => exact h.keeps_acquireControl
  | releaseControl lease => exact h.keeps_releaseControl
  | detach instrument => exact h.keeps_detach
  | removeTarget target => exact h.keeps_removeTarget
  | detachSession sessionId => exact h.keeps_detachSession
  | requestDirective lease directive => exact h.keeps_requestDirective
  | takeDirective target => exact h.keeps_takeDirective
  | clear => exact h.keeps_clear

theorem Consistent.exists_step (operation : Operation) (hn : n + operation.instruments < 2 ^ 64)
    (hm : m + operation.targets < 2 ^ 64) :
    ∃ hub', hub.step operation = .ok hub' ∧
      Consistent (n + operation.instruments) (m + operation.targets) hub' ∧ hub.Evolves hub' := by
  have hkeeps := h.keeps_apply hn hm
  rw [step]
  cases happly : hub.apply operation with
  | ok hub' =>
    obtain ⟨hconsistent, hevolves⟩ := hkeeps.of_ok happly
    exact ⟨hub', rfl, hconsistent, hevolves⟩
  | error stop =>
    obtain ⟨error, rfl⟩ := hkeeps.of_error happly
    exact ⟨hub, rfl, h.mono (Nat.le_add_right ..) (Nat.le_add_right ..), .refl hub⟩

/-- The handles that a call removes do not resolve after it. -/
theorem Consistent.not_resolve_of_removes (hstep : hub.step operation = .ok hub') :
    (∀ handle, operation.RemovesInstrument hub handle →
      ∀ record, hub'.resolveInstrument handle ≠ .ok record) ∧
    ∀ handle, operation.RemovesTarget hub handle →
      ∀ record, hub'.resolveTarget handle ≠ .ok record := by
  cases operation with
  | detach instrument =>
    refine ⟨?_, fun _ hremoves ↦ hremoves.elim fun _ h ↦ h.2.elim⟩
    rintro handle ⟨old, hold, rfl⟩ record
    obtain ⟨hub₁, hdetach, -, -, hdetached⟩ := h.exists_detach hold
    obtain rfl : hub₁ = hub' := by simpa [step, apply, hdetach] using hstep
    rw [Ne, hdetached.resolve_iff]
    simp
  | removeTarget target =>
    refine ⟨fun _ hremoves ↦ hremoves.elim fun _ h ↦ h.2.elim, ?_⟩
    rintro handle ⟨old, hold, rfl⟩ record
    obtain ⟨hub₁, hremove, -, -, hremoved⟩ := h.exists_removeTarget hold
    obtain rfl : hub₁ = hub' := by simpa [step, apply, hremove] using hstep
    rw [Ne, hremoved]
    simp
  | detachSession sessionId =>
    obtain ⟨hub₁, hdetach, -, -, hinstruments, htargets⟩ := h.exists_detachSession sessionId
    obtain rfl : hub₁ = hub' := by simpa [step, apply, hdetach] using hstep
    exact ⟨fun _ hold ↦ hinstruments _ (h.instruments.mem_sessionInstruments.mpr hold),
      fun _ hold ↦ htargets _ (h.targets.mem_sessionTargets.mpr hold)⟩
  | clear =>
    obtain rfl : hub.clear = hub' := by simpa [step, apply] using hstep
    exact ⟨fun _ _ _ ↦ not_resolveInstrument_clear, fun _ _ _ ↦ not_resolveTarget_clear⟩
  | _ =>
    exact ⟨fun _ hremoves ↦ hremoves.elim fun _ h ↦ h.2.elim,
      fun _ hremoves ↦ hremoves.elim fun _ h ↦ h.2.elim⟩

/-! ## Whole runs -/

theorem Consistent.exists_run (operations : List Operation)
    (hn : n + (operations.map Operation.instruments).sum < 2 ^ 64)
    (hm : m + (operations.map Operation.targets).sum < 2 ^ 64) :
    ∃ hub', hub.run operations = .ok hub' ∧
      Consistent (n + (operations.map Operation.instruments).sum)
        (m + (operations.map Operation.targets).sum) hub' ∧ hub.Evolves hub' := by
  induction operations generalizing hub n m with
  | nil => exact ⟨hub, rfl, h, .refl hub⟩
  | cons operation operations ih =>
    rw [List.map_cons, List.sum_cons, ← Nat.add_assoc] at hn hm ⊢
    rw [List.map_cons, List.sum_cons, ← Nat.add_assoc]
    have hn₁ : n + operation.instruments < 2 ^ 64 := (Nat.le_add_right ..).trans_lt hn
    have hm₁ : m + operation.targets < 2 ^ 64 := (Nat.le_add_right ..).trans_lt hm
    obtain ⟨hub₁, hstep, h₁, hevolves₁⟩ := h.exists_step operation hn₁ hm₁
    obtain ⟨hub₂, hrun, h₂, hevolves₂⟩ := ih h₁ hn hm
    refine ⟨hub₂, ?_, h₂, hevolves₁.trans hevolves₂⟩
    rw [run, List.foldlM_cons, hstep]
    exact hrun

omit h in
theorem run_append (before after : List Operation) :
    hub.run (before ++ after) = hub.run before >>= fun hub ↦ hub.run after :=
  List.foldlM_append

omit h in
/-- What can be seen of the registries of a sound hub. -/
structure Sound (hub : InstrumentationHub) : Prop where
  /-- Attachments connect live instruments with live targets that support them. -/
  attached : ∀ instrument target attachment,
    hub.attachments.lookup (instrument, target) = some attachment →
      attachment.instrument = instrument ∧ attachment.target = target ∧ hub.Links attachment
  /-- The mask has the events of the attached instruments and nothing else. -/
  enabled : ∀ event, hub.enabledEvents.contains event ↔ hub.Subscribed event
  enabled_none : hub.enabledEvents.isEmpty ↔ ∀ event, ¬hub.Subscribed event
  /-- A target has at most one controller. -/
  one_holder : ∀ target holder holder', ⟨target, holder⟩ ∈ hub.controlLeases.entries →
    ⟨target, holder'⟩ ∈ hub.controlLeases.entries → holder = holder'
  /-- A controller is live, attached and in control mode. -/
  controlled : ∀ target holder, ⟨target, holder⟩ ∈ hub.controlLeases.entries →
    hub.MayControl holder target
  /-- A directive waits only for a target with a live controller. -/
  directed : ∀ target directive, hub.directives.lookup target = some directive →
    ∃ holder record, hub.controlLeases.lookup target = some holder ∧
      hub.resolveInstrument holder = .ok record

theorem Consistent.sound : hub.Sound where
  attached := h.linked.attached
  enabled _ := h.enabled.contains_iff
  enabled_none := h.enabled.isEmpty_iff
  one_holder target holder holder' hmem hmem' := by
    have heq := AssocMap.mem_entries_iff.mp hmem
    rw [AssocMap.mem_entries_iff.mp hmem', Option.some.injEq] at heq
    exact heq.symm
  controlled target holder hmem := h.linked.controlled _ _ (AssocMap.mem_entries_iff.mp hmem)
  directed target directive hdirective := by
    obtain ⟨holder, hholder⟩ := h.linked.directed target directive hdirective
    obtain ⟨record, hrecord, -⟩ := h.linked.controlled target holder hholder
    exact ⟨holder, record, hholder, hrecord⟩

end

/-- Handles of instruments and targets that a call of the run removed do not resolve in the hub. -/
def ForgetsRemoved (hub : InstrumentationHub) (operations : List Operation) : Prop :=
  ∀ before operation after hub₀, operations = before ++ operation :: after →
    InstrumentationHub.new.run before = .ok hub₀ →
      (∀ handle, operation.RemovesInstrument hub₀ handle →
        ∀ record, hub.resolveInstrument handle ≠ .ok record) ∧
      ∀ handle, operation.RemovesTarget hub₀ handle →
        ∀ record, hub.resolveTarget handle ≠ .ok record

theorem forgetsRemoved_of_run {operations : List Operation}
    (hinstruments : (operations.map Operation.instruments).sum < 2 ^ 64)
    (htargets : (operations.map Operation.targets).sum < 2 ^ 64)
    (hrun : InstrumentationHub.new.run operations = .ok hub) : hub.ForgetsRemoved operations := by
  rintro before operation after hub₀ rfl hbefore
  rw [List.map_append, List.sum_append, List.map_cons, List.sum_cons] at hinstruments htargets
  -- the hub before the call that removes, after it, and at the end of the run
  obtain ⟨hub₁, hrun₁, h₁, -⟩ := Consistent.new.exists_run before (by omega) (by omega)
  obtain rfl : hub₁ = hub₀ := by rwa [hrun₁, Except.ok.injEq] at hbefore
  obtain ⟨hub₂, hstep, h₂, hevolves₂⟩ := h₁.exists_step operation (by omega) (by omega)
  obtain ⟨hub₃, hrun₃, -, hevolves₃⟩ := h₂.exists_run after (by omega) (by omega)
  obtain rfl : hub₃ = hub := by
    have hwhole : InstrumentationHub.new.run (before ++ operation :: after) = .ok hub₃ := by
      rw [run_append, hrun₁]
      change hub₁.run (operation :: after) = .ok hub₃
      rw [run, List.foldlM_cons, hstep]
      exact hrun₃
    rwa [hwhole, Except.ok.injEq] at hrun
  obtain ⟨hinstrument, htarget⟩ := h₁.not_resolve_of_removes hstep
  constructor
  · intro handle hremoves record hrecord
    have hgone := hinstrument handle hremoves
    obtain ⟨old, hold, -⟩ := hremoves
    exact h₁.instruments.issued.not_live ⟨old, hold⟩ hevolves₂.instruments
      (not_exists.mpr hgone) hevolves₃.instruments ⟨record, hrecord⟩
  · intro handle hremoves record hrecord
    have hgone := htarget handle hremoves
    obtain ⟨old, hold, -⟩ := hremoves
    exact h₁.targets.issued.not_live ⟨old, hold⟩ hevolves₂.targets
      (not_exists.mpr hgone) hevolves₃.targets ⟨record, hrecord⟩

/-- Every sequence of calls with fewer than `2 ^ 64` registrations runs without a panic, and leaves
a sound hub in which no handle of a removed instrument or target resolves. -/
theorem run_sound (operations : List Operation)
    (hinstruments : (operations.map Operation.instruments).sum < 2 ^ 64)
    (htargets : (operations.map Operation.targets).sum < 2 ^ 64) :
    ∃ hub, InstrumentationHub.new.run operations = .ok hub ∧ hub.Sound ∧
      hub.ForgetsRemoved operations := by
  obtain ⟨hub, hrun, hconsistent, -⟩ := Consistent.new.exists_run operations
    (by rwa [Nat.zero_add]) (by rwa [Nat.zero_add])
  exact ⟨hub, hrun, hconsistent.sound, forgetsRemoved_of_run hinstruments htargets hrun⟩

/-- An instrument in control mode that wants to see calls. -/
def probe : InstrumentRegistration where
  instrumentId := "probe"
  sessionId := "session"
  mode := .control
  capabilities := {.eventCall, .controlPause}
  events := {.callEnter}
  filter := ⟨none, ∅, ∅, ∅⟩
  projection := ⟨false, none, none, none, none, none, none⟩
  delivery := .queue 256

/-- A machine that the probe can pause. -/
def machine : TargetDescriptor where
  targetId := "machine"
  sessionId := "session"
  kind := .hbc
  backend := ⟨"hbc", rfl⟩
  capabilities := {.eventCall, .controlPause, .controlSingleStep}

/-- The probe takes control of the machine, here under the handles of a generation. -/
def takesControl (generation : ℕ) : List Operation :=
  [.register probe, .attach ⟨"probe", generation⟩ ⟨"machine", 0⟩,
    .acquireControl ⟨"probe", generation⟩ ⟨"machine", 0⟩,
    .requestDirective ⟨⟨"probe", generation⟩, ⟨"machine", 0⟩⟩ .suspend]

/-- The probe takes control, is detached, and takes control again. -/
def probed : List Operation :=
  .registerTarget machine :: takesControl 0 ++ .detach ⟨"probe", 0⟩ :: takesControl 1

/-- At the end the directive waits for a machine with a live controller, and the first handle of the
probe, which was the controller before, does not resolve. -/
theorem run_sound_probed :
    ∃ hub, InstrumentationHub.new.run probed = .ok hub ∧ hub.Sound ∧
      hub.directives.lookup ⟨"machine", 0⟩ = some .suspend ∧
      (∃ holder record, hub.controlLeases.lookup ⟨"machine", 0⟩ = some holder ∧
        hub.resolveInstrument holder = .ok record) ∧
      ∀ record, hub.resolveInstrument ⟨"probe", 0⟩ ≠ .ok record := by
  obtain ⟨hub, hrun, hsound, hforgets⟩ := run_sound probed (by decide) (by decide)
  have hdirective : (InstrumentationHub.new.run probed).map
      (·.directives.lookup ⟨"machine", 0⟩) = .ok (some .suspend) := rfl
  rw [hrun] at hdirective
  have hwaits := Except.ok.inj hdirective
  refine ⟨hub, hrun, hsound, hwaits, hsound.directed _ _ hwaits, ?_⟩
  exact (hforgets (.registerTarget machine :: takesControl 0) (.detach ⟨"probe", 0⟩)
    (takesControl 1) _ rfl rfl).1 ⟨"probe", 0⟩ ⟨⟨⟨"probe", 0⟩, probe, 0⟩, rfl, rfl⟩

end InstrumentationHub

end Hara.Instrumentation
