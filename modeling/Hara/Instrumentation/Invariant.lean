import Hara.Instrumentation.Resolve

/-!
# The invariant of the hub

What holds between the registries of the hub: attachments connect live instruments with live
targets that support them, the event mask is the union over the attachments, leases are held by
attached instruments in control mode, and directives wait only where there is a lease.

Each operation is shown to keep all of this, to take in handles under new generations only, and
not to panic.
-/

namespace Hara.Instrumentation.InstrumentationHub

open Lib

variable {hub hub' : InstrumentationHub} {n m : ℕ}

/-! ## What holds -/

/-- The attachment connects a live instrument with a live target that supports it. -/
def Links (hub : InstrumentationHub) (attachment : InstrumentationAttachment) : Prop :=
  ∃ record target, hub.resolveInstrument attachment.instrument = .ok record ∧
    hub.resolveTarget attachment.target = .ok target ∧
    record.registration.sessionId = target.descriptor.sessionId ∧
    record.registration.capabilities ⊆ target.descriptor.capabilities ∧
    (∀ event ∈ record.registration.events, event.supportsTarget target.descriptor.kind) ∧
    attachment.grantedCapabilities = record.registration.capabilities ∧
    attachment.registrationOrder = record.order

/-- Some attached instrument wants the event. -/
def Subscribed (hub : InstrumentationHub) (event : EventKind) : Prop :=
  ∃ instrument target record, (instrument, target) ∈ hub.attachments ∧
    hub.resolveInstrument instrument = .ok record ∧ event ∈ record.registration.events

/-- The instrument may hold the lease of the target. -/
def MayControl (hub : InstrumentationHub) (instrument : InstrumentHandle) (target : TargetHandle) :
    Prop :=
  ∃ record, hub.resolveInstrument instrument = .ok record ∧ record.registration.mode = .control ∧
    (instrument, target) ∈ hub.attachments

/-- Attachments, leases and directives rest on one another and on the registries. -/
structure Linked (hub : InstrumentationHub) : Prop where
  attached : ∀ instrument target attachment,
    hub.attachments.lookup (instrument, target) = some attachment →
      attachment.instrument = instrument ∧ attachment.target = target ∧ hub.Links attachment
  controlled : ∀ target instrument, hub.controlLeases.lookup target = some instrument →
    hub.MayControl instrument target
  directed : ∀ target directive, hub.directives.lookup target = some directive →
    ∃ instrument, hub.controlLeases.lookup target = some instrument

/-- The hub is consistent, after at most `n` registrations of instruments and `m` of targets. -/
structure Consistent (n m : ℕ) (hub : InstrumentationHub) : Prop where
  instruments : InstrumentsOk n hub
  targets : TargetsOk m hub
  linked : Linked hub
  enabled : hub.enabledEvents.Holds hub.Subscribed

/-- Handles are given out under new generations only. -/
structure Evolves (hub hub' : InstrumentationHub) : Prop where
  instruments : hub.instrumentStamps.Follows hub'.instrumentStamps
  targets : hub.targetStamps.Follows hub'.targetStamps

theorem Evolves.refl (hub : InstrumentationHub) : Evolves hub hub := ⟨.refl _, .refl _⟩

theorem Evolves.trans {hub'' : InstrumentationHub} (h : Evolves hub hub')
    (h' : Evolves hub' hub'') : Evolves hub hub'' :=
  ⟨h.instruments.trans h'.instruments, h.targets.trans h'.targets⟩

/-- An operation does not panic, and a hub it answers is consistent and follows the one before. -/
def Keeps (n m : ℕ) (hub : InstrumentationHub) (result : Except Stop InstrumentationHub) : Prop :=
  Except.Ensures result (fun hub' ↦ Consistent n m hub' ∧ hub.Evolves hub') Stop.IsFailure

theorem Linked.of_empty (hattachments : hub.attachments = ∅) (hleases : hub.controlLeases = ∅)
    (hdirectives : hub.directives = ∅) : Linked hub := by
  refine ⟨?_, ?_, ?_⟩
  · intro instrument target attachment h
    rw [hattachments] at h
    cases h
  · intro target instrument h
    rw [hleases] at h
    cases h
  · intro target directive h
    rw [hdirectives] at h
    cases h

theorem holds_subscribed_of_empty (h : hub.attachments = ∅) :
    EventMask.empty.Holds hub.Subscribed := by
  refine EventMask.holds_empty.congr fun event ↦ ⟨False.elim, ?_⟩
  rintro ⟨_, _, _, hmem, -⟩
  rw [h] at hmem
  exact AList.notMem_empty _ hmem

theorem Consistent.new : Consistent 0 0 InstrumentationHub.new :=
  ⟨.new, .new, .of_empty rfl rfl rfl, holds_subscribed_of_empty rfl⟩

theorem Consistent.mono {n' m' : ℕ} (h : Consistent n m hub) (hn : n ≤ n') (hm : m ≤ m') :
    Consistent n' m' hub :=
  ⟨h.instruments.mono hn, h.targets.mono hm, h.linked, h.enabled⟩

/-! ## The event mask -/

theorem exists_addEvents (h : InstrumentsOk n hub) {mask : EventMask} {p : EventKind → Prop}
    (hmask : mask.Holds p) (key : InstrumentHandle × TargetHandle) :
    ∃ mask', hub.addEvents mask key = .ok mask' ∧ mask'.Holds fun event ↦ p event ∨
      ∃ record, hub.resolveInstrument key.1 = .ok record ∧ event ∈ record.registration.events := by
  have hsafe := h.ensures_resolve key.1
  rw [addEvents]
  cases hresolve : hub.resolveInstrument key.1 with
  | ok record =>
    refine ⟨_, rfl, (hmask.foldl_insert _).congr fun event ↦ ?_⟩
    simp [EventKind.mem_all]
  | error stop =>
    obtain ⟨error, rfl⟩ := hsafe.of_error hresolve
    exact ⟨mask, rfl, hmask.congr fun event ↦ by simp⟩

theorem exists_foldlM_addEvents (h : InstrumentsOk n hub) {mask : EventMask} {p : EventKind → Prop}
    (hmask : mask.Holds p) {keys : List (InstrumentHandle × TargetHandle)} :
    ∃ mask', keys.foldlM hub.addEvents mask = .ok mask' ∧ mask'.Holds fun event ↦ p event ∨
      ∃ key ∈ keys, ∃ record, hub.resolveInstrument key.1 = .ok record ∧
        event ∈ record.registration.events := by
  induction keys generalizing mask p with
  | nil => exact ⟨mask, rfl, hmask.congr fun event ↦ by simp⟩
  | cons key keys ih =>
    obtain ⟨mask₁, hstep, hmask₁⟩ := exists_addEvents h hmask key
    obtain ⟨mask₂, hrest, hmask₂⟩ := ih hmask₁
    refine ⟨mask₂, ?_, hmask₂.congr fun event ↦ ?_⟩
    · rw [List.foldlM_cons, hstep]
      exact hrest
    · simp only [List.mem_cons, exists_eq_or_imp, or_assoc]

/-- The mask is computed without a panic, and it is the union over the attachments. -/
theorem exists_recomputeEventMask (h : InstrumentsOk n hub) :
    ∃ mask, hub.recomputeEventMask = .ok { hub with enabledEvents := mask } ∧
      mask.Holds hub.Subscribed := by
  obtain ⟨mask, hfold, hmask⟩ := exists_foldlM_addEvents h EventMask.holds_empty
  refine ⟨mask, ?_, hmask.congr fun event ↦ ?_⟩
  · rw [recomputeEventMask, hfold]
    rfl
  · constructor
    · rintro (hfalse | ⟨⟨instrument, target⟩, hkey, record, hresolve, hevent⟩)
      · exact hfalse.elim
      · exact ⟨instrument, target, record, AList.mem_keys.mpr hkey, hresolve, hevent⟩
    · rintro ⟨instrument, target, record, hmem, hresolve, hevent⟩
      exact .inr ⟨(instrument, target), AList.mem_keys.mp hmem, record, hresolve, hevent⟩

/-- With the mask computed anew, the hub is consistent if the rest of it is. -/
theorem Linked.exists_recompute (h : Linked hub) (hinstruments : InstrumentsOk n hub)
    (htargets : TargetsOk m hub) :
    ∃ mask, hub.recomputeEventMask = .ok { hub with enabledEvents := mask } ∧
      Consistent n m { hub with enabledEvents := mask } := by
  obtain ⟨mask, hmask, hholds⟩ := exists_recomputeEventMask hinstruments
  refine ⟨mask, hmask, hinstruments.congr rfl rfl rfl rfl, htargets.congr rfl rfl, ?_, hholds⟩
  exact ⟨h.attached, h.controlled, h.directed⟩

/-! ## What is left when something is taken away -/

/-- Attachments, leases and directives may go, if what they rest on stays for those with `p`. -/
theorem Linked.shrink (h : Linked hub) {p : InstrumentHandle × TargetHandle → Prop}
    (hattached : ∀ key attachment, hub'.attachments.lookup key = some attachment ↔
      hub.attachments.lookup key = some attachment ∧ p key)
    (hinstrument : ∀ key record, p key → hub.resolveInstrument key.1 = .ok record →
      hub'.resolveInstrument key.1 = .ok record)
    (htarget : ∀ key record, p key → hub.resolveTarget key.2 = .ok record →
      hub'.resolveTarget key.2 = .ok record)
    (hlease : ∀ target instrument, hub'.controlLeases.lookup target = some instrument →
      hub.controlLeases.lookup target = some instrument ∧ p (instrument, target))
    (hdirective : ∀ target directive, hub'.directives.lookup target = some directive →
      hub.directives.lookup target = some directive ∧
        ∀ instrument, hub.controlLeases.lookup target = some instrument →
          hub'.controlLeases.lookup target = some instrument) :
    Linked hub' := by
  refine ⟨?_, ?_, ?_⟩
  · intro instrument target attachment hlookup
    obtain ⟨hold, hp⟩ := (hattached _ _).mp hlookup
    obtain ⟨rfl, rfl, record, targetRecord, hrecord, htargetRecord, hrest⟩ :=
      h.attached instrument target attachment hold
    exact ⟨rfl, rfl, record, targetRecord, hinstrument _ _ hp hrecord,
      htarget _ _ hp htargetRecord, hrest⟩
  · intro target instrument hlookup
    obtain ⟨hold, hp⟩ := hlease target instrument hlookup
    obtain ⟨record, hrecord, hmode, hmem⟩ := h.controlled target instrument hold
    obtain ⟨attachment, hattachment⟩ := AssocMap.mem_iff.mp hmem
    refine ⟨record, hinstrument _ _ hp hrecord, hmode, AssocMap.mem_iff.mpr ⟨attachment, ?_⟩⟩
    exact (hattached _ _).mpr ⟨hattachment, hp⟩
  · intro target directive hlookup
    obtain ⟨hold, hkept⟩ := hdirective target directive hlookup
    obtain ⟨instrument, hinstrument⟩ := h.directed target directive hold
    exact ⟨instrument, hkept instrument hinstrument⟩

/-- With the same attachments, the same events are wanted. -/
theorem Linked.subscribed_iff (h : Linked hub) (hsame : hub'.attachments = hub.attachments)
    (hinstrument : ∀ instrument record, hub.resolveInstrument instrument = .ok record →
      hub'.resolveInstrument instrument = .ok record) (event : EventKind) :
    hub.Subscribed event ↔ hub'.Subscribed event := by
  constructor
  · rintro ⟨instrument, target, record, hmem, hrecord, hevent⟩
    exact ⟨instrument, target, record, hsame ▸ hmem, hinstrument _ _ hrecord, hevent⟩
  · rintro ⟨instrument, target, record, hmem, hrecord, hevent⟩
    rw [hsame] at hmem
    obtain ⟨attachment, hattachment⟩ := AssocMap.mem_iff.mp hmem
    obtain ⟨rfl, -, old, -, hold, -⟩ := h.attached _ _ _ hattachment
    have heq := hinstrument _ _ hold
    rw [hrecord, Except.ok.injEq] at heq
    exact ⟨attachment.instrument, target, old, hmem, hold, heq ▸ hevent⟩

end Hara.Instrumentation.InstrumentationHub
