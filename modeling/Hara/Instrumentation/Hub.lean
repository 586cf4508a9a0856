import Hara.Instrumentation.Model

/-!
# The instrumentation hub

The registries of the hub and its operations. Instruments and targets are reached through handles,
which carry the generation of their name.

## Conventions

An operation answers the hub after it. It stops with an `InstrumentationError`, or with a panic
where the source calls `expect`. Every operation makes its checks before it changes anything, so a
failed one leaves the hub as it was.

Counters are natural numbers with the saturating successor of `u64`. The event queues and the
sequence numbers are not part of the model: none of the operations here reads them.
-/

namespace Hara.Instrumentation

open Lib

structure InstrumentHandle where
  instrumentId : String
  generation : ℕ
deriving DecidableEq

structure TargetHandle where
  targetId : String
  generation : ℕ
deriving DecidableEq

inductive InstrumentDirective
  | continue | suspend | stepNext | terminate
deriving DecidableEq

def InstrumentDirective.requiredCapability : InstrumentDirective → Option Capability
  | .continue => none
  | .suspend => some .controlPause
  | .stepNext => some .controlSingleStep
  | .terminate => some .controlTerminate

structure InstrumentationAttachment where
  instrument : InstrumentHandle
  target : TargetHandle
  grantedCapabilities : Finset Capability
  registrationOrder : ℕ
deriving DecidableEq

structure ControlLease where
  instrument : InstrumentHandle
  target : TargetHandle
deriving DecidableEq

structure SessionCleanup where
  instruments : ℕ
  targets : ℕ
deriving DecidableEq

inductive InstrumentationError
  | invalidRegistration (message : String)
  | invalidTarget (message : String)
  | duplicateInstrument (id : String)
  | duplicateTarget (id : String)
  | duplicateAttachment (instrumentId targetId : String)
  | unknownInstrument (id : String)
  | unknownTarget (id : String)
  | staleInstrumentHandle (instrumentId : String) (generation : ℕ)
  | staleTargetHandle (targetId : String) (generation : ℕ)
  | sessionMismatch (instrumentSession targetSession : String)
  | filterMismatch (instrumentId targetId : String)
  | unsupportedCapabilities (targetId : String) (backend : RuntimeBackend)
      (missing : Finset Capability)
  | unsupportedEvents (targetId : String) (backend : RuntimeBackend) (events : Finset EventKind)
  | controlModeRequired (id : String)
  | attachmentRequired (instrumentId targetId : String)
  | controlLeaseHeld (targetId holder : String)
  | invalidControlLease (targetId instrumentId : String)
deriving DecidableEq

/-- How an operation stops: with an error for its caller, or with a panic. -/
inductive Stop
  | failed (error : InstrumentationError)
  | panicked (message : String)
deriving DecidableEq

/-- `Result::expect`. -/
def expect {α : Type} (message : String) : Except Stop α → Except Stop α
  | .error (.failed _) => .error (.panicked message)
  | result => result

structure InstrumentRecord where
  handle : InstrumentHandle
  registration : InstrumentRegistration
  order : ℕ
deriving DecidableEq

structure TargetRecord where
  handle : TargetHandle
  descriptor : TargetDescriptor
deriving DecidableEq

structure InstrumentationHub where
  registrations : AssocMap ℕ InstrumentRecord
  instrumentOrders : AssocMap String ℕ
  instrumentGenerations : AssocMap String ℕ
  targets : AssocMap String TargetRecord
  targetGenerations : AssocMap String ℕ
  attachments : AssocMap (InstrumentHandle × TargetHandle) InstrumentationAttachment
  enabledEvents : EventMask
  controlLeases : AssocMap TargetHandle InstrumentHandle
  nextRegistrationOrder : ℕ
  directives : AssocMap TargetHandle InstrumentDirective

/-- `saturating_add(1)` on `u64`. -/
def saturatingSucc (n : ℕ) : ℕ := min (n + 1) (2 ^ 64 - 1)

/-- The generation for the next owner of a name, and the counters after it is given out. -/
def nextGeneration (generations : AssocMap String ℕ) (id : String) : ℕ × AssocMap String ℕ :=
  let generation := (generations.lookup id).getD 0
  (generation, generations.insert id (saturatingSucc generation))

namespace InstrumentationHub

def new : InstrumentationHub where
  registrations := ∅
  instrumentOrders := ∅
  instrumentGenerations := ∅
  targets := ∅
  targetGenerations := ∅
  attachments := ∅
  enabledEvents := .empty
  controlLeases := ∅
  nextRegistrationOrder := 0
  directives := ∅

/-! ## Handles -/

variable (hub : InstrumentationHub)

def resolveInstrument (handle : InstrumentHandle) : Except Stop InstrumentRecord :=
  match hub.instrumentOrders.lookup handle.instrumentId with
  | none =>
    if handle.instrumentId ∈ hub.instrumentGenerations then
      .error (.failed (.staleInstrumentHandle handle.instrumentId handle.generation))
    else
      .error (.failed (.unknownInstrument handle.instrumentId))
  | some order =>
    match hub.registrations.lookup order with
    | none => .error (.panicked "instrument index and registry must remain consistent")
    | some record =>
      if record.handle = handle then
        .ok record
      else
        .error (.failed (.staleInstrumentHandle handle.instrumentId handle.generation))

def resolveTarget (handle : TargetHandle) : Except Stop TargetRecord :=
  match hub.targets.lookup handle.targetId with
  | none =>
    if handle.targetId ∈ hub.targetGenerations then
      .error (.failed (.staleTargetHandle handle.targetId handle.generation))
    else
      .error (.failed (.unknownTarget handle.targetId))
  | some record =>
    if record.handle = handle then
      .ok record
    else
      .error (.failed (.staleTargetHandle handle.targetId handle.generation))

/-- The mask with the events of one attached instrument, if its handle resolves. -/
def addEvents (mask : EventMask) (key : InstrumentHandle × TargetHandle) : Except Stop EventMask :=
  match hub.resolveInstrument key.1 with
  | .ok record =>
    .ok ((EventKind.all.filter (· ∈ record.registration.events)).foldl EventMask.insert mask)
  | .error (.failed _) => .ok mask
  | .error (.panicked message) => .error (.panicked message)

def recomputeEventMask : Except Stop InstrumentationHub := do
  let mask ← hub.attachments.keys.foldlM hub.addEvents EventMask.empty
  return { hub with enabledEvents := mask }

/-! ## Registering and attaching -/

def register (registration : InstrumentRegistration) :
    Except Stop (InstrumentHandle × InstrumentationHub) := do
  registration.validate.mapError fun message ↦ .failed (.invalidRegistration message)
  Except.ensure (registration.instrumentId ∉ hub.instrumentOrders)
    (.failed (.duplicateInstrument registration.instrumentId))
  let (generation, generations) :=
    nextGeneration hub.instrumentGenerations registration.instrumentId
  let handle : InstrumentHandle := ⟨registration.instrumentId, generation⟩
  let order := hub.nextRegistrationOrder
  return (handle, { hub with
    instrumentGenerations := generations
    nextRegistrationOrder := saturatingSucc order
    instrumentOrders := hub.instrumentOrders.insert registration.instrumentId order
    registrations := hub.registrations.insert order ⟨handle, registration, order⟩ })

def registerTarget (descriptor : TargetDescriptor) :
    Except Stop (TargetHandle × InstrumentationHub) := do
  descriptor.validate.mapError fun message ↦ .failed (.invalidTarget message)
  Except.ensure (descriptor.targetId ∉ hub.targets)
    (.failed (.duplicateTarget descriptor.targetId))
  let (generation, generations) := nextGeneration hub.targetGenerations descriptor.targetId
  let handle : TargetHandle := ⟨descriptor.targetId, generation⟩
  return (handle, { hub with
    targetGenerations := generations
    targets := hub.targets.insert descriptor.targetId ⟨handle, descriptor⟩ })

def attach (instrument : InstrumentHandle) (target : TargetHandle) :
    Except Stop (InstrumentationAttachment × InstrumentationHub) := do
  let instrumentRecord ← hub.resolveInstrument instrument
  let targetRecord ← hub.resolveTarget target
  let registration := instrumentRecord.registration
  let descriptor := targetRecord.descriptor
  Except.ensure (registration.sessionId = descriptor.sessionId)
    (.failed (.sessionMismatch registration.sessionId descriptor.sessionId))
  Except.ensure (registration.filter.matches descriptor)
    (.failed (.filterMismatch instrument.instrumentId target.targetId))
  let unsupportedEvents := registration.events.filter (¬·.supportsTarget descriptor.kind)
  Except.ensure (unsupportedEvents = ∅)
    (.failed (.unsupportedEvents target.targetId descriptor.backend unsupportedEvents))
  let missing := registration.capabilities \ descriptor.capabilities
  Except.ensure (missing = ∅)
    (.failed (.unsupportedCapabilities target.targetId descriptor.backend missing))
  Except.ensure ((instrument, target) ∉ hub.attachments)
    (.failed (.duplicateAttachment instrument.instrumentId target.targetId))
  let attachment : InstrumentationAttachment :=
    ⟨instrument, target, registration.capabilities, instrumentRecord.order⟩
  let hub ← recomputeEventMask
    { hub with attachments := hub.attachments.insert (instrument, target) attachment }
  return (attachment, hub)

/-! ## Control -/

def acquireControl (instrument : InstrumentHandle) (target : TargetHandle) :
    Except Stop (ControlLease × InstrumentationHub) := do
  let record ← hub.resolveInstrument instrument
  let _ ← hub.resolveTarget target
  Except.ensure (record.registration.mode = .control)
    (.failed (.controlModeRequired instrument.instrumentId))
  Except.ensure ((instrument, target) ∈ hub.attachments)
    (.failed (.attachmentRequired instrument.instrumentId target.targetId))
  match hub.controlLeases.lookup target with
  | some holder =>
    Except.ensure (holder = instrument)
      (.failed (.controlLeaseHeld target.targetId holder.instrumentId))
  | none => pure ()
  return (⟨instrument, target⟩,
    { hub with controlLeases := hub.controlLeases.insert target instrument })

/-- The check that the lease is the one in force. -/
def authorizeLease (lease : ControlLease) : Except Stop Unit := do
  let _ ← hub.resolveInstrument lease.instrument
  let _ ← hub.resolveTarget lease.target
  Except.ensure (hub.controlLeases.lookup lease.target = some lease.instrument)
    (.failed (.invalidControlLease lease.target.targetId lease.instrument.instrumentId))

def authorizeControl (lease : ControlLease) (capability : Capability) : Except Stop Unit := do
  let instrument ← hub.resolveInstrument lease.instrument
  let target ← hub.resolveTarget lease.target
  Except.ensure (hub.controlLeases.lookup lease.target = some lease.instrument)
    (.failed (.invalidControlLease lease.target.targetId lease.instrument.instrumentId))
  Except.ensure (capability.isControl ∧ capability ∈ instrument.registration.capabilities)
    (.failed (.unsupportedCapabilities target.descriptor.targetId target.descriptor.backend
      {capability}))

def releaseControl (lease : ControlLease) : Except Stop InstrumentationHub := do
  let _ ← hub.resolveInstrument lease.instrument
  let _ ← hub.resolveTarget lease.target
  Except.ensure (hub.controlLeases.lookup lease.target = some lease.instrument)
    (.failed (.invalidControlLease lease.target.targetId lease.instrument.instrumentId))
  return { hub with
    controlLeases := hub.controlLeases.erase lease.target
    directives := hub.directives.erase lease.target }

def requestDirective (lease : ControlLease) (directive : InstrumentDirective) :
    Except Stop InstrumentationHub :=
  match directive.requiredCapability with
  | some capability => do
    hub.authorizeControl lease capability
    return { hub with directives := hub.directives.insert lease.target directive }
  | none => do
    hub.authorizeLease lease
    return { hub with directives := hub.directives.erase lease.target }

def takeDirective (target : TargetHandle) :
    Except Stop (InstrumentDirective × InstrumentationHub) := do
  let _ ← hub.resolveTarget target
  return ((hub.directives.lookup target).getD .continue,
    { hub with directives := hub.directives.erase target })

/-! ## Removal -/

def detach (instrument : InstrumentHandle) : Except Stop InstrumentationHub := do
  let record ← hub.resolveInstrument instrument
  let controlledTargets := (hub.controlLeases.entries.filter (·.2 = instrument)).map (·.1)
  recomputeEventMask { hub with
    registrations := hub.registrations.erase record.order
    instrumentOrders := hub.instrumentOrders.erase instrument.instrumentId
    attachments := hub.attachments.retain fun key _ ↦ key.1 ≠ instrument
    controlLeases := hub.controlLeases.retain fun _ holder ↦ holder ≠ instrument
    directives := controlledTargets.foldl (fun directives target ↦ directives.erase target)
      hub.directives }

def removeTarget (target : TargetHandle) : Except Stop InstrumentationHub := do
  let _ ← hub.resolveTarget target
  recomputeEventMask { hub with
    targets := hub.targets.erase target.targetId
    attachments := hub.attachments.retain fun key _ ↦ key.2 ≠ target
    controlLeases := hub.controlLeases.erase target
    directives := hub.directives.erase target }

/-- The handles of the instruments of a session. -/
def sessionInstruments (sessionId : String) : List InstrumentHandle :=
  (hub.registrations.values.filter (·.registration.sessionId = sessionId)).map (·.handle)

/-- The handles of the targets of a session. -/
def sessionTargets (sessionId : String) : List TargetHandle :=
  (hub.targets.values.filter (·.descriptor.sessionId = sessionId)).map (·.handle)

def detachSession (sessionId : String) : Except Stop (SessionCleanup × InstrumentationHub) := do
  let instruments := hub.sessionInstruments sessionId
  let targets := hub.sessionTargets sessionId
  let hub ← instruments.foldlM (fun hub instrument ↦
    expect "session cleanup collected a live instrument handle" (hub.detach instrument)) hub
  let hub ← targets.foldlM (fun hub target ↦
    expect "session cleanup collected a live target handle" (hub.removeTarget target)) hub
  return (⟨instruments.length, targets.length⟩, hub)

def clear : InstrumentationHub :=
  { hub with
    registrations := ∅
    instrumentOrders := ∅
    targets := ∅
    attachments := ∅
    controlLeases := ∅
    enabledEvents := .empty
    directives := ∅ }

end InstrumentationHub

/-! ## Runs -/

/-- A call of one of the operations. -/
inductive Operation
  | register (registration : InstrumentRegistration)
  | registerTarget (descriptor : TargetDescriptor)
  | attach (instrument : InstrumentHandle) (target : TargetHandle)
  | acquireControl (instrument : InstrumentHandle) (target : TargetHandle)
  | releaseControl (lease : ControlLease)
  | detach (instrument : InstrumentHandle)
  | removeTarget (target : TargetHandle)
  | detachSession (sessionId : String)
  | requestDirective (lease : ControlLease) (directive : InstrumentDirective)
  | takeDirective (target : TargetHandle)
  | clear

namespace InstrumentationHub

/-- The hub after one call. -/
def apply (hub : InstrumentationHub) : Operation → Except Stop InstrumentationHub
  | .register registration => Prod.snd <$> hub.register registration
  | .registerTarget descriptor => Prod.snd <$> hub.registerTarget descriptor
  | .attach instrument target => Prod.snd <$> hub.attach instrument target
  | .acquireControl instrument target => Prod.snd <$> hub.acquireControl instrument target
  | .releaseControl lease => hub.releaseControl lease
  | .detach instrument => hub.detach instrument
  | .removeTarget target => hub.removeTarget target
  | .detachSession sessionId => Prod.snd <$> hub.detachSession sessionId
  | .requestDirective lease directive => hub.requestDirective lease directive
  | .takeDirective target => Prod.snd <$> hub.takeDirective target
  | .clear => .ok hub.clear

/-- The hub after one call of a caller that goes on after an error; only a panic ends the run. -/
def step (hub : InstrumentationHub) (operation : Operation) : Except String InstrumentationHub :=
  match hub.apply operation with
  | .ok hub => .ok hub
  | .error (.failed _) => .ok hub
  | .error (.panicked message) => .error message

/-- The hub after a sequence of calls. -/
def run (hub : InstrumentationHub) (operations : List Operation) :
    Except String InstrumentationHub :=
  operations.foldlM step hub

end InstrumentationHub

end Hara.Instrumentation
