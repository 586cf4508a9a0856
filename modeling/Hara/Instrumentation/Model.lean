import Hara.Lib.AssocMap
import Hara.Lib.Except
import Mathlib.Data.Finset.Basic
import Mathlib.Data.Nat.Bitwise

/-!
# Instruments and targets

What an instrument and a target say about themselves when they are registered with the hub, and
the checks of these descriptions.

Sets (`BTreeSet`) are finite sets. Where the source walks through a set of events it does so in the
order of their discriminants, which is the order of `EventKind.all`.
-/

namespace Hara.Instrumentation

/-- `char::is_whitespace`. -/
def isWhitespace (c : Char) : Bool :=
  (9 ≤ c.toNat ∧ c.toNat ≤ 13) ∨ (0x2000 ≤ c.toNat ∧ c.toNat ≤ 0x200A) ∨
    c.toNat ∈ [0x20, 0x85, 0xA0, 0x1680, 0x2028, 0x2029, 0x202F, 0x205F, 0x3000]

/-- `text.trim().is_empty()`. -/
def isBlank (text : String) : Bool := text.toList.all isWhitespace

inductive InstrumentMode
  | passive | control | transform
deriving DecidableEq

inductive TargetKind
  | interpreter | hbc | wholeWasm
deriving DecidableEq

/-- The name of a backend; it is never blank. -/
structure RuntimeBackend where
  value : String
  nonempty : isBlank value = false
deriving DecidableEq

def RuntimeBackend.new (value : String) : Except String RuntimeBackend :=
  if h : isBlank value = false then .ok ⟨value, h⟩ else .error "runtime backend must be non-empty"

inductive Capability
  | eventSemanticBoundary | eventInstruction | eventCall | eventException | eventEffect
  | eventSuspension | eventLifecycle
  | inspectSourceLocation | inspectCurrentFrame | inspectFrames | inspectLocals | inspectStack
  | inspectValuePreview | inspectSnapshot
  | controlPause | controlSingleStep | controlResume | controlSettle | controlTerminate
  | transformHalc | transformHbc | retransformHalc | retransformHbc
deriving DecidableEq

def Capability.isControl : Capability → Bool
  | .controlPause | .controlSingleStep | .controlResume | .controlSettle | .controlTerminate => true
  | _ => false

def Capability.isTransform : Capability → Bool
  | .transformHalc | .transformHbc | .retransformHalc | .retransformHbc => true
  | _ => false

/-! ## Events -/

inductive EventKind
  | semanticBoundary | instructionExecute | callEnter | callReturn | exceptionRaise
  | exceptionUnwind | varSet | fieldSet | promiseSuspend | promiseResume | machineSuspend
  | machineResume | executionTerminal | protocolCall
deriving DecidableEq

namespace EventKind

/-- The discriminant, `self as u8`. -/
def discriminant : EventKind → ℕ
  | .semanticBoundary => 0
  | .instructionExecute => 1
  | .callEnter => 2
  | .callReturn => 3
  | .exceptionRaise => 4
  | .exceptionUnwind => 5
  | .varSet => 6
  | .fieldSet => 7
  | .promiseSuspend => 8
  | .promiseResume => 9
  | .machineSuspend => 10
  | .machineResume => 11
  | .executionTerminal => 12
  | .protocolCall => 13

/-- All events in the order of the enumeration. -/
def all : List EventKind :=
  [.semanticBoundary, .instructionExecute, .callEnter, .callReturn, .exceptionRaise,
    .exceptionUnwind, .varSet, .fieldSet, .promiseSuspend, .promiseResume, .machineSuspend,
    .machineResume, .executionTerminal, .protocolCall]

def requiredCapability : EventKind → Capability
  | .semanticBoundary => .eventSemanticBoundary
  | .instructionExecute => .eventInstruction
  | .callEnter | .callReturn => .eventCall
  | .exceptionRaise | .exceptionUnwind => .eventException
  | .varSet | .fieldSet => .eventEffect
  | .promiseSuspend | .promiseResume | .machineSuspend | .machineResume => .eventSuspension
  | .executionTerminal => .eventLifecycle
  | .protocolCall => .eventSemanticBoundary

def supportsTarget (event : EventKind) : TargetKind → Bool
  | .interpreter => event ∈ [.semanticBoundary, .callEnter, .callReturn, .exceptionRaise, .varSet,
      .fieldSet, .promiseSuspend, .promiseResume, .executionTerminal]
  | .hbc => event ∈ [.instructionExecute, .callEnter, .callReturn, .exceptionUnwind,
      .machineSuspend, .machineResume, .executionTerminal]
  | .wholeWasm => event ∈ [.protocolCall, .executionTerminal]

def bit (event : EventKind) : ℕ := 1 <<< event.discriminant

theorem mem_all {event : EventKind} : event ∈ all := by cases event <;> decide

theorem discriminant_injective : Function.Injective discriminant := by
  intro a b h
  have hmap : (all.map discriminant).Nodup := by decide
  exact List.inj_on_of_nodup_map hmap mem_all mem_all h

end EventKind

/-- A set of events as the bits of a machine word. -/
structure EventMask where
  bits : ℕ
deriving DecidableEq

namespace EventMask

variable {mask : EventMask} {event : EventKind} {p : EventKind → Prop}

def empty : EventMask := ⟨0⟩

def isEmpty (mask : EventMask) : Bool := mask.bits = 0

def contains (mask : EventMask) (event : EventKind) : Bool := mask.bits &&& event.bit ≠ 0

def insert (mask : EventMask) (event : EventKind) : EventMask := ⟨mask.bits ||| event.bit⟩

/-- The mask has exactly the events that satisfy `p`, and no other bit. -/
def Holds (mask : EventMask) (p : EventKind → Prop) : Prop :=
  ∀ n, mask.bits.testBit n ↔ ∃ event, event.discriminant = n ∧ p event

theorem contains_eq_testBit : mask.contains event = mask.bits.testBit event.discriminant := by
  rw [contains, EventKind.bit, Nat.one_shiftLeft, Nat.and_two_pow]
  cases mask.bits.testBit event.discriminant <;> simp

theorem Holds.contains_iff (h : mask.Holds p) : mask.contains event ↔ p event := by
  rw [contains_eq_testBit, h]
  constructor
  · rintro ⟨event', heq, hp⟩
    rwa [← EventKind.discriminant_injective heq]
  · exact fun hp ↦ ⟨event, rfl, hp⟩

theorem Holds.isEmpty_iff (h : mask.Holds p) : mask.isEmpty ↔ ∀ event, ¬p event := by
  rw [isEmpty, decide_eq_true_iff]
  constructor
  · intro hbits event hp
    have hbit := (h event.discriminant).mpr ⟨event, rfl, hp⟩
    simp [hbits] at hbit
  · intro hnone
    refine Nat.eq_of_testBit_eq fun n ↦ ?_
    rw [Nat.zero_testBit, Bool.eq_false_iff]
    intro hbit
    obtain ⟨event, -, hp⟩ := (h n).mp hbit
    exact hnone event hp

theorem holds_empty : empty.Holds fun _ ↦ False := by
  intro n
  simp [empty]

theorem Holds.insert (h : mask.Holds p) (event : EventKind) :
    (mask.insert event).Holds fun e ↦ p e ∨ e = event := by
  intro n
  rw [EventMask.insert, Nat.testBit_or, EventKind.bit, Nat.one_shiftLeft, Nat.testBit_two_pow,
    Bool.or_eq_true, h n, decide_eq_true_iff]
  constructor
  · rintro (⟨e, he, hp⟩ | he)
    · exact ⟨e, he, .inl hp⟩
    · exact ⟨event, he, .inr rfl⟩
  · rintro ⟨e, he, hp | rfl⟩
    · exact .inl ⟨e, he, hp⟩
    · exact .inr he

theorem Holds.foldl_insert (h : mask.Holds p) (events : List EventKind) :
    (events.foldl EventMask.insert mask).Holds fun e ↦ p e ∨ e ∈ events := by
  induction events generalizing mask p with
  | nil => simpa using h
  | cons event events ih =>
    have hstep := ih (h.insert event)
    simpa only [List.foldl_cons, List.mem_cons, or_assoc] using hstep

theorem Holds.congr {q : EventKind → Prop} (h : mask.Holds p) (hpq : ∀ e, p e ↔ q e) :
    mask.Holds q := by
  have heq : p = q := funext fun e ↦ propext (hpq e)
  exact heq ▸ h

end EventMask

/-! ## Registrations and targets -/

structure ProjectionLimits where
  maxItems : ℕ
  maxDepth : ℕ
  maxBytes : ℕ
deriving DecidableEq

def ProjectionLimits.isBounded (limits : ProjectionLimits) : Bool :=
  limits.maxItems > 0 ∧ limits.maxDepth > 0 ∧ limits.maxBytes > 0

structure ProjectionRequest where
  sourceLocation : Bool
  currentFrame : Option ProjectionLimits
  frames : Option ProjectionLimits
  locals : Option ProjectionLimits
  stack : Option ProjectionLimits
  valuePreview : Option ProjectionLimits
  machineSnapshot : Option ProjectionLimits
deriving DecidableEq

namespace ProjectionRequest

def isBounded (request : ProjectionRequest) : Bool :=
  [request.currentFrame, request.frames, request.locals, request.stack, request.valuePreview,
    request.machineSnapshot].reduceOption.all ProjectionLimits.isBounded

def requiredCapabilities (request : ProjectionRequest) : Finset Capability :=
  let required : Finset Capability :=
    if request.sourceLocation then {.inspectSourceLocation} else ∅
  [(request.currentFrame, Capability.inspectCurrentFrame),
    (request.frames, .inspectFrames),
    (request.locals, .inspectLocals),
    (request.stack, .inspectStack),
    (request.valuePreview, .inspectValuePreview),
    (request.machineSnapshot, .inspectSnapshot)].foldl
      (fun required entry ↦ if entry.1.isSome then insert entry.2 required else required) required

end ProjectionRequest

inductive EventDelivery
  | callback
  | queue (capacity : ℕ)
deriving DecidableEq

def EventDelivery.isBounded : EventDelivery → Bool
  | .callback => true
  | .queue capacity => capacity > 0

structure TargetDescriptor where
  targetId : String
  sessionId : String
  kind : TargetKind
  backend : RuntimeBackend
  capabilities : Finset Capability
deriving DecidableEq

def TargetDescriptor.validate (target : TargetDescriptor) : Except String Unit := do
  Except.ensure (isBlank target.targetId = false) "target id must be non-empty"
  Except.ensure (isBlank target.sessionId = false) "target session id must be non-empty"

structure InstrumentFilter where
  sessionId : Option String
  targetIds : Finset String
  targetKinds : Finset TargetKind
  backends : Finset RuntimeBackend
deriving DecidableEq

def InstrumentFilter.matches (filter : InstrumentFilter) (target : TargetDescriptor) : Bool :=
  (∀ session ∈ filter.sessionId, session = target.sessionId) ∧
    (filter.targetIds = ∅ ∨ target.targetId ∈ filter.targetIds) ∧
    (filter.targetKinds = ∅ ∨ target.kind ∈ filter.targetKinds) ∧
    (filter.backends = ∅ ∨ target.backend ∈ filter.backends)

structure InstrumentRegistration where
  instrumentId : String
  sessionId : String
  mode : InstrumentMode
  capabilities : Finset Capability
  events : Finset EventKind
  filter : InstrumentFilter
  projection : ProjectionRequest
  delivery : EventDelivery
deriving DecidableEq

def InstrumentRegistration.validate (registration : InstrumentRegistration) :
    Except String Unit := do
  Except.ensure (isBlank registration.instrumentId = false) "instrument id must be non-empty"
  Except.ensure (isBlank registration.sessionId = false) "instrument session id must be non-empty"
  Except.ensure registration.projection.isBounded "instrument projections must be bounded"
  Except.ensure registration.delivery.isBounded
    "queued event delivery must have positive capacity"
  Except.ensure (∀ event ∈ registration.events,
      event.requiredCapability ∈ registration.capabilities)
    "event subscriptions require their event capability"
  Except.ensure (registration.projection.requiredCapabilities ⊆ registration.capabilities)
    "instrument projections require their inspection capability"
  Except.ensure ((∀ session ∈ registration.filter.sessionId, isBlank session = false) ∧
      ∀ target ∈ registration.filter.targetIds, isBlank target = false)
    "instrument filters cannot contain empty ids"
  Except.ensure (registration.mode = .control ∨
      ∀ capability ∈ registration.capabilities, capability.isControl = false)
    "only control instruments can request control capabilities"
  Except.ensure (registration.mode = .transform ∨
      ∀ capability ∈ registration.capabilities, capability.isTransform = false)
    "only transform instruments can request transform capabilities"

end Hara.Instrumentation
