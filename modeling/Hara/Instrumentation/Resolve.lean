import Hara.Instrumentation.Hub
import Hara.Lib.Stamps

/-!
# The registries of the hub

The two registries of the hub by themselves. The instrument registry is kept twice, as records by
their order of registration and as an index from names to orders; `InstrumentsOk` says that the two
agree. Both registries stamp their handles with generations.

The counters of the hub saturate, so the invariants carry bounds on the number of registrations
that have been made.
-/

namespace Hara.Instrumentation

open Lib
open AssocMap (lookup_insert_eq_some lookup_erase_eq_some)

theorem saturatingSucc_of_lt {n : ℕ} (h : n + 1 < 2 ^ 64) : saturatingSucc n = n + 1 := by
  rw [saturatingSucc]
  omega

/-- The generation the next owner of a name gets. -/
def upcoming (generations : AssocMap String ℕ) (id : String) : ℕ := (generations.lookup id).getD 0

section

variable {generations : AssocMap String ℕ} {n : ℕ} (h : ∀ id, upcoming generations id ≤ n)
  (hn : n + 1 < 2 ^ 64) (id id' : String)

include h hn

theorem upcoming_nextGeneration :
    upcoming (nextGeneration generations id).2 id' =
      if id' = id then upcoming generations id + 1 else upcoming generations id' := by
  rw [upcoming, nextGeneration]
  split
  next hid =>
    rw [hid, AList.lookup_insert]
    exact saturatingSucc_of_lt ((Nat.succ_le_succ (h id)).trans_lt hn)
  next hid =>
    rw [AList.lookup_insert_ne hid]
    rfl

/-- The next owner of a name gets a later generation. -/
theorem upcoming_lt_nextGeneration :
    upcoming generations id < upcoming (nextGeneration generations id).2 id := by
  rw [upcoming_nextGeneration h hn, if_pos rfl]
  exact Nat.lt_succ_self _

theorem upcoming_le_nextGeneration :
    upcoming generations id' ≤ upcoming (nextGeneration generations id).2 id' := by
  rw [upcoming_nextGeneration h hn]
  split
  next hid =>
    rw [hid]
    omega
  · exact le_rfl

theorem upcoming_nextGeneration_le : upcoming (nextGeneration generations id).2 id' ≤ n + 1 := by
  rw [upcoming_nextGeneration h hn]
  have := h id
  have := h id'
  split <;> omega

end

/-- An error for the caller, not a panic. -/
def Stop.IsFailure (stop : Stop) : Prop := ∃ error, stop = .failed error

variable {error : InstrumentationError} {record : TargetRecord}

theorem Stop.isFailure : (Stop.failed error).IsFailure := ⟨error, rfl⟩

/-- A check that reports an error does not panic. -/
theorem ensures_check {p : Prop} [Decidable p] {post : Unit → Prop} (h : p → post ()) :
    Except.Ensures (Except.ensure p (.failed error)) post Stop.IsFailure :=
  Except.ensures_ensure.mpr ⟨h, fun _ ↦ Stop.isFailure⟩

theorem ensures_check_bind {α : Type} {p : Prop} [Decidable p] {f : Unit → Except Stop α}
    {post : α → Prop} (h : p → Except.Ensures (f ()) post Stop.IsFailure) :
    Except.Ensures (Except.ensure p (.failed error) >>= f) post Stop.IsFailure :=
  Except.ensures_bind.mpr (ensures_check h)

namespace InstrumentationHub

variable {hub hub' : InstrumentationHub} {n m : ℕ} {handle : TargetHandle}

/-! ## Instruments -/

/-- What the hub knows of a record in its registry. -/
structure RegisteredAt (hub : InstrumentationHub) (order : ℕ) (record : InstrumentRecord) :
    Prop where
  order_eq : record.order = order
  index_eq : hub.instrumentOrders.lookup record.handle.instrumentId = some order
  id_eq : record.registration.instrumentId = record.handle.instrumentId
  valid : record.registration.validate = .ok ()
  order_lt : order < hub.nextRegistrationOrder
  generation_lt : record.handle.generation <
    upcoming hub.instrumentGenerations record.handle.instrumentId

/-- The registry and its index agree, after at most `n` registrations. -/
structure InstrumentsOk (n : ℕ) (hub : InstrumentationHub) : Prop where
  indexed : ∀ id order, hub.instrumentOrders.lookup id = some order →
    ∃ record, hub.registrations.lookup order = some record ∧ record.handle.instrumentId = id
  registered : ∀ order record, hub.registrations.lookup order = some record →
    hub.RegisteredAt order record
  order_le : hub.nextRegistrationOrder ≤ n
  generation_le : ∀ id, upcoming hub.instrumentGenerations id ≤ n

/-- The generations of the instrument handles. -/
def instrumentStamps (hub : InstrumentationHub) : Stamps String where
  next := upcoming hub.instrumentGenerations
  live id generation := ∃ record, hub.resolveInstrument ⟨id, generation⟩ = .ok record

theorem resolveInstrument_eq_ok {handle : InstrumentHandle} {record : InstrumentRecord} :
    hub.resolveInstrument handle = .ok record ↔
      ∃ order, hub.instrumentOrders.lookup handle.instrumentId = some order ∧
        hub.registrations.lookup order = some record ∧ record.handle = handle := by
  rw [resolveInstrument]
  split
  next hnone => simp only [hnone]; split <;> simp
  next order hsome =>
    simp only [hsome]
    split
    next hnone => simp [hnone]
    next record' hrecord =>
      split
      next hhandle => grind
      next hhandle => grind

namespace InstrumentsOk

variable {handle : InstrumentHandle} {record : InstrumentRecord}

theorem resolve_iff (h : InstrumentsOk n hub) :
    hub.resolveInstrument handle = .ok record ↔
      hub.registrations.lookup record.order = some record ∧ record.handle = handle := by
  rw [resolveInstrument_eq_ok]
  constructor
  · rintro ⟨order, -, hrecord, rfl⟩
    rw [(h.registered order record hrecord).order_eq]
    exact ⟨hrecord, rfl⟩
  · rintro ⟨hrecord, rfl⟩
    exact ⟨record.order, (h.registered _ _ hrecord).index_eq, hrecord, rfl⟩

/-- Resolving a handle does not panic. -/
theorem ensures_resolve (h : InstrumentsOk n hub) (handle : InstrumentHandle) :
    Except.Ensures (hub.resolveInstrument handle)
      (fun record ↦ hub.resolveInstrument handle = .ok record) Stop.IsFailure := by
  suffices hsafe : Except.Ensures (hub.resolveInstrument handle) (fun _ ↦ True) Stop.IsFailure from
    hsafe.with_eq.mono fun _ hrecord ↦ hrecord.1
  rw [resolveInstrument]
  split
  · split <;> exact Stop.isFailure
  next order horder =>
    obtain ⟨record, hrecord, -⟩ := h.indexed _ _ horder
    simp only [hrecord]
    split
    · trivial
    · exact Stop.isFailure

theorem issued (h : InstrumentsOk n hub) : hub.instrumentStamps.Issued := by
  rintro id generation ⟨record, hrecord⟩
  obtain ⟨hrecord, hhandle⟩ := h.resolve_iff.mp hrecord
  have hlt := (h.registered _ _ hrecord).generation_lt
  rwa [hhandle] at hlt

theorem new : InstrumentsOk 0 InstrumentationHub.new where
  indexed _ _ h := by cases h
  registered _ _ h := by cases h
  order_le := le_rfl
  generation_le _ := le_rfl

/-- More registrations may have been made. -/
theorem mono (h : InstrumentsOk n hub) (hnm : n ≤ m) : InstrumentsOk m hub :=
  { h with
    order_le := h.order_le.trans hnm
    generation_le := fun id ↦ (h.generation_le id).trans hnm }

/-- Only four fields of the hub matter to the registry. -/
theorem congr (h : InstrumentsOk n hub) (hrecords : hub'.registrations = hub.registrations)
    (horders : hub'.instrumentOrders = hub.instrumentOrders)
    (hgenerations : hub'.instrumentGenerations = hub.instrumentGenerations)
    (hnext : hub'.nextRegistrationOrder = hub.nextRegistrationOrder) : InstrumentsOk n hub' where
  indexed id order hid := by
    rw [hrecords]
    exact h.indexed id order (horders ▸ hid)
  registered order record hrecord := by
    have hold := h.registered order record (hrecords ▸ hrecord)
    exact { hold with
      index_eq := horders ▸ hold.index_eq
      order_lt := hnext ▸ hold.order_lt
      generation_lt := hgenerations ▸ hold.generation_lt }
  order_le := hnext ▸ h.order_le
  generation_le := hgenerations ▸ h.generation_le

end InstrumentsOk

/-- The hub with a new instrument. -/
def withInstrument (hub : InstrumentationHub) (registration : InstrumentRegistration) :
    InstrumentationHub :=
  { hub with
    instrumentGenerations := (nextGeneration hub.instrumentGenerations registration.instrumentId).2
    nextRegistrationOrder := saturatingSucc hub.nextRegistrationOrder
    instrumentOrders :=
      hub.instrumentOrders.insert registration.instrumentId hub.nextRegistrationOrder
    registrations := hub.registrations.insert hub.nextRegistrationOrder
      ⟨⟨registration.instrumentId, upcoming hub.instrumentGenerations registration.instrumentId⟩,
        registration, hub.nextRegistrationOrder⟩ }

/-- The hub without an instrument's entries in the registry. -/
def withoutInstrument (hub : InstrumentationHub) (record : InstrumentRecord) :
    InstrumentationHub :=
  { hub with
    registrations := hub.registrations.erase record.order
    instrumentOrders := hub.instrumentOrders.erase record.handle.instrumentId }

namespace InstrumentsOk

variable {registration : InstrumentRegistration} {handle : InstrumentHandle}
  {record : InstrumentRecord}

section

variable (h : InstrumentsOk n hub)

include h

theorem withInstrument (hvalid : registration.validate = .ok ())
    (hnew : registration.instrumentId ∉ hub.instrumentOrders) (hn : n + 1 < 2 ^ 64) :
    InstrumentsOk (n + 1) (hub.withInstrument registration) := by
  have horder :
      (hub.withInstrument registration).nextRegistrationOrder = hub.nextRegistrationOrder + 1 := by
    exact saturatingSucc_of_lt ((Nat.succ_le_succ h.order_le).trans_lt hn)
  constructor
  · intro id order hid
    rcases lookup_insert_eq_some.mp hid with ⟨rfl, rfl⟩ | ⟨hid, hindex⟩
    · exact ⟨_, AList.lookup_insert _, rfl⟩
    · obtain ⟨record, hrecord, rfl⟩ := h.indexed id order hindex
      have hlt := (h.registered _ _ hrecord).order_lt
      exact ⟨record, lookup_insert_eq_some.mpr (.inr ⟨hlt.ne, hrecord⟩), rfl⟩
  · refine AssocMap.forall_lookup_insert ?_ fun order record hrecord ↦ ?_
    · constructor
      · rfl
      · exact AList.lookup_insert _
      · rfl
      · exact hvalid
      · rw [horder]
        exact Nat.lt_succ_self _
      · exact upcoming_lt_nextGeneration h.generation_le hn _
    · have hold := h.registered order record hrecord
      have hne := AssocMap.ne_of_lookup hold.index_eq hnew
      refine { hold with
        index_eq := lookup_insert_eq_some.mpr (.inr ⟨hne, hold.index_eq⟩)
        order_lt := ?_
        generation_lt := hold.generation_lt.trans_le
          (upcoming_le_nextGeneration h.generation_le hn _ _) }
      rw [horder]
      exact hold.order_lt.trans (Nat.lt_succ_self _)
  · rw [horder]
    exact Nat.succ_le_succ h.order_le
  · exact upcoming_nextGeneration_le h.generation_le hn _

/-- A new instrument leaves the other handles alone. -/
theorem resolve_withInstrument (hnew : registration.instrumentId ∉ hub.instrumentOrders)
    (hrecord : hub.resolveInstrument handle = .ok record) :
    (hub.withInstrument registration).resolveInstrument handle = .ok record := by
  obtain ⟨order, hindex, hrecord, hhandle⟩ := resolveInstrument_eq_ok.mp hrecord
  have hlt := (h.registered _ _ hrecord).order_lt
  have hne := AssocMap.ne_of_lookup hindex hnew
  refine resolveInstrument_eq_ok.mpr ⟨order, ?_, ?_, hhandle⟩
  · exact lookup_insert_eq_some.mpr (.inr ⟨hne, hindex⟩)
  · exact lookup_insert_eq_some.mpr (.inr ⟨hlt.ne, hrecord⟩)

theorem follows_withInstrument (hn : n + 1 < 2 ^ 64) :
    hub.instrumentStamps.Follows (hub.withInstrument registration).instrumentStamps := by
  refine ⟨upcoming_le_nextGeneration h.generation_le hn _, ?_⟩
  rintro id generation ⟨record, hrecord⟩
  obtain ⟨order, hindex, hrecord, hhandle⟩ := resolveInstrument_eq_ok.mp hrecord
  rcases lookup_insert_eq_some.mp hrecord with ⟨-, rfl⟩ | ⟨hne, hrecord⟩
  · -- the new instrument has the generation that was coming up
    obtain ⟨rfl, rfl⟩ := hhandle
    exact .inr le_rfl
  · rcases lookup_insert_eq_some.mp hindex with ⟨-, rfl⟩ | ⟨-, hindex⟩
    · exact absurd rfl hne
    · exact .inl ⟨record, resolveInstrument_eq_ok.mpr ⟨order, hindex, hrecord, hhandle⟩⟩

theorem withoutInstrument (hrecord : hub.registrations.lookup record.order = some record) :
    InstrumentsOk n (hub.withoutInstrument record) := by
  have hindex := (h.registered _ _ hrecord).index_eq
  refine ⟨?_, ?_, h.order_le, h.generation_le⟩
  · intro id order hid
    obtain ⟨hne, hid⟩ := lookup_erase_eq_some.mp hid
    obtain ⟨other, hother, rfl⟩ := h.indexed id order hid
    refine ⟨other, lookup_erase_eq_some.mpr ⟨?_, hother⟩, rfl⟩
    rintro rfl
    rw [hrecord, Option.some.injEq] at hother
    exact hne (hother ▸ rfl)
  · intro order other hother
    obtain ⟨hne, hother⟩ := lookup_erase_eq_some.mp hother
    have hold := h.registered order other hother
    refine { hold with index_eq := lookup_erase_eq_some.mpr ⟨?_, hold.index_eq⟩ }
    intro heq
    have hat := hold.index_eq
    rw [heq, hindex, Option.some.injEq] at hat
    exact hne hat.symm

/-- Without the instrument every handle but its own resolves as before. -/
theorem resolve_withoutInstrument
    (hrecord : hub.registrations.lookup record.order = some record) {other : InstrumentRecord} :
    (hub.withoutInstrument record).resolveInstrument handle = .ok other ↔
      hub.resolveInstrument handle = .ok other ∧ handle ≠ record.handle := by
  have hindex := (h.registered _ _ hrecord).index_eq
  rw [(h.withoutInstrument hrecord).resolve_iff, h.resolve_iff,
    InstrumentationHub.withoutInstrument, lookup_erase_eq_some]
  constructor
  · rintro ⟨⟨hne, hother⟩, rfl⟩
    refine ⟨⟨hother, rfl⟩, ?_⟩
    intro heq
    have hat := (h.registered _ _ hother).index_eq
    rw [heq, hindex, Option.some.injEq] at hat
    exact hne hat.symm
  · rintro ⟨⟨hother, rfl⟩, hne⟩
    refine ⟨⟨?_, hother⟩, rfl⟩
    intro heq
    rw [heq, hrecord, Option.some.injEq] at hother
    exact hne (hother ▸ rfl)

end

end InstrumentsOk

/-! ## Targets -/

/-- The target registry, after at most `n` registrations. -/
structure TargetsOk (n : ℕ) (hub : InstrumentationHub) : Prop where
  id_eq : ∀ id record, hub.targets.lookup id = some record →
    record.handle.targetId = id ∧ record.descriptor.targetId = id
  valid : ∀ id record, hub.targets.lookup id = some record → record.descriptor.validate = .ok ()
  generation_lt : ∀ id record, hub.targets.lookup id = some record →
    record.handle.generation < upcoming hub.targetGenerations id
  generation_le : ∀ id, upcoming hub.targetGenerations id ≤ n

/-- The generations of the target handles. -/
def targetStamps (hub : InstrumentationHub) : Stamps String where
  next := upcoming hub.targetGenerations
  live id generation := ∃ record, hub.resolveTarget ⟨id, generation⟩ = .ok record

theorem resolveTarget_eq_ok :
    hub.resolveTarget handle = .ok record ↔
      hub.targets.lookup handle.targetId = some record ∧ record.handle = handle := by
  rw [resolveTarget]
  split
  next hnone => simp only [hnone]; split <;> simp
  next record' hrecord =>
    split
    next hhandle => grind
    next hhandle => grind

theorem ensures_resolveTarget :
    Except.Ensures (hub.resolveTarget handle)
      (fun record ↦ hub.resolveTarget handle = .ok record) Stop.IsFailure := by
  suffices hsafe : Except.Ensures (hub.resolveTarget handle) (fun _ ↦ True) Stop.IsFailure from
    hsafe.with_eq.mono fun _ hrecord ↦ hrecord.1
  rw [resolveTarget]
  split
  · split <;> exact Stop.isFailure
  · split
    · trivial
    · exact Stop.isFailure

/-- The hub with a new target. -/
def withTarget (hub : InstrumentationHub) (descriptor : TargetDescriptor) : InstrumentationHub :=
  { hub with
    targetGenerations := (nextGeneration hub.targetGenerations descriptor.targetId).2
    targets := hub.targets.insert descriptor.targetId
      ⟨⟨descriptor.targetId, upcoming hub.targetGenerations descriptor.targetId⟩, descriptor⟩ }

/-- The hub without a target's entry in the registry. -/
def withoutTarget (hub : InstrumentationHub) (target : TargetHandle) : InstrumentationHub :=
  { hub with targets := hub.targets.erase target.targetId }

/-- A new target leaves the other handles alone. -/
theorem resolve_withTarget {descriptor : TargetDescriptor}
    (hnew : descriptor.targetId ∉ hub.targets) (hrecord : hub.resolveTarget handle = .ok record) :
    (hub.withTarget descriptor).resolveTarget handle = .ok record := by
  obtain ⟨hrecord, hhandle⟩ := resolveTarget_eq_ok.mp hrecord
  have hne := AssocMap.ne_of_lookup hrecord hnew
  exact resolveTarget_eq_ok.mpr ⟨lookup_insert_eq_some.mpr (.inr ⟨hne, hrecord⟩), hhandle⟩

/-- Without the target every handle but its own resolves as before. -/
theorem resolve_withoutTarget {target : TargetHandle}
    (htarget : hub.resolveTarget target = .ok record) {other : TargetRecord} :
    (hub.withoutTarget target).resolveTarget handle = .ok other ↔
      hub.resolveTarget handle = .ok other ∧ handle ≠ target := by
  obtain ⟨hrecord, rfl⟩ := resolveTarget_eq_ok.mp htarget
  rw [resolveTarget_eq_ok, resolveTarget_eq_ok, withoutTarget, lookup_erase_eq_some]
  constructor
  · rintro ⟨⟨hne, hother⟩, rfl⟩
    exact ⟨⟨hother, rfl⟩, fun heq ↦ hne (congrArg TargetHandle.targetId heq)⟩
  · rintro ⟨⟨hother, rfl⟩, hne⟩
    refine ⟨⟨?_, hother⟩, rfl⟩
    intro heq
    rw [heq, hrecord, Option.some.injEq] at hother
    exact hne (hother ▸ rfl)

namespace TargetsOk

variable {descriptor : TargetDescriptor}

section

variable (h : TargetsOk n hub)

include h

theorem issued : hub.targetStamps.Issued := by
  rintro id generation ⟨record, hrecord⟩
  obtain ⟨hrecord, hhandle⟩ := resolveTarget_eq_ok.mp hrecord
  have hlt := h.generation_lt _ _ hrecord
  rwa [hhandle] at hlt

omit h in
theorem new : TargetsOk 0 InstrumentationHub.new where
  id_eq _ _ h := by cases h
  valid _ _ h := by cases h
  generation_lt _ _ h := by cases h
  generation_le _ := le_rfl

/-- More registrations may have been made. -/
theorem mono (hnm : n ≤ m) : TargetsOk m hub :=
  { h with generation_le := fun id ↦ (h.generation_le id).trans hnm }

/-- Only two fields of the hub matter to the registry. -/
theorem congr (htargets : hub'.targets = hub.targets)
    (hgenerations : hub'.targetGenerations = hub.targetGenerations) : TargetsOk n hub' where
  id_eq := htargets ▸ h.id_eq
  valid := htargets ▸ h.valid
  generation_lt := htargets ▸ hgenerations ▸ h.generation_lt
  generation_le := hgenerations ▸ h.generation_le

theorem withTarget (hvalid : descriptor.validate = .ok ()) (hn : n + 1 < 2 ^ 64) :
    TargetsOk (n + 1) (hub.withTarget descriptor) := by
  constructor
  · exact AssocMap.forall_lookup_insert ⟨rfl, rfl⟩ h.id_eq
  · exact AssocMap.forall_lookup_insert hvalid h.valid
  · refine AssocMap.forall_lookup_insert (upcoming_lt_nextGeneration h.generation_le hn _) ?_
    intro id record hrecord
    have hlt := h.generation_lt id record hrecord
    exact hlt.trans_le (upcoming_le_nextGeneration h.generation_le hn _ _)
  · exact upcoming_nextGeneration_le h.generation_le hn _

theorem follows_withTarget (hn : n + 1 < 2 ^ 64) :
    hub.targetStamps.Follows (hub.withTarget descriptor).targetStamps := by
  refine ⟨upcoming_le_nextGeneration h.generation_le hn _, ?_⟩
  rintro id generation ⟨record, hrecord⟩
  obtain ⟨hrecord, hhandle⟩ := resolveTarget_eq_ok.mp hrecord
  rcases lookup_insert_eq_some.mp hrecord with ⟨-, rfl⟩ | ⟨-, hrecord⟩
  · obtain ⟨rfl, rfl⟩ := hhandle
    exact .inr le_rfl
  · exact .inl ⟨record, resolveTarget_eq_ok.mpr ⟨hrecord, hhandle⟩⟩

theorem withoutTarget {target : TargetHandle} : TargetsOk n (hub.withoutTarget target) where
  id_eq id record hrecord := h.id_eq id record (lookup_erase_eq_some.mp hrecord).2
  valid id record hrecord := h.valid id record (lookup_erase_eq_some.mp hrecord).2
  generation_lt id record hrecord :=
    h.generation_lt id record (lookup_erase_eq_some.mp hrecord).2
  generation_le := h.generation_le

end

end TargetsOk

end InstrumentationHub

end Hara.Instrumentation
