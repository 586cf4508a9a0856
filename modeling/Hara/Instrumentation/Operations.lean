import Hara.Instrumentation.Invariant

/-!
# The operations keep the invariant

One lemma for each operation of the hub. Removing a session removes its instruments and targets one
after the other; the handles it collected beforehand stay live until their turn comes, since every
removal takes away one handle only.
-/

namespace Hara.Instrumentation.InstrumentationHub

open Lib
open List hiding attach set
open AssocMap (lookup_erase_eq_some lookup_retain_eq_some lookup_insert_eq_some mem_entries_iff)

variable {hub hub' : InstrumentationHub} {n m : ℕ} {target : TargetHandle}
  {instrument handle : InstrumentHandle} {sessionId : String} {lease : ControlLease}
  {directives : AssocMap TargetHandle InstrumentDirective} {directive : InstrumentDirective}
  {targets : List TargetHandle} {record : InstrumentRecord}

/-! ## Registering and attaching -/

theorem Consistent.keeps_register (h : Consistent n m hub) (hn : n + 1 < 2 ^ 64)
    {registration : InstrumentRegistration} :
    Keeps (n + 1) m hub (Prod.snd <$> hub.register registration) := by
  rw [Keeps, Except.ensures_map, register]
  cases hvalid : registration.validate with
  | error message => exact Stop.isFailure
  | ok =>
    refine ensures_check_bind fun hnew ↦ ?_
    have hresolve : ∀ handle record, hub.resolveInstrument handle = .ok record →
        (hub.withInstrument registration).resolveInstrument handle = .ok record :=
      fun _ _ ↦ h.instruments.resolve_withInstrument hnew
    refine ⟨⟨h.instruments.withInstrument hvalid hnew hn, h.targets.congr rfl rfl, ?_, ?_⟩, ?_⟩
    · exact h.linked.shrink (p := fun _ ↦ True) (fun _ _ ↦ (and_iff_left trivial).symm)
        (fun _ _ _ ↦ hresolve _ _) (fun _ _ _ ↦ id) (fun _ _ hlease ↦ ⟨hlease, trivial⟩)
        (fun _ _ hdirective ↦ ⟨hdirective, fun _ ↦ id⟩)
    · exact h.enabled.congr (h.linked.subscribed_iff rfl hresolve)
    · exact ⟨h.instruments.follows_withInstrument hn, .refl _⟩

theorem Consistent.keeps_registerTarget (h : Consistent n m hub) (hm : m + 1 < 2 ^ 64)
    {descriptor : TargetDescriptor} :
    Keeps n (m + 1) hub (Prod.snd <$> hub.registerTarget descriptor) := by
  rw [Keeps, Except.ensures_map, registerTarget]
  cases hvalid : descriptor.validate with
  | error message => exact Stop.isFailure
  | ok =>
    refine ensures_check_bind fun hnew ↦ ?_
    refine ⟨⟨h.instruments.congr rfl rfl rfl rfl, h.targets.withTarget hvalid hm, ?_, ?_⟩, ?_⟩
    · exact h.linked.shrink (p := fun _ ↦ True) (fun _ _ ↦ (and_iff_left trivial).symm)
        (fun _ _ _ ↦ id) (fun _ _ _ ↦ resolve_withTarget hnew) (fun _ _ hlease ↦ ⟨hlease, trivial⟩)
        (fun _ _ hdirective ↦ ⟨hdirective, fun _ ↦ id⟩)
    · exact h.enabled.congr (h.linked.subscribed_iff rfl fun _ _ ↦ id)
    · exact ⟨.refl _, h.targets.follows_withTarget hm⟩

theorem Consistent.keeps_attach (h : Consistent n m hub) :
    Keeps n m hub (Prod.snd <$> hub.attach instrument target) := by
  rw [Keeps, Except.ensures_map]
  refine (h.instruments.ensures_resolve instrument).bind fun record hrecord ↦ ?_
  refine ensures_resolveTarget.bind fun targetRecord htarget ↦ ?_
  refine ensures_check_bind fun hsession ↦ ?_
  refine ensures_check_bind fun _ ↦ ?_
  refine ensures_check_bind fun hevents ↦ ?_
  refine ensures_check_bind fun hcapabilities ↦ ?_
  refine ensures_check_bind fun _ ↦ ?_
  rw [Except.ensures_bind]
  have hlinks : hub.Links
      ⟨instrument, target, record.registration.capabilities, record.order⟩ := by
    refine ⟨record, targetRecord, hrecord, htarget, hsession, ?_, ?_, rfl, rfl⟩
    · rwa [← Finset.sdiff_eq_empty_iff_subset]
    · intro event hevent
      simpa using Finset.filter_eq_empty_iff.mp hevents hevent
  set hub₁ : InstrumentationHub := { hub with
    attachments := hub.attachments.insert (instrument, target)
      ⟨instrument, target, record.registration.capabilities, record.order⟩ }
  have hlinked : hub₁.Linked := by
    refine ⟨?_, ?_, h.linked.directed⟩
    · intro instrument' target' attachment hlookup
      rcases lookup_insert_eq_some.mp hlookup with ⟨hkey, rfl⟩ | ⟨-, hold⟩
      · obtain ⟨rfl, rfl⟩ := hkey
        exact ⟨rfl, rfl, hlinks⟩
      · exact h.linked.attached _ _ _ hold
    · intro target' holder hlease
      obtain ⟨holderRecord, hholder, hmode, hmem⟩ := h.linked.controlled _ _ hlease
      exact ⟨holderRecord, hholder, hmode, AList.mem_insert _ |>.mpr (.inr hmem)⟩
  obtain ⟨mask, hmask, hconsistent⟩ := hlinked.exists_recompute
    (h.instruments.congr rfl rfl rfl rfl) (h.targets.congr rfl rfl)
  rw [hmask]
  exact ⟨hconsistent, .refl _, .refl _⟩

/-! ## Control -/

section

variable (h : Consistent n m hub)

include h

theorem Consistent.keeps_acquireControl :
    Keeps n m hub (Prod.snd <$> hub.acquireControl instrument target) := by
  rw [Keeps, Except.ensures_map]
  refine (h.instruments.ensures_resolve instrument).bind fun record hrecord ↦ ?_
  refine ensures_resolveTarget.bind fun targetRecord htarget ↦ ?_
  refine ensures_check_bind fun hmode ↦ ?_
  refine ensures_check_bind fun hmem ↦ ?_
  have hgranted : Consistent n m
        { hub with controlLeases := hub.controlLeases.insert target instrument } ∧
      hub.Evolves { hub with controlLeases := hub.controlLeases.insert target instrument } := by
    refine ⟨⟨h.instruments.congr rfl rfl rfl rfl, h.targets.congr rfl rfl, ?_, h.enabled⟩,
      .refl _, .refl _⟩
    refine ⟨h.linked.attached, ?_, ?_⟩
    · exact AssocMap.forall_lookup_insert ⟨record, hrecord, hmode, hmem⟩ h.linked.controlled
    · intro target' directive hdirective
      obtain ⟨holder, hholder⟩ := h.linked.directed _ _ hdirective
      by_cases heq : target' = target
      · exact ⟨instrument, lookup_insert_eq_some.mpr (.inl ⟨heq, rfl⟩)⟩
      · exact ⟨holder, lookup_insert_eq_some.mpr (.inr ⟨heq, hholder⟩)⟩
  -- whoever holds the lease already is the same instrument
  cases hub.controlLeases.lookup target with
  | none => exact hgranted
  | some holder =>
    simp only [Except.ensures_bind]
    exact ensures_check fun _ ↦ hgranted

/-- The hub with a directive or without one, for a target with a lease. -/
theorem Consistent.with_directives
    (hdirectives : ∀ target directive, directives.lookup target = some directive →
      ∃ instrument, hub.controlLeases.lookup target = some instrument) :
    Consistent n m { hub with directives } ∧ hub.Evolves { hub with directives } := by
  refine ⟨⟨h.instruments.congr rfl rfl rfl rfl, h.targets.congr rfl rfl, ?_, h.enabled⟩,
    .refl _, .refl _⟩
  exact ⟨h.linked.attached, h.linked.controlled, hdirectives⟩

theorem Consistent.directed_erase :
    ∀ other directive, (hub.directives.erase target).lookup other = some directive →
      ∃ instrument, hub.controlLeases.lookup other = some instrument := by
  intro other directive hdirective
  exact h.linked.directed other directive (lookup_erase_eq_some.mp hdirective).2

theorem Consistent.keeps_releaseControl : Keeps n m hub (hub.releaseControl lease) := by
  refine (h.instruments.ensures_resolve lease.instrument).bind fun record hrecord ↦ ?_
  refine ensures_resolveTarget.bind fun targetRecord htarget ↦ ?_
  refine ensures_check_bind fun _ ↦ ?_
  refine ⟨⟨h.instruments.congr rfl rfl rfl rfl, h.targets.congr rfl rfl, ?_, h.enabled⟩,
    .refl _, .refl _⟩
  refine h.linked.shrink (p := fun _ ↦ True) (fun _ _ ↦ (and_iff_left trivial).symm)
    (fun _ _ _ ↦ id) (fun _ _ _ ↦ id) ?_ ?_
  · intro target instrument hlease
    exact ⟨(lookup_erase_eq_some.mp hlease).2, trivial⟩
  · intro target directive hdirective
    obtain ⟨hne, hdirective⟩ := lookup_erase_eq_some.mp hdirective
    exact ⟨hdirective, fun _ hlease ↦ lookup_erase_eq_some.mpr ⟨hne, hlease⟩⟩

theorem Consistent.ensures_authorizeLease :
    Except.Ensures (hub.authorizeLease lease)
      (fun _ ↦ hub.controlLeases.lookup lease.target = some lease.instrument) Stop.IsFailure := by
  refine (h.instruments.ensures_resolve lease.instrument).bind fun record hrecord ↦ ?_
  refine ensures_resolveTarget.bind fun targetRecord htarget ↦ ?_
  exact ensures_check fun hlease ↦ hlease

theorem Consistent.ensures_authorizeControl {capability : Capability} :
    Except.Ensures (hub.authorizeControl lease capability)
      (fun _ ↦ hub.controlLeases.lookup lease.target = some lease.instrument) Stop.IsFailure := by
  refine (h.instruments.ensures_resolve lease.instrument).bind fun record hrecord ↦ ?_
  refine ensures_resolveTarget.bind fun targetRecord htarget ↦ ?_
  refine ensures_check_bind fun hlease ↦ ?_
  exact ensures_check fun _ ↦ hlease

theorem Consistent.keeps_requestDirective :
    Keeps n m hub (hub.requestDirective lease directive) := by
  rw [requestDirective]
  split
  next capability _ =>
    refine h.ensures_authorizeControl.bind fun _ hlease ↦ ?_
    exact h.with_directives (AssocMap.forall_lookup_insert ⟨_, hlease⟩ h.linked.directed)
  · refine h.ensures_authorizeLease.bind fun _ _ ↦ ?_
    exact h.with_directives h.directed_erase

theorem Consistent.keeps_takeDirective : Keeps n m hub (Prod.snd <$> hub.takeDirective target) := by
  rw [Keeps, Except.ensures_map]
  refine ensures_resolveTarget.bind fun targetRecord htarget ↦ ?_
  exact h.with_directives h.directed_erase

end

/-! ## Removal -/

theorem lookup_foldl_erase :
    (targets.foldl (fun directives target ↦ directives.erase target) directives).lookup target =
      some directive ↔ target ∉ targets ∧ directives.lookup target = some directive := by
  induction targets generalizing directives with
  | nil => simp
  | cons first targets ih =>
    rw [foldl_cons, ih, lookup_erase_eq_some, mem_cons]
    tauto

/-- The hub after some instruments are gone: every other handle resolves as before. -/
structure Detached (hub : InstrumentationHub) (instruments : List InstrumentHandle)
    (hub' : InstrumentationHub) : Prop where
  resolve_iff : ∀ handle record, hub'.resolveInstrument handle = .ok record ↔
    hub.resolveInstrument handle = .ok record ∧ handle ∉ instruments
  targets_eq : hub'.targets = hub.targets

section

variable (h : Consistent n m hub)

include h

theorem Consistent.exists_detach (hresolve : hub.resolveInstrument instrument = .ok record) :
    ∃ hub', hub.detach instrument = .ok hub' ∧ Consistent n m hub' ∧ hub.Evolves hub' ∧
      hub.Detached [instrument] hub' := by
  obtain ⟨hrecord, rfl⟩ := h.instruments.resolve_iff.mp hresolve
  set hub₁ : InstrumentationHub := { hub.withoutInstrument record with
    attachments := hub.attachments.retain fun key _ ↦ key.1 ≠ record.handle
    controlLeases := hub.controlLeases.retain fun _ holder ↦ holder ≠ record.handle
    directives :=
      ((hub.controlLeases.entries.filter (·.2 = record.handle)).map (·.1)).foldl
        (fun directives target ↦ directives.erase target) hub.directives }
  have hgone : ∀ handle other, hub₁.resolveInstrument handle = .ok other ↔
      hub.resolveInstrument handle = .ok other ∧ handle ≠ record.handle :=
    fun _ _ ↦ h.instruments.resolve_withoutInstrument hrecord
  have hlinked : hub₁.Linked := by
    refine h.linked.shrink (fun _ _ ↦ lookup_retain_eq_some) ?_ (fun _ _ _ ↦ id)
      (fun _ _ ↦ lookup_retain_eq_some.mp) ?_
    · intro key other hne hother
      exact (hgone _ _).mpr ⟨hother, of_decide_eq_true hne⟩
    · intro target directive hlookup
      obtain ⟨hnotin, hdirective⟩ := lookup_foldl_erase.mp hlookup
      refine ⟨hdirective, fun holder hlease ↦ ?_⟩
      refine lookup_retain_eq_some.mpr ⟨hlease, decide_eq_true fun heq ↦ hnotin ?_⟩
      refine mem_map.mpr ⟨⟨target, holder⟩, ?_, rfl⟩
      exact mem_filter.mpr ⟨mem_entries_iff.mpr hlease, decide_eq_true heq⟩
  obtain ⟨mask, hmask, hconsistent⟩ := hlinked.exists_recompute
    ((h.instruments.withoutInstrument hrecord).congr rfl rfl rfl rfl) (h.targets.congr rfl rfl)
  refine ⟨_, ?_, hconsistent, ⟨⟨fun _ ↦ le_rfl, ?_⟩, .refl _⟩, ⟨?_, rfl⟩⟩
  · rw [detach, hresolve]
    exact hmask
  · rintro id generation ⟨other, hother⟩
    exact .inl ⟨other, ((hgone _ _).mp hother).1⟩
  · intro handle other
    rw [mem_singleton]
    exact hgone handle other

theorem Consistent.keeps_detach : Keeps n m hub (hub.detach instrument) := by
  refine (h.instruments.ensures_resolve instrument).bind fun record hrecord ↦ ?_
  obtain ⟨hub', hdetach, hconsistent, hevolves, -⟩ := h.exists_detach hrecord
  rw [detach, hrecord] at hdetach
  exact (congrArg (Except.Ensures · _ _) hdetach).mpr ⟨hconsistent, hevolves⟩

omit h in
/-- The hub after some targets are gone: every other handle resolves as before. -/
def Removed (hub : InstrumentationHub) (targets : List TargetHandle)
    (hub' : InstrumentationHub) : Prop :=
  ∀ handle record, hub'.resolveTarget handle = .ok record ↔
    hub.resolveTarget handle = .ok record ∧ handle ∉ targets

theorem Consistent.exists_removeTarget {record : TargetRecord}
    (hresolve : hub.resolveTarget target = .ok record) :
    ∃ hub', hub.removeTarget target = .ok hub' ∧ Consistent n m hub' ∧ hub.Evolves hub' ∧
      hub.Removed [target] hub' := by
  set hub₁ : InstrumentationHub := { hub.withoutTarget target with
    attachments := hub.attachments.retain fun key _ ↦ key.2 ≠ target
    controlLeases := hub.controlLeases.erase target
    directives := hub.directives.erase target }
  have hgone : ∀ handle other, hub₁.resolveTarget handle = .ok other ↔
      hub.resolveTarget handle = .ok other ∧ handle ≠ target :=
    fun _ _ ↦ resolve_withoutTarget hresolve
  have hlinked : hub₁.Linked := by
    refine h.linked.shrink (fun _ _ ↦ lookup_retain_eq_some) (fun _ _ _ ↦ id) ?_ ?_ ?_
    · intro key record hne hrecord
      exact (hgone _ _).mpr ⟨hrecord, of_decide_eq_true hne⟩
    · intro other instrument hlookup
      obtain ⟨hne, hlease⟩ := lookup_erase_eq_some.mp hlookup
      exact ⟨hlease, decide_eq_true hne⟩
    · intro other directive hlookup
      obtain ⟨hne, hdirective⟩ := lookup_erase_eq_some.mp hlookup
      exact ⟨hdirective, fun _ hlease ↦ lookup_erase_eq_some.mpr ⟨hne, hlease⟩⟩
  obtain ⟨mask, hmask, hconsistent⟩ := hlinked.exists_recompute
    (h.instruments.congr rfl rfl rfl rfl) (h.targets.withoutTarget.congr rfl rfl)
  refine ⟨_, ?_, hconsistent, ⟨.refl _, ⟨fun _ ↦ le_rfl, ?_⟩⟩, ?_⟩
  · rw [removeTarget, hresolve]
    exact hmask
  · rintro id generation ⟨other, hother⟩
    exact .inl ⟨other, ((hgone _ _).mp hother).1⟩
  · intro handle other
    rw [mem_singleton]
    exact hgone handle other

theorem Consistent.keeps_removeTarget : Keeps n m hub (hub.removeTarget target) := by
  refine ensures_resolveTarget.bind fun record hrecord ↦ ?_
  obtain ⟨hub', hremove, hconsistent, hevolves, -⟩ := h.exists_removeTarget hrecord
  rw [removeTarget, hrecord] at hremove
  exact (congrArg (Except.Ensures · _ _) hremove).mpr ⟨hconsistent, hevolves⟩

theorem Consistent.clear : Consistent n m hub.clear where
  instruments :=
    { indexed := fun _ _ hid ↦ by cases hid
      registered := fun _ _ hrecord ↦ by cases hrecord
      order_le := h.instruments.order_le
      generation_le := h.instruments.generation_le }
  targets :=
    { id_eq := fun _ _ hrecord ↦ by cases hrecord
      valid := fun _ _ hrecord ↦ by cases hrecord
      generation_lt := fun _ _ hrecord ↦ by cases hrecord
      generation_le := h.targets.generation_le }
  linked := .of_empty rfl rfl rfl
  enabled := holds_subscribed_of_empty rfl

omit h in
theorem not_resolveInstrument_clear : hub.clear.resolveInstrument handle ≠ .ok record := by
  rw [Ne, resolveInstrument_eq_ok]
  rintro ⟨order, hindex, -⟩
  cases hindex

omit h in
theorem not_resolveTarget_clear {handle : TargetHandle} {record : TargetRecord} :
    hub.clear.resolveTarget handle ≠ .ok record := by
  rw [Ne, resolveTarget_eq_ok]
  rintro ⟨hrecord, -⟩
  cases hrecord

theorem Consistent.keeps_clear : Keeps n m hub (.ok hub.clear) := by
  refine ⟨h.clear, ⟨fun _ ↦ le_rfl, ?_⟩, ⟨fun _ ↦ le_rfl, ?_⟩⟩
  · rintro id generation ⟨record, hrecord⟩
    exact absurd hrecord not_resolveInstrument_clear
  · rintro id generation ⟨record, hrecord⟩
    exact absurd hrecord not_resolveTarget_clear

/-! ## Removing a session -/

omit h in
theorem InstrumentsOk.nodup_sessionInstruments (h : InstrumentsOk n hub) :
    (hub.sessionInstruments sessionId).Nodup := by
  refine (AssocMap.nodup_map_values fun hrecord hrecord' hhandle ↦ ?_).sublist
    (filter_sublist.map _)
  -- two records with one handle stand at the place the index gives for its name
  have hindex := (h.registered _ _ hrecord).index_eq
  rw [hhandle, (h.registered _ _ hrecord').index_eq, Option.some.injEq] at hindex
  exact hindex.symm

omit h in
theorem InstrumentsOk.mem_sessionInstruments (h : InstrumentsOk n hub) :
    handle ∈ hub.sessionInstruments sessionId ↔
      ∃ record, hub.resolveInstrument handle = .ok record ∧
        record.registration.sessionId = sessionId := by
  simp only [sessionInstruments, mem_map, mem_filter, decide_eq_true_iff, AssocMap.mem_values_iff]
  constructor
  · rintro ⟨record, ⟨⟨order, hrecord⟩, hsession⟩, rfl⟩
    refine ⟨record, h.resolve_iff.mpr ⟨?_, rfl⟩, hsession⟩
    rwa [(h.registered _ _ hrecord).order_eq]
  · rintro ⟨record, hresolve, hsession⟩
    obtain ⟨hrecord, hhandle⟩ := h.resolve_iff.mp hresolve
    exact ⟨record, ⟨⟨_, hrecord⟩, hsession⟩, hhandle⟩

omit h in
theorem TargetsOk.nodup_sessionTargets (h : TargetsOk m hub) :
    (hub.sessionTargets sessionId).Nodup := by
  refine (AssocMap.nodup_map_values fun hrecord hrecord' hhandle ↦ ?_).sublist
    (filter_sublist.map _)
  rw [← (h.id_eq _ _ hrecord).1, ← (h.id_eq _ _ hrecord').1, hhandle]

omit h in
theorem TargetsOk.mem_sessionTargets (h : TargetsOk m hub) {handle : TargetHandle} :
    handle ∈ hub.sessionTargets sessionId ↔
      ∃ record, hub.resolveTarget handle = .ok record ∧
        record.descriptor.sessionId = sessionId := by
  simp only [sessionTargets, mem_map, mem_filter, decide_eq_true_iff, AssocMap.mem_values_iff,
    resolveTarget_eq_ok]
  constructor
  · rintro ⟨record, ⟨⟨id, hrecord⟩, hsession⟩, rfl⟩
    refine ⟨record, ⟨?_, rfl⟩, hsession⟩
    rwa [(h.id_eq _ _ hrecord).1]
  · rintro ⟨record, ⟨hrecord, hhandle⟩, hsession⟩
    exact ⟨record, ⟨⟨_, hrecord⟩, hsession⟩, hhandle⟩

omit h in
/-- Live handles are taken away one after the other, and `R` holds from hub to hub. -/
theorem exists_takeAll {ι ρ : Type} {resolve : InstrumentationHub → ι → Except Stop ρ}
    {f : InstrumentationHub → ι → Except Stop InstrumentationHub}
    {R : InstrumentationHub → InstrumentationHub → Prop} (hrefl : ∀ hub, R hub hub)
    (htrans : ∀ {hub₁ hub₂ hub₃}, R hub₁ hub₂ → R hub₂ hub₃ → R hub₁ hub₃)
    (hf : ∀ {hub i record}, Consistent n m hub → resolve hub i = .ok record → ∃ hub',
      f hub i = .ok hub' ∧ Consistent n m hub' ∧ R hub hub' ∧
        ∀ j other, resolve hub' j = .ok other ↔ resolve hub j = .ok other ∧ j ∉ [i])
    (h : Consistent n m hub) {l : List ι} (hnodup : l.Nodup)
    (hlive : ∀ i ∈ l, ∃ record, resolve hub i = .ok record) :
    ∃ hub', (∀ message, l.foldlM (fun hub i ↦ expect message (f hub i)) hub = .ok hub') ∧
      Consistent n m hub' ∧ R hub hub' ∧
      ∀ j other, resolve hub' j = .ok other ↔ resolve hub j = .ok other ∧ j ∉ l := by
  induction l generalizing hub with
  | nil => exact ⟨hub, fun _ ↦ rfl, h, hrefl hub, by simp⟩
  | cons i l ih =>
    obtain ⟨hnotin, hnodup⟩ := nodup_cons.mp hnodup
    obtain ⟨record, hrecord⟩ := hlive i mem_cons_self
    obtain ⟨hub₁, hfirst, h₁, hR₁, hgone₁⟩ := hf h hrecord
    have hlive₁ : ∀ j ∈ l, ∃ record, resolve hub₁ j = .ok record := by
      intro j hmem
      obtain ⟨other, hother⟩ := hlive j (mem_cons_of_mem _ hmem)
      refine ⟨other, (hgone₁ _ _).mpr ⟨hother, ?_⟩⟩
      rw [mem_singleton]
      rintro rfl
      exact hnotin hmem
    obtain ⟨hub₂, hrest, h₂, hR₂, hgone₂⟩ := ih h₁ hnodup hlive₁
    refine ⟨hub₂, fun message ↦ ?_, h₂, htrans hR₁ hR₂, fun j other ↦ ?_⟩
    · rw [foldlM_cons, hfirst]
      exact hrest message
    · rw [hgone₂, hgone₁, mem_singleton, mem_cons]
      tauto

/-- A session is removed without a panic, and its handles do not resolve afterwards. -/
theorem Consistent.exists_detachSession (sessionId : String) :
    ∃ hub', hub.detachSession sessionId = .ok (⟨(hub.sessionInstruments sessionId).length,
        (hub.sessionTargets sessionId).length⟩, hub') ∧
      Consistent n m hub' ∧ hub.Evolves hub' ∧
      (∀ handle ∈ hub.sessionInstruments sessionId, ∀ record,
        hub'.resolveInstrument handle ≠ .ok record) ∧
      ∀ handle ∈ hub.sessionTargets sessionId, ∀ record,
        hub'.resolveTarget handle ≠ .ok record := by
  have hinstruments : ∀ handle ∈ hub.sessionInstruments sessionId, ∃ record,
      hub.resolveInstrument handle = .ok record := by
    intro handle hmem
    obtain ⟨record, hrecord, -⟩ := h.instruments.mem_sessionInstruments.mp hmem
    exact ⟨record, hrecord⟩
  obtain ⟨hub₁, hfold₁, h₁, ⟨hevolves₁, htargets₁⟩, hdetached⟩ := exists_takeAll
    (R := fun hub hub' ↦ hub.Evolves hub' ∧ hub'.targets = hub.targets)
    (fun hub ↦ ⟨.refl hub, rfl⟩) (fun h h' ↦ ⟨h.1.trans h'.1, h'.2.trans h.2⟩)
    (f := detach) (fun h hrecord ↦ (h.exists_detach hrecord).imp fun _ h ↦
      ⟨h.1, h.2.1, ⟨h.2.2.1, h.2.2.2.targets_eq⟩, h.2.2.2.resolve_iff⟩)
    h h.instruments.nodup_sessionInstruments hinstruments
  have htargets : ∀ handle ∈ hub.sessionTargets sessionId, ∃ record,
      hub₁.resolveTarget handle = .ok record := by
    intro handle hmem
    obtain ⟨record, hrecord, -⟩ := h.targets.mem_sessionTargets.mp hmem
    rw [resolveTarget_eq_ok, ← htargets₁, ← resolveTarget_eq_ok] at hrecord
    exact ⟨record, hrecord⟩
  obtain ⟨hub₂, hfold₂, h₂, hevolves₂, hremoved⟩ := exists_takeAll .refl .trans
    (fun h hrecord ↦ h.exists_removeTarget hrecord) h₁ h.targets.nodup_sessionTargets htargets
  refine ⟨hub₂, ?_, h₂, hevolves₁.trans hevolves₂, ?_, ?_⟩
  · simp only [detachSession, hfold₁, bind, Except.bind, hfold₂]
    rfl
  · intro handle hmem record hrecord
    -- gone after the first loop, and the second one gives out no old generation
    refine h.instruments.issued.not_live (hinstruments handle hmem) hevolves₁.instruments ?_
      hevolves₂.instruments ⟨record, hrecord⟩
    rintro ⟨other, hother⟩
    exact ((hdetached _ _).mp hother).2 hmem
  · intro handle hmem record hrecord
    exact ((hremoved _ _).mp hrecord).2 hmem

theorem Consistent.keeps_detachSession :
    Keeps n m hub (Prod.snd <$> hub.detachSession sessionId) := by
  obtain ⟨hub', hdetach, hconsistent, hevolves, -⟩ := h.exists_detachSession sessionId
  rw [hdetach]
  exact ⟨hconsistent, hevolves⟩

end

end Hara.Instrumentation.InstrumentationHub
