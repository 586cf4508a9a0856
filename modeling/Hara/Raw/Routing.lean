import Hara.Lib.Except
import Hara.Raw.Turns

/-!
# Routing of host calls

Every session numbers its host calls from one, and a result is delivered by number alone. If a
single session makes host calls, the numbers tell the calls apart, and a delivered result reaches
the promise of its call. With two such sessions both fail.
-/

namespace Hara.Raw

open Lib Hara.Task
open List hiding set

variable {W F V : Type} {state : PromiseState V} {promise : Promise} {calls : List (HostCall V)}
  {walk : Walk} {call : ℕ}

namespace Kernel

/-- In the turns so far, guest code made host calls in one session only. -/
def OnlyCallsIn (k : Kernel W F V) (caller : ℕ) : Prop :=
  ∀ turn ∈ k.turns, turn.1 ≠ caller → turn.2 = []

variable {wire : Wire V} {guest : Guest W F V} {k k' : Kernel W F V} {name : String}
  {task caller : ℕ}

/-! ## What is left alone -/

/-- The parts of a session that have to do with host calls. -/
def callsOf (session : Session F V) : ℕ × ℕ × AssocMap ℕ (ℕ × Promise) :=
  (session.serial, session.nextCall, session.calls)

/-- Two kernels with the same host calls. -/
structure SameCalls (k k' : Kernel W F V) : Prop where
  announced : k'.announced = k.announced
  nextSerial : k'.nextSerial = k.nextSerial
  turns : k'.turns = k.turns
  sessions : ∀ name, (k'.sessions.lookup name).map callsOf = (k.sessions.lookup name).map callsOf

theorem SameCalls.refl (k : Kernel W F V) : SameCalls k k := ⟨rfl, rfl, rfl, fun _ ↦ rfl⟩

theorem SameCalls.trans {k'' : Kernel W F V} (h : SameCalls k k') (h' : SameCalls k' k'') :
    SameCalls k k'' :=
  ⟨h'.announced.trans h.announced, h'.nextSerial.trans h.nextSerial, h'.turns.trans h.turns,
    fun name ↦ (h'.sessions name).trans (h.sessions name)⟩

variable {session : Session F V}

theorem SameCalls.exists_session (h : SameCalls k k')
    (hsession : k.sessions.lookup name = some session) :
    ∃ session', k'.sessions.lookup name = some session' ∧ callsOf session' = callsOf session := by
  have hsame := h.sessions name
  rw [hsession, Option.map_some, Option.map_eq_some_iff] at hsame
  exact hsame

variable {session' : Session F V}

/-- A session may change in everything else. -/
theorem SameCalls.of_insert (hsession : k.sessions.lookup name = some session)
    (hsessions : k'.sessions = k.sessions.insert name session')
    (hcalls : callsOf session' = callsOf session) (hannounced : k'.announced = k.announced)
    (hserial : k'.nextSerial = k.nextSerial) (hturns : k'.turns = k.turns) : SameCalls k k' := by
  refine ⟨hannounced, hserial, hturns, fun other ↦ ?_⟩
  rw [hsessions]
  by_cases hother : other = name
  · rw [hother, AList.lookup_insert, hsession, Option.map_some, Option.map_some, hcalls]
  · rw [AList.lookup_insert_ne hother]

theorem sameCalls_modifySession (f : Session F V → Session F V)
    (hf : ∀ session, callsOf (f session) = callsOf session) :
    SameCalls k (k.modifySession name f) := by
  rw [modifySession]
  split
  · exact .refl k
  next session hsession => exact .of_insert hsession rfl (hf session) rfl rfl rfl

section

variable (wire guest)

theorem sameCalls_enqueueEvent {outcome : Outcome V} :
    SameCalls k (k.enqueueEvent wire task outcome) := by
  rw [enqueueEvent]
  split
  · exact ⟨rfl, rfl, rfl, fun _ ↦ rfl⟩
  · dsimp only
    split <;> exact ⟨rfl, rfl, rfl, fun _ ↦ rfl⟩

theorem sameCalls_emitSettlement : SameCalls k (k.emitSettlement wire task state) := by
  rw [emitSettlement.eq_def]
  split
  · exact .refl k
  all_goals exact sameCalls_enqueueEvent wire

theorem sameCalls_notify {subscriber : Subscriber} :
    SameCalls k (k.notify wire state subscriber) := by
  cases subscriber with
  | resume name serial task =>
    refine sameCalls_modifySession _ fun session ↦ ?_
    split <;> rfl
  | emit task => exact sameCalls_emitSettlement wire

theorem sameCalls_onSettle (promise : Promise) (subscriber : Subscriber) :
    SameCalls k (k.onSettle wire promise subscriber) := by
  rw [onSettle]
  split
  · exact sameCalls_notify wire
  · exact ⟨rfl, rfl, rfl, fun _ ↦ rfl⟩

theorem sameCalls_foldl_notify {subscribers : List Subscriber} :
    SameCalls k (subscribers.foldl (fun k ↦ k.notify wire state) k) := by
  induction subscribers generalizing k with
  | nil => exact .refl k
  | cons subscriber subscribers ih => exact (sameCalls_notify wire).trans ih

theorem sameCalls_settle (promise : Promise) (state : PromiseState V) :
    SameCalls k (k.settle wire promise state) := by
  rw [settle]
  split
  · exact .refl k
  · exact { sameCalls_foldl_notify wire with }

theorem sameCalls_settleAll {settlements : Settlements V} :
    SameCalls k (k.settleAll wire settlements) := by
  induction settlements generalizing k with
  | nil => exact .refl k
  | cons settlement settlements ih => exact (sameCalls_settle wire _ _).trans ih

theorem sameCalls_settleNow (promise : Promise) (state : PromiseState V) :
    SameCalls k (k.settleNow wire guest promise state) := by
  rw [settleNow]
  split
  · exact .refl k
  · refine (sameCalls_settle wire promise state).trans ?_
    exact { sameCalls_settleAll wire with }

theorem sameCalls_cancelPromise : SameCalls k (k.cancelPromise wire guest promise) := by
  rw [cancelPromise]
  split
  · exact .refl k
  · have hsettled : SameCalls k (settleAll wire
        { k with world := (guest.notifyCancel k.world promise).2 }
        (guest.notifyCancel k.world promise).1) :=
      { sameCalls_settleAll wire with }
    exact hsettled.trans (sameCalls_settleNow wire guest _ _)

end

theorem sameCalls_finishEvaluation : SameCalls k (k.finishEvaluation id name task) := by
  rw [finishEvaluation]
  split
  · exact .refl k
  next session hsession =>
    split
    · exact .of_insert hsession rfl rfl rfl rfl rfl
    · exact .refl k

/-! ## One caller -/

/-- The numbers that were announced are all different, and the tables of the sessions agree with
what was announced; only the session `caller` has made calls. -/
structure Routed (caller : ℕ) (k : Kernel W F V) : Prop where
  serial_lt : ∀ name session, k.sessions.lookup name = some session → session.serial < k.nextSerial
  serial_inj : ∀ name session name' session', k.sessions.lookup name = some session →
    k.sessions.lookup name' = some session' → session.serial = session'.serial → name = name'
  silent : ∀ name session, k.sessions.lookup name = some session → session.serial ≠ caller →
    session.calls = ∅
  entered : ∀ name session call entry, k.sessions.lookup name = some session →
    session.calls.lookup call = some entry →
      ⟨call, session.serial, entry.1, entry.2⟩ ∈ k.announced
  below : ∀ name session, k.sessions.lookup name = some session → session.serial = caller →
    ∀ a ∈ k.announced, a.call < session.nextCall
  fresh : k.nextSerial ≤ caller → k.announced = []
  distinct : (k.announced.map (·.call)).Nodup

/-- What the invariant says about one session. -/
structure SessionRouted (caller : ℕ) (k : Kernel W F V) (session : Session F V) : Prop where
  serial_lt : session.serial < k.nextSerial
  silent : session.serial ≠ caller → session.calls = ∅
  entered : ∀ call entry, session.calls.lookup call = some entry →
    ⟨call, session.serial, entry.1, entry.2⟩ ∈ k.announced
  below : session.serial = caller → ∀ a ∈ k.announced, a.call < session.nextCall

theorem Routed.of_each (heach : ∀ name session, k.sessions.lookup name = some session →
      SessionRouted caller k session)
    (hinj : ∀ name session name' session', k.sessions.lookup name = some session →
      k.sessions.lookup name' = some session' → session.serial = session'.serial → name = name')
    (hfresh : k.nextSerial ≤ caller → k.announced = [])
    (hdistinct : (k.announced.map (·.call)).Nodup) : Routed caller k where
  serial_lt name session hsession := (heach name session hsession).serial_lt
  serial_inj := hinj
  silent name session hsession := (heach name session hsession).silent
  entered name session call entry hsession := (heach name session hsession).entered call entry
  below name session hsession := (heach name session hsession).below
  fresh := hfresh
  distinct := hdistinct

section

variable (h : Routed caller k)

include h

theorem Routed.each (hsession : k.sessions.lookup name = some session) :
    SessionRouted caller k session :=
  ⟨h.serial_lt _ _ hsession, h.silent _ _ hsession, fun _ _ ↦ h.entered _ _ _ _ hsession,
    h.below _ _ hsession⟩

/-- Sessions may leave, their tables may shrink and their counters may go up. -/
theorem Routed.of_sessions (hannounced : k'.announced = k.announced)
    (hserial : k'.nextSerial = k.nextSerial)
    (hback : ∀ name session', k'.sessions.lookup name = some session' →
      ∃ session, k.sessions.lookup name = some session ∧ session'.serial = session.serial ∧
        session.nextCall ≤ session'.nextCall ∧ ∀ call entry,
          session'.calls.lookup call = some entry → session.calls.lookup call = some entry) :
    Routed caller k' := by
  refine .of_each ?_ ?_ (by rw [hannounced, hserial]; exact h.fresh)
    (by rw [hannounced]; exact h.distinct)
  · intro name session' hsession'
    obtain ⟨session, hsession, heq, hle, hcalls⟩ := hback name session' hsession'
    have hold := h.each hsession
    constructor
    · rw [heq, hserial]
      exact hold.serial_lt
    · intro hne
      refine AList.ext (eq_nil_iff_forall_not_mem.mpr fun e he ↦ ?_)
      have hin := hcalls _ _ (AssocMap.mem_entries_iff.mp he)
      rw [hold.silent (heq ▸ hne)] at hin
      cases hin
    · intro call entry hcall
      rw [hannounced, heq]
      exact hold.entered call entry (hcalls _ _ hcall)
    · intro hcaller a ha
      exact (hold.below (heq ▸ hcaller) a (hannounced ▸ ha)).trans_le hle
  · intro name₁ session₁' name₂ session₂' hsession₁' hsession₂' heq
    obtain ⟨session₁, hsession₁, heq₁, -, -⟩ := hback name₁ session₁' hsession₁'
    obtain ⟨session₂, hsession₂, heq₂, -, -⟩ := hback name₂ session₂' hsession₂'
    exact h.serial_inj _ _ _ _ hsession₁ hsession₂ (by rw [← heq₁, ← heq₂, heq])

theorem Routed.sameCalls (hsame : SameCalls k k') : Routed caller k' := by
  refine h.of_sessions hsame.announced hsame.nextSerial fun name session' hsession' ↦ ?_
  have hlookup := hsame.sessions name
  rw [hsession', Option.map_some, eq_comm, Option.map_eq_some_iff] at hlookup
  obtain ⟨session, hsession, hcalls⟩ := hlookup
  simp only [callsOf, Prod.mk.injEq] at hcalls
  refine ⟨session, hsession, hcalls.1.symm, hcalls.2.1.le, fun call entry hcall ↦ ?_⟩
  rwa [hcalls.2.2]

omit h in
theorem Routed.new (caller : ℕ) (world : W) : Routed caller (Kernel.new world : Kernel W F V) := by
  have hroot : ∀ name session,
      (Kernel.new world : Kernel W F V).sessions.lookup name = some session →
      name = "ROOT" ∧ session = Session.new 0 true := by
    intro name session hsession
    rcases AssocMap.lookup_insert_eq_some.mp hsession with ⟨rfl, rfl⟩ | ⟨-, hnone⟩
    · exact ⟨rfl, rfl⟩
    · cases hnone
  refine .of_each ?_ ?_ (fun _ ↦ rfl) nodup_nil
  · intro name session hsession
    obtain ⟨-, rfl⟩ := hroot name session hsession
    exact ⟨Nat.zero_lt_one, fun _ ↦ rfl, nofun, nofun⟩
  · intro name session name' session' hsession hsession' _
    rw [(hroot name session hsession).1, (hroot name' session' hsession').1]

/-- A session leaves. -/
theorem Routed.erase : Routed caller { k with sessions := k.sessions.erase name } := by
  refine h.of_sessions rfl rfl fun other session hsession ↦ ?_
  exact ⟨session, (AssocMap.lookup_erase_eq_some.mp hsession).2, rfl, le_rfl, fun _ _ ↦ id⟩

/-- A session changes: its table may shrink and its counter go up. -/
theorem Routed.insert (hsession : k.sessions.lookup name = some session)
    (hsessions : k'.sessions = k.sessions.insert name session')
    (hannounced : k'.announced = k.announced) (hserial : k'.nextSerial = k.nextSerial)
    (heq : session'.serial = session.serial) (hle : session.nextCall ≤ session'.nextCall)
    (hcalls : ∀ call entry, session'.calls.lookup call = some entry →
      session.calls.lookup call = some entry) : Routed caller k' := by
  refine h.of_sessions hannounced hserial fun other changed hchanged ↦ ?_
  rw [hsessions] at hchanged
  rcases AssocMap.lookup_insert_eq_some.mp hchanged with ⟨rfl, rfl⟩ | ⟨-, hold⟩
  · exact ⟨session, hsession, heq, hle, hcalls⟩
  · exact ⟨changed, hold, rfl, le_rfl, fun _ _ ↦ id⟩

/-- A session comes, or it changes in another way. -/
theorem Routed.put (hsessions : k'.sessions = k.sessions.insert name session')
    (hnew : SessionRouted caller k' session')
    (hother : ∀ other session, k.sessions.lookup other = some session → other ≠ name →
      session.serial ≠ session'.serial ∧ SessionRouted caller k' session)
    (hfresh : k'.nextSerial ≤ caller → k'.announced = [])
    (hdistinct : (k'.announced.map (·.call)).Nodup) : Routed caller k' := by
  refine .of_each ?_ ?_ hfresh hdistinct
  · intro other session hsession
    rw [hsessions] at hsession
    rcases AssocMap.lookup_insert_eq_some.mp hsession with ⟨-, rfl⟩ | ⟨hne, hold⟩
    · exact hnew
    · exact (hother other session hold hne).2
  · intro name₁ session₁ name₂ session₂ hsession₁ hsession₂ heq
    rw [hsessions, AssocMap.lookup_insert_eq_some] at hsession₁ hsession₂
    rcases hsession₁ with ⟨rfl, rfl⟩ | ⟨hne₁, hold₁⟩ <;>
      rcases hsession₂ with ⟨rfl, rfl⟩ | ⟨hne₂, hold₂⟩
    · rfl
    · exact absurd heq.symm (hother _ _ hold₂ hne₂).1
    · exact absurd heq (hother _ _ hold₁ hne₁).1
    · exact h.serial_inj _ _ _ _ hold₁ hold₂ heq

theorem Routed.openSession (guest : Guest W F V) {sandbox : Bool} :
    Routed caller (k.openSession guest name sandbox) := by
  refine h.put rfl ⟨Nat.lt_succ_self _, fun _ ↦ rfl, nofun, fun heq a ha ↦ ?_⟩ ?_
    (fun hle ↦ h.fresh ((Nat.le_succ _).trans hle)) h.distinct
  · -- the caller itself was not there before, so nothing has been announced
    have hnone : k.announced = [] := h.fresh heq.le
    change a ∈ k.announced at ha
    rw [hnone] at ha
    cases ha
  · intro other session hold _
    have hlt := h.serial_lt other session hold
    exact ⟨hlt.ne, { h.each hold with serial_lt := hlt.trans (Nat.lt_succ_self _) }⟩

/-- A call is announced under the number that comes next. -/
theorem Routed.announce (hsession : k.sessions.lookup name = some session)
    (hcaller : session.serial = caller) (hcall : call < session.nextCall)
    (hnew : ∀ a ∈ k.announced, a.call < call) (event : Event V) :
    Routed caller { k with
      sessions := k.sessions.insert name
        { session with calls := session.calls.insert call (task, promise) }
      events := k.events ++ [event]
      announced := k.announced ++ [⟨call, session.serial, task, promise⟩] } := by
  refine h.put rfl ⟨h.serial_lt name session hsession, absurd hcaller, ?_, ?_⟩ ?_ ?_ ?_
  · intro number entry hentry
    rw [mem_append, mem_singleton]
    rcases AssocMap.lookup_insert_eq_some.mp hentry with ⟨rfl, rfl⟩ | ⟨-, hentry⟩
    · exact .inr rfl
    · exact .inl (h.entered name session number entry hsession hentry)
  · intro _ a ha
    rcases mem_append.mp ha with ha | ha
    · exact h.below name session hsession hcaller a ha
    · rw [mem_singleton.mp ha]
      exact hcall
  · intro other old hold hne
    -- the caller is one session only
    have hserial : old.serial ≠ session.serial :=
      fun heq ↦ hne (h.serial_inj _ _ _ _ hold hsession heq)
    exact ⟨hserial, { h.each hold with
      entered := fun number entry hentry ↦
        mem_append_left _ (h.entered other old number entry hold hentry)
      below := fun heq ↦ absurd (heq.trans hcaller.symm) hserial }⟩
  · intro hle
    have hlt := h.serial_lt name session hsession
    rw [hcaller] at hlt
    exact absurd hlt (Nat.not_lt.mpr hle)
  · rw [map_append, nodup_append]
    refine ⟨h.distinct, nodup_singleton _, ?_⟩
    intro number hnumber number' hnumber' heq
    obtain ⟨a, ha, rfl⟩ := mem_map.mp hnumber
    rw [map_singleton, mem_singleton] at hnumber'
    rw [hnumber'] at heq
    exact (hnew a ha).ne heq

/-- The calls of a turn are announced one after the other. -/
theorem Routed.foldl_announce (hsession : k.sessions.lookup name = some session)
    (hcaller : session.serial = caller) {pending : List (ℕ × Promise × HostCall V)} (first : ℕ)
    (hfirst : ∀ a ∈ k.announced, a.call < first)
    (hnumbers : pending.map (·.1) = List.range' first pending.length)
    (hnext : first + pending.length ≤ session.nextCall) :
    Routed caller (pending.foldl (Kernel.announce wire guest name task) k) := by
  induction pending generalizing k session first with
  | nil => exact h
  | cons call pending ih =>
    rw [map_cons, length_cons, range'_succ, List.cons.injEq] at hnumbers
    rw [length_cons] at hnext
    obtain ⟨number, promise, request⟩ := call
    obtain ⟨rfl, hrest⟩ := hnumbers
    rw [foldl_cons, Kernel.announce, hsession]
    dsimp only
    split
    · refine ih (h.announce hsession hcaller (by dsimp only; omega) hfirst _)
        (AList.lookup_insert _) hcaller (number + 1) ?_ hrest (by dsimp only; omega)
      intro a ha
      rcases mem_append.mp ha with ha | ha
      · exact (hfirst a ha).trans (Nat.lt_succ_self _)
      · rw [mem_singleton.mp ha]
        exact Nat.lt_succ_self _
    next error _ =>
      have hsame := sameCalls_settleNow wire guest (k := k) promise
        (.rejected (.message ("hta/value-unsupported: " ++ error)))
      obtain ⟨session', hsession', hcalls⟩ := hsame.exists_session hsession
      simp only [callsOf, Prod.mk.injEq] at hcalls
      refine ih (h.sameCalls hsame) hsession' (hcalls.1.trans hcaller) (number + 1) ?_ hrest ?_
      · intro a ha
        rw [hsame.announced] at ha
        exact (hfirst a ha).trans (Nat.lt_succ_self _)
      · omega

omit h in
theorem map_pendingCalls (calls : List (HostCall V)) :
    (k.pendingCalls session calls).map (·.1) =
      List.range' session.nextCall (k.pendingCalls session calls).length := by
  rw [pendingCalls]
  refine ext_getElem ?_ fun i hi hi' ↦ ?_
  · simp
  · simp

theorem Routed.collectCalls
    (hcalls : ∀ session, k.sessions.lookup name = some session → session.serial ≠ caller →
      calls = []) : Routed caller (k.collectCalls wire guest name task calls) := by
  rw [Kernel.collectCalls]
  split
  · exact h
  next session hsession =>
    generalize hcount : (if session.allowHostCalls then calls else []) = taken
    set session₁ : Session F V := { session with nextCall := session.nextCall + taken.length }
    have hadvanced : Routed caller { k with
        sessions := k.sessions.insert name session₁
        nextPromise := k.nextPromise + taken.length
        turns := k.turns ++ [(session.serial, calls)] } :=
      h.insert hsession rfl rfl rfl rfl (Nat.le_add_right ..) (fun _ _ ↦ id)
    by_cases hcaller : session₁.serial = caller
    · refine hadvanced.foldl_announce (AList.lookup_insert _) hcaller session.nextCall
        (h.below name session hsession hcaller) (map_pendingCalls ..) ?_
      rw [pendingCalls, length_map, length_zipIdx]
    · rw [hcalls session hsession hcaller, ite_self] at hcount
      subst hcount
      exact hadvanced

end

/-! ## Runs with one caller -/

/-- The calls are routed, unless a turn of another session has made one. -/
def RoutedSoFar (caller : ℕ) (k : Kernel W F V) : Prop := k.OnlyCallsIn caller → Routed caller k

theorem RoutedSoFar.sameCalls (h : RoutedSoFar caller k) (hsame : SameCalls k k') :
    RoutedSoFar caller k' := by
  intro hturns
  rw [OnlyCallsIn, hsame.turns] at hturns
  exact (h hturns).sameCalls hsame

/-- A task in hand, in a kernel whose calls are routed. -/
def RoutedHand (caller : ℕ) (name : String) (serial : ℕ) (_ : ℕ) (k : Kernel W F V) : Prop :=
  RoutedSoFar caller k ∧ ∃ session, k.sessions.lookup name = some session ∧ session.serial = serial

theorem RoutedHand.sameCalls {serial : ℕ} (h : RoutedHand caller name serial task k)
    (hsame : SameCalls k k') : RoutedHand caller name serial task k' := by
  obtain ⟨hrouted, session, hsession, hserial⟩ := h
  obtain ⟨session', hsession', hcalls⟩ := hsame.exists_session hsession
  exact ⟨hrouted.sameCalls hsame, session', hsession', (congrArg Prod.fst hcalls).trans hserial⟩

theorem exists_session_announce {pending : ℕ × Promise × HostCall V}
    (hsession : k.sessions.lookup name = some session) :
    (k.announce wire guest name task pending).turns = k.turns ∧
    ∃ session', (k.announce wire guest name task pending).sessions.lookup name = some session' ∧
      session'.serial = session.serial := by
  rw [announce, hsession]
  dsimp only
  split
  · exact ⟨rfl, _, AList.lookup_insert _, rfl⟩
  · have hsame := fun promise state ↦ sameCalls_settleNow wire guest (k := k) promise state
    obtain ⟨session', hsession', hcalls⟩ := (hsame _ _).exists_session hsession
    exact ⟨(hsame _ _).turns, session', hsession', congrArg Prod.fst hcalls⟩

/-- The turn is recorded, and the session stays. -/
theorem exists_session_collectCalls (hsession : k.sessions.lookup name = some session) :
    (k.collectCalls wire guest name task calls).turns = k.turns ++ [(session.serial, calls)] ∧
    ∃ session', (k.collectCalls wire guest name task calls).sessions.lookup name = some session' ∧
      session'.serial = session.serial := by
  have hfold : ∀ (pending : List (ℕ × Promise × HostCall V)) (k : Kernel W F V) session,
      k.sessions.lookup name = some session →
        (pending.foldl (announce wire guest name task) k).turns = k.turns ∧ ∃ session',
        (pending.foldl (announce wire guest name task) k).sessions.lookup name = some session' ∧
          session'.serial = session.serial := by
    intro pending
    induction pending with
    | nil => exact fun k session hsession ↦ ⟨rfl, session, hsession, rfl⟩
    | cons call pending ih =>
      intro k session hsession
      obtain ⟨hturns₁, session₁, hsession₁, hserial₁⟩ := exists_session_announce hsession
      obtain ⟨hturns₂, session₂, hsession₂, hserial₂⟩ := ih _ session₁ hsession₁
      exact ⟨hturns₂.trans hturns₁, session₂, hsession₂, hserial₂.trans hserial₁⟩
  rw [collectCalls, hsession]
  obtain ⟨hturns, session', hsession', hserial⟩ := hfold (k.pendingCalls session _) { k with
      sessions := k.sessions.insert name { session with nextCall :=
        session.nextCall + (if session.allowHostCalls then calls else []).length }
      nextPromise := _
      turns := k.turns ++ [(session.serial, calls)] } _ (AList.lookup_insert _)
  exact ⟨hturns, session', hsession', hserial⟩

theorem stable_routed : Stable wire guest (RoutedSoFar caller) (RoutedHand caller) where
  take world h hsession _ _ :=
    ⟨fun hturns ↦ (h hturns).insert hsession rfl rfl rfl rfl le_rfl (fun _ _ ↦ id), _,
      AList.lookup_insert _, rfl⟩
  lift world h hsession _ :=
    ⟨fun hturns ↦ (h hturns).insert hsession rfl rfl rfl rfl le_rfl (fun _ _ ↦ id), _,
      AList.lookup_insert _, rfl⟩
  pop ready h hsession hturns :=
    (h hturns).insert hsession rfl rfl rfl rfl le_rfl (fun _ _ ↦ id)
  settle promise state h := h.sameCalls (sameCalls_settle wire promise state)
  collect := by
    rintro k name serial task calls ⟨hrouted, session, hsession, hserial⟩
    obtain ⟨hrecorded, session', hsession', heq⟩ := exists_session_collectCalls hsession
    refine ⟨fun hturns ↦ ?_, session', hsession', heq.trans hserial⟩
    rw [OnlyCallsIn, hrecorded, forall_mem_append, forall_mem_singleton] at hturns
    refine (hrouted hturns.1).collectCalls fun other hother hne ↦ ?_
    rw [hsession, Option.some.injEq] at hother
    exact hturns.2 (hother ▸ hne)
  reject outcome h := (h.1.sameCalls (sameCalls_enqueueEvent wire)).sameCalls
    (sameCalls_modifySession _ fun _ ↦ rfl)
  suspend promise fiber h _ := (h.1.sameCalls (sameCalls_onSettle wire promise _)).sameCalls
    (sameCalls_modifySession _ fun _ ↦ rfl)
  await := by
    intro k name serial task promise h
    have hwaiting := h.1.sameCalls (sameCalls_onSettle wire promise (.emit task))
    refine RoutedSoFar.sameCalls ?_ sameCalls_finishEvaluation
    exact hwaiting.sameCalls (sameCalls_modifySession _ fun _ ↦ rfl)
  finish outcome h := (h.1.sameCalls (sameCalls_enqueueEvent wire)).sameCalls
    sameCalls_finishEvaluation
  isOpen h := ⟨_, h.2.choose_spec.1⟩

section

variable (h : RoutedSoFar caller k)

include h

theorem RoutedSoFar.enqueueEvaluation (request : EvaluationRequest V) :
    RoutedSoFar caller (k.enqueueEvaluation wire guest task name request) := by
  refine stable_routed.startNextEvaluation ?_
  refine RoutedSoFar.sameCalls ?_ (sameCalls_modifySession _ fun _ ↦ rfl)
  exact fun hturns ↦ { h hturns with }

theorem RoutedSoFar.closeTasks {owned : List ℕ} {outcome : Outcome V} :
    RoutedSoFar caller (owned.foldl (fun k task ↦ enqueueEvent wire
      { k with taskSessions := k.taskSessions.erase task } task outcome) k) := by
  induction owned generalizing k with
  | nil => exact h
  | cons task owned ih =>
    refine ih (RoutedSoFar.sameCalls ?_ (sameCalls_enqueueEvent wire))
    exact fun hturns ↦ { h hturns with }

theorem RoutedSoFar.closeSession (hclose : k.closeSession wire guest name = .ok k') :
    RoutedSoFar caller k' := by
  rw [Kernel.closeSession, Except.bind_eq_ok] at hclose
  obtain ⟨-, -, hclose⟩ := hclose
  split_ifs at hclose
  cases hclose
  exact fun hturns ↦ { (h.closeTasks hturns).erase with }

theorem RoutedSoFar.dispatch {string : String → V} {yes : V} {request : Request W V} :
    RoutedSoFar caller (k.dispatch wire guest task string yes request).1 := by
  cases request with
  | malformed error => exact h
  | evaluate name request =>
    rw [Kernel.dispatch]
    split
    · exact h
    · exact h.enqueueEvaluation request
  | invokeVm name program =>
    rw [Kernel.dispatch]
    split
    · split
      · exact h.enqueueEvaluation _
      · exact fun hturns ↦ { h hturns with }
    · exact h
    · exact h
  | sandboxEval source =>
    rw [Kernel.dispatch, dispatchSandboxEval]
    split
    · exact h
    next k₁ hk₁ =>
      split_ifs at hk₁
      cases hk₁
      refine RoutedSoFar.enqueueEvaluation ?_ _
      exact fun hturns ↦ { (h hturns).openSession guest with }
  | createSession name =>
    rw [Kernel.dispatch]
    split
    · exact h
    next k₁ hk₁ =>
      rw [Kernel.createSession, Except.bind_eq_ok] at hk₁
      obtain ⟨-, -, hk₁⟩ := hk₁
      split_ifs at hk₁
      cases hk₁
      have hopened : RoutedSoFar caller (k.openSession guest name false) :=
        fun hturns ↦ (h hturns).openSession guest
      exact hopened.sameCalls (sameCalls_enqueueEvent wire)
  | closeSession name =>
    rw [Kernel.dispatch]
    split
    · exact h
    next k₁ hk₁ => exact (h.closeSession hk₁).sameCalls (sameCalls_enqueueEvent wire)
  | immediate perform =>
    rw [Kernel.dispatch]
    dsimp only
    have hsettled : RoutedSoFar caller (settleAll wire { k with world := (perform k.world).2.2 }
        (perform k.world).1) := by
      refine RoutedSoFar.sameCalls ?_ (sameCalls_settleAll wire)
      exact fun hturns ↦ { h hturns with }
    split
    · exact hsettled
    · exact hsettled.sameCalls (sameCalls_enqueueEvent wire)

theorem RoutedSoFar.htaStart {string : String → V} {yes : V} {request : Request W V} :
    RoutedSoFar caller (k.htaStart wire guest string yes walk request).1 := by
  have hdispatch : RoutedSoFar caller (Kernel.dispatch wire guest
      { k with nextTask := k.nextTask + 1 } k.nextTask string yes request).1 := by
    refine RoutedSoFar.dispatch ?_
    exact fun hturns ↦ { h hturns with }
  refine stable_routed.drainReady ?_
  split
  · exact hdispatch.sameCalls (sameCalls_enqueueEvent wire)
  · exact hdispatch

theorem RoutedSoFar.htaNextEvent : RoutedSoFar caller (k.htaNextEvent wire guest walk).1 := by
  have hdrained : RoutedSoFar caller (k.drainReady wire guest walk) :=
    stable_routed.drainReady h
  rw [Kernel.htaNextEvent]
  dsimp only
  split
  · exact hdrained
  next event events hevents =>
    split
    next task _ =>
      rw [cleanupTask]
      split
      · exact fun hturns ↦ { hdrained hturns with }
      · dsimp only
        split
        · exact fun hturns ↦ { (hdrained hturns).erase with }
        · exact fun hturns ↦ { hdrained hturns with }
    · exact fun hturns ↦ { hdrained hturns with }

theorem RoutedSoFar.htaDeliver {order : List String} :
    RoutedSoFar caller (k.htaDeliver wire guest order walk call state).1 := by
  rw [Kernel.htaDeliver]
  split
  · exact h
  next name _ promise _ =>
    refine stable_routed.drainReady ?_
    refine RoutedSoFar.sameCalls ?_ (sameCalls_settleNow wire guest promise state)
    rw [modifySession]
    split
    · exact h
    next session hsession =>
      intro hturns
      refine (h hturns).insert hsession rfl rfl rfl rfl le_rfl fun number entry hentry ↦ ?_
      exact (AssocMap.lookup_erase_eq_some.mp hentry).2

/-- A session loses the calls of a task. -/
theorem RoutedSoFar.retain (hsession : k.sessions.lookup name = some session) {world : W}
    (hserial : session'.serial = session.serial) (hnext : session'.nextCall = session.nextCall)
    (hcalls : session'.calls = AssocMap.retain session.calls fun _ entry ↦ entry.1 ≠ task) :
    RoutedSoFar caller { k with sessions := k.sessions.insert name session', world := world } := by
  intro hturns
  refine (h hturns).insert hsession rfl rfl rfl hserial hnext.ge fun number entry hentry ↦ ?_
  rw [hcalls] at hentry
  exact (AssocMap.lookup_retain_eq_some.mp hentry).1

theorem RoutedSoFar.finishEvaluation :
    RoutedSoFar caller
      (k.finishEvaluation (fun k ↦ k.startNextEvaluation wire guest name) name task) := by
  refine Stable.finishEvaluation (fun k hk ↦ stable_routed.startNextEvaluation hk) ?_
  exact h.sameCalls sameCalls_finishEvaluation

theorem RoutedSoFar.htaCancel : RoutedSoFar caller (k.htaCancel wire guest task).1 := by
  rw [Kernel.htaCancel]
  split
  · exact h
  next name _ =>
    split
    · exact h
    next session hsession =>
      split
      · refine RoutedSoFar.sameCalls ?_ (sameCalls_enqueueEvent wire)
        exact fun hturns ↦ (h hturns).insert hsession rfl rfl rfl rfl le_rfl (fun _ _ ↦ id)
      · dsimp only
        split
        next engine fiber _ =>
          refine RoutedSoFar.finishEvaluation ?_
          refine RoutedSoFar.sameCalls ?_ (sameCalls_enqueueEvent wire)
          refine RoutedSoFar.sameCalls ?_ (sameCalls_settleAll wire)
          exact h.retain hsession rfl rfl rfl
        · split
          next promise _ =>
            refine RoutedSoFar.sameCalls ?_ (sameCalls_cancelPromise wire guest)
            exact h.retain hsession rfl rfl rfl
          · exact h.retain hsession rfl rfl rfl

theorem RoutedSoFar.dropFiber (hsession : k.sessions.lookup name = some session) :
    RoutedSoFar caller (k.dropFiber wire guest name session task) := by
  rw [Kernel.dropFiber]
  split
  · exact h
  · refine RoutedSoFar.sameCalls ?_ (sameCalls_settleAll wire)
    exact fun hturns ↦ (h hturns).insert hsession rfl rfl rfl rfl le_rfl (fun _ _ ↦ id)

theorem RoutedSoFar.htaDropTask : RoutedSoFar caller (k.htaDropTask wire guest task) := by
  rw [Kernel.htaDropTask]
  split
  · exact fun hturns ↦ { h hturns with }
  next name hname =>
    have herase : ∀ {k : Kernel W F V} {p : Prop} [Decidable p], RoutedSoFar caller k →
        RoutedSoFar caller (if p then { k with sessions := k.sessions.erase name } else k) := by
      intro k p _ hk
      split
      · exact fun hturns ↦ (hk hturns).erase
      · exact hk
    refine herase ?_
    split
    · exact fun hturns ↦ { h hturns with }
    next session hsession =>
      refine RoutedSoFar.finishEvaluation ?_
      rw [modifySession]
      split
      · refine RoutedSoFar.dropFiber ?_ hsession
        exact fun hturns ↦ { h hturns with }
      next session' hsession' =>
        refine RoutedSoFar.retain ?_ hsession' rfl rfl rfl
        refine RoutedSoFar.dropFiber ?_ hsession
        exact fun hturns ↦ { h hturns with }

end

variable {setting : Setting W F V}

theorem RoutedSoFar.step (h : RoutedSoFar caller k) (operation : Operation W V) :
    RoutedSoFar caller (k.step setting operation) := by
  cases operation with
  | start walk request => exact h.htaStart
  | nextEvent walk => exact h.htaNextEvent
  | poll walk => exact stable_routed.drainReady h
  | deliver order walk call state => exact h.htaDeliver
  | cancel task => exact h.htaCancel
  | dropTask task => exact h.htaDropTask

theorem RoutedSoFar.run (h : RoutedSoFar caller k) (operations : List (Operation W V)) :
    RoutedSoFar caller (k.run setting operations) := by
  induction operations generalizing k with
  | nil => exact h
  | cons operation operations ih => exact ih (h.step operation)

/-! ## Delivery -/

/-- Calls can be told apart by their numbers, and a result for an announced call reaches its
promise or none. -/
structure CallsIsolated (setting : Setting W F V) (k : Kernel W F V) : Prop where
  /-- The numbers that were announced are all different. -/
  distinct : (k.announced.map (·.call)).Nodup
  /-- A delivered result settles the promise of the call it is for, or nothing if the call is not
  outstanding any more. -/
  delivered : ∀ a ∈ k.announced, ∀ order walk state,
    k.htaDeliver setting.wire setting.guest order walk a.call state = (k, 2) ∨
    ∃ name session, k.sessions.lookup name = some session ∧ session.serial = a.serial ∧
      session.calls.lookup a.call = some (a.task, a.promise) ∧
      k.htaDeliver setting.wire setting.guest order walk a.call state =
        (((k.modifySession name fun session ↦
          { session with calls := session.calls.erase a.call }).settleNow setting.wire setting.guest
            a.promise state).drainReady setting.wire setting.guest walk, 0)
  /-- An outstanding call is found, in whatever order the sessions are searched. -/
  found : ∀ name session call entry, k.sessions.lookup name = some session →
    session.calls.lookup call = some entry → ∀ order, name ∈ order →
      k.routeCall order call = some (name, entry.1, entry.2)

theorem exists_of_routeCall {order : List String}
    (h : k.routeCall order call = some (name, task, promise)) :
    ∃ session, k.sessions.lookup name = some session ∧
      session.calls.lookup call = some (task, promise) := by
  obtain ⟨other, -, hfound⟩ := exists_of_findSome?_eq_some h
  simp only [Option.bind_eq_bind, Option.bind_eq_some_iff, Option.pure_def, Option.some.injEq,
    Prod.mk.injEq] at hfound
  obtain ⟨session, hsession, entry, hentry, rfl, rfl, rfl⟩ := hfound
  exact ⟨session, hsession, hentry⟩

/-- A number was announced once only. -/
theorem Routed.eq_of_call_eq (h : Routed caller k) {a b : Announcement} (ha : a ∈ k.announced)
    (hb : b ∈ k.announced) (hcall : a.call = b.call) : a = b :=
  inj_on_of_nodup_map h.distinct ha hb hcall

theorem Routed.callsIsolated (h : Routed caller k) : k.CallsIsolated setting := by
  refine ⟨h.distinct, ?_, ?_⟩
  · rintro ⟨call, serial, owner, awaited⟩ ha order walk state
    rw [Kernel.htaDeliver]
    split
    · exact .inl rfl
    next name task promise hroute =>
      obtain ⟨session, hsession, hentry⟩ := exists_of_routeCall hroute
      have heq := h.eq_of_call_eq ha (h.entered name session call _ hsession hentry) rfl
      obtain ⟨rfl, rfl, rfl⟩ := heq
      exact .inr ⟨name, session, hsession, rfl, hentry, rfl⟩
  · intro name session call entry hsession hentry order hmem
    have hsome : ∃ found, k.routeCall order call = some found := by
      rw [← Option.isSome_iff_exists, routeCall, isSome_findSome?]
      refine any_eq_true.mpr ⟨name, hmem, ?_⟩
      simp [hsession, hentry]
    obtain ⟨⟨name', task', promise'⟩, hroute⟩ := hsome
    obtain ⟨session', hsession', hentry'⟩ := exists_of_routeCall hroute
    have heq := h.eq_of_call_eq (h.entered _ _ _ _ hsession hentry)
      (h.entered _ _ _ _ hsession' hentry') rfl
    simp only [Announcement.mk.injEq, true_and] at heq
    obtain ⟨hserial, htask, hpromise⟩ := heq
    rw [hroute, ← h.serial_inj _ _ _ _ hsession hsession' hserial, htask, hpromise]

/-- In every run in whose turns guest code makes host calls in one session only, the calls can be
told apart by their numbers, and results reach the promises of their calls. -/
theorem callsIsolated_run (setting : Setting W F V) (caller : ℕ) (world : W)
    (operations : List (Operation W V))
    (hturns : ((Kernel.new world).run setting operations).OnlyCallsIn caller) :
    ((Kernel.new world).run setting operations).CallsIsolated setting := by
  have hnew : RoutedSoFar caller (Kernel.new world : Kernel W F V) := fun _ ↦ .new caller world
  exact (hnew.run operations hturns).callsIsolated

/-- A codec that takes every value. -/
def openWire : Wire String where
  encodeError _ := none
  legible _ := true
  errorValue code message := code ++ ": " ++ message
  cancelled := "cancelled"
  encodeError_errorValue _ _ _ := rfl

/-- Guest code that makes one host call in each evaluation, in the sessions of a list, and waits for
its result; a result ends the evaluation. -/
def callingGuest (callers : List ℕ) : Guest Unit Unit String where
  opened _ _ _ := ()
  start _ serial next _ :=
    if serial ∈ callers then
      (.ok ⟨[⟨"service", "method", []⟩], [], .suspended () (.host next)⟩, ())
    else (.ok ⟨[], [], .completed "done"⟩, ())
  resume _ _ _ _ _ := (⟨[], [], .completed "done"⟩, ())
  cancelFiber _ _ := ([], ())
  notifyCancel _ _ := ([], ())
  settled _ _ _ := ([], ())
  hasProgram _ _ _ := false
  outlives _ _ := false

def callingSetting (callers : List ℕ) : Setting Unit Unit String :=
  ⟨openWire, callingGuest callers, id, "true"⟩

/-- Two sessions, and an evaluation in each. -/
def twoSessions : List (Operation Unit String) :=
  [.start ⟨[], 0⟩ (.createSession "other"), .start ⟨[], 0⟩ (.evaluate "ROOT" (.source "(call)" [])),
    .start ⟨[], 0⟩ (.evaluate "other" (.source "(call)" []))]

/-- Both sessions have a turn, one of them makes a call, and the result can reach it. -/
theorem callsIsolated_run_twoSessions :
    ((Kernel.new ()).run (callingSetting [0]) twoSessions).turns =
      [(0, [⟨"service", "method", []⟩]), (1, [])] ∧
    ((Kernel.new ()).run (callingSetting [0]) twoSessions).announced = [⟨1, 0, 2, .host 0⟩] ∧
    ((Kernel.new ()).run (callingSetting [0]) twoSessions).CallsIsolated (callingSetting [0]) := by
  have hturns : ((Kernel.new ()).run (callingSetting [0]) twoSessions).turns =
    [(0, [⟨"service", "method", []⟩]), (1, [])] := rfl
  refine ⟨hturns, rfl, callsIsolated_run (callingSetting [0]) 0 () twoSessions ?_⟩
  rw [OnlyCallsIn, hturns]
  simp

/-- Both sessions make a call: the calls have one number, and where a result for it goes depends on
the order of the sessions alone. -/
theorem not_callsIsolated_twoSessions :
    ((Kernel.new ()).run (callingSetting [0, 1]) twoSessions).announced =
      [⟨1, 0, 2, .host 0⟩, ⟨1, 1, 3, .host 1⟩] ∧
    ((Kernel.new ()).run (callingSetting [0, 1]) twoSessions).routeCall ["ROOT", "other"] 1 =
      some ("ROOT", 2, .host 0) ∧
    ((Kernel.new ()).run (callingSetting [0, 1]) twoSessions).routeCall ["other", "ROOT"] 1 =
      some ("other", 3, .host 1) ∧
    ¬((Kernel.new ()).run (callingSetting [0, 1]) twoSessions).CallsIsolated
      (callingSetting [0, 1]) := by
  have hannounced : ((Kernel.new ()).run (callingSetting [0, 1]) twoSessions).announced =
      [⟨1, 0, 2, .host 0⟩, ⟨1, 1, 3, .host 1⟩] := rfl
  refine ⟨hannounced, rfl, rfl, fun h ↦ ?_⟩
  have hdistinct := h.distinct
  exact absurd hdistinct (by decide)

end Kernel

end Hara.Raw
