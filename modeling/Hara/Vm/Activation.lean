import Hara.Vm.DispatchSpec
import Hara.Vm.Region

/-!
# How blocks of code end

A block is a stretch of one function's code together with the handler entries that belong to it, as
the compiler emits it for a form. `Ends` describes how a run leaves a block: behind its last
instruction, or through an error that the block's own entries do not take. The entries around the
block then decide where the error lands, and `Owns` says that they do not send it back into the
block. `Ends.append` composes blocks.

Around that, one lemma for each instruction that the blocks of `let`, `do` and `try` are made of.
-/

namespace Hara.Vm

open EStateM List

variable {H : Type} {rt : Runtime H} {program : Program}

/-- One activation of a function: its frame above `calls`. -/
structure Activation (program : Program) where
  function : ℕ
  prototype : FunctionPrototype
  found : program.functions[function]? = some prototype
  calls : List SavedFrame
  base : ℕ
  locals : ℕ

/-- The instructions `[start, stop)` with their handler entries. -/
structure Block where
  start : ℕ
  stop : ℕ
  handlers : List TryEntry

namespace Activation

variable {A : Activation program} {m m' : Machine H} {s : Status H} {ip height : ℕ}

/-- The machine executes the activation's instruction `ip` with `height` operands. -/
structure At (A : Activation program) (ip height : ℕ) (m : Machine H) : Prop where
  function : m.function = A.function
  calls : m.calls = A.calls
  base : m.frame.base = A.base
  locals : m.frame.locals.length = A.locals
  ip : m.ip = ip
  height : m.stack.length = height

def region (A : Activation program) (start stop : ℕ) : Region := ⟨A.function, A.calls, start, stop⟩

/-- The activation's table holds the entries of the block in its place: those before it do not
lead into the block, those after it cover later instructions. -/
structure Owns (A : Activation program) (b : Block) : Prop where
  within : ∀ e ∈ b.handlers, b.start ≤ e.start ∧ e.stop ≤ b.stop
  split : ∃ outer later, A.prototype.handlers = outer ++ b.handlers ++ later ∧
    (∀ e ∈ outer, e.stop ≤ b.start ∨ ∀ target ∈ e.targets, target < b.start ∨ b.stop ≤ target) ∧
    ∀ e ∈ later, b.stop ≤ e.start

theorem Owns.mem {b : Block} (h : A.Owns b) {e : TryEntry} (he : e ∈ b.handlers) :
    e ∈ A.prototype.handlers := by
  obtain ⟨outer, later, hhandlers, -, -⟩ := h.split
  rw [hhandlers]
  exact mem_append_left _ (mem_append_right _ he)

/-- An entry that covers an instruction of the block is the block's own or leads out of it. -/
theorem Owns.covers {b : Block} (h : A.Owns b) {e : TryEntry} (he : e ∈ A.prototype.handlers)
    (hstart : b.start ≤ ip) (hstop : ip < b.stop) (hfrom : e.start ≤ ip) (hto : ip < e.stop) :
    e ∈ b.handlers ∨ ∀ target ∈ e.targets, target < b.start ∨ b.stop ≤ target := by
  obtain ⟨outer, later, hhandlers, houter, hlater⟩ := h.split
  rw [hhandlers, mem_append, mem_append] at he
  rcases he with (he | he) | he
  · rcases houter e he with hbefore | hout
    · omega
    · exact .inr hout
  · exact .inl he
  · have := hlater e he
    omega

section Split

variable {p q r : ℕ} {own₁ own₂ : List TryEntry}

theorem Owns.left (h : A.Owns ⟨p, r, own₁ ++ own₂⟩) (hqr : q ≤ r) (hown₁ : ∀ e ∈ own₁, e.stop ≤ q)
    (hown₂ : ∀ e ∈ own₂, q ≤ e.start) : A.Owns ⟨p, q, own₁⟩ := by
  obtain ⟨outer, later, hhandlers, houter, hlater⟩ := h.split
  refine ⟨fun e he ↦ ⟨(h.within e (mem_append_left _ he)).1, hown₁ e he⟩, outer, own₂ ++ later,
    by simp only [hhandlers, append_assoc], fun e he ↦ ?_, fun e he ↦ ?_⟩
  · refine (houter e he).imp id fun hout target htarget ↦ ?_
    exact (hout target htarget).imp id hqr.trans
  · rcases mem_append.mp he with he | he
    · exact hown₂ e he
    · exact hqr.trans (hlater e he)

theorem Owns.right (h : A.Owns ⟨p, r, own₁ ++ own₂⟩) (hpq : p ≤ q) (hown₁ : ∀ e ∈ own₁, e.stop ≤ q)
    (hown₂ : ∀ e ∈ own₂, q ≤ e.start) : A.Owns ⟨q, r, own₂⟩ := by
  obtain ⟨outer, later, hhandlers, houter, hlater⟩ := h.split
  refine ⟨fun e he ↦ ⟨hown₂ e he, (h.within e (mem_append_right _ he)).2⟩, outer ++ own₁, later,
    by simp only [hhandlers, append_assoc], fun e he ↦ ?_, hlater⟩
  rcases mem_append.mp he with he | he
  · rcases houter e he with hbefore | hout
    · exact .inl (hbefore.trans hpq)
    · exact .inr fun target htarget ↦ (hout target htarget).imp hpq.trans_lt' id
  · exact .inl (hown₁ e he)

/-- A block inside a region whose entry leads out of it. -/
theorem Owns.inside {e : TryEntry} {own : List TryEntry} (h : A.Owns ⟨p, r, e :: own⟩)
    {p' r' : ℕ} (hp : p ≤ p') (hr : r' ≤ r) (hown : ∀ e ∈ own, p' ≤ e.start ∧ e.stop ≤ r')
    (hout : ∀ target ∈ e.targets, target < p' ∨ r' ≤ target) : A.Owns ⟨p', r', own⟩ := by
  obtain ⟨outer, later, hhandlers, houter, hlater⟩ := h.split
  refine ⟨hown, outer ++ [e], later, by simp only [hhandlers, append_assoc]; rfl, fun e' he' ↦ ?_,
    fun e' he' ↦ hr.trans (hlater e' he')⟩
  rcases mem_append.mp he' with he' | he'
  · rcases houter e' he' with hbefore | hout'
    · exact .inl (hbefore.trans hp)
    · exact .inr fun target htarget ↦ (hout' target htarget).imp hp.trans_lt' hr.trans
  · rw [mem_singleton.mp he']
    exact .inr hout

end Split

/-! ## Ends -/

/-- How a run leaves a block: if the code can complete, behind its last instruction with `high`
operands and `V` of the world; or with an error of one of its instructions, with at least `low`
operands and `E` of the world, that no entry of the block takes. -/
inductive Ends (rt : Runtime H) (A : Activation program) (b : Block) (low high : ℕ) (falls : Bool)
    (V E : World H → Prop) : Status H → Prop
  | value {m : Machine H} (hfalls : falls = true) (hat : A.At b.stop high m) (hV : V m.world) :
    Ends rt A b low high falls V E (.running m)
  | raised {trap : Trap} {ip height : ℕ} {m : Machine H} {s : Status H}
    (hstart : b.start ≤ ip) (hstop : ip < b.stop) (hlow : low ≤ height) (hat : A.At ip height m)
    (hE : E m.world) (hpassed : ∀ e ∈ b.handlers, raiseEntry trap.message m e = none)
    (hlands : Lands rt program m trap s) : Ends rt A b low high falls V E s

/-- An entry has nothing to do with errors of instructions it does not cover. -/
theorem raiseEntry_of_not_covers {message : String} {e : TryEntry}
    (h : m.ip < e.start ∨ e.stop ≤ m.ip) : raiseEntry message m e = none := by
  rw [raiseEntry, if_pos h]

/-- An error that the block's own entries do not take leaves the block. -/
theorem Owns.not_goes {b : Block} {trap : Trap} (h : A.Owns b) (hstart : b.start ≤ ip)
    (hstop : ip < b.stop) (hat : A.At ip height m)
    (hpassed : ∀ e ∈ b.handlers, raiseEntry trap.message m e = none)
    (hlands : Lands rt program m trap s) : ¬(A.region b.start b.stop).Goes s := by
  refine hlands.not_goes hat.function hat.calls A.found fun e he target m' htaken ↦ ?_
  obtain ⟨hfrom, hto, htarget, -, -⟩ := raiseEntry_ok htaken
  rw [hat.ip] at hfrom hto
  rcases h.covers he hstart hstop hfrom hto with hown | hout
  · rw [hpassed e hown] at htaken
    cases htaken
  · exact hout target htarget

namespace Ends

variable {b : Block} {low mid high : ℕ} {falls falls₁ : Bool} {V V₁ V' E E' : World H → Prop}

theorem not_goes (h : Ends rt A b low high falls V E s) (howns : A.Owns b) :
    ¬(A.region b.start b.stop).Goes s := by
  cases h with
  | value _ hat _ => exact Region.not_holds_of_ip hat.calls (.inr hat.ip.ge)
  | raised hstart hstop _ hat _ hpassed hlands =>
    exact howns.not_goes hstart hstop hat hpassed hlands

theorem mono (h : Ends rt A b low high falls V E s) (hV : ∀ w, V w → V' w)
    (hE : ∀ w, E w → E' w) : Ends rt A b low high falls V' E' s := by
  cases h with
  | value hfalls hat h => exact .value hfalls hat (hV _ h)
  | raised hstart hstop hlow hat h hpassed hlands =>
    exact .raised hstart hstop hlow hat (hE _ h) hpassed hlands

/-- Code that cannot complete ends with an error. -/
theorem of_dead (h : Ends rt A b low high false V E s) : Ends rt A b low mid falls V' E s := by
  cases h with
  | value hfalls => cases hfalls
  | raised hstart hstop hlow hat h hpassed hlands =>
    exact .raised hstart hstop hlow hat h hpassed hlands

/-- What holds of a view of the heap however the block ends. -/
theorem view {α : Type} {view : H → α} {P : α → Prop}
    (h : Ends rt A b low high falls (fun w ↦ P (view w.heap)) (fun w ↦ P (view w.heap)) s)
    (htrace : ∀ function header values w,
      view (rt.backedge function header values w).2.heap = view w.heap) :
    P (view s.machine.world.heap) := by
  cases h with
  | value _ _ h => exact h
  | raised _ _ _ _ h _ hlands => exact hlands.view htrace ▸ h

section Append

variable {p q r : ℕ} {own own' : List TryEntry}

/-- The end of a block as the end of a larger one whose other entries do not cover it. -/
theorem widen (h : Ends rt A b low high falls V E s) (hp : p ≤ b.start) (hr : b.stop ≤ r)
    (hend : b.stop = r ∨ falls = false)
    (hother : ∀ e ∈ own, e ∈ b.handlers ∨ e.stop ≤ b.start ∨ b.stop ≤ e.start) :
    Ends rt A ⟨p, r, own⟩ low high falls V E s := by
  cases h with
  | value hfalls hat hV =>
    rcases hend with rfl | hdead
    · exact .value hfalls hat hV
    · rw [hfalls] at hdead
      cases hdead
  | raised hstart hstop hlow hat hE hpassed hlands =>
    refine .raised (hp.trans hstart) (hstop.trans_le hr) hlow hat hE (fun e he ↦ ?_) hlands
    rcases hother e he with hown | haway
    · exact hpassed e hown
    · refine raiseEntry_of_not_covers ?_
      rw [hat.ip]
      omega

/-- One block after the other. An error of the first one ends both. -/
theorem append (howns : A.Owns ⟨p, r, own ++ own'⟩) (hpq : p ≤ q) (hqr : q < r)
    (hown : ∀ e ∈ own, e.stop ≤ q) (hown' : ∀ e ∈ own', q ≤ e.start)
    (h : Leaves rt program (A.region p r) (.running m) s)
    (hfirst : ∀ s₁, Leaves rt program (A.region p q) (.running m) s₁ →
      Ends rt A ⟨p, q, own⟩ low mid falls₁ V₁ E s₁)
    (hsecond : ∀ m₁, Relation.ReflTransGen (Turn rt program) (.running m) (.running m₁) →
      A.At q mid m₁ → V₁ m₁.world →
      ∀ s₂, Leaves rt program (A.region q r) (.running m₁) s₂ →
        Ends rt A ⟨q, r, own'⟩ low high falls V E s₂) :
    Ends rt A ⟨p, r, own ++ own'⟩ low high falls V E s := by
  obtain ⟨s₁, hleaves₁, hnext₁⟩ := h.cut (le_refl p) hqr.le
  cases hfirst s₁ hleaves₁ with
  | @value m₁ _ hat hV₁ =>
    -- the first block has completed, so the run is inside the second
    rcases hnext₁ with rfl | ⟨-, hrest⟩
    · refine absurd (Region.holds_of_ip hat.function hat.calls ?_ ?_) h.not_goes
      · exact hpq.trans hat.ip.ge
      · exact hat.ip.trans_lt hqr
    · obtain ⟨s₂, hleaves₂, hnext₂⟩ := hrest.cut hpq (le_refl r)
      have hends : Ends rt A ⟨p, r, own ++ own'⟩ low high falls V E s₂ := by
        refine (hsecond m₁ hleaves₁.reaches hat hV₁ s₂ hleaves₂).widen hpq le_rfl (.inl rfl) ?_
        intro e he
        rcases mem_append.mp he with he | he
        · exact .inr (.inl (hown e he))
        · exact .inl he
      rcases hnext₂ with rfl | ⟨hgoes, -⟩
      · exact hends
      · exact absurd hgoes (hends.not_goes howns)
  | @raised _ _ _ m₁ _ hstart hstop hlow hat hE hpassed hlands =>
    have hends : Ends rt A ⟨p, r, own ++ own'⟩ low high falls V E s₁ := by
      refine .raised hstart (hstop.trans hqr) hlow hat hE (fun e he ↦ ?_) hlands
      rcases mem_append.mp he with he | he
      · exact hpassed e he
      · refine raiseEntry_of_not_covers (.inl ?_)
        rw [hat.ip]
        exact hstop.trans_le (hown' e he)
    rcases hnext₁ with rfl | ⟨hgoes, -⟩
    · exact hends
    · exact absurd hgoes (hends.not_goes howns)

end Append

end Ends

/-! ## Single instructions -/

/-- One step takes the activation to instruction `ip` with `height` operands and leaves the world
as it is. -/
def Moves (rt : Runtime H) (A : Activation program) (m : Machine H) (ip height : ℕ) : Prop :=
  ∃ m', step rt program m = .running m' ∧ A.At ip height m' ∧ m'.world = m.world

namespace Moves

variable {p q : ℕ}

/-- A step inside a block. -/
theorem next (h : Moves rt A m ip height) (hp : p ≤ ip) (hq : ip < q)
    (hleaves : Leaves rt program (A.region p q) (.running m) s) :
    ∃ m', A.At ip height m' ∧ m'.world = m.world ∧
      Relation.ReflTransGen (Turn rt program) (.running m) (.running m') ∧
      Leaves rt program (A.region p q) (.running m') s := by
  obtain ⟨m', hstep, hat, hworld⟩ := h
  refine ⟨m', hat, hworld, .single (hstep ▸ .step m),
    hleaves.next hstep (Region.holds_of_ip hat.function hat.calls ?_ ?_)⟩
  · exact hp.trans hat.ip.ge
  · exact hat.ip.trans_lt hq

/-- The last step of a block. -/
theorem ends {own : List TryEntry} {low : ℕ} {V E : World H → Prop} (h : Moves rt A m q height)
    (hleaves : Leaves rt program (A.region p q) (.running m) s) (hV : V m.world) :
    Ends rt A ⟨p, q, own⟩ low height true V E s := by
  obtain ⟨m', hstep, hat, hworld⟩ := h
  have hout : ¬(A.region p q).Goes (step rt program m) :=
    hstep ▸ Region.not_holds_of_ip hat.calls (.inr hat.ip.ge)
  rw [hleaves.eq_of_step hout, hstep]
  exact .value rfl hat (hworld ▸ hV)

end Moves

section Step

variable {i : Instruction} {target slot : ℕ} {trap : Trap}

theorem At.step_next (hat : A.At ip height m) (hcode : A.prototype.code[ip]? = some i)
    (hdispatch : dispatch rt program A.prototype i m = .ok (.next target) m')
    (hip : m'.ip = ip) (hlt : ip < target) :
    step rt program m = .running { m' with ip := target } := by
  have hfound := A.found
  rw [← hat.function] at hfound
  rw [← hat.ip] at hcode
  simp only [step, hfound, hcode, hdispatch, Lands.continueAt_eq (hip.trans_lt hlt)]

theorem At.lands (hat : A.At ip height m) (hcode : A.prototype.code[ip]? = some i)
    (hdispatch : dispatch rt program A.prototype i m = .error (.raised trap) m') :
    Lands rt program m' trap (step rt program m) := by
  have hfound := A.found
  rw [← hat.function] at hfound
  rw [← hat.ip] at hcode
  simp only [step, hfound, hcode, hdispatch]
  exact .leaveDispatch m' trap

theorem popOr_of_cons {exit : Trap → Exit} {value : VmSlot} {rest : List VmSlot}
    (h : m.stack = value :: rest) : popOr exit m = .ok value { m with stack := rest } := by
  refine Ensures.eq_ok ?_
  rw [ensures_popOr h]
  exact ⟨rfl, rfl⟩

/-- An instruction that pushes a value. -/
theorem At.push (value : VmSlot) (hat : A.At ip height m)
    (hcode : A.prototype.code[ip]? = some i)
    (hdispatch : dispatch rt program A.prototype i m =
      .ok (.next (m.ip + 1)) { m with stack := value :: m.stack }) :
    Moves rt A m (ip + 1) (height + 1) := by
  have hip := hat.ip
  subst hip
  refine ⟨_, hat.step_next hcode hdispatch rfl m.ip.lt_succ_self, ?_, rfl⟩
  exact ⟨hat.function, hat.calls, hat.base, hat.locals, rfl, congrArg (· + 1) hat.height⟩

theorem At.nil (hat : A.At ip height m) (hcode : A.prototype.code[ip]? = some .nil) :
    Moves rt A m (ip + 1) (height + 1) :=
  At.push .nil hat hcode rfl

theorem At.false (hat : A.At ip height m) (hcode : A.prototype.code[ip]? = some .false) :
    Moves rt A m (ip + 1) (height + 1) :=
  At.push (.bool Bool.false) hat hcode rfl

theorem At.constant {index : ℕ} {value : Value} (hat : A.At ip height m)
    (hcode : A.prototype.code[ip]? = some (.constant index))
    (hvalue : program.constants[index]? = some value) : Moves rt A m (ip + 1) (height + 1) := by
  refine At.push (.ofValue value) hat hcode (Ensures.eq_ok ?_)
  rw [dispatch, ensures_bind, ensures_get]
  simp only [hvalue]
  exact ⟨rfl, rfl⟩

theorem At.loadLocal (hat : A.At ip height m)
    (hcode : A.prototype.code[ip]? = some (.loadLocal slot)) (hslot : slot < A.locals) :
    Moves rt A m (ip + 1) (height + 1) := by
  have hlocal : m.frame.localAt slot = some (m.frame.locals.get ⟨slot, hat.locals ▸ hslot⟩) :=
    getElem?_eq_getElem _
  refine At.push (m.frame.locals.get ⟨slot, hat.locals ▸ hslot⟩) hat hcode (Ensures.eq_ok ?_)
  rw [dispatch, ensures_bind, ensures_get]
  simp only [hlocal]
  exact ⟨rfl, rfl⟩

theorem At.pop (hat : A.At ip (height + 1) m) (hcode : A.prototype.code[ip]? = some .pop) :
    Moves rt A m (ip + 1) height := by
  obtain ⟨value, rest, hstack⟩ := exists_cons_of_length_eq_add_one hat.height
  have hdispatch : dispatch rt program A.prototype .pop m =
      .ok (.next (ip + 1)) { m with stack := rest } := by
    rw [← hat.ip]
    exact bind_of_ok (popOr_of_cons hstack)
  refine ⟨_, hat.step_next hcode hdispatch hat.ip ip.lt_succ_self, ?_, rfl⟩
  refine ⟨hat.function, hat.calls, hat.base, hat.locals, rfl, ?_⟩
  simpa [hstack] using hat.height

theorem At.storeLocal (hat : A.At ip (height + 1) m)
    (hcode : A.prototype.code[ip]? = some (.storeLocal slot)) (hslot : slot < A.locals) :
    Moves rt A m (ip + 1) height := by
  obtain ⟨value, rest, hstack⟩ := exists_cons_of_length_eq_add_one hat.height
  have hstore : m.frame.store slot value =
      some { m.frame with locals := m.frame.locals.set slot value } := by
    rw [Frame.store, if_pos (hat.locals ▸ hslot)]
  have hdispatch : dispatch rt program A.prototype (.storeLocal slot) m =
      .ok (.next (ip + 1)) { m with
        stack := rest, frame := { m.frame with locals := m.frame.locals.set slot value } } := by
    rw [← hat.ip]
    refine (bind_of_ok (popOr_of_cons hstack)).trans ?_
    rw [hstore]
    rfl
  refine ⟨_, hat.step_next hcode hdispatch hat.ip ip.lt_succ_self, ?_, rfl⟩
  refine ⟨hat.function, hat.calls, hat.base, length_set.trans hat.locals, rfl, ?_⟩
  simpa [hstack] using hat.height

theorem At.jump (hat : A.At ip height m) (hcode : A.prototype.code[ip]? = some (.jump target))
    (hlt : ip < target) : Moves rt A m target height := by
  refine ⟨_, hat.step_next hcode rfl hat.ip hlt, ?_, rfl⟩
  exact ⟨hat.function, hat.calls, hat.base, hat.locals, rfl, hat.height⟩

theorem At.jumpIfFalse (hat : A.At ip (height + 1) m)
    (hcode : A.prototype.code[ip]? = some (.jumpIfFalse target)) (hlt : ip < target) :
    Moves rt A m (ip + 1) height ∨ Moves rt A m target height := by
  obtain ⟨value, rest, hstack⟩ := exists_cons_of_length_eq_add_one hat.height
  have hdispatch : dispatch rt program A.prototype (.jumpIfFalse target) m =
      .ok (.next (if value.truthy then ip + 1 else target)) { m with stack := rest } := by
    rw [← hat.ip]
    exact bind_of_ok (popOr_of_cons hstack)
  have hrest : rest.length = height := by simpa [hstack] using hat.height
  split_ifs at hdispatch
  · refine .inl ⟨_, hat.step_next hcode hdispatch hat.ip ip.lt_succ_self, ?_, rfl⟩
    exact ⟨hat.function, hat.calls, hat.base, hat.locals, rfl, hrest⟩
  · refine .inr ⟨_, hat.step_next hcode hdispatch hat.ip hlt, ?_, rfl⟩
    exact ⟨hat.function, hat.calls, hat.base, hat.locals, rfl, hrest⟩

/-- `Rethrow` raises an error. If it throws an exception value again, that is recorded. -/
theorem execRethrow_spec (rt : Runtime H) (program : Program) (function : FunctionPrototype)
    {slot : VmSlot} {rest : List VmSlot} (hstack : m.stack = slot :: rest) :
    Ensures (execRethrow rt program function : Exec H Dispatch) m (fun _ _ ↦ False)
      fun exit m' ↦ ∃ trap world, exit = .raised trap ∧ m' = { m with stack := rest, world } ∧
        (world = m.world ∨
          ∃ value site, world = (thrownErrorAt rt.toThrowing value site m.world).2) := by
  rw [execRethrow, ensures_bind, ensures_popOr hstack]
  rw [ensures_bind, ensures_get]
  split
  · exact ⟨_, _, rfl, rfl, .inl rfl⟩
  next value _ _ =>
    split_ifs
    · exact ⟨_, _, rfl, rfl, .inr ⟨value, _, rfl⟩⟩
    · exact ⟨_, _, rfl, rfl, .inl rfl⟩
  · exact ⟨_, _, rfl, rfl, .inl rfl⟩

theorem At.rethrow (rt : Runtime H) (hat : A.At ip (height + 1) m)
    (hcode : A.prototype.code[ip]? = some .rethrow) :
    ∃ trap m', A.At ip height m' ∧ Lands rt program m' trap (step rt program m) ∧
      (m'.world = m.world ∨
        ∃ value site, m'.world = (thrownErrorAt rt.toThrowing value site m.world).2) := by
  obtain ⟨slot, rest, hstack⟩ := exists_cons_of_length_eq_add_one hat.height
  have hspec := execRethrow_spec rt program A.prototype hstack
  cases hdispatch : dispatch rt program A.prototype .rethrow m with
  | ok _ _ => exact (hspec.of_ok hdispatch).elim
  | error exit m' =>
    obtain ⟨trap, world, rfl, rfl, hworld⟩ := hspec.of_error hdispatch
    refine ⟨trap, _, ?_, hat.lands hcode hdispatch, hworld⟩
    exact ⟨hat.function, hat.calls, hat.base, hat.locals, hat.ip,
      by simpa [hstack] using hat.height⟩

end Step

/-! ## Errors that a finally region takes -/

/-- An entry without catch clauses whose operands are all there stores the error and goes on in its
finally region. -/
theorem At.taken {e : TryEntry} {value flag target base : ℕ} (hat : A.At ip height m)
    (message : String) (hstart : e.start ≤ ip) (hstop : ip < e.stop)
    (hcatches : e.catches = []) (hfinally : e.finally_ = some target)
    (hvalue : e.pendingValue = some value) (hflag : e.pendingError = some flag)
    (hvalueSlot : value < A.locals) (hflagSlot : flag < A.locals)
    (hbase : A.base + e.depth = base) (hheight : base ≤ height) :
    ∃ m', raiseEntry message m e = some (.ok (target, m')) ∧ A.At ip base m' ∧
      m'.world.heap = m.world.heap := by
  have hdepth : m.frame.base + e.depth = base := by rw [hat.base, hbase]
  have hstored : ∀ m₁ : Machine H, m₁.frame.locals.length = A.locals → ∀ slot v fault,
      slot < A.locals → m₁.deliver slot v fault =
        .ok { m₁ with frame := { m₁.frame with locals := m₁.frame.locals.set slot v } } := by
    intro m₁ hlocals slot v fault hslot
    rw [Machine.deliver, Frame.store, if_pos (hlocals ▸ hslot)]
  have hunwound : (m.unwindTo base message).frame.locals.length = A.locals := hat.locals
  rw [raiseEntry, if_neg (by rw [hat.ip]; omega)]
  simp only [hdepth, hcatches, find?_nil, hfinally, hvalue, hflag]
  rw [if_neg (by rw [hat.height]; omega), hstored _ hunwound _ _ _ hvalueSlot]
  simp only [Except.bind, Except.map]
  rw [hstored _ (length_set.trans hunwound) _ _ _ hflagSlot]
  refine ⟨_, rfl, ⟨hat.function, hat.calls, hat.base, ?_, hat.ip, ?_⟩, caughtError_heap ..⟩
  · exact (length_set.trans length_set).trans hat.locals
  · change (m.stack.drop (m.stack.length - base)).length = base
    rw [length_drop, hat.height]
    omega

end Activation

end Hara.Vm
