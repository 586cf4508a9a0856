import Hara.Vm.Heights
import Hara.Vm.Run

/-!
# What one instruction does

One specification for `dispatch`: how many operands an instruction takes, how many results it
leaves, that it touches nothing below its operands and nothing of the saved frames, and that with
checked operands it leaves through no internal fault. The invariants of the machine are derived
from this specification.
-/

namespace Hara.Vm

open EStateM
open List hiding min nil

variable {H α : Type} {rt : Runtime H} {program : Program} {n count : ℕ} {slot : VmSlot}
  {exit : Trap → Exit} {args : List Value} {post : Unit → Machine H → Prop} {protocol : Bool}
  {target : FunctionPrototype}

/-! ## Operands and results -/

namespace Instruction

/-- The number of operands the machine reads or takes from the stack. -/
def operands : Instruction → ℕ
  | storeLocal _ | pop | dup | jumpIfFalse _ | throw | rethrow | ret | toVector | await | yield
  | defGlobal .. | defMacro .. | setGlobal _ | mutableFieldGet _ | dynamicBind _ => 1
  | mutableFieldSet _ | instanceOf => 2
  | hostCall => 3
  | intrinsicCall _ argc | protocolCall _ argc | callStatic _ argc => argc
  | closure _ captures => captures
  | call argc | dotCall _ argc => argc + 1
  | makeMultiArity _ count => count
  | buildVector count | buildSet count | buildList count | concatList count => count
  | buildMap pairs => 2 * pairs
  | constant _ | nil | true | false | loadLocal _ | jump _ | getGlobal _ | varGlobal _
  | declareGlobal _ | intrinsicValue _ | builtinValue _ | namespaceValue _ | namespaceOperation _
  | dynamicUnbind _ => 0

/-- The number of results left in place of the operands. -/
def results : Instruction → ℕ
  | storeLocal _ | pop | jumpIfFalse _ | jump _ | throw | rethrow | ret => 0
  | dup => 2
  | _ => 1

/-- Whether the instruction can raise an error through the handler table. -/
def mayRaise : Instruction → Bool
  | constant _ | nil | true | false | loadLocal _ | storeLocal _ | pop | dup | jump _
  | jumpIfFalse _ | intrinsicValue _ | builtinValue _ | namespaceValue _ | yield | ret => .false
  | _ => .true

theorem stackEffect_eq {i : Instruction} {effect : Int} (h : i.stackEffect = some effect) :
    effect = i.results - i.operands := by
  cases i <;> simp [stackEffect, results, operands] at h ⊢ <;> omega

end Instruction

/-! ## Closures name functions of the program -/

/-- Every closure in the slot, captured ones included, has a prototype below `n`. -/
inductive VmSlot.InRange (n : ℕ) : VmSlot → Prop
  | plain {slot : VmSlot} (h : slot.runtimeValue.isSome) : InRange n slot
  | inlineClosure {prototype identity : ℕ} (h : prototype < n) :
    InRange n (.inlineClosure prototype identity)
  | closure {identity : ℕ} {closure : VmClosure} (h : closure.prototype < n)
    (hcaptures : ∀ slot ∈ closure.captures, InRange n slot) : InRange n (.closure identity closure)
  | multiArity {identity : ℕ} {name : String} {clauses : List VmClosure}
    (h : ∀ clause ∈ clauses, clause.prototype < n)
    (hcaptures : ∀ clause ∈ clauses, ∀ slot ∈ clause.captures, InRange n slot) :
    InRange n (.multiArity identity name clauses)

@[simp] theorem inRange_ofValue (v : Value) : (VmSlot.ofValue v).InRange n := by
  refine .plain ?_
  cases v <;> rfl

@[simp] theorem inRange_value {v : Value} : (VmSlot.value v).InRange n := .plain rfl

@[simp] theorem inRange_bool {b : Bool} : (VmSlot.bool b).InRange n := .plain rfl

@[simp] theorem inRange_nil : VmSlot.nil.InRange n := .plain rfl

/-- All closures of the machine's current state are in range. -/
structure SlotsOk (n : ℕ) (m : Machine H) : Prop where
  stack : ∀ slot ∈ m.stack, slot.InRange n
  locals : ∀ slot ∈ m.frame.locals, slot.InRange n
  vmGlobals : ∀ entry ∈ m.vmGlobals, entry.2.InRange n

/-! ## Service calls -/

section Primitives

variable {m : Machine H}

/-- A service call changes nothing of the machine but its world. -/
def SameButWorld (m m' : Machine H) : Prop := ∃ world, m' = { m with world }

theorem SameButWorld.refl (m : Machine H) : SameButWorld m m := ⟨m.world, rfl⟩

theorem SameButWorld.trans {m m' m'' : Machine H} (h : SameButWorld m m')
    (h' : SameButWorld m' m'') : SameButWorld m m'' := by
  obtain ⟨w, rfl⟩ := h
  obtain ⟨w', rfl⟩ := h'
  exact ⟨w', rfl⟩

variable {err : Exit → Machine H → Prop}

@[simp] theorem ensures_onWorld {f : World H → α × World H} {post : α → Machine H → Prop} :
    Ensures (onWorld f) m post err ↔ post (f m.world).1 { m with world := (f m.world).2 } :=
  Iff.rfl

@[simp] theorem ensures_push :
    Ensures (push slot) m post err ↔ post () { m with stack := slot :: m.stack } := Iff.rfl

@[simp] theorem ensures_drain {post : List VmSlot → Machine H → Prop} :
    Ensures (drain count) m post err ↔
      post (m.stack.take count).reverse { m with stack := m.stack.drop count } := Iff.rfl

theorem ensures_popOr {rest : List VmSlot} (h : m.stack = slot :: rest)
    {post : VmSlot → Machine H → Prop} :
    Ensures (popOr exit) m post err ↔ post slot { m with stack := rest } := by
  simp [popOr, h]

theorem ensures_need (h : count ≤ m.stack.length) :
    Ensures (need exit count) m post err ↔ post () m := by
  have hlt : ¬m.stack.length < count := by omega
  simp [need, hlt]

theorem ensures_constantStringOr {name : String} {index : ℕ} {e : Exit}
    (h : program.constantString index = some name) {post : String → Machine H → Prop} :
    Ensures (constantStringOr program e index) m post err ↔ post name m := by
  simp [constantStringOr, h]

/-- An error that is no internal fault, with only the world changed. -/
def ErrorOnly (exit : Trap → Exit) (m : Machine H) (e : Exit) (m' : Machine H) : Prop :=
  (∃ message, e = exit (.error message)) ∧ SameButWorld m m'

theorem coreOr_spec {call : CoreCall} :
    Ensures (coreOr rt exit call args) m (fun _ ↦ SameButWorld m) (ErrorOnly exit m) := by
  rw [coreOr, ensures_bind, ensures_onWorld]
  cases h : (rt.call call args m.world).1 with
  | ok value => exact ⟨_, rfl⟩
  | error message => exact ⟨⟨message, rfl⟩, _, rfl⟩

theorem core_spec {call : CoreCall} (args : List Value) (m : Machine H) :
    Ensures (core rt call args) m (fun _ ↦ SameButWorld m) (ErrorOnly .raised m) :=
  coreOr_spec

/-- What each step leaves as it was, all steps do. -/
theorem mapM_spec {β : Type} {f : α → Exec H β} {R : Machine H → Machine H → Prop}
    (hrefl : ∀ m, R m m) (htrans : ∀ {m m' m''}, R m m' → R m' m'' → R m m'')
    (hf : ∀ a m, Ensures (f a) m (fun _ ↦ R m) (fun _ _ ↦ False)) (l : List α)
    (m : Machine H) : Ensures (l.mapM f) m (fun _ ↦ R m) (fun _ _ ↦ False) := by
  induction l generalizing m with
  | nil => exact hrefl m
  | cons a l ih =>
    rw [mapM_cons]
    refine (hf a m).bind fun _ m' hm ↦ ?_
    exact (ih m').bind fun _ _ h ↦ htrans hm h

theorem intoValue_spec (slot : VmSlot) (m : Machine H) :
    Ensures (intoValue rt slot) m (fun _ ↦ SameButWorld m) (fun _ _ ↦ False) := by
  cases slot with
  | number _ | bool _ | nil | value _ => exact .refl m
  | inlineClosure _ _ | closure _ _ => exact ⟨_, rfl⟩
  | multiArity identity name clauses =>
    refine (mapM_spec SameButWorld.refl SameButWorld.trans
      (fun _ _ ↦ ensures_onWorld.mpr ⟨_, rfl⟩) clauses m).bind fun _ m' hm ↦ ?_
    exact hm.trans ⟨_, rfl⟩

theorem intoValues_spec {slots : List VmSlot} :
    Ensures (slots.mapM (intoValue rt)) m (fun _ ↦ SameButWorld m) (fun _ _ ↦ False) :=
  mapM_spec SameButWorld.refl SameButWorld.trans intoValue_spec slots m

end Primitives

/-! ## Touching only the top of the stack -/

/-- `m'` comes from `m` by putting `pushed` in place of the `k` topmost operands; saved frames, the
instruction pointer and the shape of the current frame are the same, and closures stay in range. -/
structure Touched (n k : ℕ) (pushed : List VmSlot) (m m' : Machine H) : Prop where
  function : m'.function = m.function
  calls : m'.calls = m.calls
  ip : m'.ip = m.ip
  base : m'.frame.base = m.frame.base
  locals : m'.frame.locals.length = m.frame.locals.length
  stack : m'.stack = pushed ++ m.stack.drop k
  slots : SlotsOk n m'

section Touched

variable {m m' m'' : Machine H} {k : ℕ} {pushed : List VmSlot}

theorem SlotsOk.world (h : SlotsOk n m) (hm : SameButWorld m m') : SlotsOk n m' := by
  obtain ⟨w, rfl⟩ := hm
  exact { h with }

theorem SlotsOk.drop (h : SlotsOk n m) (k : ℕ) : SlotsOk n { m with stack := m.stack.drop k } :=
  { h with stack := fun slot hslot ↦ h.stack slot (mem_of_mem_drop hslot) }

theorem SlotsOk.push (h : SlotsOk n m) (hslot : slot.InRange n) :
    SlotsOk n { m with stack := slot :: m.stack } :=
  { h with stack := forall_mem_cons.mpr ⟨hslot, h.stack⟩ }

theorem Touched.refl (h : SlotsOk n m) : Touched n 0 [] m m := ⟨rfl, rfl, rfl, rfl, rfl, rfl, h⟩

/-- The operands `k` are gone and nothing was pushed yet. -/
theorem Touched.drop (h : SlotsOk n m) (k : ℕ) :
    Touched n k [] m { m with stack := m.stack.drop k } :=
  ⟨rfl, rfl, rfl, rfl, rfl, rfl, h.drop k⟩

theorem Touched.world (h : Touched n k pushed m m') (hm : SameButWorld m' m'') :
    Touched n k pushed m m'' := by
  obtain ⟨w, rfl⟩ := hm
  exact { h with slots := { h.slots with } }

theorem Touched.push (h : Touched n k pushed m m') (hslot : slot.InRange n) :
    Touched n k (slot :: pushed) m { m' with stack := slot :: m'.stack } :=
  { h with stack := by simp [h.stack], slots := h.slots.push hslot }

theorem Touched.remember (h : Touched n k pushed m m') {key : ℕ} (hslot : slot.InRange n) :
    Touched n k pushed m { m' with vmGlobals := (key, slot) :: m'.vmGlobals } := by
  refine { h with slots := { h.slots with vmGlobals := ?_ } }
  exact forall_mem_cons.mpr ⟨hslot, h.slots.vmGlobals⟩

/-- A local of the current frame is set. -/
theorem SlotsOk.store (h : SlotsOk n m) {place : ℕ} (hslot : slot.InRange n) :
    SlotsOk n { m with frame := { m.frame with locals := m.frame.locals.set place slot } } := by
  refine { h with locals := fun s hs ↦ ?_ }
  rcases mem_or_eq_of_mem_set hs with hs | rfl
  · exact h.locals s hs
  · exact hslot

/-- The topmost operand, and the machine without it. -/
theorem SlotsOk.exists_top (h : SlotsOk n m) (hpos : 1 ≤ m.stack.length) :
    ∃ slot rest, m.stack = slot :: rest ∧ slot.InRange n ∧
      Touched n 1 [] m { m with stack := rest } := by
  obtain ⟨slot, rest, hstack⟩ := exists_cons_of_length_pos hpos
  refine ⟨slot, rest, hstack, h.stack slot (by simp [hstack]), ?_⟩
  simpa [hstack] using Touched.drop h 1

theorem SlotsOk.take (h : SlotsOk n m) (k : ℕ) :
    ∀ slot ∈ (m.stack.take k).reverse, slot.InRange n := by
  intro slot hslot
  exact h.stack slot (mem_of_mem_take (mem_reverse.mp hslot))

/-- The postcondition of a body that leaves one result. -/
def OneResult {α : Type} (n k : ℕ) (m : Machine H) (_ : α) (m' : Machine H) : Prop :=
  ∃ slot, Touched n k [slot] m m'

/-- The error condition of a body that leaves through `exit` without an internal fault. -/
def Errors (exit : Trap → Exit) (n k : ℕ) (m : Machine H) (e : Exit) (m' : Machine H) : Prop :=
  (∃ message, e = exit (.error message)) ∧ ∃ pushed, Touched n k pushed m m'

theorem Touched.errors (h : Touched n k pushed m m') {e : Exit} (he : ErrorOnly exit m' e m'') :
    Errors exit n k m e m'' :=
  ⟨he.1, pushed, h.world he.2⟩

end Touched

/-! ## Specifications of the instruction helpers -/

section Helpers

variable {m : Machine H} {k : ℕ} {pushed : List VmSlot} {m₀ : Machine H} {β : Type}
  {err : Exit → Machine H → Prop} {f : Value → Exec H β} {post : β → Machine H → Prop}

/-- Taking the topmost operand. -/
theorem popOr_touched {f : VmSlot → Exec H β} (hslots : SlotsOk n m) (hpos : 1 ≤ m.stack.length)
    (hf : ∀ slot m', slot.InRange n → Touched n 1 [] m m' → Ensures (f slot) m' post err) :
    Ensures (popOr exit >>= f) m post err := by
  obtain ⟨slot, rest, hstack, hslot, hdrop⟩ := hslots.exists_top hpos
  rw [ensures_bind, ensures_popOr hstack]
  exact hf slot _ hslot hdrop

/-- Taking the two topmost operands. -/
theorem popTwo_touched {f : VmSlot → VmSlot → Exec H β} (hslots : SlotsOk n m)
    (hpos : 2 ≤ m.stack.length)
    (hf : ∀ slot slot' m', Touched n 2 [] m m' → Ensures (f slot slot') m' post err) :
    Ensures (popOr exit >>= fun slot ↦ popOr exit >>= f slot) m post err := by
  match hstack : m.stack, hpos with
  | slot :: slot' :: below, _ =>
    rw [ensures_bind, ensures_popOr hstack, ensures_bind, ensures_popOr rfl]
    exact hf slot slot' _ (by simpa [hstack] using Touched.drop hslots 2)

section

variable (h : Touched n k pushed m₀ m)

include h

theorem intoValue_touched (hf : ∀ v m', Touched n k pushed m₀ m' → Ensures (f v) m' post err) :
    Ensures (intoValue rt slot >>= f) m post err := by
  rw [ensures_bind]
  exact (intoValue_spec slot m).mono (fun v m' hm ↦ hf v m' (h.world hm)) (fun _ _ h ↦ h.elim)

theorem intoValues_touched {f : List Value → Exec H β} {slots : List VmSlot}
    (hf : ∀ v m', Touched n k pushed m₀ m' → Ensures (f v) m' post err) :
    Ensures (slots.mapM (intoValue rt) >>= f) m post err := by
  rw [ensures_bind]
  exact intoValues_spec.mono (fun v m' hm ↦ hf v m' (h.world hm)) (fun _ _ h ↦ h.elim)

theorem coreOr_touched {call : CoreCall}
    (hf : ∀ v m', Touched n k pushed m₀ m' → Ensures (f v) m' post (Errors exit n k m₀)) :
    Ensures (coreOr rt exit call args >>= f) m post (Errors exit n k m₀) := by
  rw [ensures_bind]
  exact coreOr_spec.mono (fun v m' hm ↦ hf v m' (h.world hm)) (fun _ _ he ↦ h.errors he)

omit h in
/-- Ends a body by pushing its only result. -/
theorem push_oneResult (h : Touched n k [] m₀ m) (hslot : slot.InRange n) :
    Ensures (push slot) m (OneResult n k m₀) err :=
  ensures_push.mpr ⟨slot, h.push hslot⟩

omit h in
theorem execBuild_spec {build : List Value → Exec H Value} (hslots : SlotsOk n m)
    (hcount : count ≤ m.stack.length)
    (hbuild : ∀ values m, Ensures (build values) m (fun _ ↦ SameButWorld m)
      (ErrorOnly .raised m)) :
    Ensures (execBuild rt count build) m (OneResult n count m) (Errors .raised n count m) := by
  rw [execBuild, ensures_bind, ensures_need hcount, ensures_bind]
  refine intoValues_touched (Touched.drop hslots count) fun values m₁ h₁ ↦ ?_
  rw [ensures_bind]
  refine (hbuild values m₁).mono (fun v m₂ hm ↦ ?_) (fun _ _ he ↦ h₁.errors he)
  exact push_oneResult (h₁.world hm) (inRange_ofValue v)

theorem rememberVmGlobal_touched {f : Unit → Exec H β} {value : Value} (hslot : slot.InRange n)
    (hf : ∀ m', Touched n k pushed m₀ m' → Ensures (f ()) m' post err) :
    Ensures (rememberVmGlobal value slot >>= f) m post err := by
  rw [rememberVmGlobal]
  cases value.callableKey with
  | none => exact hf m h
  | some key => exact hf _ (h.remember hslot)

end

variable {index : ℕ} {name : String} {metadata : Option ℕ}

theorem metadataTable_touched {f : Unit → Exec H β}
    (hmeta : ∀ index, metadata = some index → index < program.varMetadata)
    (hf : Ensures (f ()) m post err) :
    Ensures (metadataTable program metadata >>= f) m post err := by
  cases metadata with
  | none => exact hf
  | some index =>
    have hlt : ¬program.varMetadata ≤ index := Nat.not_le.mpr (hmeta index rfl)
    simpa [metadataTable, hlt] using hf

section

variable (hslots : SlotsOk n m)

include hslots

theorem execInstanceOf_spec (hpos : 2 ≤ m.stack.length) :
    Ensures (execInstanceOf rt) m (OneResult n 2 m) (Errors .raised n 2 m) := by
  refine popTwo_touched hslots hpos fun value ty m₁ h₁ ↦ ?_
  refine intoValue_touched h₁ fun _ m₂ h₂ ↦ ?_
  refine intoValue_touched h₂ fun _ m₃ h₃ ↦ ?_
  exact coreOr_touched h₃ fun result m₄ h₄ ↦ push_oneResult h₄ (inRange_ofValue result)

variable (hname : program.constantString index = some name)

include hname

theorem execGlobal_touched {call : String → CoreCall}
    (hf : ∀ v m', Touched n 0 [] m m' → Ensures (f v) m' post (Errors .raised n 0 m)) :
    Ensures (execGlobal rt program index call >>= f) m post (Errors .raised n 0 m) := by
  rw [execGlobal, bind_assoc, ensures_bind, ensures_constantStringOr hname]
  exact coreOr_touched (Touched.refl hslots) hf

/-- Two operands, converted in either order, a core call and its result. -/
theorem execMutableFieldSet_spec (hpos : 2 ≤ m.stack.length) :
    Ensures (execMutableFieldSet rt program index) m (OneResult n 2 m)
      (Errors .raised n 2 m) := by
  rw [execMutableFieldSet, ensures_bind, ensures_constantStringOr hname]
  refine popTwo_touched hslots hpos fun replacement receiver m₁ h₁ ↦ ?_
  refine intoValue_touched h₁ fun _ m₂ h₂ ↦ ?_
  refine intoValue_touched h₂ fun _ m₃ h₃ ↦ ?_
  exact coreOr_touched h₃ fun result m₄ h₄ ↦ push_oneResult h₄ (inRange_ofValue result)

variable (hpos : 1 ≤ m.stack.length)

include hpos

/-- A helper that takes one operand under a name and leaves one result. -/
theorem execNamedUnary_spec {run : String → VmSlot → Exec H VmSlot}
    (hrun : ∀ slot m', slot.InRange n → Touched n 1 [] m m' →
      Ensures (run name slot) m' (fun result m'' ↦ result.InRange n ∧ Touched n 1 [] m m'')
        (Errors .raised n 1 m)) :
    Ensures (execNamedUnary program index run) m (OneResult n 1 m) (Errors .raised n 1 m) := by
  rw [execNamedUnary, ensures_bind, ensures_constantStringOr hname]
  refine popOr_touched hslots hpos fun slot m₁ hslot h₁ ↦ (hrun slot m₁ hslot h₁).bind ?_
  rintro result m' ⟨hresult, h⟩
  exact push_oneResult h hresult

theorem execSetGlobal_spec :
    Ensures (execSetGlobal rt program index) m (OneResult n 1 m) (Errors .raised n 1 m) := by
  refine execNamedUnary_spec hslots hname hpos fun slot m₁ hslot h₁ ↦ ?_
  refine intoValue_touched h₁ fun value m₂ h₂ ↦ ?_
  refine coreOr_touched h₂ fun _ m₃ h₃ ↦ ?_
  exact rememberVmGlobal_touched h₃ hslot fun m₄ h₄ ↦ ⟨hslot, h₄⟩

theorem execMutableFieldGet_spec :
    Ensures (execMutableFieldGet rt program index) m (OneResult n 1 m)
      (Errors .raised n 1 m) := by
  refine execNamedUnary_spec hslots hname hpos fun slot m₁ _ h₁ ↦ ?_
  refine intoValue_touched h₁ fun value m₂ h₂ ↦ ?_
  exact coreOr_touched h₂ fun result m₃ h₃ ↦ ⟨inRange_ofValue result, h₃⟩

variable (hmeta : ∀ index, metadata = some index → index < program.varMetadata)

include hmeta

theorem execDefGlobal_spec :
    Ensures (execDefGlobal rt program index metadata) m (OneResult n 1 m)
      (Errors .raised n 1 m) := by
  refine execNamedUnary_spec hslots hname hpos fun slot m₁ hslot h₁ ↦ ?_
  refine metadataTable_touched hmeta ?_
  refine intoValue_touched h₁ fun value m₂ h₂ ↦ ?_
  refine coreOr_touched h₂ fun var m₃ h₃ ↦ ?_
  exact rememberVmGlobal_touched h₃ hslot fun m₄ h₄ ↦ ⟨inRange_ofValue var, h₄⟩

theorem execDefMacro_spec :
    Ensures (execDefMacro rt program index metadata) m (OneResult n 1 m)
      (Errors .raised n 1 m) := by
  refine execNamedUnary_spec hslots hname hpos fun slot m₁ hslot h₁ ↦ ?_
  refine metadataTable_touched hmeta ?_
  refine intoValue_touched h₁ fun value m₂ h₂ ↦ ?_
  refine coreOr_touched h₂ fun var m₃ h₃ ↦ ?_
  exact rememberVmGlobal_touched h₃ hslot fun m₄ h₄ ↦ ⟨hslot, h₄⟩

end

theorem clauseOf_inRange (hfun : slot.isFunction) (h : slot.InRange n) :
    (clauseOf slot).prototype < n ∧ ∀ s ∈ (clauseOf slot).captures, s.InRange n := by
  cases h with
  | plain hval => cases slot <;> simp_all [VmSlot.isFunction, VmSlot.runtimeValue]
  | inlineClosure hlt => exact ⟨hlt, by simp [clauseOf, VmClosure.captures]⟩
  | closure hlt hcaptures => exact ⟨hlt, hcaptures⟩
  | multiArity => simp [VmSlot.isFunction] at hfun

theorem Touched.allocate (h : Touched n k pushed m₀ m) {identity allocation : ℕ} :
    Touched n k pushed m₀
      { m with nextClosureIdentity := identity, nextAllocation := allocation } :=
  { h with slots := { h.slots with } }

theorem execMakeMultiArity_spec (hslots : SlotsOk n m)
    (hname : program.constantString index = some name) (hcount : count ≤ m.stack.length) :
    Ensures (execMakeMultiArity program index count) m (OneResult n count m)
      (Errors .raised n count m) := by
  rw [execMakeMultiArity, ensures_bind, ensures_need hcount, ensures_bind,
    ensures_constantStringOr hname, ensures_bind, ensures_get]
  split
  · refine ⟨⟨_, rfl⟩, m.stack.take count, rfl, rfl, rfl, rfl, rfl, ?_, hslots⟩
    exact (take_append_drop count m.stack).symm
  next hany =>
    rw [ensures_bind, ensures_drain, ensures_bind, allocate, ensures_modifyGet]
    have hall : ∀ slot ∈ (m.stack.take count).reverse, slot.isFunction := by
      intro slot hslot
      by_contra hne
      exact hany (any_eq_true.mpr ⟨slot, mem_reverse.mp hslot, by simpa using hne⟩)
    refine push_oneResult ((Touched.drop hslots count).allocate) (.multiArity ?_ ?_)
    · intro clause hclause
      obtain ⟨slot, hslot, rfl⟩ := mem_map.mp hclause
      exact (clauseOf_inRange (hall slot hslot) (hslots.take count slot hslot)).1
    · intro clause hclause
      obtain ⟨slot, hslot, rfl⟩ := mem_map.mp hclause
      exact (clauseOf_inRange (hall slot hslot) (hslots.take count slot hslot)).2

theorem execClosure_spec {prototype captures : ℕ} (hslots : SlotsOk program.functions.length m)
    (htarget : program.functions[prototype]? = some target) (hcount : captures ≤ m.stack.length) :
    Ensures (execClosure program prototype captures) m
      (OneResult program.functions.length captures m)
      (Errors .raised program.functions.length captures m) := by
  have hlt : prototype < program.functions.length := (List.getElem?_eq_some_iff.mp htarget).1
  rw [execClosure, ensures_bind, ensures_need hcount]
  simp only [htarget]
  split
  next hzero =>
    subst hzero
    rw [ensures_bind, ensures_modifyGet]
    exact push_oneResult ((Touched.refl hslots).allocate) (.inlineClosure hlt)
  next hne =>
    simp only [ensures_bind, ensures_drain, allocate, ensures_modifyGet]
    refine push_oneResult ((Touched.drop hslots captures).allocate) (.closure hlt ?_)
    exact hslots.take captures

theorem execEqual_spec (hslots : SlotsOk n m) (hpos : 2 ≤ m.stack.length) :
    Ensures (execEqual rt) m (fun slot m' ↦ slot.InRange n ∧ Touched n 2 [] m m')
      (Errors .raised n 2 m) := by
  refine popTwo_touched hslots hpos fun right left m' hdrop ↦ ?_
  split
  · exact ⟨inRange_bool, hdrop⟩
  · exact ⟨inRange_bool, hdrop⟩
  · exact ⟨inRange_bool, hdrop⟩
  · split
    · rw [ensures_map]
      exact (core_spec _ _).mono (fun v _ hm ↦ ⟨inRange_ofValue v, hdrop.world hm⟩)
        (fun _ _ he ↦ hdrop.errors he)
    · exact ⟨inRange_bool, hdrop⟩

theorem pendingDeref_spec {argc : ℕ} :
    Ensures (pendingDeref rt protocol name argc) m (fun promise m' ↦ SameButWorld m m' ∧
      (promise.isSome →
        protocol = true ∧ name = "std.protocol.ideref.IDeref/deref" ∧ argc = 1))
      (fun _ _ ↦ False) := by
  rw [pendingDeref, ensures_bind, ensures_get]
  split
  next hderef =>
    split
    · rw [ensures_bind, ensures_onWorld]
      split
      · exact ⟨⟨_, rfl⟩, fun _ ↦ hderef⟩
      · exact ⟨⟨_, rfl⟩, by simp⟩
    · exact ⟨.refl m, by simp⟩
  · exact ⟨.refl m, by simp⟩

variable {argc : ℕ}

theorem execApply_spec (hslots : SlotsOk n m) (hargc : argc ≤ m.stack.length) :
    Ensures (execApply rt protocol name argc) m
      (fun slot m' ↦ slot.InRange n ∧ Touched n argc [] m m') (Errors .raised n argc m) := by
  rw [execApply]
  split
  next heq =>
    obtain ⟨-, rfl⟩ := heq
    exact execEqual_spec hslots hargc
  · refine intoValues_touched (Touched.drop hslots argc) fun values m₁ h₁ ↦ ?_
    rw [ensures_map]
    exact (core_spec _ _).mono (fun v _ hm ↦ ⟨inRange_ofValue v, h₁.world hm⟩)
      (fun _ _ he ↦ h₁.errors he)

/-- What was touched from a machine with another world was touched from this one. -/
theorem Touched.of_world {m₁ m' : Machine H} (h : Touched n k pushed m₁ m')
    (hm : SameButWorld m m₁) : Touched n k pushed m m' := by
  obtain ⟨world, rfl⟩ := hm
  exact { h with }

/-- A call leaves its result, or waits for a promise with its operand still in place. -/
theorem execIntrinsic_spec {target : ℕ} (hslots : SlotsOk n m)
    (hname : program.constantString target = some name) (hargc : argc ≤ m.stack.length) :
    Ensures (execIntrinsic rt program protocol target argc) m
      (fun promise m' ↦ match promise with
        | none => OneResult n argc m () m'
        | some _ => SameButWorld m m' ∧ protocol = true ∧
            name = "std.protocol.ideref.IDeref/deref" ∧ argc = 1)
      (Errors .raised n argc m) := by
  rw [execIntrinsic, ensures_bind, ensures_constantStringOr hname, ensures_bind, ensures_need hargc,
    ensures_bind]
  refine pendingDeref_spec.mono ?_ (fun _ _ h ↦ h.elim)
  rintro promise m₁ ⟨hm, hpromise⟩
  cases promise with
  | some promise => exact ⟨hm, hpromise rfl⟩
  | none =>
    have hargc' : argc ≤ m₁.stack.length := by
      obtain ⟨world, rfl⟩ := hm
      exact hargc
    simp only [ensures_bind]
    refine (execApply_spec (hslots.world hm) hargc').mono ?_ ?_
    · rintro slot m₂ ⟨hslot, h₂⟩
      exact ⟨slot, (h₂.of_world hm).push hslot⟩
    · rintro e m₂ ⟨he, pushed, h⟩
      exact ⟨he, pushed, h.of_world hm⟩

/-- The exits of `Throw` and `Rethrow`: through the handler table, or out of the run when the
operand is no exception. -/
def Throws (n : ℕ) (m : Machine H) (e : Exit) (m' : Machine H) : Prop :=
  (∃ message, e = .raised (.error message) ∨ e = .failed (.error message)) ∧
    ∃ pushed, Touched n 1 pushed m m'

variable {function : FunctionPrototype}

section

variable (hslots : SlotsOk n m)

include hslots

theorem execThrow_spec {post : α → Machine H → Prop} (hpos : 1 ≤ m.stack.length) :
    Ensures (execThrow rt program function : Exec H α) m post (Throws n m) := by
  refine popOr_touched hslots hpos fun slot m' _ hdrop ↦ ?_
  refine intoValue_touched hdrop fun value m₁ h₁ ↦ ?_
  split
  · exact ⟨⟨_, .inl rfl⟩, [], h₁.world ⟨_, rfl⟩⟩
  · exact ⟨⟨_, .inr rfl⟩, [], h₁⟩

theorem execRethrow_spec {post : α → Machine H → Prop} (hpos : 1 ≤ m.stack.length) :
    Ensures (execRethrow rt program function : Exec H α) m post (Throws n m) := by
  refine popOr_touched hslots hpos fun slot m' _ hdrop ↦ ?_
  split
  · exact ⟨⟨_, .inl rfl⟩, [], hdrop⟩
  · split
    · exact ⟨⟨_, .inl rfl⟩, [], hdrop.world ⟨_, rfl⟩⟩
    · exact ⟨⟨_, .inl rfl⟩, [], hdrop⟩
  · exact ⟨⟨_, .inl rfl⟩, [], hdrop⟩

theorem execAwait_spec (hpos : 1 ≤ m.stack.length) :
    Ensures (execAwait rt) m
      (fun promise m' ↦ match promise with
        | none => OneResult n 1 m () m'
        | some _ => SameButWorld m m')
      (Errors .raised n 1 m) := by
  obtain ⟨slot, rest, hstack, -, htop⟩ := hslots.exists_top hpos
  have hdrop : ∀ world, Touched n 1 [] m { m with stack := rest, world } :=
    fun world ↦ htop.world ⟨world, rfl⟩
  rw [execAwait, ensures_bind, ensures_get]
  simp only [hstack]
  split
  · rw [ensures_bind, ensures_onWorld]
    split
    · exact ⟨_, rfl⟩
    next value _ =>
      exact ⟨_, (hdrop _).push (inRange_ofValue value)⟩
    · exact ⟨⟨_, rfl⟩, [], hdrop _⟩
  · exact ⟨⟨_, rfl⟩, [slot], rfl, rfl, rfl, rfl, rfl, by simp [hstack], hslots⟩

theorem execHostCall_spec (hpos : 3 ≤ m.stack.length) :
    Ensures (execHostCall rt) m (OneResult n 3 m)
      (fun e m' ↦ Errors .raised n 3 m e m' ∨ Errors .failed n 3 m e m') := by
  rw [execHostCall, ensures_bind, ensures_need hpos, ensures_bind, ensures_drain]
  have hdrop := Touched.drop hslots 3
  split
  · exact .inr ⟨⟨_, rfl⟩, [], hdrop⟩
  · rw [ensures_bind]
    exact (core_spec _ _).mono
      (fun v _ hm ↦ push_oneResult (hdrop.world hm) (inRange_ofValue v))
      (fun _ _ he ↦ .inl (hdrop.errors he))

theorem execDotCall_spec {method : ℕ} (hname : program.constantString method = some name)
    (hpos : argc + 1 ≤ m.stack.length) :
    Ensures (execDotCall rt program method argc) m (OneResult n (argc + 1) m)
      (Errors .raised n (argc + 1) m) := by
  rw [execDotCall, ensures_bind, ensures_need hpos, ensures_bind, ensures_constantStringOr hname,
    ensures_bind]
  refine intoValues_touched (Touched.drop hslots (argc + 1)) fun values m₁ h₁ ↦ ?_
  exact coreOr_touched h₁ fun v m₂ h₂ ↦ push_oneResult h₂ (inRange_ofValue v)

theorem collectCall_spec (hpos : argc + 1 ≤ m.stack.length) :
    Ensures (collectCall argc) m
      (fun q m' ↦ q.1.InRange n ∧ (∀ slot ∈ q.2, slot.InRange n) ∧ Touched n (argc + 1) [] m m')
      (Errors .raised n (argc + 1) m) := by
  obtain ⟨callee, rest, hrest⟩ := exists_cons_of_length_pos (l := m.stack.drop argc) (by
    rw [length_drop]
    omega)
  have hdrop : m.stack.drop (argc + 1) = rest := by
    rw [← drop_drop, hrest, drop_one, tail_cons]
  rw [collectCall, ensures_bind, ensures_need hpos, ensures_bind, ensures_drain, ensures_bind,
    ensures_popOr hrest]
  refine ⟨?_, hslots.take argc, ?_⟩
  · exact hslots.stack callee (mem_of_mem_drop (i := argc) (by simp [hrest]))
  · simpa [hdrop] using Touched.drop hslots (argc + 1)

theorem collectCallStatic_spec {prototype : ℕ}
    (htarget : program.functions[prototype]? = some target) (hargc : argc ≤ m.stack.length)
    (hframe : function.arity + function.variadic.toNat + target.captureCount ≤
      m.frame.locals.length) :
    Ensures (collectCallStatic program function prototype argc) m
      (fun q m' ↦ (∀ slot ∈ q.1, slot.InRange n) ∧ (∀ slot ∈ q.2, slot.InRange n) ∧
        Touched n argc [] m m')
      (Errors .raised n argc m) := by
  rw [collectCallStatic, ensures_bind, ensures_need hargc]
  simp only [htarget, ensures_bind, ensures_drain, ensures_get]
  rw [Frame.slotRange, if_neg (by omega)]
  refine ⟨hslots.take argc, fun slot hslot ↦ ?_, Touched.drop hslots argc⟩
  exact hslots.locals slot (mem_of_mem_drop (mem_of_mem_take hslot))

end

end Helpers

/-! ## The conditions validation leaves open -/

/-- The method name of a dot call is a string constant. -/
def MethodNamed (program : Program) : Instruction → Prop
  | .dotCall method _ => (program.constantString method).isSome
  | _ => True

/-- Whether a static call to `target` moves its operands straight into the frame. -/
def FunctionPrototype.direct (target : FunctionPrototype) : Bool :=
  target.captureCount == 0 && !target.asyncFunction && !target.variadic

/-- The frames a static call builds or reads are large enough: the parameters of a direct target,
the capture slots of the caller otherwise. -/
def FrameFits (program : Program) (function : FunctionPrototype) : Instruction → Prop
  | .callStatic prototype argc =>
    ∀ target, program.functions[prototype]? = some target →
      if target.direct then argc ≤ target.localCount
      else function.arity + function.variadic.toNat + target.captureCount ≤ function.localCount
  | _ => True

/-- What the operand checks leave open about an instruction at operand height `height`. -/
structure Covered (program : Program) (function : FunctionPrototype) (ip height : ℕ)
    (i : Instruction) : Prop where
  /-- The instruction takes no more operands than its own frame has. -/
  operands : i.operands ≤ height
  method : MethodNamed program i
  frame : FrameFits program function i
  /-- An unwind from here finds the operands of the handlers that cover it still in place. -/
  handlers : i.mayRaise → ∀ entry ∈ function.handlers, entry.start ≤ ip → ip < entry.stop →
    entry.depth + i.operands ≤ height

/-! ## The specification of `dispatch` -/

/-- How an instruction with covered operands can end normally. -/
inductive DispatchOk (program : Program) (i : Instruction) (m : Machine H) :
    Dispatch → Machine H → Prop
  | next {target : ℕ} {pushed : List VmSlot} {m' : Machine H} (hflows : i.FlowsTo m.ip target)
    (hlen : pushed.length = i.results)
    (h : Touched program.functions.length i.operands pushed m m') :
    DispatchOk program i m (.next target) m'
  | call {argc : ℕ} {callee : VmSlot} {args : List VmSlot} {m' : Machine H} (hi : i = .call argc)
    (hcallee : callee.InRange program.functions.length)
    (hargs : ∀ slot ∈ args, slot.InRange program.functions.length)
    (h : Touched program.functions.length (argc + 1) [] m m') :
    DispatchOk program i m (.call callee args) m'
  | callStatic {prototype argc : ℕ} {args captures : List VmSlot} {m' : Machine H}
    (hi : i = .callStatic prototype argc)
    (hargs : ∀ slot ∈ args, slot.InRange program.functions.length)
    (hcaptures : ∀ slot ∈ captures, slot.InRange program.functions.length)
    (h : Touched program.functions.length argc [] m m') :
    DispatchOk program i m (.callStatic prototype args captures) m'
  | callStaticDirect {prototype argc : ℕ} (hi : i = .callStatic prototype argc)
    (hdirect : ∀ target, program.functions[prototype]? = some target → target.direct) :
    DispatchOk program i m (.callStaticDirect prototype argc) m
  | returned {value : VmSlot} {m' : Machine H} (hi : i = .ret)
    (hvalue : value.InRange program.functions.length)
    (h : Touched program.functions.length 1 [] m m') : DispatchOk program i m (.returned value) m'
  | suspended {promise : ℕ} {m' : Machine H} (hi : i = .await ∨ isDeref program (some i))
    (h : SameButWorld m m') : DispatchOk program i m (.suspended promise) m'
  | yielded {value : Value} {m' : Machine H} (hi : i = .yield)
    (h : Touched program.functions.length 1 [] m m') : DispatchOk program i m (.yielded value) m'

/-- How an instruction with covered operands can fail: with an error that is no internal fault,
and through the handler table only if it may raise. -/
structure DispatchError (program : Program) (i : Instruction) (m : Machine H) (e : Exit)
    (m' : Machine H) : Prop where
  exit : ∃ message, (e = .raised (.error message) ∧ i.mayRaise = true) ∨
    e = .failed (.error message)
  touched : ∃ pushed, Touched program.functions.length i.operands pushed m m'

section Spec

variable {function : FunctionPrototype} {i : Instruction} {m : Machine H} {e : Exit}
  {m' : Machine H}

theorem Errors.dispatchError_raised
    (h : Errors .raised program.functions.length i.operands m e m') (hraise : i.mayRaise = true) :
    DispatchError program i m e m' := by
  obtain ⟨⟨message, he⟩, htouched⟩ := h
  exact ⟨⟨message, .inl ⟨he, hraise⟩⟩, htouched⟩

theorem raising {x : Exec H α} {post : α → Machine H → Prop} (hraise : i.mayRaise = true)
    (hx : Ensures x m' post (Errors .raised program.functions.length i.operands m)) :
    Ensures x m' post (DispatchError program i m) :=
  hx.mono (fun _ _ h ↦ h) fun _ _ he ↦ he.dispatchError_raised hraise

theorem Errors.dispatchError_failed
    (h : Errors .failed program.functions.length i.operands m e m') :
    DispatchError program i m e m' := by
  obtain ⟨⟨message, he⟩, htouched⟩ := h
  exact ⟨⟨message, .inr he⟩, htouched⟩

theorem Throws.dispatchError (h : Throws program.functions.length m e m')
    (hraise : i.mayRaise = true) (hoperands : i.operands = 1) : DispatchError program i m e m' := by
  obtain ⟨⟨message, he⟩, htouched⟩ := h
  refine ⟨⟨message, he.imp (fun he ↦ ⟨he, hraise⟩) id⟩, ?_⟩
  rw [hoperands]
  exact htouched

section

variable (hfalls : i.fallsThrough = true)

include hfalls

/-- A body that leaves one result continues at the next instruction. -/
theorem next_of_oneResult {x : Exec H Unit} {err : Exit → Machine H → Prop}
    (hx : Ensures x m (OneResult program.functions.length i.operands m) err)
    (herr : ∀ e m', err e m' → DispatchError program i m e m') (hresults : i.results = 1) :
    Ensures (do x; pure (.next (m.ip + 1))) m (DispatchOk program i m)
      (DispatchError program i m) := by
  rw [ensures_bind]
  refine hx.mono ?_ herr
  rintro ⟨⟩ m' ⟨slot, h⟩
  exact .next (.inl ⟨hfalls, rfl⟩) (by simp [hresults]) h

/-- A body that may raise, and otherwise leaves one result. -/
theorem next_of_raising {x : Exec H Unit}
    (hx : Ensures x m (OneResult program.functions.length i.operands m)
      (Errors .raised program.functions.length i.operands m)) (hraise : i.mayRaise = true)
    (hresults : i.results = 1) :
    Ensures (do x; pure (.next (m.ip + 1))) m (DispatchOk program i m)
      (DispatchError program i m) :=
  next_of_oneResult hfalls hx (fun _ _ he ↦ he.dispatchError_raised hraise) hresults

/-- A service call without operands whose result is pushed. -/
theorem next_of_service {call : CoreCall} {slot : Value → VmSlot}
    (hslot : ∀ v, (slot v).InRange program.functions.length)
    (hslots : SlotsOk program.functions.length m)
    (herr : ∀ e m', Errors exit program.functions.length 0 m e m' → DispatchError program i m e m')
    (hoperands : i.operands = 0) (hresults : i.results = 1) :
    Ensures (do
      let value ← coreOr rt exit call args
      push (slot value)
      pure (.next (m.ip + 1))) m (DispatchOk program i m) (DispatchError program i m) := by
  have hx : Ensures (coreOr rt exit call args >>= fun value ↦ push (slot value)) m
      (OneResult program.functions.length i.operands m)
      (Errors exit program.functions.length 0 m) := by
    rw [hoperands]
    exact coreOr_touched (Touched.refl hslots) fun v m₁ h₁ ↦ push_oneResult h₁ (hslot v)
  simpa [bind_assoc] using next_of_oneResult hfalls hx herr hresults

/-- Pushing one slot and going on. -/
theorem next_of_push (hslots : SlotsOk program.functions.length m)
    (hslot : slot.InRange program.functions.length) (hoperands : i.operands = 0)
    (hresults : i.results = 1) :
    Ensures (do push slot; pure (.next (m.ip + 1))) m (DispatchOk program i m)
      (DispatchError program i m) := by
  have hx : Ensures (push slot) m (OneResult program.functions.length i.operands m)
      (fun _ _ ↦ False) := by
    rw [hoperands]
    exact push_oneResult (Touched.refl hslots) hslot
  exact next_of_oneResult hfalls hx (fun _ _ h ↦ h.elim) hresults

end

/-- **One instruction.** With checked and covered operands an instruction touches only its own
operands, passes control along its static successors, and fails with no internal fault. -/
theorem dispatch_spec (hslots : SlotsOk program.functions.length m)
    (hcheck : checkOperands program function m.ip i = .ok ())
    (hoperands : i.operands ≤ m.stack.length) (hbound : i.operands ≤ maxOperandStack)
    (hmethod : MethodNamed program i) (hframe : FrameFits program function i)
    (hlocals : m.frame.locals.length = function.localCount) :
    Ensures (dispatch rt program function i) m (DispatchOk program i m)
      (DispatchError program i m) := by
  unfold dispatch
  rw [ensures_bind, ensures_get]
  cases i with
  | constant index =>
    have hlt : index < program.constants.length := by
      by_contra hge
      simp [checkOperands, Nat.not_lt.mp hge] at hcheck
    simp only [getElem?_eq_getElem hlt]
    exact next_of_push rfl hslots (inRange_ofValue _) rfl rfl
  | nil => exact next_of_push rfl hslots inRange_nil rfl rfl
  | true | false => exact next_of_push rfl hslots inRange_bool rfl rfl
  | loadLocal slot =>
    have hlt : slot < m.frame.locals.length := by
      by_contra hge
      simp [checkOperands, ← hlocals, Nat.not_lt.mp hge] at hcheck
    simp only [Frame.localAt, getElem?_eq_getElem hlt]
    exact next_of_push rfl hslots (hslots.locals _ (getElem_mem hlt)) rfl rfl
  | storeLocal slot =>
    have hlt : slot < m.frame.locals.length := by
      by_contra hge
      simp [checkOperands, ← hlocals, Nat.not_lt.mp hge] at hcheck
    obtain ⟨value, rest, hstack, hvalue, htop⟩ := hslots.exists_top hoperands
    rw [ensures_bind, ensures_popOr hstack]
    simp only [Frame.store, if_pos hlt]
    exact .next (.inl ⟨rfl, rfl⟩) length_nil
      { htop with locals := length_set, slots := htop.slots.store hvalue }
  | pop =>
    exact popOr_touched hslots hoperands fun _ _ _ h ↦ .next (.inl ⟨rfl, rfl⟩) length_nil h
  | dup =>
    obtain ⟨value, rest, hstack, hvalue, htop⟩ := hslots.exists_top hoperands
    simp only [hstack]
    have htwice := (htop.push hvalue).push hvalue
    simp only [← hstack] at htwice
    exact .next (.inl ⟨rfl, rfl⟩) (show [value, value].length = 2 from rfl) htwice
  | jump target => exact .next (.inr rfl) rfl (Touched.refl hslots)
  | jumpIfFalse target =>
    refine popOr_touched hslots hoperands fun value m₁ _ h₁ ↦ .next ?_ length_nil h₁
    split
    · exact .inl ⟨rfl, rfl⟩
    · exact .inr rfl
  | intrinsicCall target argc =>
    obtain ⟨name, hname⟩ := stringConstant_ok hcheck
    rw [ensures_map]
    refine raising rfl ((execIntrinsic_spec hslots hname hoperands).imp ?_)
    rintro (_ | promise) m' h
    · obtain ⟨slot, h⟩ := h
      exact .next (.inl ⟨rfl, rfl⟩) rfl h
    · exact absurd h.2.1 (by simp)
  | protocolCall target argc =>
    obtain ⟨name, hname⟩ := stringConstant_ok hcheck
    rw [ensures_map]
    refine raising rfl ((execIntrinsic_spec hslots hname hoperands).imp ?_)
    rintro (_ | promise) m' h
    · obtain ⟨slot, h⟩ := h
      exact .next (.inl ⟨rfl, rfl⟩) rfl h
    · obtain ⟨hm, -, rfl, rfl⟩ := h
      exact .suspended (.inr (by simp [isDeref, hname])) hm
  | intrinsicValue target =>
    obtain ⟨name, hname⟩ := stringConstant_ok hcheck
    rw [ensures_bind, ensures_constantStringOr hname]
    exact next_of_service rfl inRange_ofValue hslots (fun _ _ he ↦ he.dispatchError_failed) rfl rfl
  | builtinValue index | namespaceValue index =>
    obtain ⟨name, hname⟩ := nameConstant_ok hcheck
    rw [ensures_bind, ensures_constantStringOr hname]
    exact next_of_service rfl inRange_ofValue hslots (fun _ _ he ↦ he.dispatchError_failed) rfl rfl
  | namespaceOperation index =>
    cases hvalue : program.constants[index]? with
    | none => simp [checkOperands, hvalue] at hcheck
    | some value =>
      simp only [hvalue]
      exact next_of_service rfl inRange_ofValue hslots
        (fun _ _ he ↦ Errors.dispatchError_raised he rfl) rfl rfl
  | dynamicBind index =>
    obtain ⟨name, hname⟩ := nameConstant_ok hcheck
    rw [ensures_bind, ensures_constantStringOr hname]
    refine popOr_touched hslots hoperands fun slot m₁ _ h₁ ↦ raising rfl ?_
    refine intoValue_touched h₁ fun _ m₂ h₂ ↦ coreOr_touched h₂ fun _ m₃ h₃ ↦ ?_
    exact .next (.inl ⟨rfl, rfl⟩) rfl (h₃.push inRange_nil)
  | dynamicUnbind index =>
    obtain ⟨name, hname⟩ := nameConstant_ok hcheck
    rw [ensures_bind, ensures_constantStringOr hname]
    exact next_of_service rfl (fun _ ↦ inRange_nil) hslots
      (fun _ _ he ↦ Errors.dispatchError_raised he rfl) rfl rfl
  | closure prototype captures =>
    cases htarget : program.functions[prototype]? with
    | none => simp [checkOperands, htarget] at hcheck
    | some target =>
      exact next_of_raising rfl (execClosure_spec hslots htarget hoperands) rfl rfl
  | call argc =>
    rw [ensures_bind]
    refine raising rfl ((collectCall_spec hslots hoperands).imp ?_)
    rintro ⟨callee, args⟩ m' ⟨hcallee, hargs, h⟩
    exact .call rfl hcallee hargs h
  | callStatic prototype argc =>
    cases htarget : program.functions[prototype]? with
    | none => simp [checkOperands, htarget] at hcheck
    | some target =>
      have hfits := hframe target htarget
      simp only [htarget]
      split
      next hdirect =>
        have hargc : argc ≤ m.stack.length := hoperands
        rw [ensures_bind, ensures_need hargc]
        refine .callStaticDirect rfl fun target' htarget' ↦ ?_
        obtain rfl : target = target' := by simpa [htarget] using htarget'
        exact hdirect
      next hdirect =>
        rw [if_neg (by simpa [FunctionPrototype.direct] using hdirect), ← hlocals] at hfits
        rw [ensures_bind]
        refine raising rfl ((collectCallStatic_spec hslots htarget hoperands hfits).imp ?_)
        rintro ⟨args, captures⟩ m' ⟨hargs, hcaptures, h⟩
        exact .callStatic rfl hargs hcaptures h
  | throw =>
    exact (execThrow_spec hslots hoperands).mono (fun _ _ h ↦ h)
      (fun _ _ he ↦ he.dispatchError rfl rfl)
  | rethrow =>
    exact (execRethrow_spec hslots hoperands).mono (fun _ _ h ↦ h)
      (fun _ _ he ↦ he.dispatchError rfl rfl)
  | getGlobal index | varGlobal index =>
    obtain ⟨name, hname⟩ := stringConstant_ok hcheck
    refine raising rfl (execGlobal_touched hslots hname fun value m₁ h₁ ↦ ?_)
    exact .next (.inl ⟨rfl, rfl⟩) rfl (h₁.push (inRange_ofValue value))
  | declareGlobal index =>
    obtain ⟨name, hname⟩ := stringConstant_ok hcheck
    refine raising rfl (execGlobal_touched hslots hname fun value m₁ h₁ ↦ ?_)
    exact .next (.inl ⟨rfl, rfl⟩) rfl (h₁.push inRange_nil)
  | defGlobal name metadata =>
    obtain ⟨⟨text, htext⟩, hmeta⟩ := checkDefinition_ok hcheck
    exact next_of_raising rfl (execDefGlobal_spec hslots htext hoperands hmeta) rfl rfl
  | defMacro name metadata =>
    have hdef : checkOperands program function m.ip (.defGlobal name metadata) = .ok () := hcheck
    obtain ⟨⟨text, htext⟩, hmeta⟩ := checkDefinition_ok hdef
    exact next_of_raising rfl (execDefMacro_spec hslots htext hoperands hmeta) rfl rfl
  | setGlobal index =>
    obtain ⟨name, hname⟩ := stringConstant_ok hcheck
    exact next_of_raising rfl (execSetGlobal_spec hslots hname hoperands) rfl rfl
  | mutableFieldGet index =>
    obtain ⟨name, hname⟩ := stringConstant_ok hcheck
    exact next_of_raising rfl (execMutableFieldGet_spec hslots hname hoperands) rfl rfl
  | mutableFieldSet index =>
    obtain ⟨name, hname⟩ := stringConstant_ok hcheck
    exact next_of_raising rfl (execMutableFieldSet_spec hslots hname hoperands) rfl rfl
  | instanceOf =>
    exact next_of_raising rfl (execInstanceOf_spec hslots hoperands) rfl rfl
  | makeMultiArity name count =>
    obtain ⟨text, htext⟩ := stringConstant_ok hcheck
    exact next_of_raising rfl (execMakeMultiArity_spec hslots htext hoperands) rfl rfl
  | buildVector count | buildSet count | concatList count =>
    exact next_of_raising rfl (execBuild_spec hslots hoperands core_spec) rfl rfl
  | buildMap pairs =>
    -- below the stack limit the saturating product is the product
    have hpairs : min (pairs * 2) 65535 = (Instruction.buildMap pairs).operands := by
      simp only [Instruction.operands, maxOperandStack] at hbound ⊢
      omega
    simp only [hpairs]
    exact next_of_raising rfl (execBuild_spec hslots hoperands core_spec) rfl rfl
  | buildList count =>
    exact next_of_raising rfl (execBuild_spec hslots hoperands fun _ ↦ SameButWorld.refl) rfl rfl
  | toVector =>
    refine popOr_touched hslots hoperands fun slot m₁ _ h₁ ↦ raising rfl ?_
    refine intoValue_touched h₁ fun _ m₂ h₂ ↦ coreOr_touched h₂ fun value m₃ h₃ ↦ ?_
    exact .next (.inl ⟨rfl, rfl⟩) rfl (h₃.push (inRange_ofValue value))
  | await =>
    rw [ensures_map]
    refine raising rfl ((execAwait_spec hslots hoperands).imp ?_)
    rintro (_ | promise) m' h
    · obtain ⟨slot, h⟩ := h
      exact .next (.inl ⟨rfl, rfl⟩) rfl h
    · exact .suspended (.inl rfl) h
  | yield =>
    refine popOr_touched hslots hoperands fun slot m₁ _ h₁ ↦ ?_
    exact intoValue_touched h₁ fun _ _ h₂ ↦ .yielded rfl h₂
  | hostCall =>
    exact next_of_oneResult rfl (execHostCall_spec hslots hoperands)
      (fun _ _ he ↦ he.elim (fun he ↦ he.dispatchError_raised rfl)
        fun he ↦ he.dispatchError_failed) rfl
  | dotCall method argc =>
    obtain ⟨name, hname⟩ := Option.isSome_iff_exists.mp hmethod
    exact next_of_raising rfl (execDotCall_spec hslots hname hoperands) rfl rfl
  | ret =>
    exact popOr_touched hslots hoperands fun _ _ hvalue h ↦ .returned rfl hvalue h

end Spec

end Hara.Vm
