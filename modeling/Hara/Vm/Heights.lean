import Hara.Vm.Validate

/-!
# What validation guarantees

The heights the validator computes, read back as facts: every instruction passes its operand
checks, its successors carry the height its stack effect gives, and the regions of a handler entry
carry the height at the entry's start. Later proofs use these facts and never unfold the validator.
-/

namespace Hara.Vm

open List
open Except (bind_eq_ok pure_eq_ok ensure_eq_ok)

variable {program : Program} {function : FunctionPrototype} {heights : List ℕ}

/-! ## Heights -/

variable {ip : ℕ} {table : List (Option ℕ)}

/-- A finished table gives heights exactly when every cell is labelled. -/
theorem collectHeights_eq_ok :
    collectHeights ip table = .ok heights ↔ table = heights.map some := by
  induction table generalizing ip heights with
  | nil => cases heights <;> simp [collectHeights]
  | cons cell table ih =>
    cases cell with
    | none => cases heights <;> simp [collectHeights]
    | some height =>
      rw [collectHeights, bind_eq_ok]
      simp only [ih, pure_eq_ok]
      cases heights <;> simp [and_comm]

theorem collectHeights_length (h : collectHeights ip table = .ok heights) :
    heights.length = table.length := by
  rw [collectHeights_eq_ok.mp h, length_map]

theorem collectHeights_labelled (h : collectHeights ip table = .ok heights) {n height : ℕ} :
    heights[n]? = some height ↔ Worklist.Labelled table n height := by
  simp [Worklist.Labelled, collectHeights_eq_ok.mp h]

/-! ## One instruction -/

variable {height : ℕ} {pushed : List (ℕ × ℕ)}

theorem visitInstruction_ok (h : visitInstruction program function ip height = .ok pushed) :
    ∃ instruction seeds next, function.code[ip]? = some instruction ∧
      handlerSeeds function.code.length ip height function.handlers = .ok seeds ∧
      checkOperands program function ip instruction = .ok () ∧
      successors function.code.length ip height instruction = .ok next ∧
      pushed = seeds ++ next := by
  rw [visitInstruction, bind_eq_ok] at h
  obtain ⟨seeds, hseeds, h⟩ := h
  split at h
  · simp at h
  next instruction hinstruction =>
    simp only [bind_eq_ok, pure_eq_ok] at h
    obtain ⟨_, hcheck, next, hnext, rfl⟩ := h
    exact ⟨instruction, seeds, next, hinstruction, hseeds, hcheck, hnext, rfl⟩

variable {codeLength target : ℕ}

theorem regionSeed_ok {what : String} {start : ℕ} {q : ℕ × ℕ} :
    regionSeed what codeLength start height target = .ok q ↔
      target < codeLength ∧ q = (target, height) := by
  rw [regionSeed, bind_eq_ok]
  simp only [ensure_eq_ok, pure_eq_ok]
  constructor
  · rintro ⟨_, hlt, hq⟩
    exact ⟨hlt, hq.symm⟩
  · rintro ⟨hlt, hq⟩
    exact ⟨(), hlt, hq.symm⟩

variable {entry : TryEntry} {seeds : List (ℕ × ℕ)}

theorem entrySeeds_eq_ok : entrySeeds codeLength height entry = .ok seeds ↔
    (∀ t ∈ entry.targets, t < codeLength) ∧ seeds = entry.targets.map fun t ↦ (t, height) := by
  rw [entrySeeds, bind_eq_ok]
  simp only [bind_eq_ok, pure_eq_ok, Except.mapM_eq_ok_iff fun _ _ ↦ regionSeed_ok]
  simp [TryEntry.targets, or_imp, forall_and, and_assoc, Function.comp_def, eq_comm (b := seeds)]

variable {handlers : List TryEntry}

theorem handlerSeeds_eq_ok : handlerSeeds codeLength ip height handlers = .ok seeds ↔
    (∀ entry ∈ handlers.filter (·.start = ip), ∀ t ∈ entry.targets, t < codeLength) ∧
      seeds = (handlers.filter (·.start = ip)).flatMap fun entry ↦
        entry.targets.map fun t ↦ (t, height) := by
  rw [handlerSeeds, bind_eq_ok]
  simp only [pure_eq_ok, Except.mapM_eq_ok_iff fun _ _ ↦ entrySeeds_eq_ok, flatMap_def]
  simp [eq_comm]

theorem handlerSeeds_ok (h : handlerSeeds codeLength ip height handlers = .ok seeds)
    (hentry : entry ∈ handlers) (hstart : entry.start = ip) (htarget : target ∈ entry.targets) :
    (target, height) ∈ seeds := by
  obtain ⟨-, rfl⟩ := handlerSeeds_eq_ok.mp h
  exact mem_flatMap.mpr ⟨entry, by simp [hentry, hstart], mem_map.mpr ⟨target, htarget, rfl⟩⟩

/-- Every region that is seeded lies inside the code. -/
theorem handlerSeeds_mem (h : handlerSeeds codeLength ip height handlers = .ok seeds) :
    ∀ q ∈ seeds, q.1 < codeLength ∧ q.2 = height := by
  obtain ⟨hlt, rfl⟩ := handlerSeeds_eq_ok.mp h
  intro q hq
  obtain ⟨entry, hentry, hq⟩ := mem_flatMap.mp hq
  obtain ⟨t, ht, rfl⟩ := mem_map.mp hq
  exact ⟨hlt entry hentry t ht, rfl⟩

/-! ## Operand checks -/

theorem stringConstant_ok {index : ℕ} (h : stringConstant program index ip = .ok ()) :
    ∃ name, program.constantString index = some name := by
  rw [stringConstant] at h
  split at h
  next name hname => exact ⟨name, by rw [Program.constantString, hname]⟩
  · simp at h
  · simp at h

theorem nameConstant_ok {what : String} {index : ℕ}
    (h : nameConstant program what index ip = .ok ()) :
    ∃ name, program.constantString index = some name := by
  rw [nameConstant] at h
  split at h
  next name hname => exact ⟨name, by rw [Program.constantString, hname]⟩
  · simp at h

theorem checkDefinition_ok {name : ℕ} {metadata : Option ℕ}
    (h : checkOperands program function ip (.defGlobal name metadata) = .ok ()) :
    (∃ text, program.constantString name = some text) ∧
      ∀ index, metadata = some index → index < program.varMetadata := by
  obtain ⟨⟨⟩, hname, h⟩ := bind_eq_ok.mp h
  refine ⟨stringConstant_ok hname, ?_⟩
  rintro index rfl
  by_contra hle
  simp [Nat.not_lt.mp hle] at h

/-! ## Successors -/

/-- Control can pass from instruction `i` at `ip` to `target` without an unwind. -/
def Instruction.FlowsTo (i : Instruction) (ip target : ℕ) : Prop :=
  (i.fallsThrough ∧ target = ip + 1) ∨ i.jumpTarget = some target

variable {i : Instruction} {effect : Int}

theorem Instruction.fallsThrough_of_stackEffect (h : i.stackEffect = some effect)
    (hjump : ∀ target, i ≠ .jump target) : i.fallsThrough := by
  cases i with
  | jump target => exact absurd rfl (hjump target)
  | ret | throw | rethrow => cases h
  | _ => rfl

variable {next : List (ℕ × ℕ)}

theorem pushFallthrough_ok (h : pushFallthrough codeLength ip height = .ok next) :
    next = [(ip + 1, height)] := by
  rw [pushFallthrough] at h
  split at h
  · simp at h
  · simpa [eq_comm] using h

section

variable (h : successors codeLength ip height i = .ok next)

include h

theorem successors_ok (heffect : i.stackEffect = some effect) :
    0 ≤ height + effect ∧ (height + effect).toNat ≤ maxOperandStack ∧
      ∀ q, q ∈ next ↔ i.FlowsTo ip q.1 ∧ q.2 = (height + effect).toNat := by
  rw [successors, heffect] at h
  simp only at h
  split at h
  · simp at h
  split at h
  · simp at h
  refine ⟨by omega, by omega, fun q ↦ ?_⟩
  split at h
  · obtain rfl := Except.ok.inj h
    simp [Instruction.FlowsTo, Instruction.fallsThrough, Instruction.jumpTarget, Prod.ext_iff,
      eq_comm]
  · obtain ⟨rest, hrest, h⟩ := bind_eq_ok.mp h
    obtain rfl := pushFallthrough_ok hrest
    obtain rfl := pure_eq_ok.mp h
    simp only [Instruction.FlowsTo, Instruction.fallsThrough, Instruction.jumpTarget]
    grind
  next hjump hjumpIf =>
    obtain rfl := pushFallthrough_ok h
    have hfalls : i.fallsThrough := Instruction.fallsThrough_of_stackEffect heffect hjump
    have htarget : i.jumpTarget = none := by
      cases i <;> simp_all [Instruction.jumpTarget]
    simp [Instruction.FlowsTo, hfalls, htarget, Prod.ext_iff]

theorem successors_terminal (heffect : i.stackEffect = none) : next = [] := by
  rw [successors, heffect] at h
  simp only at h
  split at h
  · split at h
    · exact (Except.ok.inj h).symm
    · simp at h
  · split at h
    · simp at h
    · exact (Except.ok.inj h).symm

omit h in
theorem successors_ret (h : successors codeLength ip height .ret = .ok next) : height = 1 := by
  by_contra hne
  simp [successors, Instruction.stackEffect, hne] at h

theorem successors_le : ∀ q ∈ next, q.2 ≤ maxOperandStack := by
  intro q hq
  cases heffect : i.stackEffect with
  | none => simp [successors_terminal h heffect] at hq
  | some effect =>
    obtain ⟨-, hle, hmem⟩ := successors_ok h heffect
    rw [((hmem q).mp hq).2]
    exact hle

end

theorem visitInstruction_le (hle : height ≤ maxOperandStack)
    (h : visitInstruction program function ip height = .ok pushed) :
    ∀ q ∈ pushed, q.2 ≤ maxOperandStack := by
  obtain ⟨i, seeds, next, -, hseeds, -, hnext, rfl⟩ := visitInstruction_ok h
  intro q hq
  rcases mem_append.mp hq with hq | hq
  · rw [(handlerSeeds_mem hseeds q hq).2]
    exact hle
  · exact successors_le hnext q hq

/-! ## The budget of the exploration -/

theorem targets_length_le (entry : TryEntry) : entry.targets.length ≤ entry.catches.length + 1 := by
  rw [TryEntry.targets]
  cases entry.finally_ <;> simp

theorem handlerSeeds_length (h : handlerSeeds codeLength ip height handlers = .ok seeds) :
    seeds.length ≤ regionCount handlers := by
  obtain ⟨-, rfl⟩ := handlerSeeds_eq_ok.mp h
  clear h
  induction handlers with
  | nil => exact le_rfl
  | cons entry handlers ih =>
    have hle := targets_length_le entry
    rw [filter_cons]
    simp only [regionCount, map_cons, sum_cons] at ih ⊢
    split
    · simp only [flatMap_cons, length_append, length_map]
      omega
    · omega

theorem pushFallthrough_lt (hip : ip < codeLength)
    (h : pushFallthrough codeLength ip height = .ok next) :
    next.length = 1 ∧ ∀ q ∈ next, q.1 < codeLength := by
  rw [pushFallthrough] at h
  split at h
  · cases h
  · obtain rfl := Except.ok.inj h
    refine ⟨rfl, fun q hq ↦ ?_⟩
    obtain rfl := mem_singleton.mp hq
    exact Nat.lt_of_le_of_ne hip ‹_›

/-- A checked jump stays inside the code. -/
theorem checkOperands_jump (h : checkOperands program function ip i = .ok ())
    (hi : i = .jump target ∨ i = .jumpIfFalse target) : target < function.code.length := by
  rcases hi with rfl | rfl <;>
  · rw [checkOperands] at h
    split at h
    · cases h
    · omega

theorem successors_lt (hip : ip < function.code.length)
    (hcheck : checkOperands program function ip i = .ok ())
    (h : successors function.code.length ip height i = .ok next) :
    next.length ≤ 2 ∧ ∀ q ∈ next, q.1 < function.code.length := by
  cases heffect : i.stackEffect with
  | none =>
    rw [successors_terminal h heffect]
    exact ⟨by simp, by simp⟩
  | some effect =>
    rw [successors, heffect] at h
    simp only at h
    split at h
    · cases h
    split at h
    · cases h
    split at h
    · obtain rfl := Except.ok.inj h
      exact ⟨by simp, by simpa using checkOperands_jump hcheck (.inl rfl)⟩
    · obtain ⟨rest, hrest, h⟩ := bind_eq_ok.mp h
      obtain rfl := pure_eq_ok.mp h
      obtain ⟨hlength, hlt⟩ := pushFallthrough_lt hip hrest
      refine ⟨by simp [hlength], fun q hq ↦ ?_⟩
      rcases mem_cons.mp hq with rfl | hq
      · exact checkOperands_jump hcheck (.inr rfl)
      · exact hlt q hq
    · obtain ⟨hlength, hlt⟩ := pushFallthrough_lt hip h
      exact ⟨by omega, hlt⟩

/-- Visiting an instruction pushes at most its two successors and the regions of the handlers. -/
theorem visitInstruction_bound (hip : ip < function.code.length)
    (h : visitInstruction program function ip height = .ok pushed) :
    pushed.length ≤ 2 + regionCount function.handlers ∧
      ∀ q ∈ pushed, q.1 < function.code.length := by
  obtain ⟨i, seeds, next, -, hseeds, hcheck, hnext, rfl⟩ := visitInstruction_ok h
  obtain ⟨hlength, hlt⟩ := successors_lt hip hcheck hnext
  refine ⟨?_, fun q hq ↦ ?_⟩
  · have hle := handlerSeeds_length hseeds
    rw [length_append]
    omega
  · rcases mem_append.mp hq with hq | hq
    · exact (handlerSeeds_mem hseeds q hq).1
    · exact hlt q hq

/-- The budget of `stackHeights` is never exhausted. -/
theorem stackHeights_budget {function : FunctionPrototype} (hcode : 0 < function.code.length) :
    (Worklist.explore (visitInstruction program function) heightClash
      (1 + (2 + regionCount function.handlers) * function.code.length) [(0, 0)]
      (List.replicate function.code.length none)).isSome := by
  refine Worklist.explore_isSome (fun _ _ _ hip h ↦ visitInstruction_bound hip h) (by simp) ?_
    (by simpa using hcode)
  simp [Worklist.unlabelled, countP_replicate]

/-! ## The computed heights -/

/-- Heights that agree with every instruction, jump and handler region. -/
structure HeightsFit (program : Program) (function : FunctionPrototype) (heights : List ℕ) :
    Prop where
  length : heights.length = function.code.length
  entry : heights[0]? = some 0
  visit : ∀ {ip height : ℕ}, heights[ip]? = some height →
    ∃ pushed, visitInstruction program function ip height = .ok pushed ∧
      ∀ q ∈ pushed, heights[q.1]? = some q.2

/-- The facts `stackHeights` establishes about its result. -/
structure HeightsOk (program : Program) (function : FunctionPrototype) (heights : List ℕ) : Prop
    extends HeightsFit program function heights where
  localCount : function.localCount ≤ maxLocals
  bound : ∀ {ip height : ℕ}, heights[ip]? = some height → height ≤ maxOperandStack

theorem stackHeights_ok (h : stackHeights program function = .ok heights) :
    HeightsOk program function heights := by
  rw [stackHeights] at h
  split at h
  · simp at h
  split at h
  · simp at h
  split at h
  · simp at h
  next hlocals =>
    split at h
    · simp at h
    · simp at h
    next table htable =>
      obtain ⟨hlen, hwork, hclosed⟩ := Worklist.explore_closed htable
        fun _ _ hn ↦ absurd hn Worklist.not_labelled_replicate
      refine ⟨⟨?_, ?_, ?_⟩, by omega, ?_⟩
      · rw [collectHeights_length h, hlen, length_replicate]
      · exact (collectHeights_labelled h).mpr (hwork (0, 0) (by simp))
      · intro ip height hip
        obtain ⟨pushed, hvisit, hpushed⟩ := hclosed ip height ((collectHeights_labelled h).mp hip)
        refine ⟨pushed, hvisit, fun q hq ↦ (collectHeights_labelled h).mpr ?_⟩
        simpa using hpushed q hq
      · intro ip height hip
        refine Worklist.explore_forall (P := fun _ height ↦ height ≤ maxOperandStack)
          (E := fun _ ↦ True) (fun _ _ _ _ _ _ ↦ trivial) (fun ip height hle ↦ ?_) htable (by simp)
          (fun _ _ hn ↦ absurd hn Worklist.not_labelled_replicate) ip height
          ((collectHeights_labelled h).mp hip)
        cases hvisit : visitInstruction program function ip height with
        | error e => trivial
        | ok pushed => exact visitInstruction_le hle hvisit

/-- The heights that are computed are the only ones that agree with every instruction. -/
theorem stackHeights_unique (program : Program) (function : FunctionPrototype) :
    Except.Ensures (stackHeights program function)
      (fun heights ↦ HeightsOk program function heights ∧
        ∀ heights', HeightsFit program function heights' ↔ heights' = heights)
      fun _ ↦ True := by
  cases h : stackHeights program function with
  | error e => trivial
  | ok heights =>
    have hok := stackHeights_ok h
    refine ⟨hok, fun heights' ↦ ⟨fun hother ↦ ?_, fun heq ↦ heq ▸ hok.toHeightsFit⟩⟩
    -- what the search reaches has the other height too, and it reaches every instruction
    have hsame : ∀ ip height : ℕ, heights[ip]? = some height → heights'[ip]? = some height := by
      intro ip height hip
      rw [stackHeights] at h
      split_ifs at h
      split at h
      · cases h
      · cases h
      next table htable =>
        refine Worklist.explore_forall (P := fun ip height ↦ heights'[ip]? = some height)
          (E := fun _ ↦ True) (fun _ _ _ _ _ _ ↦ trivial) (fun ip height hheight ↦ ?_) htable
          (by simpa using hother.entry)
          (fun _ _ hn ↦ absurd hn Worklist.not_labelled_replicate) ip height
          ((collectHeights_labelled h).mp hip)
        obtain ⟨pushed, hvisit, hpushed⟩ := hother.visit hheight
        rw [hvisit]
        exact hpushed
    refine ext_getElem (hother.length.trans hok.length.symm) fun ip hip' hip ↦ ?_
    have heq := hsame ip _ (getElem?_eq_getElem hip)
    rwa [getElem?_eq_getElem hip', Option.some_inj] at heq

/-- A program of one function without locals, with operand limit 1. -/
def straightLine (code : List Instruction) : Program where
  ns := none
  constants := []
  varMetadata := 0
  schemaTypes := []
  functionTypes := []
  inferredFunctionTypes := []
  functions := [{
    name := none, asyncFunction := false, arity := 0, variadic := false, captureCount := 0,
    localCount := 0, maxStack := 1, code, sourceMap := ⟨code.map fun _ ↦ none⟩, handlers := [] }]
  entry := 0

/-- A loop over a flag, and then a call of a closure that throws what it has captured, in the range
of a handler. -/
def loopAndCatchEntry : FunctionPrototype where
  name := none
  asyncFunction := false
  arity := 0
  variadic := false
  captureCount := 0
  localCount := 2
  maxStack := 1
  code := [.true, .storeLocal 1, .loadLocal 1, .jumpIfFalse 5, .jump 2, .constant 0, .closure 1 1,
    .call 0, .ret, .loadLocal 0, .ret]
  sourceMap := ⟨List.replicate 11 none⟩
  handlers := [⟨5, 8, 0, [⟨"Exception", 0, 9⟩], none, none, none⟩]

def loopAndCatch : Program :=
  { straightLine [] with
    constants := [.exceptionInfo "late" .nil 0]
    functions := [loopAndCatchEntry,
      { name := none, asyncFunction := false, arity := 0, variadic := false, captureCount := 1,
        localCount := 1, maxStack := 1, code := [.loadLocal 0, .throw],
        sourceMap := ⟨List.replicate 2 none⟩, handlers := [] }] }

theorem stackHeights_unique_loopAndCatch :
    HeightsOk loopAndCatch loopAndCatchEntry [0, 1, 0, 1, 0, 0, 1, 1, 1, 0, 1] ∧
    ∀ heights', HeightsFit loopAndCatch loopAndCatchEntry heights' ↔
      heights' = [0, 1, 0, 1, 0, 0, 1, 1, 1, 0, 1] := by
  have hunique := stackHeights_unique loopAndCatch loopAndCatchEntry
  have hcomputed : stackHeights loopAndCatch loopAndCatchEntry =
      .ok [0, 1, 0, 1, 0, 0, 1, 1, 1, 0, 1] := rfl
  rw [hcomputed] at hunique
  exact hunique

section

variable (hok : HeightsOk program function heights)

include hok

/-- The regions of an entry carry the height at the entry's start. -/
theorem HeightsOk.target_height
    (hentry : entry ∈ function.handlers) (hstart : heights[entry.start]? = some height)
    (htarget : target ∈ entry.targets) : heights[target]? = some height := by
  obtain ⟨pushed, hvisit, hpushed⟩ := hok.visit hstart
  obtain ⟨_, seeds, next, -, hseeds, -, -, rfl⟩ := visitInstruction_ok hvisit
  exact hpushed (target, height) (mem_append_left _ (handlerSeeds_ok hseeds hentry rfl htarget))

section

variable (hip : heights[ip]? = some height)

include hip

theorem HeightsOk.instruction : ∃ i, function.code[ip]? = some i := by
  have hlt : ip < heights.length := (List.getElem?_eq_some_iff.mp hip).1
  rw [hok.length] at hlt
  exact ⟨function.code[ip], getElem?_eq_getElem hlt⟩

theorem HeightsOk.checked (hi : function.code[ip]? = some i) :
    checkOperands program function ip i = .ok () := by
  obtain ⟨pushed, hvisit, -⟩ := hok.visit hip
  obtain ⟨i', seeds, next, hi', -, hcheck, -, -⟩ := visitInstruction_ok hvisit
  obtain rfl : i' = i := by simpa [hi] using hi'.symm
  exact hcheck

/-- The height at a successor is what the stack effect gives. -/
theorem HeightsOk.next_height (hi : function.code[ip]? = some i)
    (heffect : i.stackEffect = some effect) (hflows : i.FlowsTo ip target) :
    ∃ height', heights[target]? = some height' ∧ (height' : Int) = height + effect := by
  obtain ⟨pushed, hvisit, hpushed⟩ := hok.visit hip
  obtain ⟨i', seeds, next, hi', -, -, hnext, rfl⟩ := visitInstruction_ok hvisit
  obtain rfl : i' = i := by simpa [hi] using hi'.symm
  obtain ⟨hnonneg, -, hmem⟩ := successors_ok hnext heffect
  refine ⟨(height + effect).toNat, ?_, Int.toNat_of_nonneg hnonneg⟩
  exact hpushed (target, _) (mem_append_right _ ((hmem _).mpr ⟨hflows, rfl⟩))

theorem HeightsOk.ret_height (hi : function.code[ip]? = some .ret) : height = 1 := by
  obtain ⟨pushed, hvisit, -⟩ := hok.visit hip
  obtain ⟨i', seeds, next, hi', -, -, hnext, -⟩ := visitInstruction_ok hvisit
  obtain rfl : i' = .ret := by simpa [hi] using hi'.symm
  exact successors_ret hnext

end

end

/-! ## Handler tables and whole programs -/

/-- The facts `validate_handlers` establishes about one entry. -/
structure HandlerOk (function : FunctionPrototype) (heights : List ℕ) (entry : TryEntry) :
    Prop where
  range : entry.start < entry.stop ∧ entry.stop ≤ function.code.length
  depth : heights[entry.start]? = some entry.depth
  binding : ∀ clause ∈ entry.catches, clause.binding < function.localCount
  pending : ∀ target, entry.finally_ = some target → ∃ value flag,
    entry.pendingValue = some value ∧ entry.pendingError = some flag ∧
      value < function.localCount ∧ flag < function.localCount

theorem validatePending_ok {localCount : ℕ}
    (h : validatePending codeLength localCount entry = .ok ()) (target : ℕ)
    (htarget : entry.finally_ = some target) : ∃ value flag,
      entry.pendingValue = some value ∧ entry.pendingError = some flag ∧
        value < localCount ∧ flag < localCount := by
  rw [validatePending] at h
  split at h
  next hvalue hflag =>
    obtain ⟨_, -, h⟩ := bind_eq_ok.mp h
    obtain ⟨hv, hf⟩ := ensure_eq_ok.mp h
    exact ⟨_, _, hvalue, hflag, hv, hf⟩
  · simp_all
  · simp at h

theorem validateHandlers_ok (hlen : heights.length = function.code.length)
    (h : validateHandlers function heights handlers = .ok ()) (hentry : entry ∈ handlers) :
    HandlerOk function heights entry := by
  induction handlers with
  | nil => simp at hentry
  | cons first others ih =>
    obtain ⟨⟨⟩, hfirst, hothers⟩ := bind_eq_ok.mp h
    rcases mem_cons.mp hentry with rfl | hentry
    · simp only [validateHandler, bind_eq_ok, ensure_eq_ok] at hfirst
      obtain ⟨_, hrange, _, hdepth, _, hcatches, _, hpending, -⟩ := hfirst
      refine ⟨hrange, ?_, fun clause hclause ↦ ?_, validatePending_ok hpending⟩
      · have hlt : entry.start < heights.length := by omega
        rw [← hdepth, getD_eq_getElem?_getD, getElem?_eq_getElem hlt, Option.getD_some]
      · have hclause := Except.forM_eq_ok.mp hcatches clause hclause
        obtain ⟨_, -, hclause⟩ := bind_eq_ok.mp hclause
        exact ensure_eq_ok.mp hclause
    · exact ih hothers hentry

/-- What validation establishes about a function of the program. -/
structure Validated (program : Program) (function : FunctionPrototype) (heights : List ℕ) :
    Prop where
  computed : stackHeights program function = .ok heights
  handlers : ∀ entry ∈ function.handlers, HandlerOk function heights entry

theorem Validated.heightsOk (hval : Validated program function heights) :
    HeightsOk program function heights :=
  stackHeights_ok hval.computed

/-- Every function of the program is validated. -/
def AllValidated (program : Program) : Prop :=
  ∀ {index : ℕ} {function : FunctionPrototype}, program.functions[index]? = some function →
    ∃ heights, Validated program function heights

theorem validate_ok (h : validate program = .ok ()) :
    program.entry < program.functions.length ∧ AllValidated program := by
  simp only [validate, bind_eq_ok, ensure_eq_ok] at h
  obtain ⟨_, -, _, -, _, hentry, h⟩ := h
  refine ⟨hentry, fun {index function} hfunction ↦ ?_⟩
  have h := Except.forM_eq_ok.mp h (function, index) (mem_zipIdx_iff_getElem?.mpr hfunction)
  simp only [Except.mapError_eq_ok, validateFunction, bind_eq_ok] at h
  obtain ⟨_, -, _, -, heights, hheights, _, -, h⟩ := h
  exact ⟨heights, hheights, fun entry hentry ↦
    validateHandlers_ok (stackHeights_ok hheights).length h hentry⟩

end Hara.Vm
