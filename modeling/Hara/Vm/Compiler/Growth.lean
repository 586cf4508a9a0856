import Hara.Lib.Hoare
import Hara.Vm.Compiler.Forms

/-!
# Compiled code is only added to

While a form is compiled, code, handler entries and constants are appended to what was there before,
and the scopes come back as they were. Jumps and entries of the form itself are patched, those from
before are not. `Adds` is what holds from the start of a form to its end; inside a `try` the weaker
`Grows` is carried along, from the start of the form to each intermediate state.

The compilation of the forms that the model leaves open is assumed to do the same, and all others
are shown to (`compileForm_adds`).
-/

namespace Hara.Vm

open EStateM List

variable {W α β : Type} {c c₀ c₁ c₂ c' : Compiler W}

/-! ## Lists with one element changed -/

theorem modify_append_of_le {l r : List α} {i : ℕ} {f : α → α} (h : l.length ≤ i) :
    (l ++ r).modify i f = l ++ r.modify (i - l.length) f := by
  rw [modify_eq_take_drop, modify_eq_take_drop, take_append, drop_append, take_of_length_le h,
    drop_of_length_le h, nil_append, append_assoc]

theorem mem_modify {l : List α} {i : ℕ} {f : α → α} {x : α} (h : x ∈ l.modify i f) :
    ∃ y ∈ l, x = y ∨ x = f y := by
  obtain ⟨j, hj⟩ := mem_iff_getElem?.mp h
  rw [getElem?_modify] at hj
  obtain ⟨y, hy, rfl⟩ := Option.map_eq_some_iff.mp hj
  refine ⟨y, mem_of_getElem? hy, ?_⟩
  split_ifs
  · exact .inr rfl
  · exact .inl rfl

/-- The state after an instruction was emitted. -/
def Compiler.emitted (c : Compiler W) (i : Instruction) (position : Option Position) :
    Compiler W :=
  { c with context := c.context.emit i position }

theorem Compiler.emitted_here (c : Compiler W) (i : Instruction) (position : Option Position) :
    (c.emitted i position).here = c.here + 1 :=
  length_append

/-- Every entry of the index points to its constant. -/
def Compiler.Indexed (c : Compiler W) : Prop :=
  ∀ entry ∈ c.constantIndex, c.constants[entry.2]? = some entry.1

/-- Everything from before is still there, and new handler entries cover new code only. -/
structure Grows (c c' : Compiler W) : Prop where
  code : c.context.code <+: c'.context.code
  handlers : ∃ added, c'.context.handlers = c.context.handlers ++ added ∧
    ∀ e ∈ added, c.here ≤ e.start ∧ e.stop ≤ c'.here
  highWater : c.context.scopes.highWater ≤ c'.context.scopes.highWater
  constants : c.constants <+: c'.constants
  indexed : c.Indexed → c'.Indexed

namespace Grows

theorem of_eq (hcode : c'.context.code = c.context.code)
    (hhandlers : c'.context.handlers = c.context.handlers)
    (hhighWater : c'.context.scopes.highWater = c.context.scopes.highWater)
    (hconstants : c'.constants = c.constants) (hindex : c'.constantIndex = c.constantIndex) :
    Grows c c' where
  code := hcode ▸ prefix_rfl
  handlers := ⟨[], by rw [hhandlers, append_nil], nofun⟩
  highWater := hhighWater.ge
  constants := hconstants ▸ prefix_rfl
  indexed h := by
    rw [Compiler.Indexed, hindex, hconstants]
    exact h

theorem refl (c : Compiler W) : Grows c c := of_eq rfl rfl rfl rfl rfl

theorem here_le (h : Grows c c') : c.here ≤ c'.here := h.code.length_le

theorem trans (h : Grows c c₁) (h' : Grows c₁ c₂) : Grows c c₂ where
  code := h.code.trans h'.code
  handlers := by
    obtain ⟨added, hadded, hwithin⟩ := h.handlers
    obtain ⟨added', hadded', hwithin'⟩ := h'.handlers
    refine ⟨added ++ added', by rw [hadded', hadded, append_assoc], fun e he ↦ ?_⟩
    rcases mem_append.mp he with he | he
    · exact ⟨(hwithin e he).1, (hwithin e he).2.trans h'.here_le⟩
    · exact ⟨h.here_le.trans (hwithin' e he).1, (hwithin' e he).2⟩
  highWater := h.highWater.trans h'.highWater
  constants := h.constants.trans h'.constants
  indexed := h'.indexed ∘ h.indexed

theorem handlers_le (h : Grows c c') : c.context.handlers.length ≤ c'.context.handlers.length := by
  obtain ⟨added, hadded, -⟩ := h.handlers
  rw [hadded, length_append]
  exact Nat.le_add_right ..

/-- Emitted code. -/
theorem emit (c : Compiler W) (i : Instruction) (position : Option Position) :
    Grows c (c.emitted i position) where
  code := prefix_append ..
  handlers := ⟨[], (append_nil _).symm, nofun⟩
  highWater := le_rfl
  constants := prefix_rfl
  indexed := id

/-- A patched jump of the new code. -/
theorem patch (h : Grows c₀ c) {ip : ℕ} (target : ℕ) (hip : c₀.here ≤ ip) :
    Grows c₀ { c with context := { c.context with
      code := c.context.code.modify ip (Instruction.retarget target) } } where
  code := by
    obtain ⟨code, hcode⟩ := h.code
    exact ⟨code.modify (ip - c₀.here) (Instruction.retarget target),
      hcode ▸ (modify_append_of_le hip).symm⟩
  handlers := by
    obtain ⟨added, hadded, hwithin⟩ := h.handlers
    refine ⟨added, hadded, fun e he ↦ ⟨(hwithin e he).1, (hwithin e he).2.trans ?_⟩⟩
    exact (length_modify ..).ge
  highWater := h.highWater
  constants := h.constants
  indexed := h.indexed

/-- An updated entry of the new code. -/
theorem update (h : Grows c₀ c) {index : ℕ} {f : TryEntry → TryEntry}
    (hindex : c₀.context.handlers.length ≤ index)
    (hf : ∀ e, (f e).start = e.start ∧ ((f e).stop = e.stop ∨ (f e).stop ≤ c.here)) :
    Grows c₀ { c with context := { c.context with
      handlers := c.context.handlers.modify index f } } where
  code := h.code
  handlers := by
    obtain ⟨added, hadded, hwithin⟩ := h.handlers
    refine ⟨added.modify (index - c₀.context.handlers.length) f, ?_, fun e he ↦ ?_⟩
    · exact hadded ▸ modify_append_of_le hindex
    · obtain ⟨e', he', rfl | rfl⟩ := mem_modify he
      · exact hwithin e he'
      · refine ⟨(hf e').1 ▸ (hwithin e' he').1, ?_⟩
        rcases (hf e').2 with hstop | hstop
        · exact hstop ▸ (hwithin e' he').2
        · exact hstop
  highWater := h.highWater
  constants := h.constants
  indexed := h.indexed

/-- Entries that were opened for the new code. -/
theorem opened (c : Compiler W) {e : TryEntry} {tries : List TryContext} (hstart : e.start = c.here)
    (hstop : e.stop = 0) :
    Grows c { c with context := { c.context with
      handlers := c.context.handlers ++ [e], tries } } where
  code := prefix_rfl
  handlers := by
    refine ⟨[e], rfl, fun e' he' ↦ ?_⟩
    rw [mem_singleton.mp he', hstart, hstop]
    exact ⟨le_rfl, Nat.zero_le _⟩
  highWater := le_rfl
  constants := prefix_rfl
  indexed := id

end Grows

/-- The scopes are the same afterwards. -/
structure Appends (c c' : Compiler W) : Prop extends Grows c c' where
  scopes : c'.context.scopes.scopes = c.context.scopes.scopes

/-- Something was emitted, if control could arrive. -/
structure Adds (c c' : Compiler W) : Prop extends Appends c c' where
  emits : c.context.fallthrough = true → c.here < c'.here

theorem Appends.refl (c : Compiler W) : Appends c c := ⟨.refl c, rfl⟩

theorem Appends.trans (h : Appends c c₁) (h' : Appends c₁ c₂) : Appends c c₂ :=
  ⟨h.toGrows.trans h'.toGrows, h'.scopes.trans h.scopes⟩

/-! ## Computations -/

/-- Nothing is said of a compilation that stops. -/
def Stopped (_ : CompileStop) (_ : Compiler W) : Prop := True

/-- The computation appends, from every state. -/
def Keeps (x : CompileM W α) : Prop := ∀ c, Ensures x c (fun _ c' ↦ Appends c c') Stopped

/-- The computation appends, and control arrives at its end as at its start. -/
def Flows (x : CompileM W α) : Prop := ∀ c, Ensures x c (fun _ c' ↦ Appends c c' ∧
  c'.context.fallthrough = c.context.fallthrough) Stopped

variable {x : CompileM W α} {f : α → CompileM W β}

theorem Flows.keeps (hx : Flows x) : Keeps x := fun c ↦ (hx c).imp fun _ _ h ↦ h.1

theorem Flows.bind (hx : Flows x) (hf : ∀ a, Flows (f a)) : Flows (x >>= f) := fun c ↦
  Ensures.bind (hx c) fun a c₁ h ↦ (hf a c₁).imp fun _ _ h' ↦ ⟨h.1.trans h'.1, h'.2.trans h.2⟩

theorem Flows.pure (a : α) : Flows (pure a : CompileM W α) := fun c ↦ ⟨.refl c, rfl⟩

theorem Keeps.bind (hx : Keeps x) (hf : ∀ a, Keeps (f a)) : Keeps (x >>= f) := fun c ↦
  Ensures.bind (hx c) fun a c₁ h ↦ (hf a c₁).imp fun _ _ h' ↦ h.trans h'

theorem Keeps.pure (a : α) : Keeps (pure a : CompileM W α) := fun c ↦ .refl c

/-- A computation that touches nothing that `Appends` speaks of. -/
theorem keeps_modify {g : Compiler W → Compiler W}
    (hcode : ∀ c, (g c).context.code = c.context.code)
    (hhandlers : ∀ c, (g c).context.handlers = c.context.handlers)
    (hscopes : ∀ c, (g c).context.scopes = c.context.scopes)
    (hconstants : ∀ c, (g c).constants = c.constants)
    (hindex : ∀ c, (g c).constantIndex = c.constantIndex) :
    Keeps (modify g : CompileM W PUnit) := fun c ↦
  ⟨.of_eq (hcode c) (hhandlers c) (by rw [hscopes]) (hconstants c) (hindex c), by rw [hscopes]⟩

theorem flows_compileError (kind : CompileErrorKind) (message : String)
    (position : Option Position) : Flows (compileError kind message position : CompileM W α) :=
  fun _ ↦ trivial

theorem keeps_setTopLevel (top : Bool) : Keeps (setTopLevel top : CompileM W Unit) :=
  keeps_modify (fun _ ↦ rfl) (fun _ ↦ rfl) (fun _ ↦ rfl) (fun _ ↦ rfl) fun _ ↦ rfl

theorem keeps_setFallthrough (falls : Bool) : Keeps (setFallthrough falls : CompileM W Unit) :=
  keeps_modify (fun _ ↦ rfl) (fun _ ↦ rfl) (fun _ ↦ rfl) (fun _ ↦ rfl) fun _ ↦ rfl

theorem keeps_falls : Keeps (falls : CompileM W Bool) := fun c ↦ .refl c

theorem codeLength_spec (c : Compiler W) :
    Ensures codeLength c (fun ip c' ↦ ip = c.here ∧ c' = c) Stopped := ⟨rfl, rfl⟩

theorem keeps_whenFalls {x : CompileM W Unit} (hx : Keeps x) : Keeps (whenFalls x) := by
  refine keeps_falls.bind fun falls ↦ ?_
  split_ifs
  · exact hx
  · exact .pure _

theorem flows_ensure (condition : Bool) (kind : CompileErrorKind) (message : String)
    (position : Position) : Flows (ensure condition kind message position : CompileM W Unit) := by
  rw [ensure]
  split_ifs
  · exact .pure _
  · exact flows_compileError _ _ _

theorem emit_spec (c : Compiler W) (i : Instruction) (position : Option Position) :
    Ensures (emit i position) c (fun index c' ↦ Appends c c' ∧ index = c.here) Stopped :=
  ⟨⟨.emit c i position, rfl⟩, rfl⟩

theorem flows_emit_ (i : Instruction) (position : Option Position) :
    Flows (emit_ i position : CompileM W Unit) := fun c ↦ ⟨⟨.emit c i position, rfl⟩, rfl⟩

/-- The constants of a pool that has grown by one. -/
theorem Compiler.Indexed.concat (h : c.Indexed) {value : Value} {entry : Value × ℕ}
    (hentry : entry ∈ (if isInterned value then (value, c.constants.length) :: c.constantIndex
      else c.constantIndex)) : (c.constants ++ [value])[entry.2]? = some entry.1 := by
  have hold (hmem : entry ∈ c.constantIndex) :
      (c.constants ++ [value])[entry.2]? = some entry.1 := by
    obtain ⟨hlt, -⟩ := List.getElem?_eq_some_iff.mp (h entry hmem)
    rw [getElem?_append_left hlt, h entry hmem]
  split_ifs at hentry
  · rcases mem_cons.mp hentry with rfl | hmem
    · exact getElem?_concat_length
    · exact hold hmem
  · exact hold hentry

/-- The index is that of the value, if equality finds no other value for it. -/
theorem constantIndexOf_spec (core : CompileCore W) {value : Value} (span : Position)
    (c : Compiler W) (hvalue : isInterned value → ∀ v, core.valueEq v value → v = value) :
    Ensures (constantIndexOf core value span) c (fun index c' ↦ Appends c c' ∧
      c'.context = c.context ∧ c'.globals = c.globals ∧ c'.world = c.world ∧
      (c.Indexed → c'.constants[index]? = some value)) Stopped := by
  rw [constantIndexOf, ensures_bind, ensures_get]
  have hknown : ∀ entry, (if isInterned value then
      c.constantIndex.find? fun entry ↦ core.valueEq entry.1 value else none) = some entry →
      c.Indexed → c.constants[entry.2]? = some value := by
    intro entry hfound hindexed
    split_ifs at hfound with hinterned
    have heq := find?_some hfound
    rw [hindexed entry (mem_of_find?_eq_some hfound), hvalue hinterned entry.1 heq]
  generalize (if isInterned value then
    c.constantIndex.find? fun entry ↦ core.valueEq entry.1 value else none) = known at hknown
  match known with
  | some entry => exact ⟨.refl c, rfl, rfl, rfl, hknown entry rfl⟩
  | none =>
    rw [ensures_bind, ensure]
    by_cases hlimit : decide (c.constants.length < maxConstants)
    · rw [if_pos hlimit, ensures_pure, ensures_bind, ensures_set, ensures_pure]
      refine ⟨⟨⟨prefix_rfl, ⟨[], (append_nil _).symm, nofun⟩, le_rfl, prefix_append .., ?_⟩, rfl⟩,
        rfl, rfl, rfl, fun _ ↦ getElem?_concat_length⟩
      exact fun hindexed entry hentry ↦ hindexed.concat hentry
    · rw [if_neg hlimit]
      trivial

theorem globalNameConstant_spec (core : CompileCore W) (name : String) (span : Position)
    (c : Compiler W) :
    Ensures (globalNameConstant core name span) c (fun index c' ↦ Appends c c' ∧
      c'.context = c.context ∧ c'.globals = c.globals ∧ c'.world = c.world ∧
      (c.Indexed → c'.constants[index]? = some (.string (c.globalName core name)))) Stopped := by
  rw [globalNameConstant, ensures_bind, ensures_get]
  exact constantIndexOf_spec core span c fun _ _ ↦ core.eq_string

/-- A fresh slot leaves the names alone, a declared name changes the innermost scope only. -/
theorem declareHidden_spec {stack stack' : ScopeStack} {slot : ℕ}
    (h : stack.declareHidden = .ok (slot, stack')) :
    stack'.scopes = stack.scopes ∧ stack.highWater ≤ stack'.highWater ∧
      slot < stack'.highWater := by
  rw [ScopeStack.declareHidden] at h
  split_ifs at h
  cases h
  exact ⟨rfl, le_max_left .., Nat.lt_of_lt_of_le (Nat.lt_succ_self _) (le_max_right ..)⟩

theorem flows_declareHidden : Flows (declareHidden : CompileM W ℕ) := by
  intro c
  rw [declareHidden, allocateSlot, ensures_bind, ensures_get]
  split
  next slot scopes hslot =>
    obtain ⟨hscopes, hhigh, -⟩ := declareHidden_spec hslot
    exact ⟨⟨⟨prefix_rfl, ⟨[], (append_nil _).symm, nofun⟩, hhigh, prefix_rfl, id⟩, hscopes⟩, rfl⟩
  · trivial

/-! ## Scopes -/

/-- The name is that of a local slot. -/
def Compiler.Local (c : Compiler W) (name : String) : Prop :=
  ∃ slot, c.context.scopes.resolve name = some slot ∧ slot < c.context.scopes.highWater

theorem Compiler.Local.of_scopes {name : String} (h : c.Local name)
    (hscopes : c'.context.scopes.scopes = c.context.scopes.scopes)
    (hhigh : c.context.scopes.highWater ≤ c'.context.scopes.highWater) : c'.Local name := by
  obtain ⟨slot, hslot, hlt⟩ := h
  refine ⟨slot, ?_, hlt.trans_le hhigh⟩
  rw [ScopeStack.resolve, hscopes]
  exact hslot

/-- What a declaration does to the scopes. -/
structure Declares (c c' : Compiler W) (name : String) : Prop where
  tail : c'.context.scopes.scopes.tail = c.context.scopes.scopes.tail
  inside : c.context.scopes.scopes ≠ [] → c'.context.scopes.scopes ≠ []
  declared : c.context.scopes.scopes ≠ [] → c'.Local name
  others : ∀ other, c.Local other → c'.Local other

/-- A declared name shadows, all others are resolved as before. -/
theorem resolve_bindName {stack : ScopeStack} (name other : String) (slot : ℕ)
    (h : stack.scopes ≠ []) :
    (stack.bindName name slot).resolve other =
      if other == name then some slot else stack.resolve other := by
  rw [ScopeStack.bindName]
  split
  next hscopes => exact absurd hscopes h
  next scope scopes hscopes =>
    simp only [ScopeStack.resolve, hscopes, findSome?_cons, lookup_cons]
    cases other == name <;> rfl

theorem bindName_scopes (stack : ScopeStack) (name : String) (slot : ℕ) :
    (stack.bindName name slot).scopes.tail = stack.scopes.tail ∧
      ((stack.bindName name slot).scopes = [] ↔ stack.scopes = []) ∧
      (stack.bindName name slot).highWater = stack.highWater := by
  rw [ScopeStack.bindName]
  split
  · exact ⟨rfl, Iff.rfl, rfl⟩
  next hscopes =>
    rw [hscopes]
    exact ⟨rfl, by simp, rfl⟩

theorem declareName_spec (name : String) (position : Option Position) (c : Compiler W) :
    Ensures (declareName name position) c (fun slot c' ↦ Grows c c' ∧
      c'.context.code = c.context.code ∧ c'.context.handlers = c.context.handlers ∧
      c'.context.fallthrough = c.context.fallthrough ∧ c'.globals = c.globals ∧
      c'.world = c.world ∧ slot < c'.context.scopes.highWater ∧ Declares c c' name) Stopped := by
  rw [declareName, allocateSlot, ensures_bind, ensures_get]
  simp only [ScopeStack.declare]
  cases hslot : c.context.scopes.declareHidden with
  | error e => trivial
  | ok result =>
    obtain ⟨slot, stack⟩ := result
    obtain ⟨hscopes, hhigh, hlt⟩ := declareHidden_spec hslot
    obtain ⟨htail, hempty, hbound⟩ := bindName_scopes stack name slot
    refine ⟨⟨prefix_rfl, ⟨[], (append_nil _).symm, nofun⟩, hbound ▸ hhigh, prefix_rfl, id⟩, rfl,
      rfl, rfl, rfl, rfl, hbound ▸ hlt, htail.trans (congrArg tail hscopes), ?_, ?_, ?_⟩
    · exact fun hne hnil ↦ hne (hscopes ▸ hempty.mp hnil)
    · intro hne
      refine ⟨slot, ?_, hbound ▸ hlt⟩
      exact (resolve_bindName name name slot (hscopes ▸ hne)).trans (if_pos (beq_self_eq_true name))
    · rintro other ⟨slot', hresolve, hlt'⟩
      have hne : c.context.scopes.scopes ≠ [] := fun hnil ↦ by
        simp [ScopeStack.resolve, hnil] at hresolve
      have hresolve' := resolve_bindName name other slot (hscopes ▸ hne)
      split_ifs at hresolve'
      · exact ⟨slot, hresolve', hbound ▸ hlt⟩
      · refine ⟨slot', hresolve'.trans ?_, hbound ▸ hlt'.trans_le hhigh⟩
        rw [ScopeStack.resolve, hscopes]
        exact hresolve

theorem pushScope_spec (c : Compiler W) :
    Ensures pushScope c (fun _ c' ↦ Grows c c' ∧
      c'.context.fallthrough = c.context.fallthrough ∧
      c'.context.scopes.scopes.tail = c.context.scopes.scopes) Stopped :=
  ⟨.of_eq rfl rfl rfl rfl rfl, rfl, rfl⟩

theorem popScope_spec (c : Compiler W) :
    Ensures popScope c (fun _ c' ↦ Grows c c' ∧ c'.here = c.here ∧
      c'.context.scopes.scopes = c.context.scopes.scopes.tail) Stopped := by
  rw [popScope, modifyContext, ensures_modify]
  have hpop (stack : ScopeStack) : stack.popScope.scopes = stack.scopes.tail ∧
      stack.popScope.highWater = stack.highWater := by
    rw [ScopeStack.popScope]
    split
    next hscopes => exact ⟨by rw [hscopes]; rfl, rfl⟩
    next hscopes => exact ⟨by rw [hscopes]; rfl, rfl⟩
  exact ⟨.of_eq rfl rfl (hpop _).2 rfl rfl, rfl, (hpop _).1⟩

/-! ## Sequences -/

theorem ensures_whenFalls {x : CompileM W Unit} {post : Unit → Compiler W → Prop} :
    Ensures (whenFalls x) c post Stopped ↔
      if c.context.fallthrough then Ensures x c post Stopped else post () c := by
  rw [whenFalls, ensures_bind]
  change Ensures (if c.context.fallthrough then x else pure ()) c post Stopped ↔ _
  split_ifs <;> rfl

theorem Appends.adds (h : Appends c c₁)
    (hfalls : c₁.context.fallthrough = c.context.fallthrough) (h' : Adds c₁ c₂) : Adds c c₂ :=
  ⟨h.trans h'.toAppends, fun hc ↦ h.here_le.trans_lt (h'.emits (hfalls.trans hc))⟩

theorem Adds.appends (h : Adds c c₁) (h' : Appends c₁ c₂) : Adds c c₂ :=
  ⟨h.toAppends.trans h', fun hc ↦ (h.emits hc).trans_le h'.here_le⟩

theorem Adds.of_dead (h : Appends c c') (hdead : c.context.fallthrough = false) : Adds c c' :=
  ⟨h, fun hc ↦ absurd (hc.symm.trans hdead) (by simp)⟩

theorem adds_emit (c : Compiler W) (i : Instruction) (position : Option Position) :
    Ensures (emit_ i position) c (fun _ c' ↦ Adds c c') Stopped := by
  refine ⟨⟨.emit c i position, rfl⟩, fun _ ↦ ?_⟩
  exact (c.emitted_here i position).symm ▸ Nat.lt_succ_self _

theorem compileStatements_cons (compile : FormCompiler W) (top tail : Bool) {child : Child}
    {children : List Child} (h : children ≠ []) :
    compileStatements compile top tail (child :: children) = whenFalls (do
      setTopLevel top
      compile child false
      whenFalls (emit_ .pop (some child.span))
      compileStatements compile top tail children) := by
  cases children with
  | nil => exact absurd rfl h
  | cons => rfl

/-! ## Steps that compile no part -/

theorem openHandler_spec (pending : Option (ℕ × ℕ)) (c : Compiler W) :
    Ensures (openHandler pending) c (fun entry c' ↦ Grows c c' ∧
      c'.context.scopes.scopes = c.context.scopes.scopes ∧
      c'.context.fallthrough = c.context.fallthrough ∧
      entry = c.context.handlers.length) Stopped :=
  ⟨.opened c rfl rfl, rfl, rfl, rfl⟩

theorem flows_bindingTarget (core : CompileCore W) (target : Child) :
    Flows (bindingTarget core target) := by
  intro c
  rw [bindingTarget]
  split
  · refine (globalNameConstant_spec core _ target.span c).imp fun _ c' h ↦ ⟨h.1, ?_⟩
    rw [h.2.1]
  · trivial

theorem adds_compileDynamicUnbind (core : CompileCore W) (children : List Child) (span : Position)
    (c : Compiler W) :
    Ensures (compileDynamicUnbind core children span) c (fun _ c' ↦ Adds c c') Stopped := by
  rw [compileDynamicUnbind.eq_def]
  split
  next target =>
    refine Ensures.bind (flows_bindingTarget core target c) fun name c₁ h₁ ↦ ?_
    exact (adds_emit c₁ (.dynamicUnbind name) (some span)).imp fun _ c' h' ↦ h₁.1.adds h₁.2 h'
  · trivial

theorem flows_parseClauses : ∀ clauses : List Child,
    Flows (parseClauses clauses : CompileM W (List CatchClause × List Child))
  | [] => .pure _
  | clause :: clauses => by
    rw [parseClauses]
    split
    · dsimp only
      split_ifs
      · refine (flows_ensure _ _ _ _).bind fun _ ↦ ?_
        exact (flows_parseClauses clauses).bind fun _ ↦ .pure _
      · split
        · split
          · exact (flows_parseClauses clauses).bind fun _ ↦ .pure _
          · exact flows_compileError _ _ _
        · exact flows_compileError _ _ _
    · exact .pure _

theorem flows_declarePending (hasFinally : Bool) :
    Flows (declarePending hasFinally : CompileM W (Option (ℕ × ℕ))) := by
  rw [declarePending]
  split_ifs
  · exact flows_declareHidden.bind fun _ ↦ flows_declareHidden.bind fun _ ↦ .pure _
  · exact .pure _

theorem flows_resetFlag (pending : Option (ℕ × ℕ)) (span : Position) :
    Flows (resetFlag pending span : CompileM W Unit) := by
  rw [resetFlag.eq_def]
  split
  · exact (flows_emit_ _ _).bind fun _ ↦ flows_emit_ _ _
  · exact .pure _

theorem flows_storePending (pending : Option (ℕ × ℕ)) :
    Flows (storePending pending : CompileM W Unit) := by
  rw [storePending.eq_def]
  split
  · exact flows_emit_ _ _
  · exact .pure _

/-- The jumps that leave a region are new. -/
theorem leaveRegion_spec (pending : Option (ℕ × ℕ)) (c : Compiler W) :
    Ensures (leaveRegion pending) c (fun jumps c' ↦ Appends c c' ∧ ∀ jump ∈ jumps, c.here ≤ jump)
      Stopped := by
  rw [leaveRegion, ensures_bind]
  change Ensures (if c.context.fallthrough then _ else _) c _ _
  split_ifs
  · refine Ensures.bind ((flows_storePending pending).keeps c) fun _ c₁ h₁ ↦ ?_
    refine Ensures.bind (emit_spec c₁ (.jump 0) none) fun jump c₂ h₂ ↦ ?_
    refine ⟨h₁.trans h₂.1, fun jump' hjump' ↦ ?_⟩
    rw [mem_singleton.mp hjump', h₂.2]
    exact h₁.here_le
  · exact ⟨.refl c, nofun⟩

theorem grows_updateHandler {index : ℕ} {f : TryEntry → TryEntry} (h : Grows c₀ c)
    (hindex : c₀.context.handlers.length ≤ index)
    (hf : ∀ e, (f e).start = e.start ∧ ((f e).stop = e.stop ∨ (f e).stop ≤ c.here)) :
    Ensures (updateHandler index f) c (fun _ c' ↦ Grows c₀ c' ∧ c'.here = c.here ∧
      c'.context.scopes = c.context.scopes) Stopped :=
  ⟨h.update hindex hf, rfl, rfl⟩

theorem grows_patchJumps {target : ℕ} : ∀ {jumps : List ℕ} {c : Compiler W}, Grows c₀ c →
    (∀ jump ∈ jumps, c₀.here ≤ jump) →
    Ensures (patchJumps jumps target) c (fun _ c' ↦ Grows c₀ c' ∧ c'.here = c.here ∧
      c'.context.scopes = c.context.scopes) Stopped
  | [], _, h, _ => ⟨h, rfl, rfl⟩
  | jump :: jumps, c, h, hjumps => by
    obtain ⟨hjump, hjumps⟩ := forall_mem_cons.mp hjumps
    rw [patchJumps, forM_eq_forM, forM_cons, ensures_bind]
    refine (grows_patchJumps (h.patch target hjump) hjumps).imp fun _ c' h' ↦ ?_
    refine ⟨h'.1, h'.2.1.trans ?_, h'.2.2⟩
    exact length_modify ..

theorem keeps_emitResume (value flag : ℕ) (span : Position) :
    Keeps (emitResume value flag span : CompileM W Unit) := by
  intro c
  refine Ensures.bind ((flows_emit_ .pop none).keeps c) fun _ c₁ h₁ ↦ ?_
  refine Ensures.bind ((flows_emit_ (.loadLocal flag) none).keeps c₁) fun _ c₂ h₂ ↦ ?_
  refine Ensures.bind (emit_spec c₂ (.jumpIfFalse 0) none) fun jump c₃ h₃ ↦ ?_
  refine Ensures.bind ((flows_emit_ (.loadLocal value) none).keeps c₃) fun _ c₄ h₄ ↦ ?_
  refine Ensures.bind ((flows_emit_ .rethrow (some span)).keeps c₄) fun _ c₅ h₅ ↦ ?_
  refine Ensures.bind (codeLength_spec c₅) fun normal _ h₆ ↦ ?_
  rw [h₆.2]
  have hbefore : Appends c c₂ := h₁.trans h₂
  have hall : Appends c c₅ := ((hbefore.trans h₃.1).trans h₄).trans h₅
  rw [ensures_bind, patchJump, modifyContext, ensures_modify]
  have hpatched := hall.toGrows.patch normal (h₃.2 ▸ hbefore.here_le)
  exact ((flows_emit_ (.loadLocal value) none).keeps _).imp fun _ c' h' ↦
    ⟨hpatched.trans h'.toGrows, h'.scopes.trans hall.scopes⟩

/-- Every form is compiled by additions. -/
def Adding (compile : FormCompiler W) : Prop :=
  ∀ child tail c, Ensures (compile child tail) c (fun _ c' ↦ Adds c c') Stopped

section Forms

variable {compile : FormCompiler W} (hcompile : Adding compile)

include hcompile

/-- A form compiled after the top-level mark was set. -/
theorem adds_marked (top tail : Bool) (child : Child) (c : Compiler W) :
    Ensures (do setTopLevel top; compile child tail) c (fun _ c' ↦ Adds c c') Stopped := by
  rw [ensures_bind, setTopLevel, ensures_modify]
  refine (hcompile child tail { c with topLevel := top }).imp fun _ c' h ↦ ?_
  exact Appends.adds (keeps_setTopLevel top c) rfl h

theorem adds_compileStatements (top tail : Bool) {children : List Child}
    (hchildren : children ≠ []) (c : Compiler W) :
    Ensures (compileStatements compile top tail children) c (fun _ c' ↦ Adds c c') Stopped := by
  induction children generalizing c with
  | nil => exact absurd rfl hchildren
  | cons child children ih =>
    match children with
    | [] =>
      rw [compileStatements, ensures_whenFalls]
      split_ifs with hfalls
      · exact adds_marked hcompile top tail child c
      · exact .of_dead (.refl c) (Bool.not_eq_true _ ▸ hfalls)
    | next :: children =>
      rw [compileStatements_cons _ _ _ (cons_ne_nil _ _), ensures_whenFalls]
      split_ifs with hfalls
      · rw [ensures_bind, setTopLevel, ensures_modify]
        refine (hcompile child false { c with topLevel := top }).bind fun _ c₁ h₁ ↦ ?_
        have hfirst : Adds c c₁ := Appends.adds (keeps_setTopLevel top c) rfl h₁
        refine (keeps_whenFalls (flows_emit_ .pop (some child.span)).keeps c₁).bind fun _ c₂ h₂ ↦ ?_
        exact (ih (cons_ne_nil _ _) c₂).imp fun _ c' h' ↦ (hfirst.appends h₂).appends h'.toAppends
      · exact .of_dead (.refl c) (Bool.not_eq_true _ ▸ hfalls)

theorem adds_compileSequence (children : List Child) (tail : Bool) (c : Compiler W) :
    Ensures (compileSequence compile children tail) c (fun _ c' ↦ Adds c c') Stopped := by
  match children with
  | [] => exact adds_emit c .nil none
  | child :: children =>
    rw [compileSequence, ensures_bind, ensures_get]
    · exact adds_compileStatements hcompile _ tail (cons_ne_nil _ _) c
    · exact nofun

/-- Pairs are compiled by additions in the innermost scope. If nothing is added, control goes on. -/
theorem grows_compilePairs (formName : String) : ∀ (pairs : List Child) (c : Compiler W),
    Ensures (compilePairs compile formName pairs) c (fun _ c' ↦ Grows c c' ∧
      c'.context.scopes.scopes.tail = c.context.scopes.scopes.tail ∧
      (c.context.fallthrough = true → c.here < c'.here ∨ c'.context.fallthrough = true)) Stopped
  | name :: initializer :: pairs, c => by
    rw [compilePairs]
    split
    next symbol _ =>
      refine Ensures.bind (hcompile initializer false c) fun _ c₁ h₁ ↦ ?_
      rw [ensures_bind]
      change Ensures (if c₁.context.fallthrough then _ else _) c₁ _ _
      split_ifs
      · refine Ensures.bind (declareName_spec symbol (some name.span) c₁) fun slot c₂ h₂ ↦ ?_
        obtain ⟨hgrows₂, -, -, -, -, -, -, hdeclares⟩ := h₂
        refine Ensures.bind ((flows_emit_ (.storeLocal slot) (some name.span)).keeps c₂)
          fun _ c₃ h₃ ↦ ?_
        rw [ensures_bind]
        refine (grows_compilePairs formName pairs c₃).imp fun _ c' h' ↦ ?_
        have hrest : Grows c₁ c' := (hgrows₂.trans h₃.toGrows).trans h'.1
        refine ⟨h₁.toGrows.trans hrest, ?_, fun hfalls ↦ ?_⟩
        · rw [h'.2.1, h₃.scopes, hdeclares.tail, h₁.scopes]
        · exact .inl ((h₁.emits hfalls).trans_le hrest.here_le)
      · exact ⟨h₁.toGrows, by rw [h₁.scopes], fun hfalls ↦ .inl (h₁.emits hfalls)⟩
    · trivial
  | [], c | [_], c => ⟨.refl c, rfl, .inr⟩

theorem grows_compileBindings (bindings : Child) (formName : String) (c : Compiler W) :
    Ensures (compileBindings compile bindings formName) c (fun _ c' ↦ Grows c c' ∧
      c'.context.scopes.scopes.tail = c.context.scopes.scopes.tail ∧
      (c.context.fallthrough = true → c.here < c'.here ∨ c'.context.fallthrough = true))
      Stopped := by
  rw [compileBindings]
  split
  · rw [ensures_bind, ensure]
    split_ifs
    · exact grows_compilePairs hcompile formName _ c
    · trivial
  · rw [ensures_bind, ensure]
    split_ifs
    · exact grows_compilePairs hcompile formName _ c
    · trivial
  · trivial

theorem adds_compileLet (children : List Child) (span : Position) (tail : Bool) (c : Compiler W) :
    Ensures (compileLet compile children span tail) c (fun _ c' ↦ Adds c c') Stopped := by
  rw [compileLet.eq_def]
  split
  next bindings form body =>
    refine Ensures.bind (pushScope_spec c) fun _ c₁ h₁ ↦ ?_
    refine Ensures.bind (grows_compileBindings hcompile bindings "let" c₁) fun _ c₂ h₂ ↦ ?_
    refine Ensures.bind (adds_compileSequence hcompile (form :: body) tail c₂) fun _ c₃ h₃ ↦ ?_
    refine (popScope_spec c₃).imp fun _ c' h' ↦ ?_
    have hbefore : Grows c c₂ := h₁.1.trans h₂.1
    refine ⟨⟨(hbefore.trans h₃.toGrows).trans h'.1, ?_⟩, fun hfalls ↦ ?_⟩
    · rw [h'.2.2, h₃.scopes, h₂.2.1, h₁.2.2]
    · rw [h'.2.1]
      rcases h₂.2.2 (h₁.2.1.trans hfalls) with hemitted | hgoes
      · exact (h₁.1.here_le.trans_lt hemitted).trans_le h₃.here_le
      · exact hbefore.here_le.trans_lt (h₃.emits hgoes)
  · trivial

/-! ## Dynamic bindings -/

theorem adds_compileDynamicBind (core : CompileCore W) (children : List Child) (span : Position)
    (c : Compiler W) :
    Ensures (compileDynamicBind core compile children span) c (fun _ c' ↦ Adds c c') Stopped := by
  rw [compileDynamicBind.eq_def]
  split
  next target value =>
    refine Ensures.bind (flows_bindingTarget core target c) fun name c₁ h₁ ↦ ?_
    refine Ensures.bind (hcompile value false c₁) fun _ c₂ h₂ ↦ ?_
    refine (keeps_whenFalls (flows_emit_ (.dynamicBind name) (some span)).keeps c₂).imp
      fun _ c' h' ↦ ?_
    exact (h₁.1.adds h₁.2 h₂).appends h'
  · trivial

/-! ## Exceptions -/

/-- Catch clauses change their entry and add to the code. -/
theorem grows_compileCatches {entry : ℕ} (pending : Option (ℕ × ℕ)) (tail : Bool) :
    ∀ {clauses : List CatchClause} {c : Compiler W}, Grows c₀ c →
    c₀.context.handlers.length ≤ entry →
    Ensures (compileCatches compile entry pending tail clauses) c (fun jumps c' ↦ Grows c₀ c' ∧
      c.here ≤ c'.here ∧ c'.context.scopes.scopes = c.context.scopes.scopes ∧
      ∀ jump ∈ jumps, c₀.here ≤ jump) Stopped
  | [], c, h, _ => ⟨h, le_rfl, rfl, nofun⟩
  | clause :: clauses, c, h, hentry => by
    rw [compileCatches]
    refine Ensures.bind (codeLength_spec c) fun target _ h₀ ↦ ?_
    rw [h₀.2]
    refine Ensures.bind (pushScope_spec c) fun _ c₁ h₁ ↦ ?_
    refine Ensures.bind (declareName_spec clause.name (some clause.position) c₁)
      fun binding c₂ h₂ ↦ ?_
    obtain ⟨hgrows₂, -, -, -, -, -, -, hdeclares⟩ := h₂
    have hbefore : Grows c₀ c₂ := (h.trans h₁.1).trans hgrows₂
    refine Ensures.bind (grows_updateHandler hbefore hentry ?_) fun _ c₃ h₃ ↦ ?_
    · exact fun e ↦ ⟨rfl, .inl rfl⟩
    -- the handler is reached by unwinding, whatever came before it
    refine Ensures.bind (keeps_setFallthrough true c₃) fun _ c₄ h₄ ↦ ?_
    refine Ensures.bind (adds_compileSequence hcompile [clause.handler] tail c₄) fun _ c₅ h₅ ↦ ?_
    refine Ensures.bind (leaveRegion_spec pending c₅) fun jump c₆ h₆ ↦ ?_
    refine Ensures.bind (popScope_spec c₆) fun _ c₇ h₇ ↦ ?_
    have hhandler : Grows c₃ c₅ := h₄.toGrows.trans h₅.toGrows
    have hafter : Grows c₃ c₇ := (hhandler.trans h₆.1.toGrows).trans h₇.1
    have hscopes : c₇.context.scopes.scopes = c.context.scopes.scopes := by
      rw [h₇.2.2, h₆.1.scopes, h₅.scopes, h₄.scopes, h₃.2.2, hdeclares.tail, h₁.2.2]
    have hhere : c.here ≤ c₃.here := h₃.2.1 ▸ (h₁.1.trans hgrows₂).here_le
    refine Ensures.bind (grows_compileCatches pending tail (h₃.1.trans hafter) hentry)
      fun jumps c' h' ↦ ?_
    refine ⟨h'.1, (hhere.trans hafter.here_le).trans h'.2.1, h'.2.2.1.trans hscopes, ?_⟩
    intro jump' hjump'
    rcases mem_append.mp hjump' with hjump' | hjump'
    · exact (h₃.1.trans hhandler).here_le.trans (h₆.2 jump' hjump')
    · exact h'.2.2.2 jump' hjump'

theorem grows_compileFinally {entry : ℕ} (value flag : ℕ) {jumps : List ℕ} (body : List Child)
    (span : Position) (h : Grows c₀ c) (hentry : c₀.context.handlers.length ≤ entry)
    (hjumps : ∀ jump ∈ jumps, c₀.here ≤ jump) :
    Ensures (compileFinally compile entry value flag jumps body span) c (fun _ c' ↦ Grows c₀ c' ∧
      c.here ≤ c'.here ∧ c'.context.scopes.scopes = c.context.scopes.scopes) Stopped := by
  refine Ensures.bind (codeLength_spec c) fun target _ h₀ ↦ ?_
  rw [h₀.2]
  refine Ensures.bind (grows_updateHandler h hentry ?_) fun _ c₁ h₁ ↦ ?_
  · exact fun e ↦ ⟨rfl, .inl rfl⟩
  refine Ensures.bind (grows_patchJumps h₁.1 hjumps) fun _ c₂ h₂ ↦ ?_
  refine Ensures.bind (keeps_setFallthrough true c₂) fun _ c₃ h₃ ↦ ?_
  refine Ensures.bind (adds_compileSequence hcompile body false c₃) fun _ c₄ h₄ ↦ ?_
  refine Ensures.bind (keeps_falls c₄) fun fell c₅ h₅ ↦ ?_
  refine Ensures.bind (keeps_whenFalls (keeps_emitResume value flag span) c₅) fun _ c₆ h₆ ↦ ?_
  refine (keeps_setFallthrough fell c₆).imp fun _ c' h' ↦ ?_
  have hafter : Appends c₂ c' := (((h₃.trans h₄.toAppends).trans h₅).trans h₆).trans h'
  refine ⟨h₂.1.trans hafter.toGrows, ?_, ?_⟩
  · exact (h₂.2.1.trans h₁.2.1).ge.trans hafter.here_le
  · rw [hafter.scopes, h₂.2.2, h₁.2.2]

theorem grows_joinRegions {entry : ℕ} (pending : Option (ℕ × ℕ)) {jumps : List ℕ}
    (finallyBody : List Child) (span : Position) (h : Grows c₀ c)
    (hentry : c₀.context.handlers.length ≤ entry) (hjumps : ∀ jump ∈ jumps, c₀.here ≤ jump) :
    Ensures (joinRegions compile entry pending jumps finallyBody span) c (fun _ c' ↦ Grows c₀ c' ∧
      c.here ≤ c'.here ∧ c'.context.scopes.scopes = c.context.scopes.scopes) Stopped := by
  rw [joinRegions.eq_def]
  split
  · exact grows_compileFinally hcompile _ _ finallyBody span h hentry hjumps
  · refine Ensures.bind (codeLength_spec c) fun target _ ⟨_, hc⟩ ↦ ?_
    subst hc
    refine Ensures.bind (grows_patchJumps h hjumps) fun _ c₁ h₁ ↦ ?_
    refine (keeps_setFallthrough _ c₁).imp fun _ c' h' ↦ ?_
    refine ⟨h₁.1.trans h'.toGrows, h₁.2.1.ge.trans h'.here_le, ?_⟩
    rw [h'.scopes, h₁.2.2]

theorem adds_compileRegions (body : List Child) (catches : List CatchClause)
    (finallyBody : List Child) (span : Position) (tail : Bool) (c : Compiler W) :
    Ensures (compileRegions compile body catches finallyBody span tail) c
      (fun _ c' ↦ Adds c c') Stopped := by
  refine Ensures.bind (flows_declarePending _ c) fun pending c₁ h₁ ↦ ?_
  refine Ensures.bind (flows_resetFlag pending span c₁) fun _ c₂ h₂ ↦ ?_
  have hbefore : Appends c c₂ := h₁.1.trans h₂.1
  refine Ensures.bind (openHandler_spec pending c₂) fun entry c₃ h₃ ↦ ?_
  have hentry : c.context.handlers.length ≤ entry := h₃.2.2.2 ▸ hbefore.handlers_le
  refine Ensures.bind (adds_compileSequence hcompile body _ c₃) fun _ c₄ h₄ ↦ ?_
  refine Ensures.bind (leaveRegion_spec pending c₄) fun bodyJumps c₅ h₅ ↦ ?_
  have hbody : Grows c c₄ := (hbefore.toGrows.trans h₃.1).trans h₄.toGrows
  refine Ensures.bind (codeLength_spec c₅) fun stop _ h₆ ↦ ?_
  rw [h₆.2]
  refine Ensures.bind (grows_updateHandler (hbody.trans h₅.1.toGrows) hentry ?_) fun _ c₆ h₇ ↦ ?_
  · exact fun e ↦ ⟨rfl, .inr h₆.1.le⟩
  refine Ensures.bind (grows_compileCatches hcompile pending _ h₇.1 hentry)
    fun catchJumps c₇ h₈ ↦ ?_
  -- only jumps of this form are patched
  have hjumps : ∀ jump ∈ bodyJumps ++ catchJumps, c.here ≤ jump := by
    intro jump hjump
    rcases mem_append.mp hjump with hjump | hjump
    · exact hbody.here_le.trans (h₅.2 jump hjump)
    · exact h₈.2.2.2 jump hjump
  refine Ensures.bind (grows_joinRegions hcompile pending finallyBody span h₈.1 hentry hjumps)
    fun _ c₈ h₉ ↦ ?_
  rw [modifyContext, ensures_modify]
  refine ⟨⟨h₉.1.trans (.of_eq rfl rfl rfl rfl rfl), ?_⟩, fun hfalls ↦ ?_⟩
  · change c₈.context.scopes.scopes = c.context.scopes.scopes
    rw [h₉.2.2, h₈.2.2.1, h₇.2.2, h₅.1.scopes, h₄.scopes, h₃.2.1, hbefore.scopes]
  · have hbody' := h₄.emits (by rw [h₃.2.2.1, h₂.2, h₁.2, hfalls])
    calc c.here ≤ c₃.here := (hbefore.toGrows.trans h₃.1).here_le
      _ < c₄.here := hbody'
      _ ≤ c₅.here := h₅.1.here_le
      _ = c₆.here := h₇.2.1.symm
      _ ≤ c₇.here := h₈.2.1
      _ ≤ c₈.here := h₉.2.1

theorem adds_compileTry (children : List Child) (span : Position) (tail : Bool) (c : Compiler W) :
    Ensures (compileTry compile children span tail) c (fun _ c' ↦ Adds c c') Stopped := by
  rw [compileTry]
  dsimp only
  split
  · trivial
  · refine Ensures.bind (flows_parseClauses _ c) fun _ c₁ h₁ ↦ ?_
    exact (adds_compileRegions hcompile _ _ _ span tail c₁).imp fun _ c' h' ↦ h₁.1.adds h₁.2 h'

/-! ## Forms -/

theorem adds_compileExpanded (core : CompileCore W) {rest : FormCompiler W} (hrest : Adding rest)
    (child : Child) (tail top : Bool) (c : Compiler W) :
    Ensures (compileExpanded core compile rest child tail top) c (fun _ c' ↦ Adds c c')
      Stopped := by
  rw [compileExpanded.eq_def]
  dsimp only
  split
  · rw [ensures_bind, ensures_get]
    split
    · exact adds_emit c _ _
    · exact adds_marked hrest top tail child c
  · split
    · rw [ensures_bind, setTopLevel, ensures_modify]
      refine (adds_compileSequence hcompile _ tail _).imp fun _ c' h' ↦ ?_
      exact Appends.adds (keeps_setTopLevel top c) rfl h'
    · exact adds_compileLet hcompile _ child.span tail c
    · exact adds_compileTry hcompile _ child.span tail c
    · exact adds_compileDynamicBind hcompile core _ child.span c
    · exact adds_compileDynamicUnbind core _ child.span c
    · exact adds_marked hrest top tail child c
  · exact adds_marked hrest top tail child c

end Forms

theorem destructure_spec (form : Form) (span : Position) (c : Compiler W) :
    Ensures (destructure form span) c (fun _ c' ↦ ∃ next, c' = { c with nextDestructureId := next })
      Stopped := by
  rw [destructure, ensures_bind, ensures_get]
  split
  next expanded next _ => exact ⟨next, rfl⟩
  · trivial
  · trivial

/-- **Compilation only adds**, if that of the forms which are left open does. -/
theorem compileForm_adds (core : CompileCore W) {rest : FormCompiler W} (hrest : Adding rest) :
    ∀ fuel, Adding (compileForm core rest fuel)
  | 0 => fun _ _ _ ↦ trivial
  | fuel + 1 => fun child tail c ↦ by
    rw [compileForm, ensures_bind, ensures_get, ensures_bind, setTopLevel, ensures_modify,
      ensures_whenFalls]
    have hmark : Appends c { c with topLevel := false } := keeps_setTopLevel false c
    split_ifs with hfalls
    · refine Ensures.bind (destructure_spec child.form child.span _) ?_
      rintro expanded _ ⟨next, rfl⟩
      have hready : Appends c { c with topLevel := false, nextDestructureId := next } :=
        ⟨.of_eq rfl rfl rfl rfl rfl, rfl⟩
      split
      · rw [ensures_bind, setTopLevel, ensures_modify]
        refine (compileForm_adds core hrest fuel _ tail _).imp fun _ c' h' ↦ ?_
        refine Appends.adds ?_ ?_ h'
        · exact ⟨.of_eq rfl rfl rfl rfl rfl, rfl⟩
        · rfl
      · refine (adds_compileExpanded (compileForm_adds core hrest fuel) core hrest child tail _
          _).imp fun _ c' h' ↦ ?_
        exact hready.adds rfl h'
    · exact .of_dead hmark (Bool.not_eq_true _ ▸ hfalls)

end Hara.Vm
