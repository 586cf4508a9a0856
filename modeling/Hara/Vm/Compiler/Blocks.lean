import Hara.Lib.Packed
import Hara.Vm.Activation
import Hara.Vm.Compiler.Growth

/-!
# How compiled forms end

`Compiled` says that what was compiled between two states of the compiler stands in the code of an
activation, and `Runs` that this code, entered in a given run, ends as pre- and postconditions on
the world say. There is one rule for each form: sequences (`runs_sequence`) and a body with a
finally region, which is run however the body ends (`runs_tryFinally`).
-/

namespace Hara.Vm

open EStateM List Activation

variable {H W : Type} {rt : Runtime H} {program : Program} {A : Activation program}
  {c c₁ c₂ c' : Compiler W} {own : List TryEntry}

/-! ## Placement -/

/-- The entry without the depth, which is filled in when the function is finished. -/
def TryEntry.clear (e : TryEntry) : TryEntry := { e with depth := 0 }

/-- What was compiled from `c` to `c'` stands in the function of the activation, with the entries
`own` for its handlers. -/
structure Compiled (A : Activation program) (c : Compiler W) (own : List TryEntry)
    (c' : Compiler W) : Prop where
  code : ∀ ip, c.here ≤ ip → ip < c'.here → A.prototype.code[ip]? = c'.context.code[ip]?
  handlers : c'.context.handlers = c.context.handlers ++ own.map TryEntry.clear
  owns : A.Owns ⟨c.here, c'.here, own⟩
  constants : c'.constants <+: program.constants
  locals : c'.context.scopes.highWater ≤ A.locals

namespace Compiled

/-- Code that was compiled in two steps. -/
theorem split (h : Compiled A c own c') (h₁ : Grows c c₁) (h₂ : Grows c₁ c') :
    ∃ own₁ own₂, own = own₁ ++ own₂ ∧ (∀ e ∈ own₁, e.stop ≤ c₁.here) ∧
      (∀ e ∈ own₂, c₁.here ≤ e.start) ∧ Compiled A c own₁ c₁ ∧ Compiled A c₁ own₂ c' := by
  obtain ⟨added₁, hadded₁, hwithin₁⟩ := h₁.handlers
  obtain ⟨added₂, hadded₂, hwithin₂⟩ := h₂.handlers
  have hown : own.map TryEntry.clear = added₁ ++ added₂ := by
    have hboth := h.handlers
    rw [hadded₂, hadded₁, append_assoc] at hboth
    exact (append_cancel_left hboth).symm
  obtain ⟨own₁, own₂, rfl, rfl, rfl⟩ := map_eq_append_iff.mp hown
  have hstop : ∀ e ∈ own₁, e.stop ≤ c₁.here :=
    fun e he ↦ (hwithin₁ e.clear (mem_map_of_mem he)).2
  have hstart : ∀ e ∈ own₂, c₁.here ≤ e.start :=
    fun e he ↦ (hwithin₂ e.clear (mem_map_of_mem he)).1
  refine ⟨own₁, own₂, rfl, hstop, hstart, ?_, ?_⟩
  · refine ⟨fun ip hfrom hto ↦ ?_, hadded₁, h.owns.left h₂.here_le hstop hstart,
      h₂.constants.trans h.constants, h₂.highWater.trans h.locals⟩
    obtain ⟨rest, hrest⟩ := h₂.code
    rw [h.code ip hfrom (hto.trans_le h₂.here_le), ← hrest, getElem?_append_left hto]
  · exact ⟨fun ip hfrom ↦ h.code ip (h₁.here_le.trans hfrom), hadded₂,
      h.owns.right h₁.here_le hstop hstart, h.constants, h.locals⟩

/-- Leaves out a first step that adds no entries. -/
theorem after (h : Compiled A c own c') (h₁ : Grows c c₁) (h₂ : Grows c₁ c')
    (hsame : c₁.context.handlers = c.context.handlers) : Compiled A c₁ own c' := by
  obtain ⟨own₁, own₂, rfl, -, -, hfirst, hsecond⟩ := h.split h₁ h₂
  have hown₁ : own₁.map TryEntry.clear = [] := by
    have := hfirst.handlers
    rwa [hsame, self_eq_append_right] at this
  rw [map_eq_nil_iff.mp hown₁]
  exact hsecond

/-- Leaves out a last step that adds no entries. -/
theorem before (h : Compiled A c own c') (h₁ : Grows c c₁) (h₂ : Grows c₁ c')
    (hsame : c'.context.handlers = c₁.context.handlers) : Compiled A c own c₁ := by
  obtain ⟨own₁, own₂, rfl, -, -, hfirst, hsecond⟩ := h.split h₁ h₂
  have hown₂ : own₂.map TryEntry.clear = [] := by
    have := hsecond.handlers
    rwa [hsame, self_eq_append_right] at this
  rw [map_eq_nil_iff.mp hown₂, append_nil]
  exact hfirst

/-- An emitted instruction in its place. -/
theorem emitted (h : Compiled A c own c') {code rest : List Instruction}
    (hcode : code ++ rest <+: c'.context.code) (hfrom : c.here ≤ code.length) (k : ℕ)
    {i : Instruction} (hi : rest[k]? = some i) : A.prototype.code[code.length + k]? = some i := by
  obtain ⟨hk, -⟩ := List.getElem?_eq_some_iff.mp hi
  obtain ⟨more, hmore⟩ := hcode
  have hlt : code.length + k < c'.here := by
    rw [Compiler.here, ← hmore, length_append, length_append]
    omega
  rw [h.code _ (hfrom.trans (Nat.le_add_right ..)) hlt, ← hmore, append_assoc,
    getElem?_append_right (Nat.le_add_right ..), Nat.add_sub_cancel_left,
    getElem?_append_left hk, hi]

end Compiled

/-! ## Runs of compiled code -/

/-- Both states read names in the same way. -/
structure Similar (c c' : Compiler W) : Prop where
  scopes : c'.context.scopes.scopes = c.context.scopes.scopes
  highWater : c.context.scopes.highWater ≤ c'.context.scopes.highWater
  indexed : c.Indexed → c'.Indexed
  globals : c'.globals = c.globals
  world : c'.world = c.world

/-- What similar states agree on. -/
def Stable (C : Compiler W → Prop) : Prop := ∀ ⦃c c'⦄, Similar c c' → C c → C c'

theorem Appends.similar (h : Appends c c') (hglobals : c'.globals = c.globals)
    (hworld : c'.world = c.world) : Similar c c' :=
  ⟨h.scopes, h.highWater, h.indexed, hglobals, hworld⟩

/-- The code that `x` compiles in a state with `C`, entered in the run of `m₀` in a world with `I`,
completes in a world with `V` or raises an error in a world with `E`. -/
def Runs (rt : Runtime H) (A : Activation program) (m₀ : Machine H) (C : Compiler W → Prop)
    (x : CompileM W Unit) (I V E : World H → Prop) : Prop :=
  ∀ ⦃c c'⦄, x c = .ok () c' → c.context.fallthrough = true → C c → C c' ∧
    ∀ ⦃own⦄, Compiled A c own c' →
    ∀ ⦃m : Machine H⦄, Relation.ReflTransGen (Turn rt program) (.running m₀) (.running m) →
    ∀ ⦃height⦄, A.At c.here height m → I m.world →
    ∀ ⦃s⦄, Leaves rt program (A.region c.here c'.here) (.running m) s →
      Ends rt A ⟨c.here, c'.here, own⟩ height (height + 1) c'.context.fallthrough V E s

theorem whenFalls_of_falls {x : CompileM W Unit} (h : c.context.fallthrough = true) :
    whenFalls x c = x c := by
  change (if c.context.fallthrough then x else pure ()) c = x c
  rw [if_pos h]

theorem whenFalls_of_dead {x : CompileM W Unit} (h : c.context.fallthrough = false) :
    whenFalls x c = .ok () c := by
  change (if c.context.fallthrough then x else pure ()) c = .ok () c
  rw [if_neg (by simp [h])]
  rfl

theorem compileStatements_of_dead (compile : FormCompiler W) (top tail : Bool)
    (children : List Child) (h : c.context.fallthrough = false) :
    compileStatements compile top tail children c = .ok () c := by
  match children with
  | [] => rfl
  | [_] => exact whenFalls_of_dead h
  | _ :: _ :: _ => exact whenFalls_of_dead h

section Rules

variable {m₀ : Machine H} {C : Compiler W → Prop} {x y : CompileM W Unit}
  {I V E I' V' E' : World H → Prop}

theorem Runs.imp (h : Runs rt A m₀ C x I V E) (hI : ∀ w, I' w → I w) (hV : ∀ w, V w → V' w)
    (hE : ∀ w, E w → E' w) : Runs rt A m₀ C x I' V' E' := by
  intro c c' hx hfalls hc
  obtain ⟨hc', hends⟩ := h hx hfalls hc
  exact ⟨hc', fun own hown m hreach height hat hI' s hleaves ↦
    (hends hown hreach hat (hI _ hI') hleaves).mono hV hE⟩

/-- Whether a form stands at the top level does not matter to its code. -/
theorem Runs.of_marked (hC : Stable C) (h : Runs rt A m₀ C x I V E)
    (hy : ∀ c : Compiler W, c.context.fallthrough = true → ∃ topLevel,
      y c = x { c with topLevel }) : Runs rt A m₀ C y I V E := by
  intro c c' hx hfalls hc
  obtain ⟨top, hmark⟩ := hy c hfalls
  have hmarked : Appends c { c with topLevel := top } := keeps_setTopLevel top c
  rw [hmark] at hx
  obtain ⟨hc', hends⟩ := h hx hfalls (hC (hmarked.similar rfl rfl) hc)
  exact ⟨hc', fun own hown ↦
    hends ⟨hown.code, hown.handlers, hown.owns, hown.constants, hown.locals⟩⟩

end Rules

section Sequences

variable {m₀ : Machine H} {C : Compiler W → Prop} {compile : FormCompiler W}
  (hC : Stable C) (hcompile : Adding compile) {E : World H → Prop}

include hC hcompile

/-- Statements in turn, with what holds before each of them. -/
theorem runs_statements (top tail : Bool) : ∀ {children : List Child} {I : ℕ → World H → Prop},
    children ≠ [] →
    (∀ i child tail, children[i]? = some child →
      Runs rt A m₀ C (compile child tail) (I i) (I (i + 1)) E) →
    Runs rt A m₀ C (compileStatements compile top tail children) (I 0) (I children.length) E
  | [], _, hchildren, _ => absurd rfl hchildren
  | [last], _, _, hchild => by
    refine (hchild 0 last tail rfl).of_marked hC fun c hfalls ↦ ⟨top, ?_⟩
    rw [compileStatements, whenFalls_of_falls hfalls]
    rfl
  | child :: next :: children, I, _, hchild => by
    intro c c' hx hfalls hc
    rw [compileStatements_cons _ _ _ (cons_ne_nil _ _), whenFalls_of_falls hfalls] at hx
    have hmark : Appends c { c with topLevel := top } := keeps_setTopLevel top c
    obtain ⟨_, c₂, hfirst, hx⟩ := bind_eq_ok.mp
      (show (compile child false >>= _) { c with topLevel := top } = _ from hx)
    have hadds := (hcompile child false { c with topLevel := top }).of_ok hfirst
    obtain ⟨hc₂, hends⟩ := hchild 0 child false rfl hfirst hfalls (hC (hmark.similar rfl rfl) hc)
    obtain ⟨_, c₃, hpop, hrest⟩ := bind_eq_ok.mp hx
    have hgrows : Grows c c₂ := hmark.toGrows.trans hadds.toGrows
    cases hfalls₂ : c₂.context.fallthrough with
    | false =>
      rw [whenFalls_of_dead hfalls₂] at hpop
      cases hpop
      rw [compileStatements_of_dead _ _ _ _ hfalls₂] at hrest
      cases hrest
      refine ⟨hc₂, fun own hown m hreach height hat hI s hleaves ↦ ?_⟩
      rw [hfalls₂] at hends
      exact (hends (hown.after hmark.toGrows hadds.toGrows rfl) hreach hat hI hleaves).of_dead
    | true =>
      rw [whenFalls_of_falls hfalls₂] at hpop
      obtain rfl : c₂.emitted .pop (some child.span) = c₃ := (Result.ok.inj hpop).2
      have hemit : Appends c₂ (c₂.emitted .pop (some child.span)) :=
        (flows_emit_ .pop (some child.span) c₂).1
      obtain ⟨hc', hends'⟩ := runs_statements top tail (cons_ne_nil next children)
        (fun i child' tail h ↦ hchild (i + 1) child' tail h) hrest hfalls₂
        (hC (hemit.similar rfl rfl) hc₂)
      have hadds' := (adds_compileStatements hcompile top tail (cons_ne_nil next children) _).of_ok
        hrest
      refine ⟨hc', fun own hown m hreach height hat hI s hleaves ↦ ?_⟩
      obtain ⟨own₁, own₂, rfl, hstop, hstart, hown₁, hown₂⟩ :=
        hown.split hgrows (hemit.toGrows.trans hadds'.toGrows)
      have hhere := c₂.emitted_here .pop (some child.span)
      have hlt := hadds'.emits hfalls₂
      rw [hhere] at hlt
      -- the first statement, the `Pop`, and the other statements
      refine Ends.append hown.owns hgrows.here_le (Nat.lt_of_succ_lt hlt) hstop hstart hleaves
        (fun s₁ hleaves₁ ↦ hends (hown₁.after hmark.toGrows hadds.toGrows rfl) hreach hat hI
          hleaves₁) fun m₁ hreach₁ hat₁ hI₁ s₂ hleaves₂ ↦ ?_
      have hown₃ := hown₂.after hemit.toGrows hadds'.toGrows rfl
      have hcode : A.prototype.code[c₂.here]? = some .pop := hown₂.emitted hadds'.code le_rfl 0 rfl
      have howns : A.Owns ⟨c₂.here, c'.here, [] ++ own₂⟩ := hown₂.owns
      refine Ends.append howns (Nat.le_add_right _ 1) hlt (forall_mem_nil _) ?_ hleaves₂
        (fun s₁ hleaves₁ ↦ (hat₁.pop hcode).ends hleaves₁ hI₁)
        fun m₂ hreach₂ hat₂ hI₂ s₃ hleaves₃ ↦ ?_
      · rw [← hhere]
        exact fun e he ↦ (hown₃.owns.within e he).1
      · rw [← hhere] at hat₂ hleaves₃ ⊢
        exact hends' hown₃ ((hreach.trans hreach₁).trans hreach₂) hat₂ hI₂ hleaves₃

/-- `runs_statements` for `compileSequence`, which has a value for no statements at all. -/
theorem runs_sequence (tail : Bool) {children : List Child} {I : ℕ → World H → Prop}
    (hchild : ∀ i child tail, children[i]? = some child →
      Runs rt A m₀ C (compile child tail) (I i) (I (i + 1)) E) :
    Runs rt A m₀ C (compileSequence compile children tail) (I 0) (I children.length) E := by
  match children with
  | child :: children =>
    exact fun c c' hx ↦ runs_statements hC hcompile (c.topLevel && c.outer.isEmpty) tail
      (cons_ne_nil _ _) hchild hx
  | [] =>
    intro c c' hx hfalls hc
    obtain rfl : c.emitted .nil none = c' := (Result.ok.inj hx).2
    refine ⟨hC ((flows_emit_ .nil none c).1.similar rfl rfl) hc, ?_⟩
    intro own hown m _ height hat hI s hleaves
    have hcode : A.prototype.code[c.here]? = some .nil := hown.emitted prefix_rfl le_rfl 0 rfl
    have hmoves : Moves rt A m (c.here + 1) (height + 1) := hat.nil hcode
    rw [← c.emitted_here .nil none] at hmoves
    change Ends rt A _ height (height + 1) c.context.fallthrough (I 0) E s
    rw [hfalls]
    exact hmoves.ends hleaves hI

/-- A single statement. -/
theorem runs_singleton {child : Child} {I V : World H → Prop}
    (hchild : ∀ tail, Runs rt A m₀ C (compile child tail) I V E) (tail : Bool) :
    Runs rt A m₀ C (compileSequence compile [child] tail) I V E := by
  refine runs_sequence hC hcompile (I := fun i ↦ if i = 0 then I else V) tail ?_
  intro i child' tail' hi
  cases i with
  | zero => exact Option.some.inj hi ▸ hchild tail'
  | succ i => cases hi

end Sequences

/-! ## The layout of a finally region -/

/-- Only code was added. -/
structure Emitted (c : Compiler W) (code : List Instruction) (c' : Compiler W) : Prop where
  code : c'.context.code = c.context.code ++ code
  handlers : c'.context.handlers = c.context.handlers
  scopes : c'.context.scopes = c.context.scopes
  falls : c'.context.fallthrough = c.context.fallthrough
  constants : c'.constants = c.constants
  index : c'.constantIndex = c.constantIndex
  globals : c'.globals = c.globals
  world : c'.world = c.world

namespace Emitted

variable {code code' : List Instruction}

theorem trans (h : Emitted c code c₁) (h' : Emitted c₁ code' c₂) :
    Emitted c (code ++ code') c₂ where
  code := by rw [h'.code, h.code, append_assoc]
  handlers := h'.handlers.trans h.handlers
  scopes := h'.scopes.trans h.scopes
  falls := h'.falls.trans h.falls
  constants := h'.constants.trans h.constants
  index := h'.index.trans h.index
  globals := h'.globals.trans h.globals
  world := h'.world.trans h.world

theorem grows (h : Emitted c code c') : Grows c c' where
  code := h.code ▸ prefix_append ..
  handlers := ⟨[], by rw [h.handlers, append_nil], nofun⟩
  highWater := by rw [h.scopes]
  constants := h.constants ▸ prefix_rfl
  indexed hindexed := by
    rw [Compiler.Indexed, h.index, h.constants]
    exact hindexed

theorem similar (h : Emitted c code c') : Similar c c' :=
  ⟨by rw [h.scopes], by rw [h.scopes], h.grows.indexed, h.globals, h.world⟩

theorem here (h : Emitted c code c') : c'.here = c.here + code.length := by
  rw [Compiler.here, h.code, length_append]
  rfl

theorem of_emit {i : Instruction} {position : Option Position}
    (h : emit_ i position c = .ok () c') : Emitted c [i] c' := by
  obtain rfl := (Result.ok.inj h).2
  exact ⟨rfl, rfl, rfl, rfl, rfl, rfl, rfl, rfl⟩

theorem emit_ok {i : Instruction} {position : Option Position} {ip : ℕ}
    (h : emit i position c = .ok ip c') : ip = c.here ∧ Emitted c [i] c' := by
  obtain ⟨rfl, rfl⟩ := Result.ok.inj h
  exact ⟨rfl, rfl, rfl, rfl, rfl, rfl, rfl, rfl, rfl⟩

theorem of_marked {top : Bool} (h : Emitted { c with topLevel := top } code c') :
    Emitted c code c' :=
  ⟨h.code, h.handlers, h.scopes, h.falls, h.constants, h.index, h.globals, h.world⟩

/-- Patching a jump of the new code. -/
theorem patched {i : Instruction} (h : Emitted c (code ++ i :: code') c₁) (target : ℕ) :
    Emitted c (code ++ i.retarget target :: code')
      { c₁ with context := { c₁.context with
        code := c₁.context.code.modify (c.here + code.length)
          (Instruction.retarget target) } } where
  code := by
    change c₁.context.code.modify _ _ = _
    rw [h.code, ← append_assoc, Compiler.here, ← length_append,
      Lib.Packed.modify_middle, append_assoc]
  handlers := h.handlers
  scopes := h.scopes
  falls := h.falls
  constants := h.constants
  index := h.index
  globals := h.globals
  world := h.world

end Emitted

/-- The code behind a finally region at `here`. -/
def resumeCode (value flag here : ℕ) : List Instruction :=
  [.pop, .loadLocal flag, .jumpIfFalse (here + 5), .loadLocal value, .rethrow, .loadLocal value]

theorem emitResume_ok {value flag : ℕ} {span : Position}
    (h : emitResume value flag span c = .ok () c') :
    Emitted c (resumeCode value flag c.here) c' := by
  obtain ⟨_, c₁, h₁, h⟩ := bind_eq_ok.mp h
  obtain ⟨_, c₂, h₂, h⟩ := bind_eq_ok.mp h
  obtain ⟨jump, c₃, h₃, h⟩ := bind_eq_ok.mp h
  obtain ⟨_, c₄, h₄, h⟩ := bind_eq_ok.mp h
  obtain ⟨_, c₅, h₅, h⟩ := bind_eq_ok.mp h
  obtain ⟨rfl, hjump⟩ := Emitted.emit_ok h₃
  have hfirst : Emitted c [.pop, .loadLocal flag] c₂ :=
    (Emitted.of_emit h₁).trans (.of_emit h₂)
  have hrethrow : Emitted c
      ([.pop, .loadLocal flag] ++ .jumpIfFalse 0 :: [.loadLocal value, .rethrow]) c₅ :=
    ((hfirst.trans hjump).trans (.of_emit h₄)).trans (.of_emit h₅)
  obtain ⟨normal, c₆, h₆, h⟩ := bind_eq_ok.mp h
  obtain ⟨rfl, rfl⟩ := Result.ok.inj h₆
  obtain ⟨_, c₇, h₇, h⟩ := bind_eq_ok.mp h
  obtain rfl := (Result.ok.inj h₇).2
  have hpatched := hrethrow.patched c₅.here
  rw [← hfirst.here] at hpatched
  have hall := hpatched.trans (.of_emit h)
  rw [show c₅.here = c.here + 5 from hrethrow.here] at hall
  exact hall

/-- The states through which a body with a finally region is compiled: where the body begins
(`opened`) and ends (`left`), where the finally region begins (`entered`) and ends (`cleaned`). -/
structure FinallyLayout (compile : FormCompiler W) (body finallyBody : List Child)
    (c c' : Compiler W) where
  value : ℕ
  flag : ℕ
  opened : Compiler W
  left : Compiler W
  entered : Compiler W
  cleaned : Compiler W
  openedCode : opened.context.code = c.context.code ++ [.false, .storeLocal flag]
  openedHandlers : opened.context.handlers = c.context.handlers ++ [{
    start := opened.here, stop := 0, depth := 0, catches := [], finally_ := none,
    pendingValue := some value, pendingError := some flag }]
  openedFalls : opened.context.fallthrough = c.context.fallthrough
  similarOpened : Similar c opened
  valueSlot : value < opened.context.scopes.highWater
  flagSlot : flag < opened.context.scopes.highWater
  body : compileSequence compile body false opened = .ok () left
  enteredCode : entered.context.code = left.context.code ++
    if left.context.fallthrough then [.storeLocal value, .jump entered.here] else []
  enteredHandlers : entered.context.handlers =
    left.context.handlers.modify c.context.handlers.length fun e ↦
      { e with stop := entered.here, finally_ := some entered.here }
  enteredFalls : entered.context.fallthrough = true
  enteredConstants : entered.constants = left.constants
  similarEntered : Similar left entered
  cleanup : compileSequence compile finallyBody false entered = .ok () cleaned
  done : Emitted cleaned
    (if cleaned.context.fallthrough then resumeCode value flag cleaned.here else []) c'

theorem declareHidden_ok {slot : ℕ} (h : declareHidden c = .ok slot c') :
    ∃ stack, c' = { c with context := { c.context with scopes := stack } } ∧
      stack.scopes = c.context.scopes.scopes ∧
      c.context.scopes.highWater ≤ stack.highWater ∧ slot < stack.highWater := by
  obtain ⟨_, _, hget, h⟩ := bind_eq_ok.mp h
  obtain ⟨rfl, rfl⟩ := Result.ok.inj hget
  cases hstack : c.context.scopes.declareHidden with
  | error e =>
    simp only [hstack] at h
    cases h
  | ok result =>
    simp only [hstack] at h
    obtain ⟨rfl, rfl⟩ := Result.ok.inj h
    exact ⟨result.2, rfl, declareHidden_spec hstack⟩

theorem leaveRegion_ok {value flag : ℕ} {jumps : List ℕ}
    (h : leaveRegion (some (value, flag)) c = .ok jumps c') :
    Emitted c (if c.context.fallthrough then [.storeLocal value, .jump 0] else []) c' ∧
      jumps = (if c.context.fallthrough then [c.here + 1] else []) := by
  obtain ⟨_, _, hfalls, h⟩ := bind_eq_ok.mp h
  obtain ⟨rfl, rfl⟩ := Result.ok.inj hfalls
  split_ifs at h ⊢
  · obtain ⟨_, c₁, hstore, h⟩ := bind_eq_ok.mp h
    have hstore := Emitted.of_emit hstore
    obtain ⟨jump, c₂, hjump, h⟩ := bind_eq_ok.mp h
    obtain ⟨rfl, hjumped⟩ := Emitted.emit_ok hjump
    obtain ⟨rfl, rfl⟩ := Result.ok.inj h
    exact ⟨hstore.trans hjumped, by rw [hstore.here]; rfl⟩
  · obtain ⟨rfl, rfl⟩ := Result.ok.inj h
    exact ⟨⟨(append_nil _).symm, rfl, rfl, rfl, rfl, rfl, rfl, rfl⟩, rfl⟩

/-- The jump of the body is made to lead to the finally region. -/
theorem patchJumps_ok {value target : ℕ} {jumps : List ℕ} {falls : Bool} {code : List Instruction}
    (h : patchJumps jumps target c = .ok () c')
    (hcode : c.context.code = code ++ if falls then [.storeLocal value, .jump 0] else [])
    (hjumps : jumps = if falls then [code.length + 1] else []) :
    c' = { c with context := { c.context with
      code := code ++ if falls then [.storeLocal value, .jump target] else [] } } := by
  subst hjumps
  cases falls with
  | false =>
    obtain rfl := (Result.ok.inj h).2
    simp only [Bool.false_eq_true, if_false] at hcode ⊢
    rw [← hcode]
  | true =>
    obtain rfl := (Result.ok.inj h).2
    have hpatched : c.context.code.modify (code.length + 1) (Instruction.retarget target) =
        code ++ [.storeLocal value, .jump target] := by
      rw [hcode, modify_append_of_le (Nat.le_add_right _ 1), Nat.add_sub_cancel_left]
      rfl
    exact congrArg (fun code ↦ { c with context := { c.context with code } }) hpatched

theorem compileRegions_layout {compile : FormCompiler W} {body finallyBody : List Child}
    {span : Position} {tail : Bool} (hfinally : finallyBody ≠ [])
    (h : compileRegions compile body [] finallyBody span tail c = .ok () c') :
    Nonempty (FinallyLayout compile body finallyBody c c') := by
  have hempty : finallyBody.isEmpty = false := isEmpty_eq_false_iff.mpr hfinally
  simp only [compileRegions, hempty, Bool.not_false, Bool.and_false] at h
  -- the hidden slots, with the flag cleared
  obtain ⟨pending, c₁, hpending, h⟩ := bind_eq_ok.mp h
  obtain ⟨value, c₀, hvalue, hpending⟩ := bind_eq_ok.mp hpending
  obtain ⟨stack₀, rfl, hscopes₀, hhigh₀, hvalue⟩ := declareHidden_ok hvalue
  obtain ⟨flag, c₀, hflag, hpending⟩ := bind_eq_ok.mp hpending
  obtain ⟨stack, rfl, hscopes, hhigh, hflag⟩ := declareHidden_ok hflag
  obtain ⟨rfl, rfl⟩ := Result.ok.inj hpending
  obtain ⟨_, c₂, hreset, h⟩ := bind_eq_ok.mp h
  obtain ⟨_, _, hfalse, hstore⟩ := bind_eq_ok.mp hreset
  have hreset := (Emitted.of_emit hfalse).trans (.of_emit hstore)
  -- the body inside its entry, and the way out of it
  obtain ⟨entry, c₃, hopen, h⟩ := bind_eq_ok.mp h
  obtain ⟨rfl, hc₃⟩ := Result.ok.inj hopen
  obtain ⟨_, c₄, hbody, h⟩ := bind_eq_ok.mp h
  obtain ⟨jumps, c₅, hleave, h⟩ := bind_eq_ok.mp h
  obtain ⟨hleft, hjumps⟩ := leaveRegion_ok hleave
  obtain ⟨stop, _, hstop, h⟩ := bind_eq_ok.mp h
  obtain ⟨rfl, rfl⟩ := Result.ok.inj hstop
  obtain ⟨_, c₆, hupdate, h⟩ := bind_eq_ok.mp h
  obtain rfl := (Result.ok.inj hupdate).2
  -- without clauses the body leads to the finally region
  obtain ⟨_, _, hcatches, h⟩ := bind_eq_ok.mp h
  obtain ⟨rfl, rfl⟩ := Result.ok.inj hcatches
  rw [append_nil] at h
  obtain ⟨_, c₇, hjoin, h⟩ := bind_eq_ok.mp h
  obtain rfl := (Result.ok.inj h).2
  obtain ⟨target, _, htarget, hjoin⟩ := bind_eq_ok.mp hjoin
  obtain ⟨rfl, rfl⟩ := Result.ok.inj htarget
  obtain ⟨_, c₈, hfinal, hjoin⟩ := bind_eq_ok.mp hjoin
  obtain rfl := (Result.ok.inj hfinal).2
  obtain ⟨_, c₉, hpatch, hjoin⟩ := bind_eq_ok.mp hjoin
  obtain rfl := patchJumps_ok hpatch hleft.code hjumps
  obtain ⟨_, c₁₀, hset, hjoin⟩ := bind_eq_ok.mp hjoin
  have hc₁₀ := (Result.ok.inj hset).2
  obtain ⟨_, c₁₁, hcleanup, hjoin⟩ := bind_eq_ok.mp hjoin
  obtain ⟨fell, _, hfell, hjoin⟩ := bind_eq_ok.mp hjoin
  obtain ⟨rfl, rfl⟩ := Result.ok.inj hfell
  obtain ⟨_, c₁₂, hresume, hjoin⟩ := bind_eq_ok.mp hjoin
  obtain rfl := (Result.ok.inj hjoin).2
  have hdone : Emitted c₁₁
      (if c₁₁.context.fallthrough then resumeCode value flag c₁₁.here else []) c₁₂ := by
    cases hfell : c₁₁.context.fallthrough with
    | false =>
      rw [whenFalls_of_dead hfell] at hresume
      obtain rfl := (Result.ok.inj hresume).2
      exact ⟨(append_nil _).symm, rfl, rfl, rfl, rfl, rfl, rfl, rfl⟩
    | true =>
      rw [whenFalls_of_falls hfell] at hresume
      exact emitResume_ok hresume
  have hhere : c₁₀.here = c₅.here := by
    rw [← hc₁₀]
    change (c₄.context.code ++ _).length = c₅.context.code.length
    rw [hleft.code, length_append, length_append]
    split_ifs <;> rfl
  refine ⟨{
    value, flag, opened := c₃, left := c₄, entered := c₁₀, cleaned := c₁₁
    body := hbody, cleanup := hcleanup
    openedCode := hc₃ ▸ hreset.code
    openedHandlers := hc₃ ▸ congrArg (· ++ _) hreset.handlers
    openedFalls := hc₃ ▸ hreset.falls
    similarOpened := ?_, valueSlot := ?_, flagSlot := ?_
    enteredCode := ?_, enteredHandlers := ?_
    enteredFalls := hc₁₀ ▸ rfl
    enteredConstants := hc₁₀ ▸ hleft.constants
    similarEntered := ?_
    done := ⟨hdone.code, hdone.handlers, hdone.scopes, rfl, hdone.constants, hdone.index,
      hdone.globals, hdone.world⟩ }⟩
  · rw [← hc₃]
    refine ⟨?_, ?_, hreset.grows.indexed, hreset.globals, hreset.world⟩
    · exact (congrArg ScopeStack.scopes hreset.scopes).trans (hscopes.trans hscopes₀)
    · exact (hhigh₀.trans hhigh).trans (congrArg ScopeStack.highWater hreset.scopes).ge
  · rw [← hc₃]
    exact (hvalue.trans_le hhigh).trans_le (congrArg ScopeStack.highWater hreset.scopes).ge
  · rw [← hc₃]
    exact hflag.trans_le (congrArg ScopeStack.highWater hreset.scopes).ge
  · rw [hhere, ← hc₁₀]
    rfl
  · rw [hhere, ← hc₁₀]
    change (c₅.context.handlers.modify c₂.context.handlers.length _).modify _ _ = _
    rw [hleft.handlers, hreset.handlers, modify_modify_eq]
    rfl
  · rw [← hc₁₀]
    refine ⟨?_, ?_, hleft.grows.indexed, hleft.globals, hleft.world⟩
    · exact congrArg ScopeStack.scopes hleft.scopes
    · exact (congrArg ScopeStack.highWater hleft.scopes).ge

namespace FinallyLayout

variable {compile : FormCompiler W} {body finallyBody : List Child}
  (L : FinallyLayout compile body finallyBody c c')

theorem opened_here : L.opened.here = c.here + 2 := by
  rw [Compiler.here, L.openedCode, length_append]
  rfl

theorem entered_here :
    L.entered.here = L.left.here + if L.left.context.fallthrough then 2 else 0 := by
  rw [Compiler.here, L.enteredCode, length_append]
  split_ifs <;> rfl

theorem bodyAdds (hcompile : Adding compile) : Adds L.opened L.left :=
  (adds_compileSequence hcompile body false L.opened).of_ok L.body

theorem cleanupAdds (hcompile : Adding compile) : Adds L.entered L.cleaned :=
  (adds_compileSequence hcompile finallyBody false L.entered).of_ok L.cleanup

/-- The entry of the region in the table of the activation. -/
structure Entry (e : TryEntry) : Prop where
  start : e.start = L.opened.here
  stop : e.stop = L.entered.here
  catches : e.catches = []
  finally_ : e.finally_ = some L.entered.here
  value : e.pendingValue = some L.value
  flag : e.pendingError = some L.flag

/-- Where the parts of the region stand. -/
theorem place (hcompile : Adding compile) (hown : Compiled A c own c') :
    ∃ e bodyOwn cleanupOwn, own = e :: (bodyOwn ++ cleanupOwn) ∧ L.Entry e ∧
      Compiled A L.opened bodyOwn L.left ∧ Compiled A L.entered cleanupOwn L.cleaned := by
  have hbody := L.bodyAdds hcompile
  have hcleanup := L.cleanupAdds hcompile
  obtain ⟨bodyAdded, hbodyAdded, hbodyWithin⟩ := hbody.handlers
  obtain ⟨cleanupAdded, hcleanupAdded, hcleanupWithin⟩ := hcleanup.handlers
  have hhandlers := hown.handlers
  rw [L.done.handlers, hcleanupAdded, L.enteredHandlers, hbodyAdded, L.openedHandlers,
    append_assoc, singleton_append, Lib.Packed.modify_middle, append_assoc,
    cons_append] at hhandlers
  obtain ⟨e, own', rfl, he, hown'⟩ := map_eq_cons_iff.mp (append_cancel_left hhandlers).symm
  obtain ⟨bodyOwn, cleanupOwn, rfl, rfl, rfl⟩ := map_eq_append_iff.mp hown'
  have hentry : L.Entry e :=
    ⟨congrArg TryEntry.start he, congrArg TryEntry.stop he, congrArg TryEntry.catches he,
      congrArg TryEntry.finally_ he, congrArg TryEntry.pendingValue he,
      congrArg TryEntry.pendingError he⟩
  have hentered : L.left.here ≤ L.entered.here := L.entered_here ▸ Nat.le_add_right ..
  have hdone : L.cleaned.here ≤ c'.here := L.done.grows.here_le
  have hopened : c.here ≤ L.opened.here := L.opened_here ▸ Nat.le_add_right ..
  have hbodyOwn : ∀ x ∈ bodyOwn, L.opened.here ≤ x.start ∧ x.stop ≤ L.left.here :=
    fun x hx ↦ hbodyWithin x.clear (mem_map_of_mem hx)
  have hcleanupOwn : ∀ x ∈ cleanupOwn, L.entered.here ≤ x.start ∧ x.stop ≤ L.cleaned.here :=
    fun x hx ↦ hcleanupWithin x.clear (mem_map_of_mem hx)
  have hbefore : ∀ x ∈ e :: bodyOwn, x.stop ≤ L.entered.here := by
    intro x hx
    rcases mem_cons.mp hx with rfl | hx
    · exact hentry.stop.le
    · exact (hbodyOwn x hx).2.trans hentered
  have howns : A.Owns ⟨c.here, c'.here, (e :: bodyOwn) ++ cleanupOwn⟩ := hown.owns
  have hcode : L.left.context.code <+: c'.context.code :=
    (((L.enteredCode ▸ prefix_append ..).trans hcleanup.code).trans L.done.grows.code :)
  have hconstants : L.cleaned.constants <+: program.constants := L.done.constants ▸ hown.constants
  have hlocals : L.cleaned.context.scopes.highWater ≤ A.locals := L.done.scopes ▸ hown.locals
  refine ⟨e, bodyOwn, cleanupOwn, rfl, hentry, ?_, ?_⟩
  · refine ⟨fun ip hfrom hto ↦ ?_, hbodyAdded, ?_, ?_, ?_⟩
    · obtain ⟨rest, hrest⟩ := hcode
      have hlt : ip < c'.here := hto.trans_le (hentered.trans (hcleanup.here_le.trans hdone))
      rw [hown.code ip (hopened.trans hfrom) hlt, ← hrest, getElem?_append_left hto]
    · refine (howns.left (hcleanup.here_le.trans hdone) hbefore fun x hx ↦
        (hcleanupOwn x hx).1).inside hopened hentered hbodyOwn fun target htarget ↦ .inr ?_
      rw [TryEntry.targets, hentry.catches, hentry.finally_] at htarget
      rw [mem_singleton.mp htarget]
      exact hentered
    · exact L.enteredConstants ▸ hcleanup.constants.trans hconstants
    · exact (L.similarEntered.highWater.trans hcleanup.highWater).trans hlocals
  · refine ⟨fun ip hfrom hto ↦ ?_, hcleanupAdded, ?_, hconstants, hlocals⟩
    · obtain ⟨rest, hrest⟩ := L.done.grows.code
      rw [hown.code ip ((hopened.trans hbody.here_le).trans (hentered.trans hfrom))
        (hto.trans_le hdone), ← hrest, getElem?_append_left hto]
    · have hright := howns.right ((hopened.trans hbody.here_le).trans hentered) hbefore fun x hx ↦
        (hcleanupOwn x hx).1
      rw [← append_nil cleanupOwn] at hright
      exact hright.left hdone (fun x hx ↦ (hcleanupOwn x hx).2) (forall_mem_nil _)

section Run

variable (hcompile : Adding compile) (hown : Compiled A c own c') {m : Machine H} {s : Status H}
  {height : ℕ}

include hcompile

theorem entered_lt : L.entered.here < L.cleaned.here :=
  (L.cleanupAdds hcompile).emits L.enteredFalls

/-- The code up to the end of the body and the jump behind it. -/
theorem entered_code : L.entered.context.code <+: c'.context.code :=
  (L.cleanupAdds hcompile).code.trans L.done.grows.code

theorem opened_code : c.context.code ++ [.false, .storeLocal L.flag] <+: c'.context.code := by
  have hleft : L.left.context.code <+: L.entered.context.code := L.enteredCode ▸ prefix_append ..
  rw [← L.openedCode]
  exact ((L.bodyAdds hcompile).code.trans hleft).trans (L.entered_code hcompile)

include hown

theorem slots : L.value < A.locals ∧ L.flag < A.locals := by
  have hlocals : L.cleaned.context.scopes.highWater ≤ A.locals := L.done.scopes ▸ hown.locals
  have hopened := ((L.bodyAdds hcompile).highWater.trans L.similarEntered.highWater).trans
    ((L.cleanupAdds hcompile).highWater.trans hlocals)
  exact ⟨L.valueSlot.trans_le hopened, L.flagSlot.trans_le hopened⟩

/-- The way to the body. -/
theorem enter (hleaves : Leaves rt program (A.region c.here c'.here) (.running m) s)
    (hat : A.At c.here height m) :
    ∃ m', A.At L.opened.here height m' ∧ m'.world = m.world ∧
      Relation.ReflTransGen (Turn rt program) (.running m) (.running m') ∧
      Leaves rt program (A.region c.here c'.here) (.running m') s := by
  have hcode := L.opened_code hcompile
  have hlt : c.here + 2 < c'.here := by
    have := (L.bodyAdds hcompile).here_le
    have := L.entered_here ▸ Nat.le_add_right L.left.here _
    have := L.entered_lt hcompile
    have := L.done.grows.here_le
    have := L.opened_here
    omega
  obtain ⟨m₁, hat₁, hworld₁, hreach₁, hleaves₁⟩ :=
    (hat.false (hown.emitted hcode le_rfl 0 rfl)).next (Nat.le_add_right ..) (by omega) hleaves
  obtain ⟨m₂, hat₂, hworld₂, hreach₂, hleaves₂⟩ :=
    (hat₁.storeLocal (hown.emitted hcode le_rfl 1 rfl) (L.slots hcompile hown).2).next
      (by omega) hlt hleaves₁
  exact ⟨m₂, L.opened_here ▸ hat₂, hworld₂.trans hworld₁, hreach₁.trans hreach₂, hleaves₂⟩

/-- However the body ends, the run goes on in the finally region, with the operands it began
with. -/
theorem toFinally {B : World H → Prop} (hB : ∀ w w' : World H, w'.heap = w.heap → B w → B w')
    {e : TryEntry} {bodyOwn cleanupOwn : List TryEntry}
    (hsplit : own = e :: (bodyOwn ++ cleanupOwn))
    (hentry : L.Entry e) (hcleanupOwn : ∀ x ∈ cleanupOwn, L.entered.here ≤ x.start)
    (hdepth : A.base + e.depth = height) {s₁ : Status H}
    (hends : Ends rt A ⟨L.opened.here, L.left.here, bodyOwn⟩ height (height + 1)
      L.left.context.fallthrough B B s₁)
    (hnext : s₁ = s ∨ Leaves rt program (A.region c.here c'.here) s₁ s)
    (hout : ¬(A.region c.here c'.here).Goes s) :
    ∃ m', A.At L.entered.here height m' ∧ B m'.world ∧
      Relation.ReflTransGen (Turn rt program) s₁ (.running m') ∧
      Leaves rt program (A.region c.here c'.here) (.running m') s := by
  have hopened := L.opened_here
  have hbody := (L.bodyAdds hcompile).here_le
  have hentered := L.entered_here
  have hlt := (L.entered_lt hcompile).trans_le L.done.grows.here_le
  -- the run cannot have ended inside
  have hgoes {ip height : ℕ} {m : Machine H} (hat : A.At ip height m) (hfrom : c.here ≤ ip)
      (hto : ip < c'.here) (heq : s₁ = .running m) :
      Leaves rt program (A.region c.here c'.here) (.running m) s := by
    rcases hnext with rfl | hleaves
    · rw [heq] at hout
      refine absurd (Region.holds_of_ip hat.function hat.calls ?_ ?_) hout
      · exact hat.ip ▸ hfrom
      · exact hat.ip ▸ hto
    · exact heq ▸ hleaves
  cases hends with
  | @value m₁ hfalls hat hB₁ =>
    change A.At L.left.here (height + 1) m₁ at hat
    rw [if_pos hfalls] at hentered
    have hcode := L.entered_code hcompile
    rw [L.enteredCode, if_pos hfalls] at hcode
    have hfrom : c.here ≤ L.left.here := by omega
    obtain ⟨m₂, hat₂, hworld₂, hreach₂, hleaves₂⟩ :=
      (hat.storeLocal (hown.emitted hcode hfrom 0 rfl) (L.slots hcompile hown).1).next
        (by omega) (by omega) (hgoes hat (by omega) (by omega) rfl)
    obtain ⟨m₃, hat₃, hworld₃, hreach₃, hleaves₃⟩ :=
      (hat₂.jump (hown.emitted hcode hfrom 1 rfl) (by omega)).next (by omega) hlt hleaves₂
    refine ⟨m₃, hat₃, ?_, hreach₂.trans hreach₃, hleaves₃⟩
    rw [hworld₃, hworld₂]
    exact hB₁
  | @raised trap ip height' m₁ _ hstart hstop hlow hat hB₁ hpassed hlands =>
    change L.opened.here ≤ ip at hstart
    change ip < L.left.here at hstop
    obtain ⟨hvalue, hflag⟩ := L.slots hcompile hown
    obtain ⟨m₂, htaken, hat₂, hheap⟩ := hat.taken trap.message (hentry.start ▸ hstart)
      (by rw [hentry.stop]; omega) hentry.catches hentry.finally_ hentry.value hentry.flag hvalue
      hflag hdepth hlow
    have hraise : raise program m₁ trap = .ok (L.entered.here, m₂) := by
      obtain ⟨outer, later, hhandlers, -, hlater⟩ := hown.owns.split
      have htable : A.prototype.handlers = outer ++ e :: (bodyOwn ++ cleanupOwn ++ later) := by
        rw [hhandlers, hsplit, append_assoc, cons_append]
      have hfound := A.found
      rw [← hat.function] at hfound
      refine raise_of_entry hfound htable (fun x hx ↦ ?_) htaken
      -- the entries of the body let the error pass, the others are for later instructions
      rcases mem_append.mp hx with hx | hx
      · rcases mem_append.mp hx with hx | hx
        · exact hpassed x hx
        · refine raiseEntry_of_not_covers (.inl ?_)
          have := hcleanupOwn x hx
          rw [hat.ip]
          omega
      · refine raiseEntry_of_not_covers (.inl ?_)
        have : c'.here ≤ x.start := hlater x hx
        rw [hat.ip]
        omega
    have hlanded := hlands.handled hraise (by rw [hat₂.ip]; omega)
    have hat₃ : A.At L.entered.here height { m₂ with ip := L.entered.here } :=
      ⟨hat₂.function, hat₂.calls, hat₂.base, hat₂.locals, rfl, hat₂.height⟩
    exact ⟨_, hat₃, hB _ _ hheap hB₁, hlanded ▸ .refl, hgoes hat₃ (by omega) hlt hlanded⟩

/-- Behind the finally region the run completes or throws the pending error again. -/
theorem resume {V : World H → Prop}
    (hV : ∀ value site w, V w → V (thrownErrorAt rt.toThrowing value site w).2)
    (hfalls : L.cleaned.context.fallthrough = true) (hstop : ∀ x ∈ own, x.stop ≤ L.cleaned.here)
    (hat : A.At L.cleaned.here (height + 1) m) (hm : V m.world)
    (hleaves : Leaves rt program (A.region c.here c'.here) (.running m) s) :
    Ends rt A ⟨c.here, c'.here, own⟩ height (height + 1) true V V s := by
  obtain ⟨hvalue, hflag⟩ := L.slots hcompile hown
  have hdone := L.done
  rw [if_pos hfalls] at hdone
  have hhere : c'.here = L.cleaned.here + 6 := hdone.here
  have hfrom : c.here ≤ L.cleaned.here := by
    have := L.opened_here
    have := (L.bodyAdds hcompile).here_le
    have := L.entered_here ▸ Nat.le_add_right L.left.here _
    have := L.entered_lt hcompile
    omega
  have hcode (k : ℕ) {i : Instruction}
      (hi : (resumeCode L.value L.flag L.cleaned.here)[k]? = some i) :
      A.prototype.code[L.cleaned.here + k]? = some i :=
    hown.emitted (hdone.code ▸ prefix_rfl) hfrom k hi
  obtain ⟨m₁, hat₁, hworld₁, -, hleaves₁⟩ :=
    (hat.pop (hcode 0 rfl)).next (by omega) (by omega) hleaves
  obtain ⟨m₂, hat₂, hworld₂, -, hleaves₂⟩ :=
    (hat₁.loadLocal (hcode 1 rfl) hflag).next (by omega) (by omega) hleaves₁
  rcases hat₂.jumpIfFalse (hcode 2 rfl) (by omega) with hthrow | hnormal
  · obtain ⟨m₃, hat₃, hworld₃, -, hleaves₃⟩ := hthrow.next (by omega) (by omega) hleaves₂
    obtain ⟨m₄, hat₄, hworld₄, -, hleaves₄⟩ :=
      (hat₃.loadLocal (hcode 3 rfl) hvalue).next (by omega) (by omega) hleaves₃
    obtain ⟨trap, m₅, hat₅, hlands, hworld₅⟩ := hat₄.rethrow rt (hcode 4 rfl)
    have hpassed : ∀ x ∈ own, raiseEntry trap.message m₅ x = none := fun x hx ↦ by
      refine raiseEntry_of_not_covers (.inr ?_)
      have := hstop x hx
      rw [hat₅.ip]
      omega
    have hstart : c.here ≤ L.cleaned.here + 1 + 1 + 1 + 1 := by omega
    have hend : L.cleaned.here + 1 + 1 + 1 + 1 < c'.here := by omega
    rw [hleaves₄.eq_of_step (hown.owns.not_goes hstart hend hat₅ hpassed hlands)]
    refine .raised hstart hend le_rfl hat₅ ?_ hpassed hlands
    have hm₄ : V m₄.world := by rwa [hworld₄, hworld₃, hworld₂, hworld₁]
    rcases hworld₅ with hworld₅ | ⟨value, site, hworld₅⟩
    · exact hworld₅ ▸ hm₄
    · exact hworld₅ ▸ hV value site _ hm₄
  · obtain ⟨m₃, hat₃, hworld₃, -, hleaves₃⟩ := hnormal.next (by omega) (by omega) hleaves₂
    have hlast : Moves rt A m₃ (L.cleaned.here + 6) (height + 1) :=
      hat₃.loadLocal (hcode 5 rfl) hvalue
    rw [← hhere] at hlast
    exact hlast.ends hleaves₃ (by rwa [hworld₃, hworld₂, hworld₁])

end Run

end FinallyLayout

/-- The depth of an entry is the number of operands with which its region is entered, in the run of
`m₀`. -/
def Depths (rt : Runtime H) (A : Activation program) (m₀ : Machine H) : Prop :=
  ∀ e ∈ A.prototype.handlers, ∀ ⦃m : Machine H⦄ ⦃height⦄,
    Relation.ReflTransGen (Turn rt program) (.running m₀) (.running m) →
    A.At e.start height m → A.base + e.depth = height

/-- **A finally region is run however the body ends**, and then the result of the body is the
result. -/
theorem runs_tryFinally {m₀ : Machine H} {C : Compiler W → Prop} {compile : FormCompiler W}
    (hC : Stable C) (hcompile : Adding compile) (hdepths : Depths rt A m₀)
    {body finallyBody : List Child} (hfinally : finallyBody ≠ []) {I B V : World H → Prop}
    (hB : ∀ w w' : World H, w'.heap = w.heap → B w → B w')
    (hV : ∀ value site w, V w → V (thrownErrorAt rt.toThrowing value site w).2)
    (hbody : Runs rt A m₀ C (compileSequence compile body false) I B B)
    (hcleanup : Runs rt A m₀ C (compileSequence compile finallyBody false) B V V)
    (span : Position) (tail : Bool) :
    Runs rt A m₀ C (compileRegions compile body [] finallyBody span tail) I V V := by
  intro c c' hx hfalls hc
  obtain ⟨L⟩ := compileRegions_layout hfinally hx
  obtain ⟨hc₂, hbodyEnds⟩ := hbody L.body (L.openedFalls.trans hfalls) (hC L.similarOpened hc)
  obtain ⟨hc₄, hcleanupEnds⟩ := hcleanup L.cleanup L.enteredFalls (hC L.similarEntered hc₂)
  refine ⟨hC L.done.similar hc₄, fun own hown m hreach height hat hI s hleaves ↦ ?_⟩
  obtain ⟨e, bodyOwn, cleanupOwn, rfl, hentry, hbodyOwn, hcleanupOwn⟩ := L.place hcompile hown
  have hopened : c.here ≤ L.opened.here := L.opened_here ▸ Nat.le_add_right ..
  have hleft := (L.bodyAdds hcompile).here_le
  have hentered : L.left.here ≤ L.entered.here := L.entered_here ▸ Nat.le_add_right ..
  have hcleaned := L.entered_lt hcompile
  have hdone := L.done.grows.here_le
  -- the body
  obtain ⟨m₁, hat₁, hworld₁, hreach₁, hleaves₁⟩ := L.enter hcompile hown hleaves hat
  have hdepth : A.base + e.depth = height :=
    hdepths e (hown.owns.mem (mem_cons_self ..)) (hreach.trans hreach₁) (hentry.start ▸ hat₁)
  obtain ⟨s₁, hcut₁, hnext₁⟩ := hleaves₁.cut hopened (hentered.trans (hcleaned.le.trans hdone))
  have hends₁ := hbodyEnds hbodyOwn (hreach.trans hreach₁) hat₁ (hworld₁ ▸ hI) hcut₁
  -- the finally region
  obtain ⟨m₂, hat₂, hB₂, hreach₂, hleaves₂⟩ := L.toFinally hcompile hown hB rfl hentry
    (fun x hx ↦ (hcleanupOwn.owns.within x hx).1) hdepth hends₁ (hnext₁.imp id And.right)
    hleaves.not_goes
  have hreach₂ := ((hreach.trans hreach₁).trans hcut₁.reaches).trans hreach₂
  obtain ⟨s₂, hcut₂, hnext₂⟩ := hleaves₂.cut ((hopened.trans hleft).trans hentered) hdone
  have hbefore : ∀ x ∈ e :: (bodyOwn ++ cleanupOwn),
      x ∈ cleanupOwn ∨ x.stop ≤ L.entered.here := by
    intro x hx
    rcases mem_cons.mp hx with rfl | hx
    · exact .inr hentry.stop.le
    · rcases mem_append.mp hx with hx | hx
      · exact .inr ((hbodyOwn.owns.within x hx).2.trans hentered)
      · exact .inl hx
  have hends₂ := hcleanupEnds hcleanupOwn hreach₂ hat₂ hB₂ hcut₂
  rw [L.done.falls]
  cases hends₂ with
  | @value m₃ hfalls₃ hat₃ hV₃ =>
    change A.At L.cleaned.here (height + 1) m₃ at hat₃
    have hhere := L.done.here
    rw [if_pos hfalls₃] at hhere
    rcases hnext₂ with rfl | ⟨-, hleaves₃⟩
    · refine absurd (Region.holds_of_ip hat₃.function hat₃.calls ?_ ?_) hleaves.not_goes
      · exact hat₃.ip ▸ ((hopened.trans hleft).trans hentered).trans hcleaned.le
      · rw [hat₃.ip]
        exact hhere ▸ Nat.lt_add_of_pos_right (Nat.succ_pos _)
    · rw [hfalls₃]
      refine L.resume hcompile hown hV hfalls₃ (fun x hx ↦ ?_) hat₃ hV₃ hleaves₃
      rcases hbefore x hx with hx | hx
      · exact (hcleanupOwn.owns.within x hx).2
      · exact hx.trans hcleaned.le
  | raised hstart hstop hlow hat₃ hV₃ hpassed hlands =>
    have herror : Ends rt A ⟨L.entered.here, L.cleaned.here, cleanupOwn⟩ height (height + 1) false
        V V s₂ := .raised hstart hstop hlow hat₃ hV₃ hpassed hlands
    have hwide := herror.widen ((hopened.trans hleft).trans hentered) hdone (.inr rfl) fun x hx ↦
      (hbefore x hx).imp id .inl
    rcases hnext₂ with rfl | ⟨hgoes, -⟩
    · exact hwide.of_dead
    · exact absurd hgoes (hwide.not_goes hown.owns)

/-! ## Forms -/

section Forms

variable {core : CompileCore W} {rest : FormCompiler W} {fuel : ℕ} {child : Child} {tail : Bool}
  {span : Position}

/-- What rewriting does to a form decides how it is compiled. -/
theorem compileForm_of_expand (hfalls : c.context.fallthrough = true) {expanded : Option Form}
    {next : ℕ} (hexpand : Destructure.expand child.form c.nextDestructureId = .ok expanded next) :
    compileForm core rest (fuel + 1) child tail c =
      expanded.elim (compileExpanded core (compileForm core rest fuel) rest child tail c.topLevel
          { c with topLevel := false, nextDestructureId := next }) fun form ↦
        compileForm core rest fuel (.bare form child.span) tail
          { c with nextDestructureId := next } := by
  have hdestructure : destructure child.form child.span { c with topLevel := false } =
      .ok expanded { c with topLevel := false, nextDestructureId := next } := by
    refine Ensures.eq_ok ?_
    rw [destructure, ensures_bind, ensures_get]
    simp only [hexpand]
    exact ⟨rfl, rfl⟩
  have hmarked : ({ c with topLevel := false } : Compiler W).context.fallthrough = true := hfalls
  change whenFalls (destructure child.form child.span >>= _) { c with topLevel := false } = _
  rw [whenFalls_of_falls hmarked, bind_of_ok hdestructure]
  cases expanded <;> rfl

/-- A form that is not rewritten first. -/
theorem compileForm_of_plain (hfalls : c.context.fallthrough = true)
    (hplain : Destructure.expand child.form c.nextDestructureId = .ok none c.nextDestructureId) :
    compileForm core rest (fuel + 1) child tail c =
      compileExpanded core (compileForm core rest fuel) rest child tail c.topLevel
        { c with topLevel := false } :=
  compileForm_of_expand hfalls hplain

/-- A local name is loaded. -/
theorem compileForm_local (hfalls : c.context.fallthrough = true) {slot : ℕ}
    (hslot : c.context.scopes.resolve temp = some slot)
    (h : compileForm core rest fuel (.bare (.symbol temp) span) tail c = .ok () c') :
    Emitted c [.loadLocal slot] c' := by
  cases fuel with
  | zero => cases h
  | succ fuel =>
    rw [compileForm_of_plain hfalls rfl] at h
    have hload : Ensures (compileExpanded core (compileForm core rest fuel) rest
        (.bare (.symbol temp) span) tail c.topLevel) { c with topLevel := false }
        (fun _ c' ↦ Emitted c [.loadLocal slot] c') Stopped := by
      rw [compileExpanded]
      simp only [Child.bare]
      rw [ensures_bind, ensures_get]
      simp only [hslot]
      exact (Emitted.of_emit rfl).of_marked
    exact hload.of_ok h

/-- A body that is no clause, and a finally clause. -/
theorem compileTry_finally (compile : FormCompiler W) {operator body : Child} {cleanup : Form}
    (position span : Position) (tail : Bool) (hbody : isClause body = false) :
    compileTry compile
        [operator, body, .bare (Destructure.list "finally" [cleanup]) position] span tail =
      compileRegions compile [body] [] [.bare cleanup position] span tail := by
  have hclause : isClause (.bare (Destructure.list "finally" [cleanup]) position) = true := rfl
  rw [compileTry]
  simp only [drop_succ_cons, drop_zero, takeWhile_cons, dropWhile_cons, hbody, hclause,
    Bool.not_false, Bool.not_true, Bool.false_eq_true, if_true, if_false, find?_cons, find?_nil]
  rfl

variable {m₀ : Machine H} {C : Compiler W → Prop} (hC : Stable C) (hrest : Adding rest)
  {E : World H → Prop}

include hC hrest

/-- `(do form…)`. -/
theorem runs_do {forms : List Form} {I : ℕ → World H → Prop}
    (hform : ∀ i form fuel tail, forms[i]? = some form →
      Runs rt A m₀ C (compileForm core rest fuel (.bare form span) tail) (I i) (I (i + 1)) E) :
    Runs rt A m₀ C (compileForm core rest fuel (.bare (Destructure.list "do" forms) span) tail)
      (I 0) (I forms.length) E := by
  cases fuel with
  | zero => nofun
  | succ fuel =>
    have hsequence : Runs rt A m₀ C
        (compileSequence (compileForm core rest fuel) (forms.map (Child.bare · span)) tail)
        (I 0) (I (forms.map (Child.bare · span)).length) E := by
      refine runs_sequence hC (compileForm_adds core hrest fuel) tail fun i child tail hi ↦ ?_
      rw [getElem?_map, Option.map_eq_some_iff] at hi
      obtain ⟨form, hi, rfl⟩ := hi
      exact hform i form fuel tail hi
    rw [length_map] at hsequence
    refine hsequence.of_marked hC fun c hfalls ↦ ⟨c.topLevel, ?_⟩
    rw [compileForm_of_plain hfalls rfl]
    rfl

/-- `(try body (finally cleanup))`. -/
theorem runs_try (hdepths : Depths rt A m₀) {body cleanup : Form}
    (hbody : isClause (.bare body span) = false) {I B V : World H → Prop}
    (hB : ∀ w w' : World H, w'.heap = w.heap → B w → B w')
    (hV : ∀ value site w, V w → V (thrownErrorAt rt.toThrowing value site w).2)
    (hbodyRuns : ∀ fuel tail,
      Runs rt A m₀ C (compileForm core rest fuel (.bare body span) tail) I B B)
    (hcleanup : ∀ fuel tail,
      Runs rt A m₀ C (compileForm core rest fuel (.bare cleanup span) tail) B V V) :
    Runs rt A m₀ C (compileForm core rest fuel (.bare (Destructure.list "try"
      [body, Destructure.list "finally" [cleanup]]) span) tail) I V V := by
  cases fuel with
  | zero => nofun
  | succ fuel =>
    have hcompile := compileForm_adds core hrest fuel
    refine (runs_tryFinally hC hcompile hdepths (cons_ne_nil (.bare cleanup span) []) hB hV
      (runs_singleton hC hcompile (hbodyRuns fuel) false)
      (runs_singleton hC hcompile (hcleanup fuel) false) span tail).of_marked hC
      fun c hfalls ↦ ⟨false, ?_⟩
    rw [compileForm_of_plain hfalls rfl]
    exact congrFun (compileTry_finally _ span span tail hbody) _

end Forms

end Hara.Vm
