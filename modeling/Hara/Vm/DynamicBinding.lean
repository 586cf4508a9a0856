import Hara.Kernel.DynamicBinding
import Hara.Vm.Compiler.Blocks

/-!
# Dynamic bindings in compiled code

The instructions that bind and unbind a Var, and the forms that are compiled to them. The services
of the runtime work on the Vars and bindings of a kernel that is part of the heap (`Serves`).

A `binding` form is compiled to the binds of all names, its body, and the unbinds of all names in
reverse. `Pending` and `Unbinding` say what is left to be done in between.
-/

namespace Hara.Vm

open EStateM List Activation
open Kernel (Resolution)

variable {H M W : Type} {rt : Runtime H} {program : Program} {A : Activation program}
  {r : Resolution M} {kernel : H → Kernel.World M Value}

/-- The runtime keeps Vars and their bindings in a part of its heap. Of the services that the code
of a `binding` form calls, only those for bindings change it. -/
structure Serves (rt : Runtime H) (r : Resolution M) (kernel : H → Kernel.World M Value) :
    Prop where
  bind : ∀ name value w,
    (rt.call (.bytecodeDynamicBind name) [value] w).1 =
      (r.bytecodeDynamicBind (kernel w.heap) name value).1.map fun _ ↦ .nil
  bindHeap : ∀ name value w,
    kernel (rt.call (.bytecodeDynamicBind name) [value] w).2.heap =
      (r.bytecodeDynamicBind (kernel w.heap) name value).2
  unbind : ∀ name w,
    (rt.call (.bytecodeDynamicUnbind name) [] w).1 =
      (r.bytecodeDynamicUnbind (kernel w.heap) name).1.map fun _ ↦ .nil
  unbindHeap : ∀ name w,
    kernel (rt.call (.bytecodeDynamicUnbind name) [] w).2.heap =
      (r.bytecodeDynamicUnbind (kernel w.heap) name).2
  closureValue : ∀ closure w, kernel (rt.closureValue closure w).2.heap = kernel w.heap
  arityDispatcher : ∀ name functions w,
    kernel (rt.arityDispatcher name functions w).2.heap = kernel w.heap
  recordThrow : ∀ value site heap, kernel (rt.recordThrow value site heap) = kernel heap
  backedge : ∀ function header values w,
    kernel (rt.backedge function header values w).2.heap = kernel w.heap

/-! ## Single instructions -/

/-- Only the world is another one, and it has the same kernel. -/
def SameKernel (kernel : H → Kernel.World M Value) (m m' : Machine H) : Prop :=
  ∃ world, m' = { m with world } ∧ kernel world.heap = kernel m.world.heap

theorem SameKernel.refl (m : Machine H) : SameKernel kernel m m := ⟨m.world, rfl, rfl⟩

theorem SameKernel.trans {m m' m'' : Machine H} (h : SameKernel kernel m m')
    (h' : SameKernel kernel m' m'') : SameKernel kernel m m'' := by
  obtain ⟨world, rfl, hkernel⟩ := h
  obtain ⟨world', rfl, hkernel'⟩ := h'
  exact ⟨world', rfl, hkernel'.trans hkernel⟩

theorem Serves.intoValue (hserves : Serves rt r kernel) (slot : VmSlot) (m : Machine H) :
    Ensures (intoValue rt slot) m (fun _ ↦ SameKernel kernel m) (fun _ _ ↦ False) := by
  cases slot with
  | number _ | bool _ | nil | value _ => exact .refl m
  | inlineClosure _ _ | closure _ _ => exact ⟨_, rfl, hserves.closureValue ..⟩
  | multiArity identity name clauses =>
    refine (mapM_spec SameKernel.refl SameKernel.trans (fun clause m ↦ ensures_onWorld.mpr
      ⟨_, rfl, hserves.closureValue ..⟩) clauses m).bind fun functions m' hm ↦ ?_
    exact hm.trans ⟨_, rfl, hserves.arityDispatcher ..⟩

variable {m : Machine H} {ip height index : ℕ} {name : String}

/-- An instruction that calls a service for bindings, above `height` operands: it leaves a result if
the service succeeds, and raises its error otherwise. -/
def Serviced (rt : Runtime H) (A : Activation program) (kernel : H → Kernel.World M Value)
    (m : Machine H) (ip height : ℕ) (result : Except String Unit × Kernel.World M Value) : Prop :=
  match result with
  | (.ok (), k) => ∃ m', step rt program m = .running m' ∧ A.At (ip + 1) (height + 1) m' ∧
    kernel m'.world.heap = k
  | (.error _, k) => ∃ trap m', A.At ip height m' ∧ kernel m'.world.heap = k ∧
    Lands rt program m' trap (step rt program m)

theorem serviced_of_ensures {i : Instruction} {result : Except String Unit × Kernel.World M Value}
    {rest : List VmSlot} (hat : A.At ip m.stack.length m)
    (hcode : A.prototype.code[ip]? = some i)
    (h : Ensures (dispatch rt program A.prototype i) m
      (fun d m' ↦ d = .next (m.ip + 1) ∧ result.1 = .ok () ∧
        ∃ world, m' = { m with stack := .nil :: rest, world } ∧ kernel world.heap = result.2)
      fun exit m' ↦ (∃ trap, exit = .raised trap) ∧ result.1 ≠ .ok () ∧
        ∃ world, m' = { m with stack := rest, world } ∧ kernel world.heap = result.2) :
    Serviced rt A kernel m ip rest.length result := by
  obtain ⟨result, k⟩ := result
  cases hdispatch : dispatch rt program A.prototype i m with
  | ok d m' =>
    obtain ⟨rfl, rfl, world, rfl, hkernel⟩ := h.of_ok hdispatch
    have hip := hat.ip
    subst hip
    refine ⟨_, hat.step_next hcode hdispatch rfl m.ip.lt_succ_self, ?_, hkernel⟩
    exact ⟨hat.function, hat.calls, hat.base, hat.locals, rfl, rfl⟩
  | error exit m' =>
    obtain ⟨⟨trap, rfl⟩, hresult, world, rfl, hkernel⟩ := h.of_error hdispatch
    cases result with
    | ok _ => exact absurd rfl hresult
    | error message =>
      refine ⟨trap, _, ?_, hkernel, hat.lands hcode hdispatch⟩
      exact ⟨hat.function, hat.calls, hat.base, hat.locals, hat.ip, rfl⟩

/-- The service call of an instruction and what follows it. -/
theorem core_spec_of_result {call : CoreCall} {args : List Value} {n : ℕ}
    {result : Except String Unit × Kernel.World M Value}
    (hresult : (rt.call call args m.world).1 = result.1.map fun _ ↦ .nil)
    (hheap : kernel (rt.call call args m.world).2.heap = result.2) :
    Ensures (do let _ ← core rt call args; push .nil; pure (Dispatch.next n)) m
      (fun d m' ↦ d = .next n ∧ result.1 = .ok () ∧
        ∃ world, m' = { m with stack := .nil :: m.stack, world } ∧ kernel world.heap = result.2)
      fun exit m' ↦ (∃ trap, exit = .raised trap) ∧ result.1 ≠ .ok () ∧
        ∃ world, m' = { m with world } ∧ kernel world.heap = result.2 := by
  obtain ⟨result, k⟩ := result
  rw [ensures_bind, core, coreOr, ensures_bind, ensures_onWorld, hresult]
  cases result with
  | ok _ => exact ⟨rfl, rfl, _, rfl, hheap⟩
  | error message => exact ⟨⟨_, rfl⟩, (by rintro ⟨⟩), _, rfl, hheap⟩

section Services

variable (hserves : Serves rt r kernel) (hname : program.constantString index = some name)

include hserves hname

theorem Activation.At.dynamicBind (hat : A.At ip (height + 1) m)
    (hcode : A.prototype.code[ip]? = some (.dynamicBind index)) :
    ∃ value, Serviced rt A kernel m ip height
      (r.bytecodeDynamicBind (kernel m.world.heap) name value) := by
  obtain ⟨slot, rest, hstack⟩ := exists_cons_of_length_eq_add_one hat.height
  have hrest : rest.length = height := by simpa [hstack] using hat.height
  -- the operand as a value
  cases hvalue : intoValue rt slot { m with stack := rest } with
  | error exit m' => exact ((hserves.intoValue slot _).of_error hvalue).elim
  | ok value m' =>
    obtain ⟨world, rfl, hkernel⟩ := (hserves.intoValue slot _).of_ok hvalue
    refine ⟨value, hrest ▸ serviced_of_ensures (hat.height ▸ hat) hcode ?_⟩
    rw [dispatch, ensures_bind, ensures_get]
    dsimp only
    rw [ensures_bind, ensures_constantStringOr hname, ensures_bind, ensures_popOr hstack,
      ensures_bind, Ensures, hvalue]
    have hbind := hserves.bind name value world
    have hbindHeap := hserves.bindHeap name value world
    rw [hkernel] at hbind hbindHeap
    exact core_spec_of_result hbind hbindHeap

theorem Activation.At.dynamicUnbind (hat : A.At ip height m)
    (hcode : A.prototype.code[ip]? = some (.dynamicUnbind index)) :
    Serviced rt A kernel m ip height (r.bytecodeDynamicUnbind (kernel m.world.heap) name) := by
  refine hat.height ▸ serviced_of_ensures (hat.height ▸ hat) hcode ?_
  rw [dispatch, ensures_bind, ensures_get]
  dsimp only
  rw [ensures_bind, ensures_constantStringOr hname]
  exact core_spec_of_result (hserves.unbind name m.world) (hserves.unbindHeap name m.world)

end Services

/-- The service call at the end of a block. -/
theorem Serviced.ends {result : Except String Unit × Kernel.World M Value} {p q : ℕ}
    {s : Status H} {V E : World H → Prop} (h : Serviced rt A kernel m ip height result)
    (hleaves : Leaves rt program (A.region p q) (.running m) s) (howns : A.Owns ⟨p, q, []⟩)
    (hp : p ≤ ip) (hq : q = ip + 1)
    (hok : result.1 = .ok () → ∀ w : World H, kernel w.heap = result.2 → V w)
    (herror : ∀ message, result.1 = .error message →
      ∀ w : World H, kernel w.heap = result.2 → E w) :
    Ends rt A ⟨p, q, []⟩ height (height + 1) true V E s := by
  subst hq
  match result, h with
  | (.ok (), k), ⟨m', hstep, hat, hkernel⟩ =>
    have hout : ¬(A.region p (ip + 1)).Goes (step rt program m) :=
      hstep ▸ Region.not_holds_of_ip hat.calls (.inr hat.ip.ge)
    rw [hleaves.eq_of_step hout, hstep]
    exact .value rfl hat (hok rfl _ hkernel)
  | (.error message, k), ⟨trap, m', hat, hkernel, hlands⟩ =>
    have hout := howns.not_goes hp ip.lt_succ_self hat (forall_mem_nil _) hlands
    rw [hleaves.eq_of_step hout]
    exact .raised hp ip.lt_succ_self le_rfl hat (herror message rfl _ hkernel) (forall_mem_nil _)
      hlands

/-! ## The forms for single bindings -/

section Forms

variable {core : CompileCore W} {rest : FormCompiler W} {fuel : ℕ} {c c' : Compiler W}
  {child : Child} {tail : Bool} {span : Position} {temp : String}

/-- `(__dynamic-bind name temp)`. -/
def bindForm (name temp : String) : Form :=
  Destructure.list "__dynamic-bind" [.symbol name, .symbol temp]

/-- `(__dynamic-unbind name)`. -/
def unbindForm (name : String) : Form := Destructure.list "__dynamic-unbind" [.symbol name]

/-- A call of a service by its global name. -/
structure Calls (core : CompileCore W) (c : Compiler W) (name : String)
    (code : ℕ → List Instruction) (c' : Compiler W) : Prop where
  similar : Similar c c'
  falls : c'.context.fallthrough = c.context.fallthrough
  handlers : c'.context.handlers = c.context.handlers
  grows : Grows c c'
  code : ∃ index, c'.context.code = c.context.code ++ code index ∧
    (c.Indexed → c'.constants[index]? = some (.string (c.globalName core name)))

theorem Calls.of_constant {code : ℕ → List Instruction} {index : ℕ} {c₁ : Compiler W}
    (hindex : globalNameConstant core name span { c with topLevel := false } = .ok index c₁)
    (h : Emitted c₁ (code index) c') : Calls core c name code c' := by
  obtain ⟨happends, hcontext, hglobals, hworld, hconstant⟩ :=
    (globalNameConstant_spec core name span _).of_ok hindex
  have hgrows : Grows c c' :=
    ((keeps_setTopLevel false c).toGrows.trans happends.toGrows).trans h.grows
  refine ⟨⟨?_, hgrows.highWater, hgrows.indexed, h.globals.trans hglobals, h.world.trans hworld⟩,
    ?_, ?_, hgrows, index, ?_, fun hindexed ↦ ?_⟩
  · rw [h.scopes, hcontext]
  · rw [h.falls, hcontext]
  · rw [h.handlers, hcontext]
  · rw [h.code, hcontext]
  · rw [h.constants, hconstant hindexed]
    rfl

theorem compileForm_unbind (hfalls : c.context.fallthrough = true)
    (h : compileForm core rest fuel (.bare (unbindForm name) span) tail c = .ok () c') :
    Calls core c name (fun index ↦ [.dynamicUnbind index]) c' := by
  cases fuel with
  | zero => cases h
  | succ fuel =>
    rw [compileForm_of_plain hfalls rfl] at h
    change (globalNameConstant core name span >>= fun index ↦
      emit_ (.dynamicUnbind index) (some span)) { c with topLevel := false } = _ at h
    obtain ⟨index, c₁, hindex, h⟩ := bind_eq_ok.mp h
    exact .of_constant hindex (.of_emit h)

theorem compileForm_bind (hfalls : c.context.fallthrough = true) {slot : ℕ}
    (hslot : c.context.scopes.resolve temp = some slot)
    (h : compileForm core rest fuel (.bare (bindForm name temp) span) tail c = .ok () c') :
    Calls core c name (fun index ↦ [.loadLocal slot, .dynamicBind index]) c' := by
  cases fuel with
  | zero => cases h
  | succ fuel =>
    rw [compileForm_of_plain hfalls rfl] at h
    change (globalNameConstant core name span >>= fun index ↦ do
      compileForm core rest fuel (.bare (.symbol temp) span) false
      whenFalls (emit_ (.dynamicBind index) (some span))) { c with topLevel := false } = _ at h
    obtain ⟨index, c₁, hindex, h⟩ := bind_eq_ok.mp h
    obtain ⟨_, c₂, hload, h⟩ := bind_eq_ok.mp h
    obtain ⟨-, hcontext, -, -, -⟩ := (globalNameConstant_spec core name span _).of_ok hindex
    have hfalls₁ : c₁.context.fallthrough = true := hcontext ▸ hfalls
    have hload := compileForm_local hfalls₁ (hcontext ▸ hslot) hload
    rw [whenFalls_of_falls (hload.falls.trans hfalls₁)] at h
    exact .of_constant hindex (hload.trans (.of_emit h))

end Forms

/-! ## Runs of binds and unbinds -/

/-- The names stand for the global names, the temporaries for local slots. -/
structure Ready (core : CompileCore W) (globals : String → String) (names temps : List String)
    (c : Compiler W) : Prop where
  names : ∀ name ∈ names, c.globalName core name = globals name
  temps : ∀ temp ∈ temps, c.Local temp
  indexed : c.Indexed

theorem globalName_congr {core : CompileCore W} {c c' : Compiler W}
    (hglobals : c'.globals = c.globals) (hworld : c'.world = c.world) (name : String) :
    c'.globalName core name = c.globalName core name := by
  simp only [Compiler.globalName, Compiler.qualifiedName, hglobals, hworld]

theorem stable_ready (core : CompileCore W) (globals : String → String)
    (names temps : List String) : Stable (Ready core globals names temps) := by
  intro c c' h hc
  refine ⟨fun name hname ↦ ?_, fun temp htemp ↦ ?_, h.indexed hc.indexed⟩
  · exact (globalName_congr h.globals h.world name).trans (hc.names name hname)
  · exact (hc.temps temp htemp).of_scopes h.scopes h.highWater

/-- The block of a call is one service call after other instructions, without entries. -/
theorem Calls.compiled {core : CompileCore W} {c c' : Compiler W} {own : List TryEntry}
    {code : ℕ → List Instruction} (h : Calls core c name code c') (hown : Compiled A c own c') :
    own = [] := by
  have hhandlers := hown.handlers
  rw [h.handlers, self_eq_append_right] at hhandlers
  exact map_eq_nil_iff.mp hhandlers

theorem constantString_of_prefix {constants : List Value} (h : constants <+: program.constants)
    (hindex : constants[index]? = some (.string name)) :
    program.constantString index = some name := by
  obtain ⟨rest, hrest⟩ := h
  obtain ⟨hlt, -⟩ := List.getElem?_eq_some_iff.mp hindex
  rw [Program.constantString, ← hrest, getElem?_append_left hlt, hindex]

section Binding

variable (r kernel) (k : Kernel.World M Value) (names : List String)

/-- What binds have done to the kernel `k` when the names of `todo` are still to be bound. -/
def Pending (todo : List String) (w : World H) : Prop :=
  ∃ ids, r.bound k names = ids ++ r.bound k todo ∧
    Stacks.Pushed ids k.bindings (kernel w.heap).bindings ∧ r.Agree names k (kernel w.heap)

/-- The names up to the first that denotes no dynamic Var are bound. -/
def Bound (w : World H) : Prop :=
  Stacks.Pushed (r.bound k names) k.bindings (kernel w.heap).bindings ∧
    r.Agree names k (kernel w.heap)

/-- Once the names of `todo` are unbound, the stacks of `k` are restored if and only if the names
are balanced. -/
def Unbinding (todo : List String) (w : World H) : Prop :=
  r.Agree names k (kernel w.heap) ∧
    (Stacks.popAll (todo.map (r.target k)) (kernel w.heap).bindings = k.bindings ↔
      r.Balanced k names)

/-- The stacks of `k` are restored if and only if the names are balanced. -/
def Unbound (w : World H) : Prop := (kernel w.heap).bindings = k.bindings ↔ r.Balanced k names

variable {r kernel k names}

theorem Pending.start {w : World H} (hbindings : (kernel w.heap).bindings = k.bindings)
    (hagree : r.Agree names k (kernel w.heap)) : Pending r kernel k names names w :=
  ⟨[], rfl, hbindings ▸ .nil _, hagree⟩

theorem Pending.bound {w : World H} (h : Pending r kernel k names [] w) :
    Bound r kernel k names w := by
  obtain ⟨ids, hids, hpushed, hagree⟩ := h
  rw [Resolution.bound, append_nil] at hids
  exact ⟨hids ▸ hpushed, hagree⟩

theorem Bound.pending {w : World H} (h : Bound r kernel k names w) :
    Pending r kernel k names [] w :=
  ⟨r.bound k names, (append_nil _).symm, h.1, h.2⟩

theorem Bound.unbinding {w : World H} (h : Bound r kernel k names w) :
    Unbinding r kernel k names names.reverse w :=
  ⟨h.2, Resolution.popAll_eq_iff_balanced h.1⟩

theorem Unbinding.unbound {w : World H} (h : Unbinding r kernel k names [] w) :
    Unbound r kernel k names w := h.2

/-- A bind does the next name or finds that it denotes no dynamic Var. -/
theorem Pending.bind {todo : List String} {w : World H} {value : Value} (hname : name ∈ names)
    (h : Pending r kernel k names (name :: todo) w) {w' : World H}
    (hw' : kernel w'.heap = (r.bytecodeDynamicBind (kernel w.heap) name value).2) :
    ((r.bytecodeDynamicBind (kernel w.heap) name value).1 = .ok () →
      Pending r kernel k names todo w') ∧
    ∀ message, (r.bytecodeDynamicBind (kernel w.heap) name value).1 = .error message →
      Bound r kernel k names w' := by
  obtain ⟨ids, hids, hpushed, hagree⟩ := h
  have htarget := (hagree name hname).2
  rcases r.bytecodeDynamicBind_spec (kernel w.heap) name value with
    ⟨id, hid, hbind⟩ | ⟨hnone, message, hbind⟩
  · rw [hbind] at hw' ⊢
    refine ⟨fun _ ↦ ?_, fun _ h ↦ by cases h⟩
    rw [Resolution.bound, ← htarget, hid] at hids
    refine ⟨ids ++ [id], by rw [hids, append_assoc]; rfl, ?_, ?_⟩
    · rw [hw']
      exact (hpushed.cons id value).perm (perm_append_singleton id ids).symm
    · rw [hw']
      exact hagree.trans (Resolution.SameButBindings.agree ⟨_, rfl⟩ names)
  · rw [hbind] at hw' ⊢
    refine ⟨(by rintro ⟨⟩), fun _ _ ↦ ?_⟩
    rw [Resolution.bound, ← htarget, hnone, append_nil] at hids
    rw [Bound, hw', hids]
    exact ⟨hpushed, hagree⟩

theorem Unbinding.unbind {todo : List String} {w : World H} (hname : name ∈ names)
    (h : Unbinding r kernel k names (name :: todo) w) {w' : World H}
    (hw' : kernel w'.heap = (r.bytecodeDynamicUnbind (kernel w.heap) name).2) :
    ((r.bytecodeDynamicUnbind (kernel w.heap) name).1 = .ok () →
      Unbinding r kernel k names todo w') ∧
    ∀ message, (r.bytecodeDynamicUnbind (kernel w.heap) name).1 = .error message →
      Unbound r kernel k names w' := by
  obtain ⟨hagree, hiff⟩ := h
  rw [map_cons, ← (hagree name hname).1] at hiff
  rcases r.bytecodeDynamicUnbind_spec (kernel w.heap) name with
    ⟨id, value, rest, hid, hstack, hunbind⟩ | ⟨hstuck, message, hunbind⟩
  · rw [hunbind] at hw' ⊢
    refine ⟨fun _ ↦ ?_, fun _ h ↦ by cases h⟩
    rw [hid, Stacks.popAll, hstack] at hiff
    rw [Unbinding, hw']
    exact ⟨hagree.trans (Resolution.SameButBindings.agree ⟨_, rfl⟩ names), hiff⟩
  · rw [hunbind] at hw' ⊢
    refine ⟨(by rintro ⟨⟩), fun _ _ ↦ ?_⟩
    have hhead : ∀ id, head? (r.target (kernel w.heap) name :: todo.map (r.target k)) =
        some (some id) → (kernel w.heap).bindings id = [] :=
      fun id hid ↦ hstuck id (Option.some.inj hid)
    rw [Stacks.popAll_stuck hhead] at hiff
    rw [Unbound, hw']
    exact hiff

variable {core : CompileCore W} {rest : FormCompiler W} {fuel : ℕ} {tail : Bool}
  {span : Position} {temp : String} {m₀ : Machine H} {globals : String → String}
  {locals temps : List String}

theorem runs_bind (hserves : Serves rt r kernel) (hname : name ∈ locals) (htemp : temp ∈ temps)
    (hglobal : globals name ∈ names) (todo : List String) :
    Runs rt A m₀ (Ready core globals locals temps)
      (compileForm core rest fuel (.bare (bindForm name temp) span) tail)
      (Pending r kernel k names (globals name :: todo)) (Pending r kernel k names todo)
      (Bound r kernel k names) := by
  intro c c' hx hfalls hc
  obtain ⟨slot, hslot, hlt⟩ := hc.temps temp htemp
  have hcalls := compileForm_bind hfalls hslot hx
  refine ⟨stable_ready _ _ _ _ hcalls.similar hc, fun own hown m _ height hat hI s hleaves ↦ ?_⟩
  obtain rfl := hcalls.compiled hown
  obtain ⟨index, hcode, hconstant⟩ := hcalls.code
  have hhere : c'.here = c.here + 2 := by
    rw [Compiler.here, hcode, length_append]
    rfl
  have hprefix : c.context.code ++ [.loadLocal slot, .dynamicBind index] <+: c'.context.code :=
    hcode ▸ prefix_rfl
  have hconstant := constantString_of_prefix hown.constants (hconstant hc.indexed)
  rw [hc.names name hname] at hconstant
  obtain ⟨m₁, hat₁, hworld₁, -, hleaves₁⟩ := (hat.loadLocal (hown.emitted hprefix le_rfl 0 rfl)
    (hlt.trans_le (hcalls.grows.highWater.trans hown.locals))).next (Nat.le_add_right ..)
    (by omega) hleaves
  obtain ⟨value, hserviced⟩ :=
    hat₁.dynamicBind hserves hconstant (hown.emitted hprefix le_rfl 1 rfl)
  rw [hcalls.falls, hfalls]
  rw [← hworld₁] at hI
  exact hserviced.ends hleaves₁ hown.owns (Nat.le_add_right ..) hhere
    (fun hok w hw ↦ (hI.bind hglobal hw).1 hok)
    fun message herror w hw ↦ (hI.bind hglobal hw).2 message herror

theorem runs_unbind (hserves : Serves rt r kernel) (hname : name ∈ locals)
    (hglobal : globals name ∈ names) (todo : List String) :
    Runs rt A m₀ (Ready core globals locals temps)
      (compileForm core rest fuel (.bare (unbindForm name) span) tail)
      (Unbinding r kernel k names (globals name :: todo)) (Unbinding r kernel k names todo)
      (Unbound r kernel k names) := by
  intro c c' hx hfalls hc
  have hcalls := compileForm_unbind hfalls hx
  refine ⟨stable_ready _ _ _ _ hcalls.similar hc, fun own hown m _ height hat hI s hleaves ↦ ?_⟩
  obtain rfl := hcalls.compiled hown
  obtain ⟨index, hcode, hconstant⟩ := hcalls.code
  have hhere : c'.here = c.here + 1 := by
    rw [Compiler.here, hcode, length_append]
    rfl
  have hprefix : c.context.code ++ [.dynamicUnbind index] <+: c'.context.code := hcode ▸ prefix_rfl
  have hconstant := constantString_of_prefix hown.constants (hconstant hc.indexed)
  rw [hc.names name hname] at hconstant
  have hserviced := hat.dynamicUnbind hserves hconstant (hown.emitted hprefix le_rfl 0 rfl)
  rw [hcalls.falls, hfalls]
  exact hserviced.ends hleaves hown.owns le_rfl hhere
    (fun hok w hw ↦ (hI.unbind hglobal hw).1 hok)
    fun message herror w hw ↦ (hI.unbind hglobal hw).2 message herror

end Binding

end Hara.Vm
