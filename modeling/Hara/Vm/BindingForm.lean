import Hara.Vm.DynamicBinding
import Hara.Vm.Soundness

/-!
# The `binding` form

The code of a `binding` form, entered in some run, restores every stack of dynamic bindings if and
only if an initialiser ends the form or the names are balanced where the form is entered
(`binding_restores_iff`).

What initialisers and body do is an assumption on them (`Neutral`): in this run, their code ends by
completing or with an error that reaches the handler table, and leaves the stacks and what the names
denote as they were.
-/

namespace Hara.Vm

open EStateM List Activation
open Kernel (Resolution)

variable {H M W : Type} {rt : Runtime H} {program : Program} {A : Activation program}
  {r : Resolution M} {kernel : H → Kernel.World M Value}

/-! ## The expansion -/

/-- The elements of a binding vector. -/
def pairForms (entries : List (String × Form)) : List Form :=
  entries.flatMap fun entry ↦ [.symbol entry.1, entry.2]

/-- `(binding [name initialiser …] body…)`. -/
def bindingForm (entries : List (String × Form)) (body : List Form) : Form :=
  Destructure.list "binding" (.vector (pairForms entries) :: body)

/-- A name of the form with the local name that holds the value of its initialiser. -/
structure Temporary where
  name : String
  temp : String
  initialiser : Form

namespace Temporary

def entry (t : Temporary) : String × Form := (t.name, t.initialiser)

/-- The binding of the local name. -/
def localEntry (t : Temporary) : String × Form := (t.temp, t.initialiser)

def bind (t : Temporary) : Form := bindForm t.name t.temp

def unbind (t : Temporary) : Form := unbindForm t.name

end Temporary

theorem splitBinding_eq (entries : List (String × Form)) (next : ℕ) :
    ∃ temporaries : List Temporary, temporaries.map Temporary.entry = entries ∧
      ∃ next', Destructure.splitBinding (pairForms entries) next =
        .ok (pairForms (temporaries.map Temporary.localEntry), temporaries.map Temporary.bind,
          temporaries.map Temporary.unbind) next' := by
  induction entries generalizing next with
  | nil => exact ⟨[], rfl, next, rfl⟩
  | cons entry entries ih =>
    obtain ⟨temporaries, hentries, next', hsplit⟩ := ih (next + 1)
    refine ⟨⟨entry.1, s!"__hbc_destructure_{next}", entry.2⟩ :: temporaries, ?_, next', ?_⟩
    · rw [map_cons, hentries]
      rfl
    · change (Destructure.splitBinding (pairForms entries) >>= _) (next + 1) = _
      rw [bind_of_ok hsplit]
      rfl

/-- The `try` inside the expansion. -/
def restoringForm (temporaries : List Temporary) (body : List Form) : Form :=
  Destructure.list "try" [Destructure.list "do" (temporaries.map Temporary.bind ++ body),
    Destructure.list "finally" [Destructure.list "do" (temporaries.map Temporary.unbind).reverse]]

theorem pairForms_even (entries : List (String × Form)) : (pairForms entries).length % 2 = 0 := by
  induction entries with
  | nil => rfl
  | cons entry entries ih =>
    change ((pairForms entries).length + 2) % 2 = 0
    omega

theorem expand_bindingForm {entries : List (String × Form)} {temporaries : List Temporary}
    {next next' : ℕ} (hsplit : Destructure.splitBinding (pairForms entries) next =
      .ok (pairForms (temporaries.map Temporary.localEntry), temporaries.map Temporary.bind,
        temporaries.map Temporary.unbind) next') (body : List Form) :
    Destructure.expand (bindingForm entries body) next =
      .ok (some (Destructure.list "let" [.vector (pairForms (temporaries.map Temporary.localEntry)),
        restoringForm temporaries body])) next' := by
  change (if (pairForms entries).length % 2 == 0 then _ else _ : Destructure.ExpandM _) next = _
  rw [pairForms_even, if_pos (beq_self_eq_true 0), bind_of_ok hsplit]
  rfl

/-- The expansion has no patterns left. -/
theorem expand_let (entries : List (String × Form)) (body : List Form) (next : ℕ) :
    Destructure.expand (Destructure.list "let" (.vector (pairForms entries) :: body)) next =
      .ok none next := by
  have hpattern : Destructure.hasPattern (pairForms entries) = false := by
    induction entries with
    | nil => rfl
    | cons entry entries ih => exact ih
  change (if Destructure.needsExpansion (pairForms entries) then _ else _ :
    Destructure.ExpandM _) next = _
  rw [Destructure.needsExpansion, hpattern, Bool.and_false, if_neg Bool.false_ne_true]
  rfl

/-! ## Parts of the form -/

section Parts

variable (r kernel) (names : List String)

/-- The stacks are those of the kernel `k`, and the names denote what they denote there. -/
def Kept (k : Kernel.World M Value) (w : World H) : Prop :=
  (kernel w.heap).bindings = k.bindings ∧ r.Agree names k (kernel w.heap)

/-- A part that defines none of the names `locals` and whose code, entered in the run of `m₀`, keeps
the stacks and what the global names `names` denote. -/
structure Neutral (rt : Runtime H) (A : Activation program) (m₀ : Machine H)
    (core : CompileCore W) (locals : List String) (x : CompileM W Unit) : Prop where
  globalName : ∀ ⦃c c'⦄, x c = .ok () c' → c.context.fallthrough = true → ∀ name ∈ locals,
    c'.globalName core name = c.globalName core name
  runs : ∀ k, Runs rt A m₀ Compiler.Indexed x (fun w ↦ kernel w.heap = k) (Kept r kernel names k)
    (Kept r kernel names k)

variable {r kernel names} {m₀ : Machine H} {core : CompileCore W} {locals temps : List String}
  {globals : String → String} {x : CompileM W Unit} {k : Kernel.World M Value}
  {I : World H → Prop}

theorem Neutral.ready (h : Neutral r kernel names rt A m₀ core locals x) {c c' : Compiler W}
    (hx : x c = .ok () c') (hfalls : c.context.fallthrough = true) (happends : Appends c c')
    (hc : Ready core globals locals temps c) : Ready core globals locals temps c' := by
  refine ⟨fun name hname ↦ (h.globalName hx hfalls name hname).trans (hc.names name hname),
    fun temp htemp ↦ ?_, happends.indexed hc.indexed⟩
  exact (hc.temps temp htemp).of_scopes happends.scopes happends.highWater

/-- What a neutral part does to a property of the stacks. -/
theorem Neutral.keeps (h : Neutral r kernel names rt A m₀ core locals x)
    (hx : ∀ c, Ensures x c (fun _ c' ↦ Adds c c') Stopped)
    (hI : ∀ w w', I w → Kept r kernel names (kernel w.heap) w' → I w') :
    Runs rt A m₀ (Ready core globals locals temps) x I I I := by
  intro c c' hrun hfalls hc
  refine ⟨h.ready hrun hfalls ((hx c).of_ok hrun).toAppends hc,
    fun own hown m hreach height hat hIm s hleaves ↦ ?_⟩
  obtain ⟨-, hends⟩ := h.runs (kernel m.world.heap) hrun hfalls hc.indexed
  exact (hends hown hreach hat rfl hleaves).mono (fun w hw ↦ hI _ w hIm hw)
    fun w hw ↦ hI _ w hIm hw

theorem Kept.refl (w : World H) : Kept r kernel names (kernel w.heap) w :=
  ⟨rfl, Resolution.Agree.refl _ _⟩

theorem Kept.trans {w w' : World H} (h : Kept r kernel names k w)
    (h' : Kept r kernel names (kernel w.heap) w') : Kept r kernel names k w' :=
  ⟨h'.1.trans h.1, h.2.trans h'.2⟩

theorem Bound.kept {w w' : World H} (h : Bound r kernel k names w)
    (h' : Kept r kernel names (kernel w.heap) w') : Bound r kernel k names w' := by
  refine ⟨?_, h.2.trans h'.2⟩
  rw [h'.1]
  exact h.1

end Parts

/-! ## The `try` of the expansion -/

section Restoring

variable {m₀ : Machine H} {core : CompileCore W} {rest : FormCompiler W} {fuel : ℕ} {tail : Bool}
  {span : Position} {globals : String → String} {temporaries : List Temporary} {body : List Form}
  {names : List String} {k : Kernel.World M Value}

/-- The compiler knows the names of the form and the temporaries. -/
def Prepared (core : CompileCore W) (globals : String → String) (temporaries : List Temporary) :
    Compiler W → Prop :=
  Ready core globals (temporaries.map Temporary.name) (temporaries.map Temporary.temp)

theorem drop_of_getElem? {α : Type} {l : List α} {i : ℕ} {a : α} (h : l[i]? = some a) :
    l.drop i = a :: l.drop (i + 1) := by
  obtain ⟨hlt, rfl⟩ := List.getElem?_eq_some_iff.mp h
  exact drop_eq_getElem_cons hlt

variable (hserves : Serves rt r kernel) (hrest : Adding rest)
  (hnames : names = temporaries.map fun t ↦ globals t.name)

include hserves hrest hnames

theorem runs_cleanup : Runs rt A m₀ (Prepared core globals temporaries)
    (compileForm core rest fuel (.bare
      (Destructure.list "do" (temporaries.map Temporary.unbind).reverse) span) tail)
    (Bound r kernel k names) (Unbound r kernel k names) (Unbound r kernel k names) := by
  refine (runs_do (I := fun i ↦ Unbinding r kernel k names (names.reverse.drop i))
    (stable_ready ..) hrest fun i form fuel tail hi ↦ ?_).imp
    (fun w hw ↦ hw.unbinding) (fun w hw ↦ ?_) fun w hw ↦ hw
  · rw [← map_reverse, getElem?_map, Option.map_eq_some_iff] at hi
    obtain ⟨t, ht, rfl⟩ := hi
    have hmem : t ∈ temporaries := mem_reverse.mp (mem_of_getElem? ht)
    have htodo : names.reverse.drop i = globals t.name :: names.reverse.drop (i + 1) := by
      rw [hnames, ← map_reverse]
      exact drop_of_getElem? (by rw [getElem?_map, ht, Option.map_some])
    rw [htodo]
    exact runs_unbind hserves (mem_map_of_mem hmem) (hnames ▸ mem_map_of_mem hmem) _
  · rw [drop_eq_nil_of_le (by simp [hnames])] at hw
    exact hw.unbound

theorem runs_binds (hbody : ∀ form ∈ body, ∀ fuel tail,
      Neutral r kernel names rt A m₀ core (temporaries.map Temporary.name)
        (compileForm core rest fuel (.bare form span) tail)) :
    Runs rt A m₀ (Prepared core globals temporaries) (compileForm core rest fuel (.bare
      (Destructure.list "do" (temporaries.map Temporary.bind ++ body)) span) tail)
    (Pending r kernel k names names) (Bound r kernel k names) (Bound r kernel k names) := by
  have hlength : names.length = temporaries.length := by rw [hnames, length_map]
  refine (runs_do (I := fun i ↦ Pending r kernel k names (names.drop i))
    (stable_ready ..) hrest fun i form fuel tail hi ↦ ?_).imp
    (fun w hw ↦ hw) (fun w hw ↦ ?_) fun w hw ↦ hw
  · by_cases hlt : i < temporaries.length
    · rw [getElem?_append_left (by rwa [length_map]), getElem?_map, Option.map_eq_some_iff] at hi
      obtain ⟨t, ht, rfl⟩ := hi
      have hmem : t ∈ temporaries := mem_of_getElem? ht
      have htodo : names.drop i = globals t.name :: names.drop (i + 1) := by
        rw [hnames]
        exact drop_of_getElem? (by rw [getElem?_map, ht, Option.map_some])
      rw [htodo]
      exact runs_bind hserves (mem_map_of_mem hmem) (mem_map_of_mem hmem)
        (hnames ▸ mem_map_of_mem hmem) _
    · -- all names are bound, and the forms of the body keep that
      rw [getElem?_append_right (by rw [length_map]; omega)] at hi
      rw [drop_eq_nil_of_le (by omega), drop_eq_nil_of_le (by omega)]
      exact ((hbody form (mem_of_getElem? hi) fuel tail).keeps
        (compileForm_adds core hrest fuel _ tail) fun w w' ↦ Bound.kept).imp
        (fun w hw ↦ hw.bound) (fun w hw ↦ hw.pending) fun w hw ↦ hw
  · rw [drop_eq_nil_of_le (by rw [length_append, length_map]; omega)] at hw
    exact hw.bound

theorem runs_restoring (hdepths : Depths rt A m₀) (hbody : ∀ form ∈ body, ∀ fuel tail,
      Neutral r kernel names rt A m₀ core (temporaries.map Temporary.name)
        (compileForm core rest fuel (.bare form span) tail)) :
    Runs rt A m₀ (Prepared core globals temporaries)
      (compileForm core rest fuel (.bare (restoringForm temporaries body) span) tail)
      (Pending r kernel k names names) (Unbound r kernel k names) (Unbound r kernel k names) := by
  refine runs_try (stable_ready ..) hrest hdepths rfl (fun w w' hheap hw ↦ ?_)
    (fun value site w hw ↦ ?_) (fun _ _ ↦ runs_binds hserves hrest hnames hbody)
    fun _ _ ↦ runs_cleanup hserves hrest hnames
  · rw [Bound, hheap]
    exact hw
  · have hkernel : kernel (thrownErrorAt rt.toThrowing value site w).2.heap = kernel w.heap :=
      hserves.recordThrow ..
    rw [Unbound, hkernel]
    exact hw

end Restoring

/-! ## The initialisers -/

section Initialisers

variable {compile : FormCompiler W} {formName : String} {span : Position}
  {entries : List (String × Form)} {slots : List ℕ} {c c' : Compiler W}

/-- The elements of the binding vector as the compiler sees them. -/
def pairChildren (entries : List (String × Form)) (span : Position) : List Child :=
  (pairForms entries).map (Child.bare · span)

theorem compileBindings_eq (compile : FormCompiler W) (formName : String)
    (entries : List (String × Form)) (span : Position) :
    compileBindings compile (.bare (.vector (pairForms entries)) span) formName =
      compilePairs compile formName (pairChildren entries span) := by
  change (ensure ((pairForms entries).length % 2 == 0) _ _ _ >>= _) = _
  rw [pairForms_even]
  rfl

/-- A first pair: its initialiser and, if that can complete, the local name and the other pairs. -/
theorem compilePairs_cons {entry : String × Form}
    (h : compilePairs compile formName (pairChildren (entry :: entries) span) c = .ok slots c') :
    ∃ d, compile (.bare entry.2 span) false c = .ok () d ∧
      (d.context.fallthrough = false ∧ c' = d ∨ d.context.fallthrough = true ∧
        ∃ slot e slots', declareName entry.1 (some span) d = .ok slot e ∧
          compilePairs compile formName (pairChildren entries span)
            (e.emitted (.storeLocal slot) (some span)) = .ok slots' c') := by
  obtain ⟨_, d, hinit, h⟩ := bind_eq_ok.mp
    (show (compile (.bare entry.2 span) false >>= _) c = _ from h)
  refine ⟨d, hinit, ?_⟩
  change (if d.context.fallthrough then _ else _ : CompileM W (List ℕ)) d = _ at h
  split_ifs at h with hfalls
  · obtain ⟨slot, e, hdeclare, h⟩ := bind_eq_ok.mp h
    obtain ⟨slots', _, hrest, h⟩ := bind_eq_ok.mp
      (show (compilePairs compile formName (pairChildren entries span) >>= _)
        (e.emitted (.storeLocal slot) (some span)) = _ from h)
    obtain rfl := (Result.ok.inj h).2
    exact .inr ⟨hfalls, slot, e, slots', hdeclare, hrest⟩
  · obtain rfl := (Result.ok.inj h).2
    exact .inl ⟨by simpa using hfalls, rfl⟩

variable (hcompile : Adding compile)

include hcompile

theorem compilePairs_emits (hentries : entries ≠ []) (hfalls : c.context.fallthrough = true)
    (h : compilePairs compile formName (pairChildren entries span) c = .ok slots c') :
    c.here < c'.here := by
  obtain ⟨entry, entries, rfl⟩ := exists_cons_of_ne_nil hentries
  obtain ⟨d, hinit, hnext⟩ := compilePairs_cons h
  have hemits := ((hcompile _ false c).of_ok hinit).emits hfalls
  rcases hnext with ⟨-, rfl⟩ | ⟨-, slot, e, slots', hdeclare, hrest⟩
  · exact hemits
  · obtain ⟨hgrows, -⟩ := (declareName_spec entry.1 (some span) d).of_ok hdeclare
    obtain ⟨hgrows', -⟩ := (grows_compilePairs hcompile formName _ _).of_ok hrest
    have hstore := Grows.emit e (.storeLocal slot) (some span)
    exact hemits.trans_le ((hgrows.trans hstore).trans hgrows').here_le

variable {m₀ : Machine H} {core : CompileCore W} {names locals : List String}
  {globals : String → String} {k : Kernel.World M Value}

/-- Behind the pairs their local names are known as well. -/
theorem Ready.pairs {temps : List String} (hc : Ready core globals locals temps c)
    (hscopes : c.context.scopes.scopes ≠ []) (hlive : c.context.fallthrough = true)
    (hneutral : ∀ entry ∈ entries, Neutral r kernel names rt A m₀ core locals
      (compile (.bare entry.2 span) false))
    (h : compilePairs compile formName (pairChildren entries span) c = .ok slots c')
    (hfalls : c'.context.fallthrough = true) :
    Ready core globals locals (entries.map Prod.fst ++ temps) c' := by
  induction entries generalizing temps c slots with
  | nil =>
    obtain rfl := (Result.ok.inj h).2
    exact hc
  | cons entry entries ih =>
    obtain ⟨hentry, hneutral⟩ := forall_mem_cons.mp hneutral
    obtain ⟨d, hinit, ⟨hdead, rfl⟩ | ⟨hlive', slot, e, slots', hdeclare, hrest⟩⟩ :=
      compilePairs_cons h
    · rw [hdead] at hfalls
      cases hfalls
    · have hadds := (hcompile _ false c).of_ok hinit
      have hd := hentry.ready hinit hlive hadds.toAppends hc
      obtain ⟨hgrows, -, -, hfallsE, hglobals, hworld, -, hdeclares⟩ :=
        (declareName_spec entry.1 (some span) d).of_ok hdeclare
      have hinside : d.context.scopes.scopes ≠ [] := hadds.scopes ▸ hscopes
      have he : Ready core globals locals (entry.1 :: temps) e := by
        refine ⟨fun name hname ↦ ?_, fun temp htemp ↦ ?_, hgrows.indexed hd.indexed⟩
        · exact (globalName_congr hglobals hworld name).trans (hd.names name hname)
        · rcases mem_cons.mp htemp with rfl | htemp
          · exact hdeclares.declared hinside
          · exact hdeclares.others temp (hd.temps temp htemp)
      have hstored : Similar e (e.emitted (.storeLocal slot) (some span)) :=
        (Emitted.of_emit rfl).similar
      have hready := ih (stable_ready _ _ _ _ hstored he) (hdeclares.inside hinside)
        (hfallsE.trans hlive') hneutral hrest
      refine ⟨hready.names, fun temp htemp ↦ hready.temps temp ?_, hready.indexed⟩
      simpa [or_comm, or_assoc, or_left_comm] using htemp

/-- The initialisers keep the stacks and what the names denote. -/
theorem runs_initialisers (hentries : entries ≠ []) (hfalls : c.context.fallthrough = true)
    (hindexed : c.Indexed) (hneutral : ∀ entry ∈ entries, Neutral r kernel names rt A m₀ core locals
      (compile (.bare entry.2 span) false))
    (h : compilePairs compile formName (pairChildren entries span) c = .ok slots c')
    {own : List TryEntry} (hown : Compiled A c own c') {m : Machine H}
    (hreach : Relation.ReflTransGen (Turn rt program) (.running m₀) (.running m)) {height : ℕ}
    (hat : A.At c.here height m) (hm : Kept r kernel names k m.world) {s : Status H}
    (hleaves : Leaves rt program (A.region c.here c'.here) (.running m) s) :
    Ends rt A ⟨c.here, c'.here, own⟩ height height c'.context.fallthrough (Kept r kernel names k)
      (Kept r kernel names k) s := by
  induction entries generalizing c slots own m s with
  | nil => exact absurd rfl hentries
  | cons entry entries ih =>
    obtain ⟨hentry, hneutral⟩ := forall_mem_cons.mp hneutral
    obtain ⟨d, hinit, hnext⟩ := compilePairs_cons h
    have hadds := (hcompile _ false c).of_ok hinit
    have hfirst : ∀ {own₁}, Compiled A c own₁ d → ∀ s₁,
        Leaves rt program (A.region c.here d.here) (.running m) s₁ →
        Ends rt A ⟨c.here, d.here, own₁⟩ height (height + 1) d.context.fallthrough
          (Kept r kernel names k) (Kept r kernel names k) s₁ := by
      intro own₁ hown₁ s₁ hleaves₁
      obtain ⟨-, hends⟩ := hentry.runs (kernel m.world.heap) hinit hfalls hindexed
      exact (hends hown₁ hreach hat rfl hleaves₁).mono (fun w ↦ hm.trans) fun w ↦ hm.trans
    -- an initialiser that cannot complete is the last one compiled
    rcases hnext with ⟨hdead, rfl⟩ | ⟨hlive, slot, e, slots', hdeclare, hrest⟩
    · have hends := hfirst hown s hleaves
      rw [hdead] at hends
      exact hends.of_dead
    · obtain ⟨hgrows, hcode, hhandlers, hfallsE, -, -, hslot, -⟩ :=
        (declareName_spec entry.1 (some span) d).of_ok hdeclare
      obtain ⟨hgrows', -⟩ := (grows_compilePairs hcompile formName _ _).of_ok hrest
      have hstore := Grows.emit e (.storeLocal slot) (some span)
      have hhere : (e.emitted (.storeLocal slot) (some span)).here = d.here + 1 := by
        rw [Compiler.emitted_here, Compiler.here, hcode]
        rfl
      have hlt : d.here < c'.here := by
        have := hgrows'.here_le
        omega
      obtain ⟨own₁, own₂, rfl, hstop, hstart, hown₁, hown₂⟩ :=
        hown.split hadds.toGrows ((hgrows.trans hstore).trans hgrows')
      have hown₃ := hown₂.after (hgrows.trans hstore) hgrows' hhandlers
      refine Ends.append hown.owns hadds.here_le hlt hstop hstart hleaves (hfirst hown₁)
        fun m₁ hreach₁ hat₁ hm₁ s₂ hleaves₂ ↦ ?_
      have hprefix : d.context.code ++ [.storeLocal slot] <+: c'.context.code :=
        hcode ▸ hgrows'.code
      -- its value is stored in the slot of the local name
      have hmoves : Moves rt A m₁ (d.here + 1) height :=
        hat₁.storeLocal (hown₂.emitted hprefix le_rfl 0 rfl)
          (hslot.trans_le (hgrows'.highWater.trans hown.locals))
      have hstored : (e.emitted (.storeLocal slot) (some span)).context.fallthrough = true :=
        hfallsE.trans hlive
      cases entries with
      | nil =>
        obtain rfl := (Result.ok.inj hrest).2
        rw [hstored]
        rw [← hhere] at hmoves
        exact hmoves.ends hleaves₂ hm₁
      | cons next entries =>
        have hemits := compilePairs_emits hcompile (cons_ne_nil _ _) hstored hrest
        have howns : A.Owns ⟨d.here, c'.here, [] ++ own₂⟩ := hown₂.owns
        refine Ends.append howns (Nat.le_add_right _ 1) (hhere ▸ hemits) (forall_mem_nil _) ?_
          hleaves₂
          (fun s₁ hleaves₁ ↦ hmoves.ends hleaves₁ hm₁)
          fun m₂ hreach₂ hat₂ hm₂ s₃ hleaves₃ ↦ ?_
        · rw [← hhere]
          exact fun x hx ↦ (hown₃.owns.within x hx).1
        · rw [← hhere] at hat₂ hleaves₃ ⊢
          exact ih (cons_ne_nil _ _) hstored
            ((hgrows.trans hstore).indexed (hadds.indexed hindexed)) hneutral hrest hown₃
            ((hreach.trans hreach₁).trans hreach₂) hat₂ hm₂ hleaves₃

end Initialisers

/-! ## The whole form -/

section Form

variable {core : CompileCore W} {rest : FormCompiler W} {fuel : ℕ} {child : Child} {tail : Bool}
  {entries : List (String × Form)} {body : List Form} {c c' c₁ : Compiler W} {own : List TryEntry}
  {m : Machine H} {height : ℕ}

/-- From `c`, the initialisers of the form are compiled up to `c₁`: they are those of the `let` that
it expands to. -/
def Initialised (core : CompileCore W) (rest : FormCompiler W) (entries : List (String × Form))
    (span : Position) (c c₁ : Compiler W) : Prop :=
  ∃ temporaries others next fuel slots,
    Destructure.splitBinding (pairForms entries) c.nextDestructureId =
      .ok (temporaries, others) next ∧
    (do pushScope
        compileBindings (compileForm core rest fuel) (.bare (.vector temporaries) span) "let")
      { c with topLevel := false, nextDestructureId := next } = .ok slots c₁

/-- The stages in which the form is compiled: a scope, the initialisers, the `try`, and the end of
the scope. -/
structure Stages (core : CompileCore W) (rest : FormCompiler W) (entries : List (String × Form))
    (body : List Form) (span : Position) (tail : Bool) (c c' : Compiler W) where
  temporaries : List Temporary
  fuel : ℕ
  opened : Compiler W
  initialised : Compiler W
  restored : Compiler W
  slots : List ℕ
  entries_eq : temporaries.map Temporary.entry = entries
  spec : Initialised core rest entries span c initialised
  open_ : ∃ next, opened = { c with
    topLevel := false, nextDestructureId := next
    context := { c.context with scopes := c.context.scopes.pushScope } }
  pairs : compilePairs (compileForm core rest fuel) "let"
    (pairChildren (temporaries.map Temporary.localEntry) span) opened = .ok slots initialised
  restoring : compileSequence (compileForm core rest fuel)
    [.bare (restoringForm temporaries body) span] tail initialised = .ok () restored
  close : popScope restored = .ok () c'

theorem stages_of_ok (hform : child.form = bindingForm entries body)
    (hfalls : c.context.fallthrough = true)
    (h : compileForm core rest fuel child tail c = .ok () c') :
    Nonempty (Stages core rest entries body child.span tail c c') := by
  obtain ⟨temporaries, hentries, next, hsplit⟩ := splitBinding_eq entries c.nextDestructureId
  -- the form and its expansion take one unit of the budget each
  match fuel with
  | 0 => cases h
  | 1 =>
    rw [compileForm_of_expand hfalls (hform ▸ expand_bindingForm hsplit body)] at h
    cases h
  | fuel + 2 =>
    have hmarked : ({ c with nextDestructureId := next } : Compiler W).context.fallthrough = true :=
      hfalls
    rw [compileForm_of_expand hfalls (hform ▸ expand_bindingForm hsplit body), Option.elim_some,
      compileForm_of_plain hmarked (expand_let ..)] at h
    change (pushScope >>= fun _ ↦ compileBindings _ _ "let" >>= fun _ ↦ _ >>= fun _ ↦ popScope) _ =
      _ at h
    obtain ⟨_, opened, hopen, h⟩ := bind_eq_ok.mp h
    obtain ⟨slots, initialised, hpairs, h⟩ := bind_eq_ok.mp h
    obtain ⟨_, restored, hrestoring, hclose⟩ := bind_eq_ok.mp h
    have hspec : Initialised core rest entries child.span c initialised :=
      ⟨_, _, next, fuel, slots, hsplit, bind_eq_ok.mpr ⟨_, opened, hopen, hpairs⟩⟩
    rw [compileBindings_eq] at hpairs
    obtain rfl := (Result.ok.inj hopen).2
    exact ⟨⟨temporaries, fuel, _, initialised, restored, slots, hentries, hspec, ⟨next, rfl⟩,
      hpairs, hrestoring, hclose⟩⟩

/-- The names of the form as they stand in its code. -/
def Compiler.globalNames (c : Compiler W) (core : CompileCore W) (entries : List (String × Form)) :
    List String :=
  entries.map fun entry ↦ c.globalName core entry.1

/-- The parts of the form are neutral in the run of `m`. -/
def Parts (rt : Runtime H) (A : Activation program) (r : Resolution M)
    (kernel : H → Kernel.World M Value) (core : CompileCore W) (rest : FormCompiler W)
    (entries : List (String × Form)) (body : List Form) (span : Position) (c : Compiler W)
    (m : Machine H) : Prop :=
  ∀ form ∈ entries.map Prod.snd ++ body, ∀ fuel tail,
    Neutral r kernel (c.globalNames core entries) rt A m core
      (entries.map Prod.fst) (compileForm core rest fuel (.bare form span) tail)

theorem Activation.Ends.restored_iff {b : Block} {low high : ℕ} {falls : Bool} {s : Status H}
    {k : Kernel.World M Value} {names : List String} (hserves : Serves rt r kernel)
    (h : Ends rt A b low high falls (Unbound r kernel k names) (Unbound r kernel k names) s) :
    (kernel s.machine.world.heap).bindings = k.bindings ↔ r.Balanced k names :=
  Ends.view (P := fun k' ↦ k'.bindings = k.bindings ↔ r.Balanced k names) h hserves.backedge

theorem Activation.Ends.kept {b : Block} {low high : ℕ} {falls : Bool} {s : Status H}
    {k : Kernel.World M Value} {names : List String} (hserves : Serves rt r kernel)
    (h : Ends rt A b low high falls (Kept r kernel names k) (Kept r kernel names k) s) :
    (kernel s.machine.world.heap).bindings = k.bindings :=
  Ends.view (P := fun k' ↦ k'.bindings = k.bindings) (h.mono (fun _ ↦ And.left) fun _ ↦ And.left)
    hserves.backedge

variable {span : Position} (S : Stages core rest entries body span tail c c')
  (hserves : Serves rt r kernel) (hrest : Adding rest) (hfalls : c.context.fallthrough = true)
  (hindexed : c.Indexed) (hdepths : Depths rt A m)
  (hparts : Parts rt A r kernel core rest entries body span c m)

namespace Stages

theorem names_eq : entries.map Prod.fst = S.temporaries.map Temporary.name := by
  have hnames := congrArg (map Prod.fst) S.entries_eq
  rw [map_map] at hnames
  exact hnames.symm

theorem globals_eq :
    c.globalNames core entries = S.temporaries.map fun t ↦ c.globalName core t.name := by
  have hglobals := congrArg (map fun entry ↦ c.globalName core entry.1) S.entries_eq
  rw [map_map] at hglobals
  exact hglobals.symm

include hparts in
theorem neutral_initialisers : ∀ entry ∈ S.temporaries.map Temporary.localEntry,
    Neutral r kernel (c.globalNames core entries) rt A m core
      (S.temporaries.map Temporary.name)
      (compileForm core rest S.fuel (.bare entry.2 span) false) := by
  rw [forall_mem_map]
  intro t ht
  rw [← S.names_eq]
  refine hparts t.initialiser (mem_append_left _ (mem_map.mpr ⟨t.entry, ?_, rfl⟩)) _ _
  rw [← S.entries_eq]
  exact mem_map_of_mem ht

include hserves hrest hfalls hindexed hdepths hparts in
/-- The `try` behind the initialisers. -/
theorem ends_restoring (hlive : S.initialised.context.fallthrough = true)
    {own : List TryEntry} (hown : Compiled A S.initialised own S.restored) {m₁ : Machine H}
    (hreach : Relation.ReflTransGen (Turn rt program) (.running m) (.running m₁)) {height : ℕ}
    (hat : A.At S.initialised.here height m₁) {k : Kernel.World M Value}
    (hm₁ : Kept r kernel (c.globalNames core entries) k m₁.world)
    {s : Status H}
    (hleaves : Leaves rt program (A.region S.initialised.here S.restored.here) (.running m₁) s) :
    Ends rt A ⟨S.initialised.here, S.restored.here, own⟩ height (height + 1)
      S.restored.context.fallthrough
      (Unbound r kernel k (c.globalNames core entries))
      (Unbound r kernel k (c.globalNames core entries)) s := by
  have hcompile := compileForm_adds core hrest S.fuel
  have hready : Prepared core (c.globalName core) S.temporaries S.initialised := by
    obtain ⟨next, hopened⟩ := S.open_
    have hc : Ready core (c.globalName core) (S.temporaries.map Temporary.name) [] S.opened := by
      rw [hopened]
      exact ⟨fun name _ ↦ globalName_congr rfl rfl name, nofun, hindexed⟩
    have hready := hc.pairs hcompile (by rw [hopened]; exact cons_ne_nil _ _)
      (by rw [hopened]; exact hfalls) (S.neutral_initialisers hparts) S.pairs hlive
    rwa [append_nil, map_map] at hready
  have hbody : ∀ form ∈ body, ∀ fuel tail, Neutral r kernel (c.globalNames core entries) rt A m core
      (S.temporaries.map Temporary.name) (compileForm core rest fuel (.bare form span) tail) :=
    fun form hform fuel tail ↦ S.names_eq ▸ hparts form (mem_append_right _ hform) fuel tail
  obtain ⟨-, hends⟩ := runs_singleton (stable_ready ..) hcompile (fun _ ↦
    runs_restoring hserves hrest S.globals_eq hdepths hbody) tail S.restoring hlive hready
  exact hends hown hreach hat (.start hm₁.1 hm₁.2) hleaves

theorem opened_here : S.opened.here = c.here := by
  obtain ⟨next, hopened⟩ := S.open_
  rw [hopened]
  rfl

include hrest in
/-- The blocks of the initialisers and of the `try`. -/
theorem place (hown : Compiled A c own c') :
    c'.here = S.restored.here ∧ ∃ own₁ own₂, own = own₁ ++ own₂ ∧
      (∀ e ∈ own₁, e.stop ≤ S.initialised.here) ∧ (∀ e ∈ own₂, S.initialised.here ≤ e.start) ∧
      Compiled A S.opened own₁ S.initialised ∧ Compiled A S.initialised own₂ S.restored := by
  have hcompile := compileForm_adds core hrest S.fuel
  obtain ⟨hpairs, -⟩ := (grows_compilePairs hcompile "let" _ _).of_ok S.pairs
  have hrestoring := (adds_compileSequence hcompile _ tail S.initialised).of_ok S.restoring
  obtain ⟨hclose, hhere, -⟩ := (popScope_spec S.restored).of_ok S.close
  have hclosed : c'.context.handlers = S.restored.context.handlers :=
    congrArg (·.context.handlers) (Result.ok.inj S.close).2.symm
  obtain ⟨next, hopened⟩ := S.open_
  have hopen : Grows c S.opened := hopened ▸ .of_eq rfl rfl rfl rfl rfl
  have hinner : Compiled A S.opened own S.restored :=
    (hown.after hopen ((hpairs.trans hrestoring.toGrows).trans hclose) (by rw [hopened])).before
      (hpairs.trans hrestoring.toGrows) hclose hclosed
  exact ⟨hhere, hinner.split hpairs hrestoring.toGrows⟩

include hrest hfalls hindexed hparts in
/-- The initialisers. -/
theorem ends_initialisers (hentries : entries ≠ []) (hown : Compiled A S.opened own S.initialised)
    (hat : A.At c.here height m) {s : Status H}
    (hleaves : Leaves rt program (A.region c.here S.initialised.here) (.running m) s) :
    Ends rt A ⟨c.here, S.initialised.here, own⟩ height height S.initialised.context.fallthrough
      (Kept r kernel (c.globalNames core entries) (kernel m.world.heap))
      (Kept r kernel (c.globalNames core entries) (kernel m.world.heap)) s := by
  have htemporaries : S.temporaries.map Temporary.localEntry ≠ [] := by
    rintro hnil
    refine hentries (S.entries_eq.symm.trans ?_)
    rw [map_eq_nil_iff.mp hnil, map_nil]
  have hopened : S.opened.context.fallthrough = true ∧ S.opened.Indexed := by
    obtain ⟨next, hopened⟩ := S.open_
    rw [hopened]
    exact ⟨hfalls, hindexed⟩
  rw [← S.opened_here] at hat hleaves ⊢
  exact runs_initialisers (compileForm_adds core hrest S.fuel) htemporaries hopened.1 hopened.2
    (S.neutral_initialisers hparts) S.pairs hown .refl hat (.refl _) hleaves

include hserves hrest hfalls hindexed hdepths hparts

/-- A run of the form ends in its initialisers with the stacks as they were, or behind them. -/
theorem leaves_cases (hown : Compiled A c own c') (hat : A.At c.here height m) {s : Status H}
    (hleaves : Leaves rt program (A.region c.here c'.here) (.running m) s) :
    ((kernel s.machine.world.heap).bindings = (kernel m.world.heap).bindings ∧
      Leaves rt program (A.region c.here S.initialised.here) (.running m) s) ∨
    ((kernel s.machine.world.heap).bindings = (kernel m.world.heap).bindings ↔
      r.Balanced (kernel m.world.heap) (c.globalNames core entries)) := by
  obtain ⟨hhere, own₁, own₂, rfl, hstop, hstart, hown₁, hown₂⟩ := S.place hrest hown
  have hcompile := compileForm_adds core hrest S.fuel
  have hadds := (adds_compileSequence hcompile _ tail _).of_ok S.restoring
  have hfrom : c.here ≤ S.initialised.here := by
    rw [← S.opened_here]
    exact ((grows_compilePairs hcompile "let" _ _).of_ok S.pairs).1.here_le
  have hto := hadds.here_le
  rw [hhere] at hleaves
  have howns : A.Owns ⟨c.here, S.restored.here, own₁ ++ own₂⟩ := hhere ▸ hown.owns
  -- what follows once the initialisers have completed
  have hbehind : ∀ {m₁}, S.initialised.context.fallthrough = true →
      Relation.ReflTransGen (Turn rt program) (.running m) (.running m₁) →
      A.At S.initialised.here height m₁ →
      Kept r kernel (c.globalNames core entries) (kernel m.world.heap) m₁.world →
      Leaves rt program (A.region c.here S.restored.here) (.running m₁) s →
      ((kernel s.machine.world.heap).bindings = (kernel m.world.heap).bindings ↔
        r.Balanced (kernel m.world.heap) (c.globalNames core entries)) := by
    intro m₁ hlive hreach hat₁ hm₁ hrestLeaves
    obtain ⟨s₂, hleaves₂, hnext₂⟩ := hrestLeaves.cut hfrom le_rfl
    have hends := S.ends_restoring hserves hrest hfalls hindexed hdepths hparts hlive hown₂ hreach
      hat₁ hm₁ hleaves₂
    have hothers : ∀ e ∈ own₁ ++ own₂,
        e ∈ own₂ ∨ e.stop ≤ S.initialised.here ∨ S.restored.here ≤ e.start :=
      fun e he ↦ (mem_append.mp he).elim (fun he ↦ .inr (.inl (hstop e he))) .inl
    rcases hnext₂ with rfl | ⟨hgoes, -⟩
    · exact hends.restored_iff hserves
    · exact absurd hgoes ((hends.widen hfrom le_rfl (.inl rfl) hothers).not_goes howns)
  by_cases hentries : entries = []
  · -- without initialisers the `try` is entered at once
    have hnil : S.temporaries = [] := map_eq_nil_iff.mp (S.entries_eq.trans hentries)
    have hpairs := S.pairs
    rw [hnil] at hpairs
    have hsame : S.opened = S.initialised := (Result.ok.inj hpairs).2
    obtain ⟨next, hopened⟩ := S.open_
    refine .inr (hbehind ?_ .refl ?_ (.refl _) hleaves)
    · rw [← hsame, hopened]
      exact hfalls
    · rw [← hsame, S.opened_here]
      exact hat
  · obtain ⟨s₁, hleaves₁, hnext₁⟩ := hleaves.cut (le_refl c.here) hto
    have hends := S.ends_initialisers hrest hfalls hindexed hparts hentries hown₁ hat hleaves₁
    cases hends with
    | @value m₁ hlive hat₁ hm₁ =>
      rcases hnext₁ with rfl | ⟨-, hrestLeaves⟩
      · refine absurd (Region.holds_of_ip hat₁.function hat₁.calls ?_ ?_) hleaves.not_goes
        · exact hat₁.ip ▸ hfrom
        · exact hat₁.ip ▸ hadds.emits hlive
      · exact .inr (hbehind hlive hleaves₁.reaches hat₁ hm₁ hrestLeaves)
    | @raised _ _ _ m₁ _ hfirst hlast hlow hat₁ hm₁ hpassed hlands =>
      have herror : Ends rt A ⟨c.here, S.initialised.here, own₁⟩ height height false
          (Kept r kernel (c.globalNames core entries) (kernel m.world.heap))
          (Kept r kernel (c.globalNames core entries) (kernel m.world.heap)) s₁ :=
        .raised hfirst hlast hlow hat₁ hm₁ hpassed hlands
      have hothers : ∀ e ∈ own₁ ++ own₂,
          e ∈ own₁ ∨ e.stop ≤ c.here ∨ S.initialised.here ≤ e.start :=
        fun e he ↦ (mem_append.mp he).elim .inl fun he ↦ .inr (.inr (hstart e he))
      rcases hnext₁ with rfl | ⟨hgoes, -⟩
      · exact .inl ⟨herror.kept hserves, hleaves₁⟩
      · exact absurd hgoes ((herror.widen le_rfl hto (.inr rfl) hothers).not_goes howns)

end Stages

end Form

/-! ## Literals -/

section Literals

variable (core : CompileCore W)

/-- `compile_form` on numbers alone. -/
def literals : FormCompiler W := fun child _ ↦
  match child.form with
  | .number n => constant core (.number n) child.span
  | _ => compileError .unsupportedForm "not a number" (some child.span)

theorem number_apart (n : Int64) (hinterned : isInterned (.number n)) (value : Value)
    (_ : core.valueEq value (.number n)) : value = .number n :=
  absurd hinterned Bool.false_ne_true

theorem adding_literals : Adding (literals core) := by
  intro child tail c
  rw [literals]
  split
  next n _ =>
    refine Ensures.bind (constantIndexOf_spec core child.span c (number_apart core n))
      fun index c₁ h₁ ↦ ?_
    exact (adds_emit c₁ _ _).imp fun _ _ h ↦ h₁.1.adds (by rw [h₁.2.1]) h
  · trivial

variable {core}

/-- Numbers are neutral parts. -/
theorem neutral_literal {names locals : List String} {m₀ : Machine H} (n : Int64)
    (span : Position) (fuel : ℕ) (tail : Bool) : Neutral r kernel names rt A m₀ core locals
      (compileForm core (literals core) fuel (.bare (.number n) span) tail) := by
  cases fuel with
  | zero => exact ⟨nofun, fun _ ↦ nofun⟩
  | succ fuel =>
    have hcompile : ∀ {c c' : Compiler W}, c.context.fallthrough = true →
        compileForm core (literals core) (fuel + 1) (.bare (.number n) span) tail c = .ok () c' →
        ∃ index c₁, Emitted c₁ [.constant index] c' ∧ Appends c c₁ ∧ c₁.context = c.context ∧
          c₁.globals = c.globals ∧ c₁.world = c.world ∧
          (c.Indexed → c₁.constants[index]? = some (.number n)) := by
      intro c c' hfalls h
      rw [compileForm_of_plain hfalls rfl] at h
      obtain ⟨index, c₁, hindex, h⟩ := bind_eq_ok.mp
        (show (constantIndexOf core (.number n) span >>= _) c = _ from h)
      exact ⟨index, c₁, .of_emit h,
        (constantIndexOf_spec core span c (number_apart core n)).of_ok hindex⟩
    refine ⟨fun c c' h hfalls name _ ↦ ?_, fun k c c' h hfalls hindexed ↦ ?_⟩
    · obtain ⟨index, c₁, hemitted, -, -, hglobals, hworld, -⟩ := hcompile hfalls h
      exact globalName_congr (hemitted.globals.trans hglobals) (hemitted.world.trans hworld) name
    · obtain ⟨index, c₁, hemitted, happends, hcontext, -, -, hconstant⟩ := hcompile hfalls h
      refine ⟨hemitted.grows.indexed (happends.indexed hindexed),
        fun own hown m _ height hat hm s hleaves ↦ ?_⟩
      have hcode : c'.context.code = c.context.code ++ [.constant index] := by
        rw [hemitted.code, hcontext]
      have hprefix : c.context.code ++ [.constant index] <+: c'.context.code := hcode ▸ prefix_rfl
      have hhere : c'.here = c.here + 1 := by
        rw [hemitted.here, Compiler.here, Compiler.here, hcontext]
        rfl
      have hvalue : program.constants[index]? = some (.number n) := by
        obtain ⟨more, hmore⟩ := hown.constants
        obtain ⟨hlt, -⟩ := List.getElem?_eq_some_iff.mp (hconstant hindexed)
        rw [← hmore, hemitted.constants, getElem?_append_left hlt, hconstant hindexed]
      have hmoves : Moves rt A m c'.here (height + 1) :=
        hhere ▸ hat.constant (hown.emitted hprefix le_rfl 0 rfl) hvalue
      rw [hemitted.falls, hcontext, hfalls]
      exact hmoves.ends hleaves (hm ▸ .refl _)

end Literals

/-- In a validated program the table holds the heights of the operands. -/
theorem depths_of_validate (hvalidate : validate program = .ok ())
    (hcovered : program.isCovered = true) {m : Machine H} (hstart : Starts rt program m) :
    Depths rt A m := by
  intro e he m' height hreach hat
  obtain ⟨hentry, hvalid⟩ := validate_ok hvalidate
  have hrun : Relation.ReflTransGen (CoveredTurn rt program) (.running m) (.running m') :=
    Relation.ReflTransGen.mono
      (fun _ _ hturn ↦ ⟨hturn, fun m _ ↦ coveredAt_of_isCovered hcovered m⟩) _ _ hreach
  have hs : StatusOk program (.running m) := starts_inv hentry hvalid hstart
  obtain ⟨function, heights, height', hval, hheight, hframed⟩ := run_ok hvalid hs hrun
  obtain rfl : A.prototype = function := by
    have hfound := hframed.found
    rw [hat.function, A.found] at hfound
    exact Option.some.inj hfound
  have hdepth := (hval.handlers e he).depth
  rw [hat.ip, hdepth] at hheight
  rw [Option.some.inj hheight, ← hat.base, ← hframed.stack, hat.height]

/-! ## Sample programs -/

/-- A core that keeps the kernel as its heap and serves bindings in it. -/
def bindingRuntime (r : Resolution M) : Runtime (Kernel.World M Value) where
  display _ _ := ""
  recordThrow _ _ heap := heap
  call call args world :=
    match call, args with
    | .bytecodeDynamicBind name, [value] =>
      let (result, heap) := r.bytecodeDynamicBind world.heap name value
      (result.map fun _ ↦ .nil, { world with heap })
    | .bytecodeDynamicUnbind name, [] =>
      let (result, heap) := r.bytecodeDynamicUnbind world.heap name
      (result.map fun _ ↦ .nil, { world with heap })
    | _, _ => (.ok .nil, world)
  closureValue _ world := (0, world)
  arityDispatcher _ _ world := (.nil, world)
  derefVar _ _ := .nil
  currentExceptionSite _ := none
  promiseState _ world := (.fulfilled .nil, world)
  spawnAsync _ world := (0, world)
  backedge _ _ _ world := (none, world)

theorem serves_bindingRuntime (r : Resolution M) : Serves (bindingRuntime r) r id where
  bind _ _ _ := rfl
  bindHeap _ _ _ := rfl
  unbind _ _ := rfl
  unbindHeap _ _ := rfl
  closureValue _ _ := rfl
  arityDispatcher _ _ _ := rfl
  recordThrow _ _ _ := rfl
  backedge _ _ _ _ := rfl

/-- `*a*` and `*c*` denote dynamic Vars, `b` denotes one that is not dynamic. -/
def sampleResolution : Resolution Unit where
  resolve _ _ name := [("*a*", ⟨0, "*a*"⟩), ("b", ⟨1, "b"⟩), ("*c*", ⟨2, "*c*"⟩)].lookup name
  flag _ _ := false

/-- Only `*a*` has a binding. -/
def sampleKernel : Kernel.World Unit Value where
  vars id := ⟨.nil, { dynamic := id != 1 }, none⟩
  nextVar := 3
  cells _ := {}
  nextNamespace := 0
  bindings id := if id = 0 then [.number 7] else []
  registry := ⟨[], "", [], [], [], [], [], []⟩

def sampleCore : CompileCore Unit where
  ns := "user"
  registry _ := none
  valueEq
    | .string text, .string text' => text == text'
    | _, _ => false
  eq_string {value text} h := by
    cases value <;> simp_all

def sampleStart : Compiler Unit where
  constants := []
  constantIndex := []
  context := ⟨[], ⟨[]⟩, ⟨[⟨[], 0⟩], 0, 0⟩, [], [], [], true⟩
  outer := []
  globals := []
  topLevel := true
  nextDestructureId := 0
  world := ()

def dynamicEntries : List (String × Form) := [("*a*", .number 1), ("*c*", .number 2)]

def mixedEntries : List (String × Form) := [("*a*", .number 1), ("b", .number 2)]

/-- Compiles `(binding [name initialiser …] 3)`. -/
def compileSample (entries : List (String × Form)) : Result CompileStop (Compiler Unit) Unit :=
  compileForm sampleCore (literals sampleCore) 6 (.bare (bindingForm entries [.number 3]) default)
    false sampleStart

def sampleCompiled (entries : List (String × Form)) : Compiler Unit :=
  match compileSample entries with
  | .ok _ c | .error _ c => c

def sampleFunction (c : Compiler Unit) : FunctionPrototype where
  name := none
  asyncFunction := false
  arity := 0
  variadic := false
  captureCount := 0
  localCount := c.context.scopes.highWater
  maxStack := 1
  code := c.context.code ++ [.ret]
  sourceMap := c.context.sourceMap.record none
  handlers := c.context.handlers

def sampleProgram (c : Compiler Unit) : Program :=
  { straightLine [] with constants := c.constants, functions := [sampleFunction c] }

/-- The entry of the program, in the world of `sampleKernel`. -/
def sampleEntry (entries : List (String × Form)) : Machine (Kernel.World Unit Value) :=
  Machine.entry (sampleProgram (sampleCompiled entries)) ⟨none, sampleKernel⟩

/-- Leaves the code of the form in the sample program. -/
def SampleLeaves (entries : List (String × Form)) (s : Status (Kernel.World Unit Value)) : Prop :=
  Leaves (bindingRuntime sampleResolution) (sampleProgram (sampleCompiled entries))
    ⟨0, [], 0, (sampleCompiled entries).here⟩ (.running (sampleEntry entries)) s

def sampleRun (entries : List (String × Form)) (n : ℕ) : Status (Kernel.World Unit Value) :=
  (Status.turn (bindingRuntime sampleResolution) (sampleProgram (sampleCompiled entries)))^[n]
    (.running (sampleEntry entries))
/-- The machine executes an instruction below `stop` of the entry function. -/
def isInside (stop : ℕ) : Status H → Bool
  | .running m => m.function == 0 && m.calls.isEmpty && decide (m.ip < stop)
  | .stopped _ _ => false

/-- The machine executes an instruction from `stop` on, or has failed. -/
def isOutside (stop : ℕ) : Status H → Bool
  | .running m => m.calls.isEmpty && decide (stop ≤ m.ip)
  | .stopped (.failed _) _ => true
  | .stopped _ _ => false

theorem holds_of_isInside {stop : ℕ} {s : Status H} (h : isInside stop s = true) :
    ∃ m, s = .running m ∧ Region.Holds ⟨0, [], 0, stop⟩ m := by
  match s with
  | .running m =>
    simp only [isInside, Bool.and_eq_true, beq_iff_eq, List.isEmpty_iff, decide_eq_true_eq] at h
    exact ⟨m, rfl, Region.holds_of_ip h.1.1 h.1.2 (Nat.zero_le _) h.2⟩

theorem not_goes_of_isOutside {stop : ℕ} {s : Status H} (h : isOutside stop s = true) :
    ¬Region.Goes ⟨0, [], 0, stop⟩ s := by
  match s with
  | .running m =>
    simp only [isOutside, Bool.and_eq_true, List.isEmpty_iff, decide_eq_true_eq] at h
    exact Region.not_holds_of_ip h.1 (.inr h.2)
  | .stopped (.failed _) _ => exact id

theorem leaves_of_isInside {stop n : ℕ} {s : Status H}
    (hinside : ∀ i < n + 1, isInside stop ((Status.turn rt program)^[i] s) = true)
    (hout : isOutside stop ((Status.turn rt program)^[n + 1] s) = true) :
    Leaves rt program ⟨0, [], 0, stop⟩ s ((Status.turn rt program)^[n + 1] s) := by
  induction n generalizing s with
  | zero =>
    obtain ⟨m, rfl, -⟩ := holds_of_isInside (hinside 0 Nat.one_pos)
    exact .exit (.step m) (not_goes_of_isOutside hout)
  | succ n ih =>
    obtain ⟨m, rfl, -⟩ := holds_of_isInside (hinside 0 (Nat.succ_pos _))
    obtain ⟨m', hm', hholds⟩ := holds_of_isInside (hinside 1 (by omega))
    have hstep : step rt program m = .running m' := hm'
    refine .stay (.step m) ?_ (ih (fun i hi ↦ hinside (i + 1) (by omega)) hout)
    rw [hstep]
    exact hholds

/-- What the compiler accepts. -/
def isOk {ε σ α : Type} : Result ε σ α → Bool
  | .ok _ _ => true
  | .error _ _ => false

theorem compileSample_ok {entries : List (String × Form)}
    (h : isOk (compileSample entries) = true) :
    compileSample entries = .ok () (sampleCompiled entries) := by
  rw [sampleCompiled]
  cases hcompile : compileSample entries with
  | ok _ c => rfl
  | error e c =>
    rw [hcompile] at h
    cases h

/-- The frame of the sample program. -/
def sampleActivation (c : Compiler Unit) : Activation (sampleProgram c) :=
  ⟨0, sampleFunction c, rfl, [], 0, c.context.scopes.highWater⟩

theorem at_sampleEntry (entries : List (String × Form)) :
    (sampleActivation (sampleCompiled entries)).At sampleStart.here 0 (sampleEntry entries) :=
  ⟨rfl, rfl, rfl, length_replicate, rfl, rfl⟩

theorem compiled_sample (c : Compiler Unit)
    (h : ∀ e ∈ c.context.handlers, e.depth = 0 ∧ e.stop ≤ c.here) :
    Compiled (sampleActivation c) sampleStart c.context.handlers c where
  code _ _ hlt := getElem?_append_left hlt
  handlers := by
    refine ((map_congr_left fun e he ↦ ?_).trans (map_id _)).symm
    rw [TryEntry.clear, ← (h e he).1]
    rfl
  owns := ⟨fun e he ↦ ⟨Nat.zero_le _, (h e he).2⟩, [], [], (append_nil _).symm, nofun, nofun⟩
  constants := prefix_rfl
  locals := le_rfl

/-! ## Restored bindings -/

variable {core : CompileCore W} {rest : FormCompiler W} {fuel : ℕ} {child : Child} {tail : Bool}
  {entries : List (String × Form)} {body : List Form} {c c' : Compiler W} {own : List TryEntry}
  {m : Machine H} {height : ℕ}

/-- **When a `binding` form restores the stacks of dynamic bindings.** Its code stands in the
activation and is entered by the machine `m`; its parts are neutral in this run. However a run
leaves the code, every stack is as it was at `m` if and only if an initialiser was left with an
error or the names were balanced at `m`. -/
theorem binding_restores_iff (hform : child.form = bindingForm entries body)
    (hcompile : compileForm core rest fuel child tail c = .ok () c') (hrest : Adding rest)
    (hfalls : c.context.fallthrough = true) (hindexed : c.Indexed) (hown : Compiled A c own c')
    (hserves : Serves rt r kernel) (hdepths : Depths rt A m) (hat : A.At c.here height m)
    (hparts : Parts rt A r kernel core rest entries body child.span c m) :
    ∃ c₁, Initialised core rest entries child.span c c₁ ∧
      ∀ s, Leaves rt program (A.region c.here c'.here) (.running m) s →
        ((kernel s.machine.world.heap).bindings = (kernel m.world.heap).bindings ↔
          Leaves rt program (A.region c.here c₁.here) (.running m) s ∨
            r.Balanced (kernel m.world.heap) (c.globalNames core entries)) := by
  obtain ⟨S⟩ := stages_of_ok hform hfalls hcompile
  refine ⟨S.initialised, S.spec, fun s hleaves ↦ ?_⟩
  have hcases := S.leaves_cases hserves hrest hfalls hindexed hdepths hparts hown hat hleaves
  constructor
  · intro hrestored
    rcases hcases with ⟨-, hinside⟩ | hiff
    · exact .inl hinside
    · exact .inr (hiff.mp hrestored)
  · rintro (hinside | hbalanced)
    · by_cases hentries : entries = []
      · rcases hcases with ⟨hrestored, -⟩ | hiff
        · exact hrestored
        · refine hiff.mpr (Resolution.balanced_of_dynamic ?_)
          rw [hentries]
          exact nofun
      · obtain ⟨-, own₁, own₂, rfl, -, -, hown₁, -⟩ := S.place hrest hown
        exact (S.ends_initialisers hrest hfalls hindexed hparts hentries hown₁ hat hinside).kept
          hserves
    · rcases hcases with ⟨hrestored, -⟩ | hiff
      · exact hrestored
      · exact hiff.mpr hbalanced

/-- Both Vars of `(binding [*a* 1 *c* 2] 3)` are dynamic: the binding of `*a*` is restored, and
`*c*` has none again. -/
theorem binding_restores_dynamic :
    ∃ s, SampleLeaves dynamicEntries s ∧ s.machine.world.heap.bindings = sampleKernel.bindings := by
  have hcompile : compileForm sampleCore (literals sampleCore) 6
      (.bare (bindingForm dynamicEntries [.number 3]) default) false sampleStart =
        .ok () (sampleCompiled dynamicEntries) := compileSample_ok (by decide +kernel)
  have hown := compiled_sample (sampleCompiled dynamicEntries) (by decide +kernel)
  have hdepths : Depths (bindingRuntime sampleResolution)
      (sampleActivation (sampleCompiled dynamicEntries)) (sampleEntry dynamicEntries) :=
    depths_of_validate (by decide +kernel) (by decide +kernel) (.entry _)
  have hparts : Parts (bindingRuntime sampleResolution)
      (sampleActivation (sampleCompiled dynamicEntries)) sampleResolution id sampleCore
      (literals sampleCore) dynamicEntries [.number 3] default sampleStart
      (sampleEntry dynamicEntries) := by
    intro form hform fuel tail
    simp only [dynamicEntries, map_cons, map_nil, cons_append, nil_append, mem_cons, not_mem_nil,
      or_false] at hform
    rcases hform with rfl | rfl | rfl <;> exact neutral_literal _ _ fuel tail
  obtain ⟨c₁, -, hiff⟩ := binding_restores_iff rfl hcompile (adding_literals sampleCore) rfl nofun
    hown (serves_bindingRuntime sampleResolution) hdepths (at_sampleEntry dynamicEntries) hparts
  have hleaves : SampleLeaves dynamicEntries (sampleRun dynamicEntries 22) :=
    leaves_of_isInside (by decide +kernel) (by decide +kernel)
  generalize sampleRun dynamicEntries 22 = s at hleaves
  refine ⟨s, hleaves, (hiff s hleaves).mpr (.inr (Resolution.balanced_of_dynamic ?_))⟩
  decide +kernel

/-- `b` is not dynamic: behind `(binding [*a* 1 b 2] 3)` the Var of `*a*` has a binding too much. -/
theorem binding_leaves_bound :
    compileSample mixedEntries = .ok () (sampleCompiled mixedEntries) ∧
    ∃ s, SampleLeaves mixedEntries s ∧
      s.machine.world.heap.bindings ≠ sampleKernel.bindings := by
  refine ⟨compileSample_ok (by decide +kernel), sampleRun mixedEntries 12,
    leaves_of_isInside (by decide +kernel) (by decide +kernel), fun h ↦ ?_⟩
  have hlength : ((sampleRun mixedEntries 12).machine.world.heap.bindings 0).length = 2 := by
    decide +kernel
  rw [h] at hlength
  cases hlength

end Hara.Vm
