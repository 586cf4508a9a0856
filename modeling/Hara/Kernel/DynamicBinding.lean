import Hara.Kernel.Namespace
import Hara.Lib.Stacks
import Mathlib.Data.List.Perm.Basic
import Mathlib.Data.Set.List

/-!
# Dynamic bindings of Vars

`bytecode_dynamic_bind` and `bytecode_dynamic_unbind` of `core/value.rs`, over the Vars of
`Hara.Kernel.Namespace`. Both look up their name each time: the one refuses a name that denotes no
dynamic Var, the other one that denotes no Var or a Var without a binding.

A `binding` form binds its names in order, up to the first that is refused, and then unbinds all of
them in reverse, up to the first that fails. `Balanced` says, of the world before, when this leaves
every stack of bindings as it was.
-/

namespace Hara.Kernel

open List Stacks

/-- What denotes a Var, and which Vars are dynamic: `NamespaceRegistry::resolve`, which reads the
registry and the namespaces only, and `HaraMetadata::flag`. -/
structure Resolution (H : Type) where
  resolve : Registry → (ℕ → NamespaceCell) → Symbol → Option Var
  flag : H → String → Bool

namespace Resolution

variable {H V : Type} (r : Resolution H) (w : World H V) (name : Symbol)

def var : Option Var := r.resolve w.registry w.cells name

/-- `Var::is_dynamic`. -/
def isDynamic (var : Var) : Bool :=
  (w.vars var.id).metadata.dynamic || (w.vars var.id).metadata.hara.any (r.flag · "dynamic")

def bytecodeDynamicBind (value : V) : Except String Unit × World H V :=
  match r.var w name with
  | none => (.error s!"binding expects a Var: {name}", w)
  | some var =>
    if r.isDynamic w var then (.ok (), w.bind var value)
    else (.error s!"binding expects a dynamic Var: {name}", w)

def bytecodeDynamicUnbind : Except String Unit × World H V :=
  match r.var w name with
  | none => (.error s!"binding expects a Var: {name}", w)
  | some var =>
    match w.unbind var with
    | (.ok _, w') => (.ok (), w')
    | (.error message, w') => (.error message, w')

/-! ## What names denote -/

/-- The identity of the Var that a name denotes. -/
def target : Option ℕ := (r.var w name).map (·.id)

/-- The identity of the Var that a name denotes, if it is dynamic. -/
def dynamicTarget : Option ℕ := ((r.var w name).filter (r.isDynamic w)).map (·.id)

/-- The names denote the same Vars in both worlds, dynamic ones in both or in none. -/
def Agree (names : List Symbol) (w w' : World H V) : Prop :=
  ∀ name ∈ names, r.target w' name = r.target w name ∧
    r.dynamicTarget w' name = r.dynamicTarget w name

/-- Nothing changed but the stacks of bindings. -/
def SameButBindings (w w' : World H V) : Prop := ∃ bindings, w' = { w with bindings }

variable {r w name} {w' w'' : World H V} {names : List Symbol}

theorem Agree.refl (names : List Symbol) (w : World H V) : r.Agree names w w :=
  fun _ _ ↦ ⟨rfl, rfl⟩

theorem Agree.trans (h : r.Agree names w w') (h' : r.Agree names w' w'') :
    r.Agree names w w'' :=
  fun name hname ↦ ⟨(h' name hname).1.trans (h name hname).1,
    (h' name hname).2.trans (h name hname).2⟩

theorem SameButBindings.agree (h : SameButBindings w w') (names : List Symbol) :
    r.Agree names w w' := by
  obtain ⟨bindings, rfl⟩ := h
  exact fun _ _ ↦ ⟨rfl, rfl⟩

theorem target_of_dynamicTarget {id : ℕ} (h : r.dynamicTarget w name = some id) :
    r.target w name = some id := by
  rw [dynamicTarget, Option.map_eq_some_iff] at h
  obtain ⟨var, hvar, rfl⟩ := h
  rw [target, Option.eq_some_of_filter_eq_some hvar]
  rfl

/-! ## What the services do to the stacks -/

/-- A dynamic Var gets a binding, everything else is refused. -/
theorem bytecodeDynamicBind_spec (r : Resolution H) (w : World H V) (name : Symbol) (value : V) :
    (∃ id, r.dynamicTarget w name = some id ∧ r.bytecodeDynamicBind w name value =
      (.ok (), { w with bindings := Function.update w.bindings id (value :: w.bindings id) })) ∨
    r.dynamicTarget w name = none ∧ ∃ message, r.bytecodeDynamicBind w name value =
      (.error message, w) := by
  rw [bytecodeDynamicBind, dynamicTarget]
  cases r.var w name with
  | none => exact .inr ⟨rfl, _, rfl⟩
  | some var =>
    by_cases hdynamic : r.isDynamic w var
    · refine .inl ⟨var.id, by simp [hdynamic], ?_⟩
      simp only [if_pos hdynamic]
      rfl
    · refine .inr ⟨by simp [hdynamic], s!"binding expects a dynamic Var: {name}", ?_⟩
      simp only [if_neg hdynamic]

/-- A Var with a binding loses the innermost one, everything else fails. -/
theorem bytecodeDynamicUnbind_spec (r : Resolution H) (w : World H V) (name : Symbol) :
    (∃ id value rest, r.target w name = some id ∧ w.bindings id = value :: rest ∧
      r.bytecodeDynamicUnbind w name =
        (.ok (), { w with bindings := Function.update w.bindings id rest })) ∨
    (∀ id, r.target w name = some id → w.bindings id = []) ∧
      ∃ message, r.bytecodeDynamicUnbind w name = (.error message, w) := by
  rw [bytecodeDynamicUnbind, target]
  cases r.var w name with
  | none => exact .inr ⟨nofun, _, rfl⟩
  | some var =>
    cases hstack : w.bindings var.id with
    | nil =>
      refine .inr ⟨?_, "Var has no dynamic binding", ?_⟩
      · rintro _ ⟨⟩
        exact hstack
      · simp only [World.unbind, hstack]
    | cons value rest =>
      refine .inl ⟨var.id, value, rest, rfl, hstack, ?_⟩
      simp only [World.unbind, hstack]

/-! ## Names that are bound and unbound -/

/-- The Vars of the names before the first one that denotes no dynamic Var. -/
def bound (r : Resolution H) (w : World H V) : List Symbol → List ℕ
  | [] => []
  | name :: names =>
    match r.dynamicTarget w name with
    | some id => id :: r.bound w names
    | none => []

/-- The names are cut in two: those of the second part denote, in some order, the Vars that are
bound, and the last name before them denotes no Var with a binding. If every name denotes a dynamic
Var, the first part is empty. -/
def Balanced (r : Resolution H) (w : World H V) (names : List Symbol) : Prop :=
  ∃ before after, names = before ++ after ∧
    after.map (r.target w) ~ (r.bound w names).map some ∧
    ∀ name ∈ before.getLast?, ∀ id, r.target w name = some id → w.bindings id = []

/-- Where all names denote dynamic Vars nothing more is asked. -/
theorem balanced_of_dynamic (h : ∀ name ∈ names, (r.dynamicTarget w name).isSome) :
    r.Balanced w names := by
  have hbound : (r.bound w names).map some = names.map (r.target w) := by
    induction names with
    | nil => rfl
    | cons name names ih =>
      obtain ⟨hname, h⟩ := forall_mem_cons.mp h
      obtain ⟨id, hid⟩ := Option.isSome_iff_exists.mp hname
      rw [bound, hid, map_cons, map_cons, ih h, target_of_dynamicTarget hid]
  exact ⟨[], names, rfl, hbound ▸ Perm.refl _, nofun⟩

/-- **The binds and the unbinds of a `binding` form.** If the bound Vars have been pushed, the
unbinds of all names in reverse restore every stack if and only if the names are balanced. -/
theorem popAll_eq_iff_balanced {above : ℕ → List V}
    (h : Pushed (r.bound w names) w.bindings above) :
    popAll (names.reverse.map (r.target w)) above = w.bindings ↔ r.Balanced w names := by
  rw [popAll_eq_iff h]
  constructor
  · rintro ⟨popped, rest, htargets, hperm, hstuck⟩
    rw [map_reverse, reverse_eq_iff, reverse_append, map_eq_append_iff] at htargets
    obtain ⟨before, after, hnames, hbefore, hafter⟩ := htargets
    refine ⟨before, after, hnames, ?_, ?_⟩
    · rw [hafter]
      exact (reverse_perm _).trans (hperm.map some)
    · intro name hname id hid
      refine hstuck id ?_
      rw [← reverse_reverse rest, head?_reverse, ← hbefore, getLast?_map, hname, Option.map_some,
        hid]
  · rintro ⟨before, after, hnames, hperm, hstuck⟩
    have hrange : after.map (r.target w) ∈ Set.range (map some) := by
      rw [Set.range_list_map]
      intro x hx
      obtain ⟨id, -, hid⟩ := mem_map.mp (hperm.mem_iff.mp hx)
      exact ⟨id, hid⟩
    obtain ⟨popped, hpopped⟩ := hrange
    refine ⟨popped.reverse, (before.map (r.target w)).reverse, ?_, ?_, ?_⟩
    · rw [hnames, map_reverse, map_append, reverse_append, ← hpopped, map_reverse]
    · refine (reverse_perm _).trans ?_
      rw [← hpopped] at hperm
      exact (map_perm_map_iff (Option.some_injective ℕ)).mp hperm
    · intro id hid
      rw [head?_reverse, getLast?_map, Option.map_eq_some_iff] at hid
      obtain ⟨name, hname, hid⟩ := hid
      exact hstuck name hname id hid

end Resolution

end Hara.Kernel
