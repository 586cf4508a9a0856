import Hara.Bundle.Container
import Hara.Lib.DepthFirst
import Hara.Lib.SortBy
import Mathlib.Data.List.ReduceOption

/-!
# The order of packages

`package_dependency_order` of `package_catalog.rs`. A name that is not the name of a package is
looked up by its part after the last slash. The map of definitions has the last definition of each
name, and its keys are sorted.
-/

namespace Hara.Package

open Except DepthFirst
open Lib
open Relation (ReflTransGen)

/-- What the order reads of a `PackageDefinition`. -/
structure PackageDefinition where
  name : String
  dependencies : List String

/-- `sort` and `dedup`. -/
def sorted (names : List String) : List String := (sortBy Bundle.key names).destutter (· ≠ ·)

/-- `rsplit_once('/')`, of which only the second part is used. -/
def shortName? (name : String) : Option String :=
  if '/' ∈ name.toList then some (.ofList (name.toList.reverse.takeWhile (· ≠ '/')).reverse)
  else none

section

variable (definitions : List PackageDefinition)

def names : List String := sorted (definitions.map (·.name))

def get? (name : String) : Option PackageDefinition := definitions.reverse.find? (·.name = name)

/-- The packages with the same last part. -/
def similar (name : String) : List String :=
  let suffix := (shortName? name).getD name
  (names definitions).filter fun n ↦ n = suffix ∨ shortName? n = some suffix

/-- The package of that name, or else those with the same last part. -/
def candidates (name : String) : List String :=
  if name ∈ definitions.map (·.name) then [name] else similar definitions name

def resolveOptionalDefinitionName (target : String) : Option String :=
  match candidates definitions target with
  | [name] => some name
  | _ => none

def resolveDefinitionName (target : String) : Except String String :=
  match resolveOptionalDefinitionName definitions target with
  | some name => .ok name
  | none => .error s!"package/not-defined: {target}"

/-- The package that a dependency stands for, if any. -/
def resolveDependency (dependency : String) : Except String (Option String) :=
  match candidates definitions dependency with
  | [] => .ok none
  | [name] => .ok (some name)
  | found =>
    let found := ",".intercalate found
    .error s!"package/ambiguous-dependency: {dependency} ({found})"

/-- The dependencies that are visited from a package. -/
def dependenciesOf (name : String) : Except String (List String) :=
  match get? definitions name with
  | none => .error s!"package/not-defined: {name}"
  | some package => do
    let dependencies ← package.dependencies.mapM (resolveDependency definitions)
    pure (sorted dependencies.reduceOption)

def visitPackageDependency : ℕ → List String → List String → String → Except String (List String) :=
  visit (dependenciesOf definitions) fun name ↦ s!"package/dependency-cycle: {name}"

def packageDependencyOrder (targets : List String) : Except String (List String) :=
  targets.foldlM (fun ordered target ↦ do
    let target ← resolveDefinitionName definitions target
    visitPackageDependency definitions (definitions.length + 1) [] ordered target) []

/-! ## What names stand for -/

/-- A name of a package stands for it, another name without a slash for the packages of every tap
that have this short name, and a name with a slash for nothing else. -/
def StandsFor (name package : String) : Prop :=
  package ∈ definitions.map (·.name) ∧
    (package = name ∨ name ∉ definitions.map (·.name) ∧ '/' ∉ name.toList ∧
      shortName? package = some name)

def Ambiguous (name : String) : Prop :=
  ∃ package package', package ≠ package' ∧ StandsFor definitions name package ∧
    StandsFor definitions name package'

/-- One package requires another. -/
def Requires (name package : String) : Prop :=
  ∃ p, get? definitions name = some p ∧ ∃ d ∈ p.dependencies, StandsFor definitions d package

/-- A dependency of the package is ambiguous. -/
def Unclear (name : String) : Prop :=
  ∃ p, get? definitions name = some p ∧ ∃ d ∈ p.dependencies, Ambiguous definitions d

/-- What a target makes the order list. -/
def Reached (target package : String) : Prop :=
  ∃ a, StandsFor definitions target a ∧ ReflTransGen (Requires definitions) a package

/-- The target does not stand for one package, or it stands for one from which an unclear package or
a cycle can be reached. -/
def Fails (target : String) : Prop :=
  (¬ ∃! a, StandsFor definitions target a) ∨
    ∃ a, StandsFor definitions target a ∧ Blocked (Requires definitions) (Unclear definitions) a

/-- Not a name with a slash that is not defined and shares its last part with a package. -/
def Local (name : String) : Prop :=
  '/' ∈ name.toList → name ∉ definitions.map (·.name) → similar definitions name = []

/-- The names in play: the targets, and the dependencies of the packages that they require. -/
def Named (targets : List String) (name : String) : Prop :=
  name ∈ targets ∨ ∃ target ∈ targets, ∃ package, Reached definitions target package ∧
    ∃ p, get? definitions package = some p ∧ name ∈ p.dependencies

end

variable {definitions : List PackageDefinition} {name package : String}

theorem mem_sorted {l : List String} : name ∈ sorted l ↔ name ∈ l :=
  mem_destutter_ne.trans (sortBy_perm Bundle.key l).mem_iff

theorem mem_candidates (h : Local definitions name) :
    package ∈ candidates definitions name ↔ StandsFor definitions name package := by
  rw [candidates, StandsFor]
  split_ifs with hname
  · rw [List.mem_singleton]
    exact ⟨by rintro rfl; exact ⟨hname, .inl rfl⟩, fun ⟨_, hor⟩ ↦ hor.resolve_right (·.1 hname)⟩
  · have hne : package ∈ definitions.map (·.name) → package ≠ name := by
      rintro hmem rfl
      exact hname hmem
    by_cases hslash : '/' ∈ name.toList
    · rw [h hslash hname]
      grind
    · have hsuffix : (shortName? name).getD name = name := by simp [shortName?, hslash]
      simp only [similar, hsuffix, names, List.mem_filter, mem_sorted, decide_eq_true_iff]
      grind

/-- A name stands for no package, for one or for several. -/
theorem candidates_cases (h : Local definitions name) :
    (candidates definitions name = [] ∧ ∀ b, ¬ StandsFor definitions name b) ∨
    (∃ a, candidates definitions name = [a] ∧ ∀ b, StandsFor definitions name b ↔ b = a) ∨
    ∃ a b l, candidates definitions name = a :: b :: l ∧ Ambiguous definitions name := by
  have hnodup : (candidates definitions name).Nodup := by
    rw [candidates]
    split_ifs
    · exact List.nodup_singleton _
    · exact ((ascending_destutter Bundle.key_injective).nodup.of_map Bundle.key).filter _
  simp only [Ambiguous, ← mem_candidates h]
  match candidates definitions name, hnodup with
  | [], _ => simp
  | [a], _ => simp
  | a :: b :: l, hnodup =>
    have hne : a ≠ b := (List.pairwise_cons.mp hnodup).1 b (by simp)
    exact .inr (.inr ⟨a, b, l, rfl, a, b, hne, by simp⟩)

theorem Ambiguous.not_iff (h : Ambiguous definitions name) (o : Option String) :
    ¬ ∀ b, StandsFor definitions name b ↔ o = some b := by
  obtain ⟨a, b, hne, ha, hb⟩ := h
  intro hall
  exact hne (Option.some_injective _ (((hall a).mp ha).symm.trans ((hall b).mp hb)))

theorem Requires.defined (h : Requires definitions name package) :
    package ∈ definitions.map (·.name) := by
  obtain ⟨_, _, _, _, hstands⟩ := h
  exact hstands.1

theorem resolveDefinitionName_spec (h : Local definitions name) :
    Ensures (resolveDefinitionName definitions name)
      (fun package ↦ ∀ b, StandsFor definitions name b ↔ b = package)
      fun _ ↦ ¬ ∃! package, StandsFor definitions name package := by
  rw [resolveDefinitionName, resolveOptionalDefinitionName]
  rcases candidates_cases h with ⟨hc, hall⟩ | ⟨a, hc, hall⟩ | ⟨a, b, l, hc, hmany⟩ <;> rw [hc]
  · exact fun ⟨p, hp, _⟩ ↦ hall p hp
  · exact hall
  · rintro ⟨p, hp, hall⟩
    refine hmany.not_iff (some p) fun b ↦ ⟨fun hb ↦ congrArg some (hall b hb).symm, ?_⟩
    rintro ⟨⟩
    exact hp

theorem resolveDependency_spec (h : Local definitions name) :
    Ensures (resolveDependency definitions name)
      (fun found ↦ ∀ b, StandsFor definitions name b ↔ found = some b)
      fun _ ↦ Ambiguous definitions name := by
  rw [resolveDependency]
  rcases candidates_cases h with ⟨hc, hall⟩ | ⟨a, hc, hall⟩ | ⟨a, b, l, hc, hmany⟩ <;> rw [hc]
  · exact fun b ↦ ⟨fun hb ↦ absurd hb (hall b), nofun⟩
  · exact fun b ↦ (hall b).trans (by rw [Option.some.injEq, eq_comm])
  · exact hmany

theorem dependenciesOf_spec (hname : name ∈ definitions.map (·.name))
    (h : ∀ p, get? definitions name = some p → ∀ d ∈ p.dependencies, Local definitions d) :
    Ensures (dependenciesOf definitions name)
      (fun items ↦ ¬ Unclear definitions name ∧ ∀ b, b ∈ items ↔ Requires definitions name b)
      fun _ ↦ Unclear definitions name := by
  obtain ⟨p, hp⟩ : ∃ p, get? definitions name = some p := by
    rw [← Option.isSome_iff_exists, get?, List.find?_isSome]
    simpa using hname
  rw [dependenciesOf]
  simp only [Unclear, Requires, hp, Option.some.injEq, exists_eq_left']
  refine Ensures.bind (.mapM fun d hd ↦ resolveDependency_spec (h p hp d hd))
    fun found hfound ↦ ⟨?_, fun b ↦ ?_⟩
  · rintro ⟨d, hd, hmany⟩
    obtain ⟨o, -, ho⟩ := exists_of_mem_left hfound hd
    exact hmany.not_iff o ho
  · rw [mem_sorted, List.reduceOption_mem_iff]
    constructor
    · intro hb
      obtain ⟨d, hd, hall⟩ := exists_of_mem_right hfound hb
      exact ⟨d, hd, (hall b).mpr rfl⟩
    · rintro ⟨d, hd, hb⟩
      obtain ⟨o, ho, hall⟩ := exists_of_mem_left hfound hd
      exact (hall b).mp hb ▸ ho

/-- An app that requires a package by its short name and one from outside, beside a package that is
not required and whose dependency is of another tap. -/
def appCoreTool : List PackageDefinition :=
  [⟨"tap/app", ["core", "other/json"]⟩, ⟨"tap/core", []⟩, ⟨"tap/tool", ["other/core"]⟩]

end Hara.Package
