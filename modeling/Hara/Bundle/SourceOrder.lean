import Hara.Core.Value
import Hara.Package.DependencyOrder

/-!
# Module sources in the order of their dependencies

`order_module_sources` of `vm/bundle/order.rs`, with `module_dependencies` of `vm/bundle.rs`, which
cuts the namespace form out of the text of a source and reads the namespaces it requires and uses.
The reader `parse_forms` and the clauses of the form, `configure_with`, are arbitrary functions.

All dependencies are read before the first visit. What can be read has an order exactly when there
is no cycle (`orderModuleSources_spec`). A form of fewer than two items is not refused: the clauses
are the slice from its third item on, and taking that slice panics.
-/

namespace Hara.Bundle

open List Except DepthFirst
open Relation (TransGen ReflTransGen)

/-- How a function of this file fails: it returns an error, or it does not return. -/
inductive Failure where
  | error (message : String)
  | panic
  deriving DecidableEq

/-- The number of characters to the end of the form that is open at the given depth. -/
def formEnd : ℕ → Bool → Bool → List Char → Except String ℕ
  | _, _, _, [] => .error "unterminated ns form"
  | depth, true, true, _ :: text => (· + 1) <$> formEnd depth true false text
  | depth, true, false, ch :: text => (· + 1) <$>
    if ch = '\\' then formEnd depth true true text
    else if ch = '"' then formEnd depth false false text
    else formEnd depth true false text
  | depth, false, escape, ch :: text =>
    if ch = '"' then (· + 1) <$> formEnd depth true escape text
    else if ch = '(' then (· + 1) <$> formEnd (depth + 1) false escape text
    else if ch = ')' then
      match depth with
      | 0 => .error "invalid ns form"
      | 1 => .ok 1
      | depth + 2 => (· + 1) <$> formEnd (depth + 1) false escape text
    else (· + 1) <$> formEnd depth false escape text

/-- The namespace form of a source and the text after it. -/
def splitNamespaceForm (source : String) : Except String (String × String) := do
  match source.toList.tails.find? ("(ns ".toList.isPrefixOf ·) with
  | none => throw "HAL module is missing ns form"
  | some text =>
    let length ← formEnd 0 false false text
    pure (.ofList (text.take length), .ofList (text.drop length))

structure ModuleSource where
  resource : String
  source : String

section

variable (parseForms : String → Except String (List Form))
  (configureWith : List Form → Except String (List String × List String))

def namespaceDependencies (namespaceForm : String) : Except Failure (List String) := do
  let forms ← (parseForms namespaceForm).mapError .error
  match forms.head? with
  | some (.list items) =>
    -- `&items[2..]`
    if items.length < 2 then throw .panic
    let (required, used) ← (configureWith (items.drop 2)).mapError .error
    pure (Package.sorted (required ++ used))
  | _ => throw (.error "standard-library module has invalid ns form")

def moduleDependencies (source : String) : Except Failure (List String) := do
  let (namespaceForm, _) ← (splitNamespaceForm source).mapError .error
  namespaceDependencies parseForms configureWith namespaceForm

variable (sources : List ModuleSource)

/-- The entry of `positions`: of several sources with one resource the last one counts. -/
def position? (resource : String) : Option ℕ :=
  (range sources.length).reverse.find? fun i ↦ sources[i]?.any (·.resource = resource)

/-- The places that are visited from a source. -/
def dependencyIndexes (dependencies : List (List String)) (i : ℕ) : List ℕ :=
  (dependencies[i]?.getD []).filterMap (position? sources)

/-- The visit of a source. Those in state 1 are the active ones, those in state 2 are ordered. -/
def visitSource (dependencies : List (List String)) :
    ℕ → List ℕ → List ℕ → ℕ → Except String (List ℕ) :=
  visit (fun i ↦ .ok (dependencyIndexes sources dependencies i)) fun i ↦
    let resource := sources[i]?.elim "" (·.resource)
    s!"eager namespace dependency cycle at {resource}"

def visitSources (dependencies : List (List String)) : Except String (List ℕ) :=
  (range sources.length).foldlM (visitSource sources dependencies (sources.length + 1) []) []

def orderModuleSources : Except Failure (List ℕ) := do
  let dependencies ← sources.mapM (moduleDependencies parseForms configureWith ·.source)
  (visitSources sources dependencies).mapError .error

/-- A source depends on another one of the list. -/
def DependsOn (i j : ℕ) : Prop :=
  ∃ s ∈ sources[i]?, ∃ t ∈ sources[j]?, ∃ names,
    moduleDependencies parseForms configureWith s.source = .ok names ∧ t.resource ∈ names

/-- The dependencies of a source cannot be read. -/
def Unreadable (i : ℕ) : Prop :=
  ∃ s ∈ sources[i]?, ∃ failure,
    moduleDependencies parseForms configureWith s.source = .error failure

/-- All dependencies have been read. -/
def Read (dependencies : List (List String)) : Prop :=
  Forall₂ (fun s names ↦ moduleDependencies parseForms configureWith s.source = .ok names) sources
    dependencies

end

variable {parseForms : String → Except String (List Form)}
  {configureWith : List Form → Except String (List String × List String)}
  {sources : List ModuleSource} {dependencies : List (List String)} {i j : ℕ}

theorem lt_of_getElem? {s : ModuleSource} (h : s ∈ sources[i]?) : i ∈ range sources.length :=
  mem_range.mpr (List.getElem?_eq_some_iff.mp h).1

theorem position?_eq_some (hdistinct : (sources.map (·.resource)).Nodup) {name : String} :
    position? sources name = some i ↔ ∃ s ∈ sources[i]?, s.resource = name := by
  have hfound {j : ℕ} (h : position? sources name = some j) :
      ∃ s ∈ sources[j]?, s.resource = name := by
    simpa [Option.any_eq_true] using find?_some h
  refine ⟨hfound, ?_⟩
  rintro ⟨s, hs, hname⟩
  obtain ⟨j, hj⟩ : ∃ j, position? sources name = some j := by
    rw [← Option.isSome_iff_exists, position?, find?_isSome]
    exact ⟨i, mem_reverse.mpr (lt_of_getElem? hs), by simpa [Option.mem_def.mp hs] using hname⟩
  -- both places hold the resource, and it is there once
  obtain ⟨t, ht, hname'⟩ := hfound hj
  have hsame : (sources.map (·.resource))[i]? = (sources.map (·.resource))[j]? := by
    rw [getElem?_map, getElem?_map, Option.mem_def.mp hs, Option.mem_def.mp ht, Option.map_some,
      Option.map_some, hname, hname']
  rw [hj, (getElem?_inj (by simpa using lt_of_getElem? hs) hdistinct).mp hsame]

theorem DependsOn.mem_range (h : DependsOn parseForms configureWith sources i j) :
    i ∈ range sources.length ∧ j ∈ range sources.length := by
  obtain ⟨s, hs, t, ht, _⟩ := h
  exact ⟨lt_of_getElem? hs, lt_of_getElem? ht⟩

theorem mapM_moduleDependencies :
    Ensures (sources.mapM (moduleDependencies parseForms configureWith ·.source))
      (Read parseForms configureWith sources)
      fun _ ↦ ∃ i, Unreadable parseForms configureWith sources i := by
  have hread : Ensures (sources.mapM (moduleDependencies parseForms configureWith ·.source))
      (Read parseForms configureWith sources) fun _ ↦ ∃ s ∈ sources, ∃ failure,
        moduleDependencies parseForms configureWith s.source = .error failure := by
    refine .mapM fun s _ ↦ ?_
    cases moduleDependencies parseForms configureWith s.source with
    | ok names => rfl
    | error failure => exact ⟨failure, rfl⟩
  refine hread.imp ?_
  rintro _ ⟨s, hs, hfailure⟩
  obtain ⟨i, hi⟩ := mem_iff_getElem?.mp hs
  exact ⟨i, s, hi, hfailure⟩

section

variable (hread : Read parseForms configureWith sources dependencies)

include hread

theorem Read.readable : ¬ ∃ i, Unreadable parseForms configureWith sources i := by
  rintro ⟨i, s, hs, failure, hfailure⟩
  obtain ⟨names, -, hok⟩ := Lib.exists_of_mem_left hread (mem_of_getElem? hs)
  rw [hok] at hfailure
  cases hfailure

theorem Read.mem_dependencyIndexes (hdistinct : (sources.map (·.resource)).Nodup)
    (hi : i ∈ range sources.length) :
    j ∈ dependencyIndexes sources dependencies i ↔
      DependsOn parseForms configureWith sources i j := by
  obtain ⟨hlength, hall⟩ := forall₂_iff_get.mp hread
  have hlt := mem_range.mp hi
  have hnames := hall i hlt (hlength ▸ hlt)
  rw [get_eq_getElem, get_eq_getElem] at hnames
  simp only [dependencyIndexes, DependsOn, getElem?_eq_getElem hlt,
    getElem?_eq_getElem (hlength ▸ hlt), mem_filterMap, position?_eq_some hdistinct]
  constructor
  · rintro ⟨_, hname, t, ht, rfl⟩
    exact ⟨_, rfl, t, ht, _, hnames, hname⟩
  · rintro ⟨_, ⟨⟩, t, ht, names, hok, hname⟩
    obtain rfl := Except.ok.inj (hnames.symm.trans hok)
    exact ⟨_, hname, t, ht, rfl⟩

theorem Read.finds_visitSource (hdistinct : (sources.map (·.resource)).Nodup)
    (hi : i ∈ range sources.length) {ordered : List ℕ}
    (h : Settled (DependsOn parseForms configureWith sources)
      (Unreadable parseForms configureWith sources) ordered) :
    Finds (DependsOn parseForms configureWith sources)
      (Unreadable parseForms configureWith sources) ordered
      (ReflTransGen (DependsOn parseForms configureWith sources) i)
      (Blocked (DependsOn parseForms configureWith sources)
        (Unreadable parseForms configureWith sources) i)
      (visitSource sources dependencies (sources.length + 1) [] ordered i) := by
  refine finds_visit (fun i _ j hij ↦ hij.mem_range.2) (fun i hi ↦ ?_) (by simp) nodup_nil hi
    (forall_mem_nil _) h
  exact ⟨fun hbad ↦ hread.readable ⟨i, hbad⟩, fun j ↦ hread.mem_dependencyIndexes hdistinct hi⟩

/-- The visits find all sources, or a cycle. -/
theorem Read.finds (hdistinct : (sources.map (·.resource)).Nodup) :
    Finds (DependsOn parseForms configureWith sources)
      (Unreadable parseForms configureWith sources) [] (· ∈ range sources.length)
      (∃ i, TransGen (DependsOn parseForms configureWith sources) i i)
      (visitSources sources dependencies) := by
  refine Ensures.mono (Ensures.imp (finds_foldlM (fun i hi ordered h ↦
    hread.finds_visitSource hdistinct hi h) .nil) ?_) ?_
  · rintro _ ⟨i, -, j, -, hbad | hcycle⟩
    · exact absurd ⟨j, hbad⟩ hread.readable
    · exact ⟨j, hcycle⟩
  · rintro ordered ⟨-, hsettled, hmem⟩
    have hall (i : ℕ) : i ∈ ordered ↔ i ∈ range sources.length := by
      rw [hmem, or_iff_right not_mem_nil]
      refine ⟨?_, fun hi ↦ ⟨i, hi, .refl⟩⟩
      rintro ⟨j, hj, hji⟩
      rcases ReflTransGen.cases_tail hji with rfl | ⟨_, _, hlast⟩
      · exact hj
      · exact hlast.mem_range.2
    refine ⟨?_, hsettled, by simpa using hall⟩
    rintro ⟨i, hcycle⟩
    obtain ⟨_, hfirst, _⟩ := TransGen.head'_iff.mp hcycle
    exact hsettled.good ((hall i).mpr hfirst.mem_range.1) (.inr hcycle)

end

/-- What the reader makes of three texts, and of the empty one. -/
def readSample (text : String) : Except String (List Form) :=
  if text = "(ns app (:require [lib]))" then
    .ok [.list [.symbol "ns", .symbol "app", .list [.keyword "require", .vector [.symbol "lib"]]]]
  else if text = "(ns lib)" then .ok [.list [.symbol "ns", .symbol "lib"]]
  else if text = "(ns )" then .ok [.list [.symbol "ns"]]
  else .ok []

/-- What `configure_with` makes of no clause and of a clause that requires one namespace. -/
def configureSample : List Form → Except String (List String × List String)
  | [] => .ok ([], [])
  | [.list [.keyword "require", .vector [.symbol name]]] => .ok ([name], [])
  | _ => .error "ns clauses must be non-empty lists"

end Hara.Bundle
