import Hara.Lib.Decimal
import Hara.Lib.Hoare
import Hara.Vm.Compiler.Destructure

/-!
# Scopes under `letfn`

`expand_letfn` makes the references to its functions in their bodies read cells. It rewrites raw
forms without looking at scopes. This file gives the rewrite that does, by the place at which each
form stands, and says which forms the two agree on.

* `patternNames` are the names that a binding pattern binds.
* `Place.step` is what the binding constructs make of the items of a list.
* `scopedRefs` rewrites the free references and nothing else.
* `misread` finds the symbols at which the plain rewrite goes wrong.
-/

namespace Hara.Vm.Destructure

open List Option

/-! ## Names of a pattern -/

/-- Whether an element of a vector pattern only marks the next one. -/
def isPatternMarker : Form → Bool
  | .symbol "&" | .keyword "as" => true
  | _ => false

/-- What an entry of a map pattern binds. -/
inductive EntryKind where
  | names
  | alias
  | default
  | pattern

def entryKind : Form → EntryKind
  | .keyword "keys" | .keyword "strs" | .keyword "syms" => .names
  | .keyword "as" => .alias
  | .keyword "or" => .default
  | _ => .pattern

mutual

/-- `collect_pattern_names` of the free-variable pass. -/
def patternNames : Form → List String
  | .symbol name => if name = "&" then [] else [name]
  | .vector items => patternNamesIn items
  | .map entries => patternNamesInMap entries
  | _ => []

def patternNamesIn : List Form → List String
  | [] => []
  | item :: items =>
    (if isPatternMarker item then [] else patternNames item) ++ patternNamesIn items

def patternNamesInMap : List (Form × Form) → List String
  | [] => []
  | (binding, value) :: entries =>
    (match entryKind binding with
    | .names => patternNamesListed value
    | .alias => patternNames value
    | .default => []
    | .pattern => patternNames binding) ++ patternNamesInMap entries

/-- The names listed by a `:keys` vector, each a pattern of its own. -/
def patternNamesListed : Form → List String
  | .vector names => patternNamesEach names
  | _ => []

def patternNamesEach : List Form → List String
  | [] => []
  | name :: names => patternNames name ++ patternNamesEach names

end

/-- The names a parameter vector binds. -/
def paramNames : Form → List String
  | .vector params => patternNamesEach params
  | _ => []

/-- The names that `letfn` definitions bind. -/
def definedNames : List Form → List String
  | [] => []
  | .list (.symbol name :: _) :: definitions => name :: definedNames definitions
  | _ :: definitions => definedNames definitions

/-- The names that the pairs of a binding vector bind. -/
def pairNames : List Form → List String
  | pattern :: _ :: pairs => patternNames pattern ++ pairNames pairs
  | _ => []

/-! ## Places -/

/-- Where a form stands, or an item of a list or vector. -/
inductive Place where
  | code
  | operator
  | quoted
  | template
  | templateOperator
  /-- A binding pattern, and the defaults in it. -/
  | pattern
  | defaults
  /-- The bindings of `let` and `loop`, a vector or a list, and what alternates in it. -/
  | bindings
  | target
  | initial (names : List String)
  | dynamicBindings
  | dynamicTarget
  | dynamicInitial
  /-- The name that a `catch` binds. -/
  | caught
  /-- The parameters of a function, or its clauses. -/
  | params
  | definitions
  | definition
  /-- The name before the parameters, and a name before a value. -/
  | function
  | global
  | receiver
  | member
  | assigned
  deriving DecidableEq

/-- What follows from an item: how it is read, which names are bound in it and after it, and where
the next item stands. -/
structure Step where
  inner : Place
  inside : List String := []
  binds : List String := []
  next : Place

namespace Place

/-- The place after the operator of a special form. -/
def after : String → Option Place
  | "quote" | "comment" | "declare" | "ns" | "ns+" | "require" => some quoted
  | "syntax-quote" => some template
  | "let" | "loop" => some bindings
  | "binding" => some dynamicBindings
  | "fn" => some params
  | "catch" => some caught
  | "letfn" => some definitions
  | "defn" | "defmacro" => some function
  | "def" | "var" => some global
  | "." | "field" => some receiver
  | "set!" => some assigned
  | "if" | "and" | "or" | "cond" | "do" | "recur" | "try" | "throw" | "finally" | "instance?" =>
    some code
  | _ => none

def step : Place → Form → Step
  | operator, .symbol name =>
    match after name with
    | some next => { inner := quoted, next }
    | none => { inner := code, next := code }
  | quoted, _ => { inner := quoted, next := quoted }
  | template, _ => { inner := template, next := template }
  | templateOperator, .symbol "unquote" | templateOperator, .symbol "unquote-splicing" =>
    { inner := quoted, next := code }
  | templateOperator, _ => { inner := template, next := template }
  | pattern, form => { inner := pattern, binds := patternNames form, next := pattern }
  | bindings, .vector pairs | bindings, .list pairs =>
    { inner := target, binds := pairNames pairs, next := code }
  | target, form => { inner := pattern, next := initial (patternNames form) }
  | initial names, _ => { inner := code, binds := names, next := target }
  | dynamicBindings, .vector _ => { inner := dynamicTarget, next := code }
  | dynamicTarget, _ => { inner := quoted, next := dynamicInitial }
  | dynamicInitial, _ => { inner := code, next := dynamicTarget }
  | caught, form => { inner := pattern, binds := patternNames form, next := code }
  | params, form =>
    match form.withoutMetadata with
    | .vector _ => { inner := pattern, binds := paramNames form.withoutMetadata, next := code }
    | _ => { inner := params, next := params }
  | definitions, .vector items =>
    { inner := definition, inside := definedNames items, binds := definedNames items, next := code }
  | definition, _ => { inner := function, next := definition }
  | function, _ => { inner := quoted, next := params }
  | global, _ => { inner := quoted, next := code }
  | receiver, _ => { inner := code, next := member }
  -- A method list starts with a name.
  | member, _ => { inner := global, next := code }
  | assigned, .symbol _ => { inner := quoted, next := code }
  | _, _ => { inner := code, next := code }

/-- The place of the first item of a list. -/
def first : Place → Place
  | code => operator
  | template => templateOperator
  | place => place

/-- The places of the key and the value of an entry, and the names that it binds. -/
def entry : Place → Form × Form → Place × Place × List String
  | pattern, (key, value) =>
    match entryKind key with
    | .names => (quoted, quoted, patternNamesListed value)
    | .alias => (quoted, pattern, patternNames value)
    | .default => (quoted, defaults, [])
    | .pattern => (pattern, code, patternNames key)
  | defaults, _ => (quoted, code, [])
  | place, _ => (place, place, [])

/-- Whether a symbol is a reference that the bound names do not shadow. -/
def refers (place : Place) (bound : List String) (name : String) : Bool :=
  place == code && !bound.contains name

end Place

/-! ## The rewrite by scopes -/

/-- The form that reads a cell where no inner binder has taken the name of the cell. -/
def cellRef (bound : List String) (cell : String) : Option Form :=
  if bound.contains cell then none else some (deref cell)

variable (names : List (String × String))

mutual

/-- The free references read the cells of the local functions. -/
def scopedRefs (place : Place) (bound : List String) : Form → Option Form
  | .symbol s =>
    match if place.refers bound s then names.lookup s else none with
    | some cell => cellRef bound cell
    | none => some (.symbol s)
  | .list items => (scopedIn place.first bound items).map .list
  | .vector items => (scopedIn place bound items).map .vector
  | .set items => (scopedIn place bound items).map .set
  | .map entries => (scopedEntries place bound entries).map .map
  | .metadata attributes form =>
    map₂ .metadata (scopedRefs place bound attributes) (scopedRefs place bound form)
  | .tagged tag form => (scopedRefs place bound form).map (.tagged tag)
  | form => some form

def scopedIn (place : Place) (bound : List String) : List Form → Option (List Form)
  | [] => some []
  | form :: forms =>
    let step := place.step form
    map₂ .cons (scopedRefs step.inner (step.inside ++ bound) form)
      (scopedIn step.next (step.binds ++ bound) forms)

def scopedEntries (place : Place) (bound : List String) :
    List (Form × Form) → Option (List (Form × Form))
  | [] => some []
  | (key, value) :: entries =>
    let (keyPlace, valuePlace, binds) := place.entry (key, value)
    map₂ .cons (map₂ .mk (scopedRefs keyPlace bound key) (scopedRefs valuePlace bound value))
      (scopedEntries place (binds ++ bound) entries)

end

mutual

/-- Whether some symbol that names a local function is no free reference, or is one in a quoted
list, which the plain rewrite leaves alone, or is one under a binder of its cell's name. -/
def misread (inQuote : Bool) (place : Place) (bound : List String) : Form → Bool
  | .symbol s =>
    (names.lookup s).any fun cell ↦
      if place.refers bound s then inQuote || bound.contains cell else !inQuote
  | .list items => misreadIn (inQuote || isQuotation items) place.first bound items
  | .vector items => misreadIn inQuote place bound items
  | .set items => misreadIn inQuote place bound items
  | .map entries => misreadEntries inQuote place bound entries
  | .metadata attributes form =>
    misread inQuote place bound attributes || misread inQuote place bound form
  | .tagged _ form => misread inQuote place bound form
  | _ => false

def misreadIn (inQuote : Bool) (place : Place) (bound : List String) : List Form → Bool
  | [] => false
  | form :: forms =>
    let step := place.step form
    misread inQuote step.inner (step.inside ++ bound) form ||
      misreadIn inQuote step.next (step.binds ++ bound) forms

def misreadEntries (inQuote : Bool) (place : Place) (bound : List String) :
    List (Form × Form) → Bool
  | [] => false
  | (key, value) :: entries =>
    let (keyPlace, valuePlace, binds) := place.entry (key, value)
    (misread inQuote keyPlace bound key || misread inQuote valuePlace bound value) ||
      misreadEntries inQuote place (binds ++ bound) entries

end

mutual

theorem scopedRefs_eq_iff {q : Bool} {place : Place} {bound : List String} : ∀ form : Form,
    scopedRefs names place bound form = some (if q then form else replaceLetfnRefs names form) ↔
      misread names q place bound form = false
  | .symbol s => by
    rw [scopedRefs, misread, replaceLetfnRefs]
    cases names.lookup s <;> cases place.refers bound s <;> cases q <;> simp [cellRef, deref, list]
  | .list items => by
    rw [scopedRefs, misread, ← scopedIn_eq_iff _]
    cases q <;> cases hquote : isQuotation items <;> simp [replaceLetfnRefs, hquote]
  | .vector items => by
    rw [scopedRefs, misread, ← scopedIn_eq_iff _]
    cases q <;> simp [replaceLetfnRefs]
  | .set items => by
    rw [scopedRefs, misread, ← scopedIn_eq_iff _]
    cases q <;> simp [replaceLetfnRefs]
  | .map entries => by
    rw [scopedRefs, misread, ← scopedEntries_eq_iff _]
    cases q <;> simp [replaceLetfnRefs]
  | .metadata attributes form => by
    rw [scopedRefs, misread, Bool.or_eq_false_iff, ← scopedRefs_eq_iff _, ← scopedRefs_eq_iff _]
    cases q <;> simp [replaceLetfnRefs]
  | .tagged tag form => by
    rw [scopedRefs, misread, ← scopedRefs_eq_iff _]
    cases q <;> simp [replaceLetfnRefs]
  | .runtimeLiteral _ | .nil | .bool _ | .number _ | .float _ | .bigInteger _ | .character _
  | .regex _ | .keyword _ | .string _ => by simp [scopedRefs, misread, replaceLetfnRefs]

theorem scopedIn_eq_iff {q : Bool} {place : Place} {bound : List String} : ∀ forms : List Form,
    scopedIn names place bound forms = some (if q then forms else replaceRefsIn names forms) ↔
      misreadIn names q place bound forms = false
  | [] => by simp [scopedIn, misreadIn, replaceRefsIn]
  | form :: forms => by
    rw [scopedIn, misreadIn, Bool.or_eq_false_iff, ← scopedRefs_eq_iff _, ← scopedIn_eq_iff _]
    cases q <;> simp [replaceRefsIn]

theorem scopedEntries_eq_iff {q : Bool} {place : Place} {bound : List String} :
    ∀ entries : List (Form × Form), scopedEntries names place bound entries =
        some (if q then entries else replaceEntryRefs names entries) ↔
      misreadEntries names q place bound entries = false
  | [] => by simp [scopedEntries, misreadEntries, replaceEntryRefs]
  | (key, value) :: entries => by
    rw [scopedEntries, misreadEntries, Bool.or_eq_false_iff, Bool.or_eq_false_iff,
      ← scopedRefs_eq_iff _, ← scopedRefs_eq_iff _,
      ← scopedEntries_eq_iff _]
    cases q <;> simp [replaceEntryRefs]

end

/-! ## The whole form -/

/-- The name, the cell and the parts of a definition. -/
abbrev Definition := String × String × List Form

def cellsOf (definitions : List Definition) : List (String × String) :=
  definitions.map fun (name, cell, _) ↦ (name, cell)

/-- Each function is put into the cell of its own name. -/
def scopedResets : List Definition → Option (List Form)
  | [] => some []
  | (_, cell, parts) :: definitions =>
    map₂ (fun parts resets ↦
        list "std.protocol.ireset.IReset/reset" [.symbol cell, list "fn" parts] :: resets)
      (scopedIn names .params [] parts) (scopedResets definitions)

/-- The names denote what is in their cells, unless a name takes the place of a later cell. -/
def scopedAliases (bound : List String) : List Definition → Option (List Form)
  | [] => some []
  | (name, cell, _) :: definitions =>
    map₂ (fun value aliases ↦ .symbol name :: value :: aliases) (cellRef bound cell)
      (scopedAliases (name :: bound) definitions)

/-- What `letfn` stands for; the body is in the scope of the names as it is. -/
def scopedLetfn (definitions : List Definition) (body : List Form) : Option Form :=
  map₂ (fun resets aliases ↦
      list "let" [.vector (definitions.flatMap fun (_, cell, _) ↦
          [.symbol cell, list "std.native.Base/atom" [.nil]]),
        list "do" (resets ++ [list "let" (.vector aliases :: body)])])
    (scopedResets (cellsOf definitions) definitions) (scopedAliases [] definitions)

def freshName (k : ℕ) : String := s!"__hbc_destructure_{k}"

theorem freshName_injective : Function.Injective freshName := by
  intro k k' h
  have htext : toString k = toString k' := (String.append_right_inj _).mp h
  rw [Nat.toString_eq_repr, Nat.toString_eq_repr] at htext
  have hdigits := congrArg (Decimal.digits? ·.toList) htext
  simpa only [Nat.toList_repr, Decimal.digits?_toDigits, some.injEq] using hdigits

variable {definitions : List Definition} {n n' : ℕ}

theorem letfnCells_fresh {forms : List Form} (h : letfnCells forms n = .ok definitions n') :
    definitions.Pairwise (·.2.1 ≠ ·.2.1) ∧ ∀ d ∈ definitions, ∃ k, n ≤ k ∧ d.2.1 = freshName k := by
  induction forms using letfnCells.induct generalizing definitions n with
  | case1 =>
    cases h
    simp
  | case2 definitions name rest hshort =>
    rw [letfnCells, if_pos hshort] at h
    cases h
  | case3 definitions name rest hlong ih =>
    rw [letfnCells, if_neg hlong] at h
    obtain ⟨cell, m, hcell, h⟩ := EStateM.bind_eq_ok.mp h
    cases hcell
    obtain ⟨cells, m', hcells, h⟩ := EStateM.bind_eq_ok.mp h
    cases h
    obtain ⟨hnodup, hfresh⟩ := ih hcells
    rw [pairwise_cons, forall_mem_cons]
    refine ⟨⟨fun d hd heq ↦ ?_, hnodup⟩, ⟨n, le_rfl, rfl⟩, fun d hd ↦ ?_⟩
    · obtain ⟨k, hk, hfresh⟩ := hfresh d hd
      have : n = k := freshName_injective (heq.trans hfresh)
      omega
    · obtain ⟨k, hk, hfresh⟩ := hfresh d hd
      exact ⟨k, Nat.le_of_succ_le hk, hfresh⟩
  | case4 definitions parts hname =>
    rw [letfnCells] at h
    · cases h
    · exact hname
  | case5 form definitions hlist =>
    rw [letfnCells] at h
    · cases h
    · exact hlist

/-- The cell that is found for each name is its own if and only if the names are distinct. -/
theorem lookup_own_iff (h : definitions.Pairwise (·.2.1 ≠ ·.2.1)) :
    (∀ d ∈ definitions, ((cellsOf definitions).lookup d.1).getD "" = d.2.1) ↔
      definitions.Pairwise (·.1 ≠ ·.1) := by
  induction definitions with
  | nil => simp
  | cons d definitions ih =>
    obtain ⟨hcell, h⟩ := pairwise_cons.mp h
    rw [pairwise_cons, ← ih h, forall_mem_cons, ← forall₂_and]
    have hown : ((cellsOf (d :: definitions)).lookup d.1).getD "" = d.2.1 := by
      simp [cellsOf]
    refine (and_iff_right hown).trans (forall₂_congr fun e he ↦ ?_)
    by_cases heq : d.1 = e.1
    · simp [cellsOf, heq, hcell e he]
    · simp [cellsOf, lookup_cons, heq, beq_false_of_ne (Ne.symm heq)]

theorem scopedResets_eq_iff (definitions : List Definition) :
    scopedResets names definitions = some (definitions.map fun (name, _, parts) ↦
        list "std.protocol.ireset.IReset/reset" [.symbol ((names.lookup name).getD ""),
          list "fn" (replaceRefsIn names parts)]) ↔
      ∀ d ∈ definitions, (names.lookup d.1).getD "" = d.2.1 ∧
        misreadIn names false .params [] d.2.2 = false := by
  induction definitions with
  | nil => simp [scopedResets]
  | cons d definitions ih =>
    rw [forall_mem_cons, ← ih, ← scopedIn_eq_iff]
    simp [scopedResets, list, and_assoc, and_left_comm, eq_comm (a := d.2.1)]

theorem scopedAliases_eq_iff (bound : List String) (definitions : List Definition) :
    scopedAliases bound definitions = some ((cellsOf definitions).flatMap fun (name, cell) ↦
        [.symbol name, deref cell]) ↔
      (∀ d ∈ definitions, d.2.1 ∉ bound) ∧ definitions.Pairwise (·.1 ≠ ·.2.1) := by
  induction definitions generalizing bound with
  | nil => simp [scopedAliases, cellsOf]
  | cons d definitions ih =>
    have hstep : scopedAliases bound (d :: definitions) =
          some ((cellsOf (d :: definitions)).flatMap fun (name, cell) ↦
            [.symbol name, deref cell]) ↔
        d.2.1 ∉ bound ∧ scopedAliases (d.1 :: bound) definitions =
          some ((cellsOf definitions).flatMap fun (name, cell) ↦ [.symbol name, deref cell]) := by
      simp [scopedAliases, cellRef, cellsOf]
    rw [pairwise_cons]
    grind

/-- `(even [x] (let (y (odd x)) (if y x (odd y))))`, with a list of bindings. -/
def evenParts : List Form :=
  [.vector [.symbol "x"], list "let" [.list [.symbol "y", list "odd" [.symbol "x"]],
    list "if" [.symbol "y", .symbol "x", list "odd" [.symbol "y"]]]]

/-- `(odd [y] (try (even y) (catch e (quote even))))`. -/
def oddParts : List Form :=
  [.vector [.symbol "y"], list "try" [list "even" [.symbol "y"],
    list "catch" [.symbol "e", list "quote" [.symbol "even"]]]]

/-- `(letfn [(f params body)])` with its function in place. -/
def oneFunction (params : List Form) (body : Form) : Form :=
  list "let" [.vector [.symbol (freshName 0), list "std.native.Base/atom" [.nil]],
    list "do" [list "std.protocol.ireset.IReset/reset" [.symbol (freshName 0),
        list "fn" [.vector params, body]],
      list "let" [.vector [.symbol "f", deref (freshName 0)]]]]

end Hara.Vm.Destructure
