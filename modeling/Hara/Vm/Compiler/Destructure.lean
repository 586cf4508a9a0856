import Hara.Core.Value

/-!
# Destructuring

`vm/compiler/destructure.rs`: binding patterns are lowered into the symbol-only forms of the
compiler before anything is emitted. Fresh names are numbered by the state of `ExpandM`.
-/

namespace Hara.Vm.Destructure

/-- A rejected pattern, or the index of a missing list element. -/
inductive ExpandError where
  | message (text : String)
  | panic
  deriving DecidableEq, Repr

abbrev ExpandM := EStateM ExpandError ℕ

def fail {α : Type} (text : String) : ExpandM α := throw (.message text)

/-- A fresh local name. -/
def temporary : ExpandM String :=
  modifyGet fun next ↦ (s!"__hbc_destructure_{next}", next + 1)

def list (operator : String) (arguments : List Form) : Form :=
  .list (.symbol operator :: arguments)

def isPattern : Form → Bool
  | .vector _ | .map _ => true
  | _ => false

/-! ## Binding patterns -/

def lookupForm (source key : Form) (default : Option Form) : Form :=
  list "std.protocol.ilookup.ILookup/lookup" ([source, key] ++ default.toList)

/-- The source symbol of a compound pattern, with the binding that introduces it if needed. -/
def ensureSymbol : Form → ExpandM (Form × List Form)
  | .symbol name => pure (.symbol name, [])
  | value => do
    let name ← temporary
    pure (.symbol name, [.symbol name, value])

/-- The default of a `:keys`, `:strs` or `:syms` local. -/
def defaultFor (defaults : Option Form) (name : String) : Option Form :=
  match defaults with
  | some (.map entries) =>
    entries.findSome? fun entry ↦
      match entry.1 with
      | .symbol s => if s = name then some entry.2 else none
      | _ => none
  | _ => none

/-- The value of the `:or` entry of a map pattern. -/
def orEntry (entries : List (Form × Form)) : Option Form :=
  entries.findSome? fun entry ↦
    match entry.1 with
    | .keyword "or" => some entry.2
    | _ => none

/-- The locals of a `:keys`, `:strs` or `:syms` entry. -/
def bindNames (source : Form) (defaults : Option Form) (kind : String) :
    List Form → ExpandM (List Form)
  | [] => pure []
  | .symbol name :: names => do
    let key := match kind with
      | "keys" => Form.keyword name
      | "strs" => .string name
      | _ => list "quote" [.symbol name]
    let rest ← bindNames source defaults kind names
    pure (.symbol name :: lookupForm source key (defaultFor defaults name) :: rest)
  | _ :: _ => fail s!":{kind} destructuring expects symbols"

/-- One `:keys`, `:strs` or `:syms` entry of a map pattern. -/
def bindLocals (source : Form) (defaults : Option Form) (kind : String) (names : Form) :
    ExpandM (List Form) :=
  match names with
  | .vector names => bindNames source defaults kind names
  | _ => fail s!":{kind} destructuring expects a vector"

mutual

/-- `bind`: the bindings that take `value` apart. -/
def bind : Form → Form → ExpandM (List Form)
  | .symbol name, value => pure [.symbol name, value]
  | .vector items, value => do
    let (source, bound) ← ensureSymbol value
    let rest ← bindVector items source 0
    pure (bound ++ rest)
  | .map entries, value => do
    let (source, bound) ← ensureSymbol value
    let rest ← bindMap entries source (orEntry entries)
    pure (bound ++ rest)
  | _, _ => fail "destructuring pattern must be a symbol, vector, or map"
  termination_by structural pattern => pattern

/-- `bind_vector`, from the element with the given index. -/
def bindVector : List Form → Form → ℕ → ExpandM (List Form)
  | [], _, _ => pure []
  | [.symbol "&"], _, _ => fail "vector & requires a binding"
  | .symbol "&" :: pattern :: items, source, index => do
    let bound ← bind pattern (list "std.native.Base/vec"
      [list "std.native.Iter/iter-drop" [.number (.ofNat index), source]])
    let rest ← bindVector items source index
    pure (bound ++ rest)
  | [.keyword "as"], _, _ => fail "vector :as requires a binding"
  | .keyword "as" :: pattern :: items, source, index => do
    let bound ← bind pattern source
    let rest ← bindVector items source index
    pure (bound ++ rest)
  | item :: items, source, index => do
    let bound ← bind item (lookupForm source (.number (.ofNat index)) none)
    let rest ← bindVector items source (index + 1)
    pure (bound ++ rest)
  termination_by structural items => items

/-- `bind_map`. -/
def bindMap : List (Form × Form) → Form → Option Form → ExpandM (List Form)
  | [], _, _ => pure []
  | (binding, key) :: entries, source, defaults => do
    let bound ← match binding with
      | .keyword "as" => bind key source
      | .keyword "keys" => bindLocals source defaults "keys" key
      | .keyword "strs" => bindLocals source defaults "strs" key
      | .keyword "syms" => bindLocals source defaults "syms" key
      | .keyword "or" => pure []
      | _ => bind binding (lookupForm source key none)
    let rest ← bindMap entries source defaults
    pure (bound ++ rest)
  termination_by structural entries => entries

end

/-! ## Binding forms -/

/-- The bindings of a list of name/value pairs. -/
def bindPairs : List Form → ExpandM (List Form)
  | pattern :: value :: pairs => do
    let bound ← bind pattern value
    let rest ← bindPairs pairs
    pure (bound ++ rest)
  | _ => pure []

/-- Whether some pair binds a compound pattern. -/
def hasPattern : List Form → Bool
  | pattern :: _ :: pairs => isPattern pattern || hasPattern pairs
  | _ => false

/-- Whether a binding vector has pairs of which some bind a compound pattern. -/
def needsExpansion (bindings : List Form) : Bool :=
  bindings.length % 2 == 0 && hasPattern bindings

def expandLet : List Form → ExpandM (Option Form)
  | _ :: .vector bindings :: body =>
    if needsExpansion bindings then do
      let output ← bindPairs bindings
      pure (some (list "let" (.vector output :: body)))
    else pure none
  | _ => pure none

/-- The loop bindings with patterns replaced by temporaries, and the bindings that take the
temporaries apart. -/
def splitLoopPairs : List Form → ExpandM (List Form × List Form)
  | .symbol name :: value :: pairs => do
    let (raw, inner) ← splitLoopPairs pairs
    pure (.symbol name :: value :: raw, inner)
  | pattern :: value :: pairs => do
    let name ← temporary
    let bound ← bind pattern (.symbol name)
    let (raw, inner) ← splitLoopPairs pairs
    pure (.symbol name :: value :: raw, bound ++ inner)
  | _ => pure ([], [])

def expandLoop : List Form → ExpandM (Option Form)
  | _ :: .vector bindings :: body =>
    if needsExpansion bindings then do
      let (raw, inner) ← splitLoopPairs bindings
      let body := if inner.isEmpty then body else [list "let" (.vector inner :: body)]
      pure (some (list "loop" (.vector raw :: body)))
    else pure none
  | _ => pure none

/-- The parameters with patterns replaced by temporaries, the bindings that take these apart, and
whether the last parameter was the `&` marker. -/
def splitParams : List Form → Bool → ExpandM (List Form × List Form × Bool)
  | [], rest => pure ([], [], rest)
  | .symbol "&" :: params, _ => do
    let (raw, bindings, rest) ← splitParams params true
    pure (.symbol "&" :: raw, bindings, rest)
  | param :: params, _ =>
    if isPattern param then do
      let name ← temporary
      let bound ← bind param (.symbol name)
      let (raw, bindings, rest) ← splitParams params false
      pure (.symbol name :: raw, bound ++ bindings, rest)
    else do
      let (raw, bindings, rest) ← splitParams params false
      pure (param :: raw, bindings, rest)

/-- The new parameters and body, when some parameter is a pattern. -/
def expandParams (params : Form) (body : List Form) : ExpandM (Option (Form × List Form)) :=
  match params with
  | .vector params =>
    if params.any isPattern then do
      let (raw, bindings, rest) ← splitParams params false
      if rest then fail "the & rest marker requires a following parameter"
      else pure (some (.vector raw, [list "let" (.vector bindings :: body)]))
    else pure none
  | _ => pure none

/-- Arity clauses with their parameters expanded, and whether any changed; `none` when a clause is
no list. -/
def expandClauses : List Form → ExpandM (Option (List Form × Bool))
  | [] => pure (some ([], false))
  | .list parts :: clauses =>
    match parts with
    | [] => throw .panic
    | params :: body => do
      let expanded ← expandParams params body
      let clause := match expanded with
        | some (params, body) => Form.list (params :: body)
        | none => .list parts
      let rest ← expandClauses clauses
      pure (rest.map fun (clauses, changed) ↦ (clause :: clauses, expanded.isSome || changed))
  | _ :: _ => pure none

/-- The clauses of a function after the forms in `before`. -/
def replaceClauses (before clauses : List Form) : ExpandM (Option Form) := do
  let expanded ← expandClauses clauses
  match expanded with
  | some (clauses, true) => pure (some (.list (before ++ clauses)))
  | _ => pure none

/-- A single parameter vector after the forms in `before`. -/
def replaceParams (before : List Form) (params : Form) (body : List Form) :
    ExpandM (Option Form) := do
  let expanded ← expandParams params body
  pure (expanded.map fun (params, body) ↦ .list (before ++ params :: body))

def expandFn : List Form → ExpandM (Option Form)
  | operator :: .vector params :: body => replaceParams [operator] (.vector params) body
  | operator :: clauses => replaceClauses [operator] clauses
  | [] => pure none

def isVectorOrList : Form → Bool
  | .vector _ | .list _ => true
  | _ => false

def expandDefinition (items : List Form) : ExpandM (Option Form) :=
  let before := items.takeWhile fun item ↦ !isVectorOrList item
  match items.dropWhile fun item ↦ !isVectorOrList item with
  | [] => pure none
  | .vector params :: body => replaceParams before (.vector params) body
  | clauses => replaceClauses before clauses

/-! ## Dynamic bindings -/

/-- The temporaries, the binds, and the unbinds of a `binding` form. -/
def splitBinding : List Form → ExpandM (List Form × List Form × List Form)
  | .symbol name :: value :: pairs => do
    let temp ← temporary
    let (temporaries, binds, unbinds) ← splitBinding pairs
    pure (.symbol temp :: value :: temporaries,
      list "__dynamic-bind" [.symbol name, .symbol temp] :: binds,
      list "__dynamic-unbind" [.symbol name] :: unbinds)
  | _ :: _ :: _ => fail "binding name must be a symbol"
  | _ => pure ([], [], [])

def expandBinding : List Form → ExpandM (Option Form)
  | _ :: .vector bindings :: body =>
    if bindings.length % 2 == 0 then do
      let (temporaries, binds, unbinds) ← splitBinding bindings
      pure (some (list "let" [.vector temporaries,
        list "try" [list "do" (binds ++ body),
          list "finally" [list "do" unbinds.reverse]]]))
    else fail "binding bindings require name/value pairs"
  | _ => pure none

/-! ## Local recursive functions -/

def deref (cell : String) : Form := list "std.protocol.ideref.IDeref/deref" [.symbol cell]

def isQuotation : List Form → Bool
  | .symbol name :: _ => name == "quote" || name == "syntax-quote"
  | _ => false

mutual

/-- `replace_letfn_refs`: references to the local functions read their cells. -/
def replaceLetfnRefs (names : List (String × String)) : Form → Form
  | .symbol s =>
    match names.lookup s with
    | some cell => deref cell
    | none => .symbol s
  | .list items => if isQuotation items then .list items else .list (replaceRefsIn names items)
  | .vector items => .vector (replaceRefsIn names items)
  | .set items => .set (replaceRefsIn names items)
  | .map entries => .map (replaceEntryRefs names entries)
  | .metadata attributes form =>
    .metadata (replaceLetfnRefs names attributes) (replaceLetfnRefs names form)
  | .tagged tag form => .tagged tag (replaceLetfnRefs names form)
  | form => form

def replaceRefsIn (names : List (String × String)) : List Form → List Form
  | [] => []
  | form :: forms => replaceLetfnRefs names form :: replaceRefsIn names forms

def replaceEntryRefs (names : List (String × String)) : List (Form × Form) → List (Form × Form)
  | [] => []
  | (key, value) :: entries =>
    (replaceLetfnRefs names key, replaceLetfnRefs names value) :: replaceEntryRefs names entries

end

/-- The name, cell and remaining parts of each definition. -/
def letfnCells : List Form → ExpandM (List (String × String × List Form))
  | [] => pure []
  | .list parts :: definitions =>
    match parts with
    | .symbol name :: rest =>
      if rest.length < 2 then fail "letfn definition requires parameters and a body"
      else do
        let cell ← temporary
        let cells ← letfnCells definitions
        pure ((name, cell, rest) :: cells)
    | _ => fail "letfn definition requires a name"
  | _ :: _ => fail "letfn definitions must be lists"

def expandLetfn : List Form → ExpandM (Option Form)
  | _ :: .vector definitions :: body => do
    let cells ← letfnCells definitions
    let names := cells.map fun (name, cell, _) ↦ (name, cell)
    let atoms := cells.flatMap fun (_, cell, _) ↦
      [.symbol cell, list "std.native.Base/atom" [.nil]]
    -- A name defined twice resets the cell of its first definition.
    let resets := cells.map fun (name, _, parts) ↦
      list "std.protocol.ireset.IReset/reset" [.symbol ((names.lookup name).getD ""),
        list "fn" (replaceRefsIn names parts)]
    let aliases := names.flatMap fun (name, cell) ↦ [.symbol name, deref cell]
    pure (some (list "let" [.vector atoms,
      list "do" (resets ++ [list "let" (.vector aliases :: body)])]))
  | _ => pure none

/-- `destructure::expand`. -/
def expand : Form → ExpandM (Option Form)
  | .list items =>
    match items with
    | .symbol "let" :: _ => expandLet items
    | .symbol "loop" :: _ => expandLoop items
    | .symbol "fn" :: _ => expandFn items
    | .symbol "defn" :: _ | .symbol "defmacro" :: _ => expandDefinition items
    | .symbol "binding" :: _ => expandBinding items
    | .symbol "letfn" :: _ => expandLetfn items
    | _ => pure none
  | _ => pure none

end Hara.Vm.Destructure
