import Mathlib.Algebra.Order.Ring.Int

/-!
# Namespaces and Vars

The registry of `kernel/namespace.rs` and the Vars of `kernel/var.rs`. Both are shared mutable
objects: a `Var` or a `Namespace` is a reference, and the `World` holds the cells behind the
references, the registry, and the dynamic bindings, which the source keeps in a thread-local table
of its own. A hash map is a list of entries; nothing depends on the order in which it is walked.

Symbols are interned by their full text, so a symbol is that text, and its namespace is what stands
before the first slash, as `Symbol::parse` reads it. (`Symbol::create` without a namespace can
intern a text with a slash as a plain name first; that history of the cache is left out.)
-/

namespace Hara.Kernel

abbrev Symbol := String

namespace Symbol

/-- The text before the first slash, and the text after it. -/
def split (symbol : Symbol) : Option String × String :=
  if symbol = "/" then (none, symbol)
  else
    match symbol.toList.span (· ≠ '/') with
    | (ns, _ :: name) => (some (String.ofList ns), String.ofList name)
    | (_, []) => (none, symbol)

def getNamespace (symbol : Symbol) : Option String := (split symbol).1

def getName (symbol : Symbol) : String := (split symbol).2

end Symbol

/-- A hash map keyed by symbols. -/
abbrev Table (β : Type) := List (Symbol × β)

namespace Table

variable {β : Type}

def get (t : Table β) (k : Symbol) : Option β := t.lookup k

def remove (t : Table β) (k : Symbol) : Table β := t.filter fun e ↦ e.1 ≠ k

def insert (t : Table β) (k : Symbol) (v : β) : Table β := (k, v) :: t.remove k

end Table

inductive NamespaceLoadState where
  | unloaded | loading | loaded | failed
  deriving DecidableEq, Repr

inductive VarOrigin where
  | source | halFallback | rustLibrary | runtimePrimitive
  deriving DecidableEq, Repr

/-- `VarMetadata`, with `H` for the metadata of the language. -/
structure VarMetadata (H : Type) where
  hara : Option H := none
  control : Bool := false
  dynamic : Bool := false
  macroForm : Bool := false
  doc : Option String := none
  arglists : List String := []
  origin : VarOrigin := .source
  extra : Table String := []
  deriving DecidableEq, Repr

/-- A reference to a Var. A requalified Var is another reference to the same cells. -/
structure Var where
  id : ℕ
  symbol : Symbol
  deriving DecidableEq, Repr

/-- The cells of a Var. -/
structure VarCell (H V : Type) where
  value : V
  metadata : VarMetadata H
  schemaContract : Option V
  deriving DecidableEq, Repr

/-- A reference to a namespace. -/
structure Namespace where
  id : ℕ
  name : Symbol
  deriving DecidableEq, Repr

/-- The cells of a namespace. -/
structure NamespaceCell where
  mappings : Table Var := []
  aliases : Table Namespace := []
  lazyAliases : Table Symbol := []
  imports : Table String := []
  nativeFlavor : Option String := none
  role : String := "standard"
  foundationExposed : Option (List String) := none
  foundationExcluded : List String := []
  deriving DecidableEq, Repr

/-- `NamespaceRegistry`. -/
structure Registry where
  namespaces : Table Namespace
  current : Symbol
  loadingStates : Table NamespaceLoadState
  loadFailures : Table String
  globalAliases : Table Symbol
  globalImports : Table Symbol
  moduleRevisions : Table ℕ
  moduleDependencies : Table (List Symbol)
  deriving DecidableEq, Repr

/-- Everything that operations on namespaces and Vars can change. Vars and namespaces are numbered
as they are created. -/
structure World (H V : Type) where
  vars : ℕ → VarCell H V
  nextVar : ℕ
  cells : ℕ → NamespaceCell
  nextNamespace : ℕ
  /-- The dynamic bindings of a Var, the innermost first. -/
  bindings : ℕ → List V
  registry : Registry

variable {H V : Type}

namespace World

variable (w : World H V) (ns : Namespace) (name : Symbol)

def setVar (id : ℕ) (f : VarCell H V → VarCell H V) : World H V :=
  { w with vars := Function.update w.vars id (f (w.vars id)) }

def setCell (f : NamespaceCell → NamespaceCell) : World H V :=
  { w with cells := Function.update w.cells ns.id (f (w.cells ns.id)) }

/-! ## Vars -/

/-- `Var::with_metadata`; `Var::new` has the default metadata. -/
def newVar (path : Symbol) (value : V) (metadata : VarMetadata H) : Var × World H V :=
  (⟨w.nextVar, path⟩, { w with
    vars := Function.update w.vars w.nextVar ⟨value, metadata, none⟩
    nextVar := w.nextVar + 1 })

/-- `deref_value`: the innermost dynamic binding, or the root. -/
def derefValue (var : Var) : V :=
  (w.bindings var.id).head?.getD (w.vars var.id).value

def resetValue (var : Var) (value : V) : World H V :=
  w.setVar var.id fun cell ↦ { cell with value }

def setMetadata (var : Var) (metadata : VarMetadata H) : World H V :=
  w.setVar var.id fun cell ↦ { cell with metadata }

/-- `update_metadata`, `set_hara_metadata` and `set_origin`. -/
def updateMetadata (var : Var) (update : VarMetadata H → VarMetadata H) : World H V :=
  w.setVar var.id fun cell ↦ { cell with metadata := update cell.metadata }

def setSchemaContract (var : Var) (contract : Option V) : World H V :=
  w.setVar var.id fun cell ↦ { cell with schemaContract := contract }

def bind (var : Var) (value : V) : World H V :=
  { w with bindings := Function.update w.bindings var.id (value :: w.bindings var.id) }

def unbind (var : Var) : Except String V × World H V :=
  match w.bindings var.id with
  | [] => (.error "Var has no dynamic binding", w)
  | value :: rest => (.ok value, { w with bindings := Function.update w.bindings var.id rest })

/-! ## Namespaces -/

/-- `intern_with_metadata`, and `intern` without metadata (`intern_with_origin` gives metadata with
only the origin set). A Var that is mapped already is changed, not replaced. -/
def internVar (value : V) (metadata : Option (VarMetadata H)) : Var × World H V :=
  match (w.cells ns.id).mappings.get name with
  | some existing =>
    let w := w.resetValue existing value
    (existing, match metadata with
      | some metadata => w.setMetadata existing metadata
      | none => w)
  | none =>
    let (var, w) := w.newVar (ns.name ++ "/" ++ name) value (metadata.getD {})
    (var, w.setCell ns fun cell ↦ { cell with mappings := cell.mappings.insert name var })

def mapVar (symbol : Symbol) (var : Var) : World H V :=
  w.setCell ns fun cell ↦ { cell with mappings := cell.mappings.insert symbol var }

def unmap (symbol : Symbol) : Option Var × World H V :=
  ((w.cells ns.id).mappings.get symbol,
    w.setCell ns fun cell ↦ { cell with mappings := cell.mappings.remove symbol })

def unalias (key : Symbol) : Option Namespace × World H V :=
  ((w.cells ns.id).aliases.get key, w.setCell ns fun cell ↦ { cell with
    lazyAliases := cell.lazyAliases.remove key
    aliases := cell.aliases.remove key })

/-- `alias`. -/
def setAlias (key : Symbol) (target : Namespace) : World H V :=
  w.setCell ns fun cell ↦ { cell with
    lazyAliases := cell.lazyAliases.remove key
    aliases := cell.aliases.insert key target }

def lazyAlias (key target : Symbol) : World H V :=
  w.setCell ns fun cell ↦ { cell with
    aliases := cell.aliases.remove key
    lazyAliases := cell.lazyAliases.insert key target }

def addImport (hostType : String) : World H V :=
  w.setCell ns fun cell ↦ { cell with imports := cell.imports.insert name hostType }

def setNativeFlavor (flavor : Option String) : World H V :=
  w.setCell ns fun cell ↦ { cell with nativeFlavor := flavor }

def setRole (role : String) : World H V :=
  w.setCell ns fun cell ↦ { cell with role }

def setFoundationVisibility (exposed : Option (List String)) (excluded : List String)
    (blank : Bool) : World H V :=
  w.setCell ns fun cell ↦ { cell with
    foundationExposed := if blank then some [] else exposed
    foundationExcluded := excluded }

/-! ## The registry -/

def find : Option Namespace := w.registry.namespaces.get name

/-- `Namespace::new`. -/
def newNamespace : Namespace × World H V :=
  (⟨w.nextNamespace, name⟩, { w with
    cells := Function.update w.cells w.nextNamespace {}
    nextNamespace := w.nextNamespace + 1 })

def findOrCreate : Namespace × World H V :=
  match w.find name with
  | some ns => (ns, w)
  | none =>
    let (ns, w) := w.newNamespace name
    (ns, { w with registry := { w.registry with
      namespaces := w.registry.namespaces.insert name ns
      loadingStates :=
        if (w.registry.loadingStates.get name).isSome then w.registry.loadingStates
        else w.registry.loadingStates.insert name .loaded } })

def setCurrent : Namespace × World H V :=
  let (ns, w) := w.findOrCreate name
  (ns, { w with registry := { w.registry with current := ns.name } })

def setLoadState (state : NamespaceLoadState) : World H V :=
  { w with registry := { w.registry with
    loadingStates := w.registry.loadingStates.insert name state } }

def clearLoadState : World H V :=
  { w with registry := { w.registry with loadingStates := w.registry.loadingStates.remove name } }

def setLoadFailure (detail : String) : World H V :=
  { w with registry := { w.registry with
    loadFailures := w.registry.loadFailures.insert name detail } }

def clearLoadFailure : World H V :=
  { w with registry := { w.registry with loadFailures := w.registry.loadFailures.remove name } }

def registerGlobalAlias (key ns : Symbol) : Except String Unit × World H V :=
  if (Symbol.getNamespace key).isSome ∨ key = "-" then
    (.error ("Invalid global namespace alias: " ++ key), w)
  else
    match w.registry.globalAliases.get key with
    | some previous =>
      if previous ≠ ns then
        (.error ("Global namespace alias already refers to " ++ previous ++ ": " ++ key), w)
      else (.ok (), w)
    | none =>
      (.ok (), { w with registry := { w.registry with
        globalAliases := w.registry.globalAliases.insert key ns } })

def registerGlobalImport (shorthand canonical : Symbol) : Except String Unit × World H V :=
  if (Symbol.getNamespace shorthand).isNone then
    (.error ("Invalid global import Var: " ++ shorthand), w)
  else
    let name := Symbol.getName shorthand
    match w.registry.globalImports.get name with
    | some previous =>
      if previous ≠ canonical then
        (.error ("Global import already refers to " ++ previous ++ ": " ++ name), w)
      else (.ok (), w)
    | none =>
      (.ok (), { w with registry := { w.registry with
        globalImports := w.registry.globalImports.insert name canonical } })

def moduleRevision : ℕ :=
  (w.registry.moduleRevisions.get name).getD 0

def commitModuleRevision : ℕ × World H V :=
  let next := w.moduleRevision name + 1
  (next, { w with registry := { w.registry with
    moduleRevisions := w.registry.moduleRevisions.insert name next } })

def clearModuleDependencies : World H V :=
  { w with registry := { w.registry with
    moduleDependencies := w.registry.moduleDependencies.insert name [] } }

def recordModuleDependency (name dependency : Symbol) : World H V :=
  let values := (w.registry.moduleDependencies.get name).getD []
  let values := if dependency ∈ values then values else values ++ [dependency]
  { w with registry := { w.registry with
    moduleDependencies := w.registry.moduleDependencies.insert name values } }

/-- `remove`: the current namespace stays. -/
def removeNamespace : Option Namespace × World H V :=
  if name = w.registry.current then (none, w)
  else
    (w.find name, { w with registry := { w.registry with
      loadingStates := w.registry.loadingStates.remove name
      loadFailures := w.registry.loadFailures.remove name
      moduleRevisions := w.registry.moduleRevisions.remove name
      moduleDependencies := w.registry.moduleDependencies.remove name
      globalAliases := w.registry.globalAliases.filter fun e ↦ e.2 ≠ name
      namespaces := w.registry.namespaces.remove name } })

/-- `set_var`. Without a current namespace the source does not return: it panics, with the text
given here as the error. -/
def setVarAt (symbol : Symbol) (var : Var) : Except String Var × World H V :=
  let target : Except String Namespace :=
    match Symbol.getNamespace symbol with
    | some name =>
      match w.find name with
      | some ns => .ok ns
      | none => .error ("Namespace not found: " ++ name)
    | none =>
      match w.find w.registry.current with
      | some ns => .ok ns
      | none => .error "current namespace exists"
  match target with
  | .ok ns => (.ok var, w.mapVar ns (Symbol.getName symbol) var)
  | .error error => (.error error, w)

end World

/-! ## Snapshots -/

/-- `NamespaceSnapshot`. -/
structure NamespaceSnapshot (H V : Type) where
  ns : Namespace
  mappings : Table (Var × V × VarMetadata H)
  aliases : Table Namespace
  lazyAliases : Table Symbol
  imports : Table String
  nativeFlavor : Option String
  role : String
  foundationExposed : Option (List String)
  foundationExcluded : List String

/-- What a snapshot keeps of the registry besides the namespaces. -/
structure RegistrySnapshot where
  current : Symbol
  loadingStates : Table NamespaceLoadState
  loadFailures : Table String
  globalAliases : Table Symbol
  globalImports : Table Symbol
  moduleRevisions : Table ℕ
  moduleDependencies : Table (List Symbol)

/-- `NamespaceRegistrySnapshot`. -/
structure Snapshot (H V : Type) extends RegistrySnapshot where
  namespaces : Table (NamespaceSnapshot H V)

/-- `NamespaceTransactionSnapshot`. -/
structure TransactionSnapshot (H V : Type) extends RegistrySnapshot where
  namespaceNames : List Symbol
  namespaces : Table (NamespaceSnapshot H V)

namespace World

/-- `namespace_snapshot`. The value of a Var is what `deref_value` gives. -/
def namespaceSnapshot (w : World H V) (ns : Namespace) : NamespaceSnapshot H V :=
  let cell := w.cells ns.id
  { ns
    mappings := cell.mappings.map fun (name, var) ↦
      (name, var, w.derefValue var, (w.vars var.id).metadata)
    aliases := cell.aliases
    lazyAliases := cell.lazyAliases
    imports := cell.imports
    nativeFlavor := cell.nativeFlavor
    role := cell.role
    foundationExposed := cell.foundationExposed
    foundationExcluded := cell.foundationExcluded }

def registrySnapshot (w : World H V) : RegistrySnapshot where
  current := w.registry.current
  loadingStates := w.registry.loadingStates
  loadFailures := w.registry.loadFailures
  globalAliases := w.registry.globalAliases
  globalImports := w.registry.globalImports
  moduleRevisions := w.registry.moduleRevisions
  moduleDependencies := w.registry.moduleDependencies

def snapshot (w : World H V) : Snapshot H V :=
  { w.registrySnapshot with
    namespaces := w.registry.namespaces.map fun (name, ns) ↦ (name, w.namespaceSnapshot ns) }

def transactionSnapshot (w : World H V) (names : List Symbol) : TransactionSnapshot H V :=
  { w.registrySnapshot with
    namespaceNames := w.registry.namespaces.map (·.1)
    namespaces := (w.registry.namespaces.filter fun (name, _) ↦ name ∈ names).map
      fun (name, ns) ↦ (name, w.namespaceSnapshot ns) }

/-- The body of the inner loop of `restore`. -/
def restoreVar (w : World H V) (saved : Symbol × Var × V × VarMetadata H) : World H V :=
  (w.resetValue saved.2.1 saved.2.2.1).setMetadata saved.2.1 saved.2.2.2

/-- The body of the outer loop of `restore`. -/
def restoreNamespace (w : World H V) (saved : NamespaceSnapshot H V) : World H V :=
  (saved.mappings.foldl restoreVar w).setCell saved.ns fun _ ↦
    { mappings := saved.mappings.map fun (name, var, _, _) ↦ (name, var)
      aliases := saved.aliases
      lazyAliases := saved.lazyAliases
      imports := saved.imports
      nativeFlavor := saved.nativeFlavor
      role := saved.role
      foundationExposed := saved.foundationExposed
      foundationExcluded := saved.foundationExcluded }

def restoreRegistry (w : World H V) (saved : RegistrySnapshot) (namespaces : Table Namespace) :
    World H V :=
  { w with registry := { saved with namespaces } }

/-- `restore`. -/
def restore (w : World H V) (saved : Snapshot H V) : World H V :=
  ((saved.namespaces.map (·.2)).foldl restoreNamespace w).restoreRegistry saved.toRegistrySnapshot
    (saved.namespaces.map fun (name, saved) ↦ (name, saved.ns))

/-- `restore_transaction`: namespaces that were not selected keep what they have. -/
def restoreTransaction (w : World H V) (saved : TransactionSnapshot H V) : World H V :=
  let kept := w.registry.namespaces.filter fun (name, _) ↦ name ∈ saved.namespaceNames
  ((saved.namespaces.map (·.2)).foldl restoreNamespace w).restoreRegistry saved.toRegistrySnapshot
    (saved.namespaces.foldl (fun t (name, saved) ↦ t.insert name saved.ns) kept)

end World

/-! ## Histories -/

/-- The operations on namespaces and Vars. -/
inductive Op (H V : Type) where
  | newVar (path : Symbol) (value : V) (metadata : VarMetadata H)
  | resetValue (var : Var) (value : V)
  | setMetadata (var : Var) (metadata : VarMetadata H)
  | updateMetadata (var : Var) (update : VarMetadata H → VarMetadata H)
  | setSchemaContract (var : Var) (contract : Option V)
  | bind (var : Var) (value : V)
  | unbind (var : Var)
  | internVar (ns : Namespace) (name : Symbol) (value : V) (metadata : Option (VarMetadata H))
  | mapVar (ns : Namespace) (symbol : Symbol) (var : Var)
  | unmap (ns : Namespace) (symbol : Symbol)
  | unalias (ns : Namespace) (key : Symbol)
  | setAlias (ns : Namespace) (key : Symbol) (target : Namespace)
  | lazyAlias (ns : Namespace) (key target : Symbol)
  | addImport (ns : Namespace) (name : Symbol) (hostType : String)
  | setNativeFlavor (ns : Namespace) (flavor : Option String)
  | setRole (ns : Namespace) (role : String)
  | setFoundationVisibility (ns : Namespace) (exposed : Option (List String))
      (excluded : List String) (blank : Bool)
  | newNamespace (name : Symbol)
  | findOrCreate (name : Symbol)
  | setCurrent (name : Symbol)
  | setLoadState (name : Symbol) (state : NamespaceLoadState)
  | clearLoadState (name : Symbol)
  | setLoadFailure (name : Symbol) (detail : String)
  | clearLoadFailure (name : Symbol)
  | registerGlobalAlias (key ns : Symbol)
  | registerGlobalImport (shorthand canonical : Symbol)
  | commitModuleRevision (name : Symbol)
  | clearModuleDependencies (name : Symbol)
  | recordModuleDependency (name dependency : Symbol)
  | removeNamespace (name : Symbol)
  | setVarAt (symbol : Symbol) (var : Var)
  | restore (saved : Snapshot H V)
  | restoreTransaction (saved : TransactionSnapshot H V)

namespace World

def apply (w : World H V) : Op H V → World H V
  | .newVar path value metadata => (w.newVar path value metadata).2
  | .resetValue var value => w.resetValue var value
  | .setMetadata var metadata => w.setMetadata var metadata
  | .updateMetadata var update => w.updateMetadata var update
  | .setSchemaContract var contract => w.setSchemaContract var contract
  | .bind var value => w.bind var value
  | .unbind var => (w.unbind var).2
  | .internVar ns name value metadata => (w.internVar ns name value metadata).2
  | .mapVar ns symbol var => w.mapVar ns symbol var
  | .unmap ns symbol => (w.unmap ns symbol).2
  | .unalias ns key => (w.unalias ns key).2
  | .setAlias ns key target => w.setAlias ns key target
  | .lazyAlias ns key target => w.lazyAlias ns key target
  | .addImport ns name hostType => w.addImport ns name hostType
  | .setNativeFlavor ns flavor => w.setNativeFlavor ns flavor
  | .setRole ns role => w.setRole ns role
  | .setFoundationVisibility ns exposed excluded blank =>
    w.setFoundationVisibility ns exposed excluded blank
  | .newNamespace name => (w.newNamespace name).2
  | .findOrCreate name => (w.findOrCreate name).2
  | .setCurrent name => (w.setCurrent name).2
  | .setLoadState name state => w.setLoadState name state
  | .clearLoadState name => w.clearLoadState name
  | .setLoadFailure name detail => w.setLoadFailure name detail
  | .clearLoadFailure name => w.clearLoadFailure name
  | .registerGlobalAlias key ns => (w.registerGlobalAlias key ns).2
  | .registerGlobalImport shorthand canonical => (w.registerGlobalImport shorthand canonical).2
  | .commitModuleRevision name => (w.commitModuleRevision name).2
  | .clearModuleDependencies name => w.clearModuleDependencies name
  | .recordModuleDependency name dependency => w.recordModuleDependency name dependency
  | .removeNamespace name => (w.removeNamespace name).2
  | .setVarAt symbol var => (w.setVarAt symbol var).2
  | .restore saved => w.restore saved
  | .restoreTransaction saved => w.restoreTransaction saved

/-- A sequence of operations. -/
def run (w : World H V) (ops : List (Op H V)) : World H V := ops.foldl apply w

theorem run_append {w : World H V} {ops ops' : List (Op H V)} :
    (w.run ops).run ops' = w.run (ops ++ ops') :=
  List.foldl_append.symm

/-- `NamespaceRegistry::new`. No Var exists yet; `cell` fills the numbers not given out. -/
def new (cell : VarCell H V) (initial : Symbol) : World H V where
  vars _ := cell
  nextVar := 0
  cells _ := {}
  nextNamespace := 1
  bindings _ := []
  registry := {
    namespaces := [(initial, ⟨0, initial⟩)]
    current := initial
    loadingStates := [(initial, .loaded)]
    loadFailures := []
    globalAliases := []
    globalImports := []
    moduleRevisions := []
    moduleDependencies := [] }

end World

end Hara.Kernel
