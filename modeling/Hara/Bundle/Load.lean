import Hara.Bundle.Container
import Hara.Kernel.Rollback

/-!
# Loading a bundle

`eval_bytecode_bundle` of `vm/bundle.rs`: the modules of a bundle are indexed, the eager ones are
loaded, and when any of this fails, everything is put back. What loading a module runs is arbitrary
code, here any sequence of operations on namespaces and Vars together with any change of the rest.

The namespaces are put back by `restore`, so a failed load leaves them as they were under the
condition of `Recoverable` and only then: `rollback_iff`.
-/

namespace Hara.Bundle

open Hara.Kernel Hara.Lib
open Except (ensure)

/-- The parts of `Runtime` that loading reads or changes. `R` stands for the environment, the
macros, the protocols and the multimethods, which are saved and put back whole. -/
structure Runtime (H V R : Type) where
  world : Kernel.World H V
  /-- The sources held in memory. -/
  resources : Table String
  bytecodeResources : Table (String × List UInt8)
  loadedResources : List String
  rest : R

/-- What running code did, and whether it failed. -/
structure Outcome (H V R : Type) where
  ops : List (Op H V)
  rest : R
  result : Except String Unit

/-- What loading relies on. -/
structure Host (H V R P : Type) where
  sha256 : List UInt8 → Digest
  decodeProgram : List UInt8 → Except String P
  /-- `source_catalog.path`. -/
  catalogPath : String → Option String
  /-- `std::fs::read_to_string`. -/
  readToString : String → Except String String
  /-- `require_namespace` under the providers of the runtime. -/
  requireNamespace : Kernel.World H V → R → String → Outcome H V R
  /-- `save_namespace` and `refresh_qualified_bindings`. -/
  saveNamespace : Kernel.World H V → R → List (Op H V) × R
  /-- `use_namespace`. -/
  useNamespace : Kernel.World H V → R → String → List (Op H V) × R

abbrev Loader (H V R : Type) := EStateM String (Runtime H V R)

variable {H V R P : Type}

/-! ## Names of resources -/

/-- `strip_prefix` of a text. -/
def stripStart (start text : List Char) : Option (List Char) :=
  if start.isPrefixOf text then some (text.drop start.length) else none

/-- `strip_suffix` of a text. -/
def stripEnd (ending text : List Char) : Option (List Char) :=
  if ending.isSuffixOf text then some (text.take (text.length - ending.length)) else none

def foundationResourceNamespace (name : String) : Option String := do
  let resource := (stripStart "classpath:".toList name.toList).getD name.toList
  if resource = "std/foundation.hal".toList ∨ resource = "std/foundation.hbx".toList then
    return "std.foundation"
  let child ← stripStart "std/foundation/".toList resource
  let child ← (stripEnd ".hal".toList child).or (stripEnd ".hbx".toList child)
  if child = [] then none
  else
    return "std.foundation." ++ String.ofList (child.map fun c ↦
      if c = '/' then '.' else if c = '_' then '-' else c)

def canonicalResourceName (name : String) : String :=
  (foundationResourceNamespace name).getD name

/-! ## Loading -/

namespace Runtime

def perform (rt : Runtime H V R) (ops : List (Op H V)) (rest : R) : Runtime H V R :=
  { rt with world := rt.world.run ops, rest }

def registerBytecodeResource (rt : Runtime H V R) (name namespaceForm : String)
    (artifact : List UInt8) : Runtime H V R :=
  let name := canonicalResourceName name
  { rt with
    bytecodeResources := rt.bytecodeResources.insert name (namespaceForm, artifact)
    loadedResources := rt.loadedResources.filter (· ≠ name)
    world := rt.world.run [.setLoadState name .unloaded] }

end Runtime

/-- The source of a module: from memory, else from the file the catalog names. -/
def Host.source (host : Host H V R P) (rt : Runtime H V R) (resource : String) :
    Except String (Option String) :=
  match rt.resources.get resource with
  | some source => .ok (some source)
  | none =>
    match host.catalogPath resource with
    | none => .ok none
    | some path =>
      match host.readToString path with
      | .ok source => .ok (some source)
      | .error error => .error ("cannot read bundled source " ++ path ++ ": " ++ error)

variable (host : Host H V R P) (m : BytecodeBundleModule)

/-- The body of the first loop. A module whose source has changed is skipped, unless it is
eager. -/
def indexModule : Loader H V R Unit := fun rt ↦
  match host.source rt m.resource with
  | .error error => .error error rt
  | .ok source =>
    if source.all fun text ↦ decide (host.sha256 (Utf8.bytes text) = m.sourceDigest) then
      .ok () (rt.registerBytecodeResource m.resource m.namespaceForm m.artifact)
    else if m.eager then .error ("stale eager bytecode bundle module: " ++ m.resource) rt
    else .ok () rt

/-- `load_bytecode_resource`. -/
def loadBytecodeResource (name : String) : Loader H V R String := fun rt ↦
  let name := canonicalResourceName name
  match rt.bytecodeResources.get name with
  | none => .error "module/not-found" rt
  | some _ =>
    let outcome := host.requireNamespace rt.world rt.rest name
    let rt := rt.perform outcome.ops outcome.rest
    match outcome.result with
    | .error error => .error error rt
    | .ok () =>
      let (ops, rest) := host.saveNamespace rt.world rt.rest
      .ok ":loaded" (rt.perform ops rest)

/-- The body of the second loop. -/
def loadEager : Loader H V R Unit := fun rt ↦
  match loadBytecodeResource host m.resource rt with
  | .error error rt => .error (m.resource ++ ": " ++ error) rt
  | .ok _ rt =>
    .ok () { rt with
      loadedResources := m.resource :: rt.loadedResources.filter (· ≠ m.resource) }

/-- `use_namespace` on the runtime; it does not fail. -/
def useNamespace (host : Host H V R P) (name : String) : Loader H V R Unit := fun rt ↦
  let (ops, rest) := host.useNamespace rt.world rt.rest name
  .ok () (rt.perform ops rest)

/-- The closure of `eval_bytecode_bundle`. -/
def loadModules (modules : List BytecodeBundleModule) : Loader H V R Unit := do
  modules.forM (indexModule host)
  (modules.filter (·.eager)).forM (loadEager host)
  useNamespace host "user"

/-- The check for a module that occurs twice, after the modules named `names`. -/
def checkDuplicates : List String → List BytecodeBundleModule → Except String Unit
  | _, [] => .ok ()
  | names, m :: modules => do
    ensure (m.resource ∉ names) ("duplicate bytecode bundle module: " ++ m.resource)
    checkDuplicates (m.resource :: names) modules

/-- What `eval_bytecode_bundle` does before it touches the runtime. -/
def bundleModules (bytes : List UInt8) : Except String (List BytecodeBundleModule) := do
  let modules ← decodeBytecodeBundle host.sha256 host.decodeProgram bytes
  checkDuplicates [] modules
  return modules

/-- Put back what was saved of `before`. -/
def Runtime.rollback (after before : Runtime H V R) : Runtime H V R :=
  { after with
    world := after.world.restore before.world.snapshot
    bytecodeResources := before.bytecodeResources
    loadedResources := before.loadedResources
    rest := before.rest }

/-- `eval_bytecode_bundle`. -/
def evalBytecodeBundle (bytes : List UInt8) : Loader H V R Unit := fun rt ↦
  match bundleModules host bytes with
  | .error error => .error error rt
  | .ok modules =>
    match loadModules host modules rt with
    | .error error after => .error error (after.rollback rt)
    | .ok () after => .ok () after

/-! ## Loading performs operations -/

/-- The runtime a computation ends in. -/
def final {α : Type} : EStateM.Result String (Runtime H V R) α → Runtime H V R
  | .ok _ rt => rt
  | .error _ rt => rt

/-- Whatever it returns, the computation changes the namespaces by operations only. -/
def Performs {α : Type} (x : Loader H V R α) : Prop :=
  ∀ rt, ∃ ops, (final (x rt)).world = rt.world.run ops

theorem Performs.bind {α β : Type} {x : Loader H V R α} {f : α → Loader H V R β} (hx : Performs x)
    (hf : ∀ a, Performs (f a)) : Performs (x >>= f) := by
  intro rt
  obtain ⟨ops, hops⟩ := hx rt
  have hbind : (x >>= f) rt = EStateM.bind x f rt := rfl
  rw [hbind, EStateM.bind]
  cases h : x rt with
  | error error rt' =>
    rw [h] at hops
    exact ⟨ops, hops⟩
  | ok a rt' =>
    rw [h] at hops
    obtain ⟨ops', hops'⟩ := hf a rt'
    have hworld : rt'.world = rt.world.run ops := hops
    exact ⟨ops ++ ops', by rw [hops', hworld, Kernel.World.run_append]⟩

theorem Performs.forM {f : BytecodeBundleModule → Loader H V R Unit} (hf : ∀ m, Performs (f m))
    (modules : List BytecodeBundleModule) : Performs (modules.forM f) := by
  induction modules with
  | nil => exact fun rt ↦ ⟨[], rfl⟩
  | cons m modules ih => exact (hf m).bind fun _ ↦ ih

theorem indexModule_performs : Performs (indexModule host m) := by
  intro rt
  rw [indexModule]
  split
  · exact ⟨[], rfl⟩
  · split_ifs
    · exact ⟨[.setLoadState (canonicalResourceName m.resource) .unloaded], rfl⟩
    · exact ⟨[], rfl⟩
    · exact ⟨[], rfl⟩

theorem loadBytecodeResource_performs {name : String} :
    Performs (loadBytecodeResource host name) := by
  intro rt
  rw [loadBytecodeResource]
  dsimp only
  split
  · exact ⟨[], rfl⟩
  · split
    · exact ⟨_, rfl⟩
    · -- the operations of the namespace, then those that save it
      exact ⟨_ ++ _, Kernel.World.run_append⟩

theorem loadEager_performs : Performs (loadEager host m) := by
  intro rt
  obtain ⟨ops, hops⟩ := loadBytecodeResource_performs host rt
  rw [loadEager]
  cases h : loadBytecodeResource host m.resource rt with
  | error error rt' | ok text rt' =>
    rw [h] at hops
    exact ⟨ops, hops⟩

theorem loadModules_performs {modules : List BytecodeBundleModule} :
    Performs (loadModules host modules) := by
  apply (Performs.forM (indexModule_performs host) modules).bind
  intro _
  apply (Performs.forM (loadEager_performs host) _).bind
  intro _ rt
  exact ⟨_, rfl⟩

/-! ## Failure -/

/-- A load that fails has either not begun, or is rolled back. -/
theorem evalBytecodeBundle_error {host : Host H V R P} {bytes : List UInt8} {rt rt' : Runtime H V R}
    {error : String} (h : evalBytecodeBundle host bytes rt = .error error rt') :
    (bundleModules host bytes = .error error ∧ rt' = rt) ∨
      ∃ modules after, bundleModules host bytes = .ok modules ∧
        loadModules host modules rt = .error error after ∧ rt' = after.rollback rt := by
  rw [evalBytecodeBundle] at h
  cases hm : bundleModules host bytes with
  | error error' =>
    rw [hm] at h
    cases h
    exact .inl ⟨rfl, rfl⟩
  | ok modules =>
    rw [hm] at h
    dsimp only at h
    cases hl : loadModules host modules rt with
    | error error' after =>
      rw [hl] at h
      cases h
      exact .inr ⟨modules, after, rfl, hl, rfl⟩
    | ok u after =>
      rw [hl] at h
      cases h

/-- Restoring a snapshot after any operations brings back what could be observed exactly when the
snapshot was recoverable, and a failed load of a bundle, which performs some operations and then
restores, leaves the namespaces as they were on the same condition. -/
theorem rollback_iff (host : Host H V R P) :
    (∀ (w : Kernel.World H V) (ops : List (Op H V)),
      Restored w ((w.run ops).restore w.snapshot) ↔ Recoverable w (w.run ops)) ∧
    ∀ (rt rt' : Runtime H V R) (bytes : List UInt8) (error : String),
      evalBytecodeBundle host bytes rt = .error error rt' →
        (bundleModules host bytes = .error error ∧ rt' = rt) ∨
        ∃ modules ops, bundleModules host bytes = .ok modules ∧
          (final (loadModules host modules rt)).world = rt.world.run ops ∧
          (Restored rt.world rt'.world ↔ Recoverable rt.world (rt.world.run ops)) := by
  refine ⟨fun w ops ↦ restored_iff, ?_⟩
  intro rt rt' bytes error h
  rcases evalBytecodeBundle_error h with hearly | ⟨modules, after, hmodules, hload, rfl⟩
  · exact .inl hearly
  · obtain ⟨ops, hops⟩ := loadModules_performs host rt
    refine .inr ⟨modules, ops, hmodules, hops, ?_⟩
    have hworld : after.world = rt.world.run ops := by
      rw [hload] at hops
      exact hops
    rw [← hworld]
    exact restored_iff

/-- A host whose digest is constant and whose namespaces all fail to load after one of their Vars
has been given a value. -/
def failingHost : Host Unit ℕ Unit Unit where
  sha256 _ := ⟨List.replicate 32 0, length_zeros⟩
  decodeProgram _ := .ok ()
  catalogPath _ := none
  readToString _ := .error "no such file"
  requireNamespace _ _ _ := ⟨[.internVar ⟨0, "user"⟩ "x" 7 none], (), .error "failed"⟩
  saveNamespace _ _ := ([], ())
  useNamespace _ _ _ := ([], ())

/-- A bundle with the eager module `a`. -/
def eagerBundle : List UInt8 :=
  magic ++ (List.replicate 32 0 ++ ([1, 0, 0, 0] ++ ([1, 0, 0, 0, 97] ++ ([1, 0, 0, 0, 97] ++
    (List.replicate 32 0 ++ ([0, 0, 0, 0] ++ ([1] ++ [0, 0, 0, 0])))))))

/-- The registry with the Var `user/x`, whose root is 1. -/
def userWorld : Kernel.World Unit ℕ :=
  (Kernel.World.new ⟨0, {}, none⟩ "user").run [.internVar ⟨0, "user"⟩ "x" 1 none]

def userRuntime : Runtime Unit ℕ Unit := ⟨userWorld, [], [], [], ()⟩

theorem rollback_iff_eagerBundle :
    ∃ error rt', evalBytecodeBundle failingHost eagerBundle userRuntime = .error error rt' ∧
      ((bundleModules failingHost eagerBundle = .error error ∧ rt' = userRuntime) ∨
        ∃ modules ops, bundleModules failingHost eagerBundle = .ok modules ∧
          (final (loadModules failingHost modules userRuntime)).world = userWorld.run ops ∧
          (Restored userWorld rt'.world ↔ Recoverable userWorld (userWorld.run ops))) := by
  cases h : evalBytecodeBundle failingHost eagerBundle userRuntime with
  | ok u rt' =>
    have hfails : (match evalBytecodeBundle failingHost eagerBundle userRuntime with
      | .ok _ _ => false
      | .error error _ => error = "a: failed") = true := by decide +kernel
    rw [h] at hfails
    exact Bool.noConfusion hfails
  | error error rt' =>
    exact ⟨error, rt', rfl, (rollback_iff failingHost).2 userRuntime rt' eagerBundle error h⟩

/-- The same registry, with `user/x` bound to 2. -/
def boundWorld : Kernel.World Unit ℕ := userWorld.run [.bind ⟨0, "user/x"⟩ 2]

/-- The same registry, where `user/x` has got a contract. -/
def contractWorld : Kernel.World Unit ℕ := userWorld.run [.setSchemaContract ⟨0, "user/x"⟩ (some 3)]

/-- With `user/x` bound to 2, restoring a snapshot at once makes 2 its root; and a contract set
after the snapshot stays. -/
theorem restore_keeps_binding_and_contract :
    ((boundWorld.vars 0).value = 1 ∧
      ((boundWorld.restore boundWorld.snapshot).vars 0).value = 2 ∧
      ¬ Restored boundWorld (boundWorld.restore boundWorld.snapshot)) ∧
    ((userWorld.vars 0).schemaContract = none ∧
      ((contractWorld.restore userWorld.snapshot).vars 0).schemaContract = some 3 ∧
      ¬ Restored userWorld (contractWorld.restore userWorld.snapshot)) := by
  refine ⟨⟨by decide +kernel, by decide +kernel, ?_⟩, by decide +kernel, by decide +kernel, ?_⟩
  · intro h
    exact absurd (h.vars 0 (by decide +kernel)).value (by decide +kernel)
  · intro h
    exact absurd (h.vars 0 (by decide +kernel)).schemaContract (by decide +kernel)

end Hara.Bundle
