import Hara.Kernel.Namespace
import Hara.Lib.Writes

/-!
# Rolling back to a snapshot

`restore` undoes what happened since `snapshot`, but only in the cells the snapshot knows about:
the namespaces that were registered and the Vars they mapped. Of such a Var it writes the value and
the metadata. The value is the one `deref_value` gave, which under a dynamic binding is not the
root, and the schema contract is not saved at all. `restored_iff` says exactly when the world after
`restore` looks as it did at the snapshot.

Tables are compared by what they answer and sets by their members, since that is all a hash map or
a hash set shows.
-/

namespace Hara.Kernel

open Hara.Lib

variable {H V : Type}

/-! ## What can be observed -/

/-- The tables give the same answers. -/
def Table.Same {β : Type} (t t' : Table β) : Prop := ∀ k, t.get k = t'.get k

theorem Table.Same.refl {β : Type} (t : Table β) : t.Same t := fun _ ↦ rfl

/-- The metadata are the same. -/
structure VarMetadata.Same (m m' : VarMetadata H) : Prop where
  fields : { m with extra := [] } = { m' with extra := [] }
  extra : m.extra.Same m'.extra

theorem VarMetadata.Same.refl (m : VarMetadata H) : m.Same m := ⟨rfl, Table.Same.refl _⟩

/-- The root value, the metadata and the schema contract are the same. -/
structure VarCell.Same (c c' : VarCell H V) : Prop where
  value : c.value = c'.value
  metadata : c.metadata.Same c'.metadata
  schemaContract : c.schemaContract = c'.schemaContract

/-- The sets of names have the same members. -/
def SameNames (names names' : List String) : Prop := ∀ name, name ∈ names ↔ name ∈ names'

/-- Everything in the cells of a namespace is the same. -/
structure NamespaceCell.Same (c c' : NamespaceCell) : Prop where
  mappings : c.mappings.Same c'.mappings
  aliases : c.aliases.Same c'.aliases
  lazyAliases : c.lazyAliases.Same c'.lazyAliases
  imports : c.imports.Same c'.imports
  nativeFlavor : c.nativeFlavor = c'.nativeFlavor
  role : c.role = c'.role
  foundationExposed : Option.Rel SameNames c.foundationExposed c'.foundationExposed
  foundationExcluded : SameNames c.foundationExcluded c'.foundationExcluded

theorem SameNames.refl (names : List String) : SameNames names names := fun _ ↦ Iff.rfl

theorem NamespaceCell.Same.refl (c : NamespaceCell) : c.Same c where
  mappings := Table.Same.refl _
  aliases := Table.Same.refl _
  lazyAliases := Table.Same.refl _
  imports := Table.Same.refl _
  nativeFlavor := rfl
  role := rfl
  foundationExposed := by
    cases c.foundationExposed with
    | none => exact .none
    | some names => exact .some (SameNames.refl names)
  foundationExcluded := SameNames.refl _

/-- The registry, and every namespace and Var that existed in `w`, are in `w'` as they were. -/
structure Restored (w w' : World H V) : Prop where
  registry : w'.registry = w.registry
  cells : ∀ n < w.nextNamespace, (w'.cells n).Same (w.cells n)
  vars : ∀ v < w.nextVar, (w'.vars v).Same (w.vars v)

variable (w : World H V) {w' : World H V}

/-- The namespace is in the registry. -/
def Registered (n : ℕ) : Prop := ∃ e ∈ w.registry.namespaces, e.2.id = n

/-- The Var is mapped in a namespace of the registry. -/
def Mapped (v : ℕ) : Prop :=
  ∃ e ∈ w.registry.namespaces, ∃ m ∈ (w.cells e.2.id).mappings, m.2.id = v

instance (w : World H V) (n : ℕ) : Decidable (Registered w n) :=
  inferInstanceAs (Decidable (∃ e ∈ w.registry.namespaces, e.2.id = n))

instance (w : World H V) (v : ℕ) : Decidable (Mapped w v) :=
  inferInstanceAs (Decidable
    (∃ e ∈ w.registry.namespaces, ∃ m ∈ (w.cells e.2.id).mappings, m.2.id = v))

/-! ## The writes of a restore -/

/-- The value and the metadata that `restore` writes. -/
def VarCell.put (value : V) (metadata : VarMetadata H) (cell : VarCell H V) : VarCell H V :=
  { cell with value, metadata }

/-- What `restore` writes to the Vars of a namespace. -/
def NamespaceSnapshot.varWrites (saved : NamespaceSnapshot H V) :
    List (ℕ × (VarCell H V → VarCell H V)) :=
  saved.mappings.map fun e ↦ (e.2.1.id, VarCell.put e.2.2.1 e.2.2.2)

/-- The cells that `restore` gives a namespace. -/
def NamespaceSnapshot.cell (saved : NamespaceSnapshot H V) : NamespaceCell where
  mappings := saved.mappings.map fun (name, var, _, _) ↦ (name, var)
  aliases := saved.aliases
  lazyAliases := saved.lazyAliases
  imports := saved.imports
  nativeFlavor := saved.nativeFlavor
  role := saved.role
  foundationExposed := saved.foundationExposed
  foundationExcluded := saved.foundationExcluded

namespace World

theorem restoreVar_eq (saved : Symbol × Var × V × VarMetadata H) :
    w.restoreVar saved = w.setVar saved.2.1.id (VarCell.put saved.2.2.1 saved.2.2.2) := by
  simp [restoreVar, resetValue, setMetadata, setVar, VarCell.put]

/-- The inner loop writes to Vars and to nothing else. -/
theorem foldl_restoreVar (saved : Table (Var × V × VarMetadata H)) :
    saved.foldl restoreVar w = { w with
      vars := writeAll w.vars (saved.map fun e ↦ (e.2.1.id, VarCell.put e.2.2.1 e.2.2.2)) } := by
  induction saved generalizing w with
  | nil => rfl
  | cons e saved ih =>
    rw [List.foldl_cons, ih, restoreVar_eq]
    rfl

theorem restoreNamespace_eq (saved : NamespaceSnapshot H V) : w.restoreNamespace saved = { w with
      vars := writeAll w.vars saved.varWrites
      cells := writeAll w.cells [(saved.ns.id, fun _ ↦ saved.cell)] } := by
  rw [restoreNamespace, foldl_restoreVar]
  rfl

/-- The outer loop writes to Vars and to the cells of namespaces. -/
theorem foldl_restoreNamespace (saved : List (NamespaceSnapshot H V)) :
    saved.foldl restoreNamespace w = { w with
      vars := writeAll w.vars (saved.flatMap (·.varWrites))
      cells := writeAll w.cells (saved.map fun s ↦ (s.ns.id, fun _ ↦ s.cell)) } := by
  induction saved generalizing w with
  | nil => rfl
  | cons s saved ih =>
    rw [List.foldl_cons, ih, restoreNamespace_eq, List.flatMap_cons, writeAll_append]
    rfl

/-! ## Restoring a snapshot of a world -/

theorem namespaceSnapshot_cell (ns : Namespace) :
    (w.namespaceSnapshot ns).cell = w.cells ns.id := by
  simp [namespaceSnapshot, NamespaceSnapshot.cell, Function.comp_def]

/-- The snapshots of the registered namespaces. -/
theorem snapshot_namespaces_snd : w.snapshot.namespaces.map (·.2) =
      w.registry.namespaces.map fun e ↦ w.namespaceSnapshot e.2 := by
  simp [snapshot, Function.comp_def]

theorem restore_registry {w : World H V} : (w'.restore w.snapshot).registry = w.registry := by
  simp [restore, restoreRegistry, snapshot, registrySnapshot, namespaceSnapshot, Function.comp_def]

theorem restore_vars (w w' : World H V) :
    (w'.restore w.snapshot).vars = writeAll w'.vars
      (w.registry.namespaces.flatMap fun e ↦ (w.namespaceSnapshot e.2).varWrites) := by
  simp only [restore, restoreRegistry]
  rw [snapshot_namespaces_snd, foldl_restoreNamespace, List.flatMap_map]

theorem restore_cells (w w' : World H V) :
    (w'.restore w.snapshot).cells = writeAll w'.cells
      (w.registry.namespaces.map fun e ↦ (e.2.id, fun _ ↦ w.cells e.2.id)) := by
  simp only [restore]
  rw [snapshot_namespaces_snd, foldl_restoreNamespace, List.map_map]
  simp only [Function.comp_def, namespaceSnapshot_cell]
  rfl

/-- A write of the restore is for a mapped Var, with its value and metadata at the snapshot. -/
theorem mem_varWrites {w : World H V} {x : ℕ × (VarCell H V → VarCell H V)} :
    x ∈ (w.registry.namespaces.flatMap fun e ↦ (w.namespaceSnapshot e.2).varWrites) ↔
      ∃ e ∈ w.registry.namespaces, ∃ m ∈ (w.cells e.2.id).mappings,
        x = (m.2.id, VarCell.put (w.derefValue m.2) (w.vars m.2.id).metadata) := by
  simp only [List.mem_flatMap, NamespaceSnapshot.varWrites, namespaceSnapshot, List.map_map,
    List.mem_map, Function.comp_apply, eq_comm]

theorem restore_cells_of_registered {w : World H V} {n : ℕ} (h : Registered w n) :
    (w'.restore w.snapshot).cells n = w.cells n := by
  rw [restore_cells]
  obtain ⟨e, he, hn⟩ := h
  apply writeAll_of_agree (g := fun _ ↦ w.cells n) (fun _ ↦ rfl)
  · exact ⟨_, List.mem_map_of_mem he, hn⟩
  · intro x hx hk
    obtain ⟨e', _, rfl⟩ := List.mem_map.mp hx
    rw [← hk]

theorem restore_cells_of_not_registered {w : World H V} {n : ℕ} (h : ¬ Registered w n) :
    (w'.restore w.snapshot).cells n = w'.cells n := by
  rw [restore_cells]
  apply writeAll_of_forall_ne
  intro x hx hk
  obtain ⟨e, he, rfl⟩ := List.mem_map.mp hx
  exact h ⟨e, he, hk⟩

/-- A mapped Var gets the value it had for readers, which may be a dynamic binding, and its
metadata; its contract is what it has become. -/
theorem restore_vars_of_mapped {w : World H V} (w' : World H V) (var : Var)
    (h : Mapped w var.id) : (w'.restore w.snapshot).vars var.id =
      (w'.vars var.id).put (w.derefValue var) (w.vars var.id).metadata := by
  rw [restore_vars]
  obtain ⟨e, he, m, hm, hv⟩ := h
  apply writeAll_of_agree (g := VarCell.put (w.derefValue var) (w.vars var.id).metadata)
    (fun _ ↦ rfl)
  · exact ⟨_, mem_varWrites.mpr ⟨e, he, m, hm, rfl⟩, hv⟩
  · intro x hx hk
    obtain ⟨_, _, m', _, rfl⟩ := mem_varWrites.mp hx
    -- references with one identity read the same cells and the same bindings
    dsimp only at hk ⊢
    rw [derefValue, derefValue, hk]

theorem restore_vars_of_not_mapped {w : World H V} {v : ℕ} (h : ¬ Mapped w v) :
    (w'.restore w.snapshot).vars v = w'.vars v := by
  rw [restore_vars]
  apply writeAll_of_forall_ne
  intro x hx hk
  obtain ⟨e, he, m, hm, rfl⟩ := mem_varWrites.mp hx
  exact h ⟨e, he, m, hm, hk⟩

end World

/-! ## When a restore is complete -/

/-- The condition under which restoring the snapshot of `w` in `w'` brings back `w`. -/
structure Recoverable (w w' : World H V) : Prop where
  /-- A saved Var showed its root at the snapshot, and its contract has not changed. -/
  mapped : ∀ var : Var, var.id < w.nextVar → Mapped w var.id →
    w.derefValue var = (w.vars var.id).value ∧
      (w'.vars var.id).schemaContract = (w.vars var.id).schemaContract
  /-- A Var that was not saved has not changed. -/
  unmapped : ∀ v < w.nextVar, ¬ Mapped w v → (w'.vars v).Same (w.vars v)
  /-- A namespace that was not saved has not changed. -/
  unregistered : ∀ n < w.nextNamespace, ¬ Registered w n → (w'.cells n).Same (w.cells n)

theorem restored_iff {w : World H V} : Restored w (w'.restore w.snapshot) ↔ Recoverable w w' := by
  constructor
  · intro h
    refine ⟨?_, ?_, ?_⟩
    · intro var hlt hmap
      have hsame := h.vars var.id hlt
      rw [World.restore_vars_of_mapped w' var hmap] at hsame
      exact ⟨hsame.value, hsame.schemaContract⟩
    · intro v hlt hmap
      rw [← World.restore_vars_of_not_mapped hmap]
      exact h.vars v hlt
    · intro n hlt hreg
      rw [← World.restore_cells_of_not_registered hreg]
      exact h.cells n hlt
  · intro h
    refine ⟨World.restore_registry, ?_, ?_⟩
    · intro n hlt
      by_cases hreg : Registered w n
      · rw [World.restore_cells_of_registered hreg]
        exact NamespaceCell.Same.refl _
      · rw [World.restore_cells_of_not_registered hreg]
        exact h.unregistered n hlt hreg
    · intro v hlt
      by_cases hmap : Mapped w v
      · -- any reference with this identity will do
        obtain ⟨hvalue, hcontract⟩ := h.mapped ⟨v, ""⟩ hlt hmap
        have hcell := World.restore_vars_of_mapped w' ⟨v, ""⟩ hmap
        rw [hcell]
        exact ⟨hvalue, VarMetadata.Same.refl _, hcontract⟩
      · rw [World.restore_vars_of_not_mapped hmap]
        exact h.unmapped v hlt hmap

end Hara.Kernel
