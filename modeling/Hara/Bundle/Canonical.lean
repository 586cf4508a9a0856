import Hara.Bundle.Container
import Hara.Lib.SortBy

/-!
# The container is canonical

The order of `canonical_modules` is the least one in which every module comes after its
dependencies. There is one exactly for well-formed modules, and it does not depend on how the
modules and their dependencies were given.
-/

namespace Hara.Bundle

open Codec Except
open List hiding le_antisymm le_of_lt le_total le_trans lt_trans not_le

variable {modules modules' ordered byResource : List BytecodeBundleModule}
  {m m' : BytecodeBundleModule} {texts : List String}

/-! ## Sorted names -/

theorem anyAdjacent_eq_false {α : Type} {p : α → α → Bool} {l : List α} :
    anyAdjacent p l = false ↔ l.IsChain fun a b ↦ p a b = false := by
  induction l with
  | nil => simp [anyAdjacent]
  | cons a l ih =>
    cases l with
    | nil => simp [anyAdjacent]
    | cons b l => rw [anyAdjacent, Bool.or_eq_false_iff, ih, isChain_cons_cons]

/-- Strings in strictly ascending order. -/
def Ascending (texts : List String) : Prop := texts.Pairwise fun a b ↦ key a < key b

instance : Trans (fun a b ↦ key a < key b) (fun a b ↦ key a < key b) fun a b ↦ key a < key b :=
  ⟨fun hab hbc ↦ lt_trans hab hbc⟩

theorem anyAdjacent_le_eq_false :
    anyAdjacent (fun a b ↦ decide (key b ≤ key a)) texts = false ↔ Ascending texts := by
  rw [anyAdjacent_eq_false, Ascending, ← isChain_iff_pairwise]
  simp only [decide_eq_false_iff_not, not_le]

theorem perm_sortStrings : (sortStrings texts).Perm texts := Lib.sortBy_perm key texts

theorem ascending_sortStrings : Ascending (sortStrings texts) ↔ texts.Nodup := by
  constructor
  · exact fun h ↦ perm_sortStrings.nodup_iff.mp ((Lib.Ascending.nodup h).of_map key)
  · exact fun h ↦ Lib.ascending_sortBy (h.map key_injective)

/-- A repeated dependency is seen once the dependencies are sorted. -/
theorem anyAdjacent_sortStrings :
    anyAdjacent (· == ·) (sortStrings texts) = false ↔ texts.Nodup := by
  rw [anyAdjacent_eq_false, ← ascending_sortStrings]
  simp only [beq_eq_false_iff_ne]
  constructor
  · intro h
    exact Lib.ascending_of_isChain Lib.pairwise_sortBy (h.imp fun _ _ hne ↦ key_injective.ne hne)
  · exact fun h ↦ (Lib.Ascending.isChain h).imp fun _ _ hne heq ↦ hne (congrArg key heq)

/-! ## The two loops of `canonical_modules` -/

/-- Modules in the order of their names. -/
abbrev SortedModules (l : List BytecodeBundleModule) : Prop :=
  LeastFirst.Sorted (fun m ↦ key m.resource) l

theorem SortedModules.orderedInsert (h : SortedModules byResource)
    (hm : m.resource ∉ byResource.map (·.resource)) :
    SortedModules (byResource.orderedInsert (fun a b ↦ key a.resource ≤ key b.resource) m) := by
  refine Lib.Ascending.orderedInsert h fun hmem ↦ hm ?_
  obtain ⟨m', hm', hkey⟩ := mem_map.mp hmem
  exact mem_map.mpr ⟨m', hm', key_injective hkey⟩

/-- The first loop sorts the modules by name. -/
theorem collectModules_eq_ok (h : SortedModules byResource) :
    collectModules modules byResource = .ok ordered →
      ordered.Perm (byResource ++ modules) ∧ SortedModules ordered ∧
      ∀ m ∈ modules, m.dependencies.Nodup := by
  induction modules generalizing byResource with
  | nil =>
    intro hok
    cases hok
    exact ⟨.of_eq (append_nil _).symm, h, nofun⟩
  | cons m modules ih =>
    intro hok
    simp only [collectModules, bind_eq_ok, ensure_eq_ok] at hok
    obtain ⟨_, hfresh, _, hdependencies, hok⟩ := hok
    obtain ⟨hperm, hsorted, hrest⟩ := ih (h.orderedInsert hfresh) hok
    refine ⟨hperm.trans ?_, hsorted, ?_⟩
    · exact ((perm_orderedInsert _ m byResource).append_right modules).trans perm_middle.symm
    · exact forall_mem_cons.mpr ⟨anyAdjacent_sortStrings.mp hdependencies, hrest⟩

theorem exists_collectModules (h : SortedModules byResource)
    (hnodup : ((byResource ++ modules).map (·.resource)).Nodup)
    (hdependencies : ∀ m ∈ modules, m.dependencies.Nodup) :
    ∃ ordered, collectModules modules byResource = .ok ordered := by
  induction modules generalizing byResource with
  | nil => exact ⟨byResource, rfl⟩
  | cons m modules ih =>
    obtain ⟨hm, hrest⟩ := forall_mem_cons.mp hdependencies
    have hfresh : m.resource ∉ byResource.map (·.resource) := by
      rw [map_append, nodup_append] at hnodup
      exact fun hmem ↦ hnodup.2.2 _ hmem _ (mem_map.mpr ⟨m, mem_cons_self, rfl⟩) rfl
    have hperm : ((byResource.orderedInsert (fun a b ↦ key a.resource ≤ key b.resource) m) ++
        modules).Perm (byResource ++ m :: modules) :=
      ((perm_orderedInsert _ m byResource).append_right modules).trans perm_middle.symm
    obtain ⟨ordered, hordered⟩ := ih (h.orderedInsert hfresh)
      ((hperm.map _).nodup_iff.mpr hnodup) hrest
    simp only [collectModules, bind_eq_ok, ensure_eq_ok]
    exact ⟨ordered, (), hfresh, (), anyAdjacent_sortStrings.mpr hm, hordered⟩

/-- No module depends on itself, directly or through others. -/
abbrev Acyclic (l : List BytecodeBundleModule) : Prop :=
  LeastFirst.Acyclic (·.resource) (·.dependencies) l

/-- Every module comes after its dependencies. -/
abbrev Topological (l : List BytecodeBundleModule) : Prop :=
  LeastFirst.Topological (·.resource) (·.dependencies) l

theorem mem_map_key {text : String} : key text ∈ texts.map key ↔ text ∈ texts :=
  mem_map_of_injective key_injective

theorem acyclic_key :
    LeastFirst.Acyclic (fun m ↦ key m.resource) (fun m ↦ m.dependencies.map key) modules ↔
      Acyclic modules := by
  have hdepends : LeastFirst.Depends (fun m ↦ key m.resource) (fun m ↦ m.dependencies.map key)
      modules = LeastFirst.Depends (·.resource) (·.dependencies) modules := by
    funext a b
    simp only [LeastFirst.Depends, mem_map_key]
  simp only [LeastFirst.Acyclic, hdepends]

theorem topological_key :
    LeastFirst.Topological (fun m ↦ key m.resource) (fun m ↦ m.dependencies.map key) modules ↔
      Topological modules := by
  induction modules with
  | nil => rfl
  | cons m modules ih =>
    simp only [LeastFirst.Topological, LeastFirst.Available, mem_map_key]
    exact and_congr_right fun _ ↦ ih

/-- The result is the least order of the modules, and their dependencies are sorted. -/
structure LeastOrder (modules ordered : List BytecodeBundleModule) : Prop where
  perm : ordered.Perm (modules.map (·.sorted))
  topological : Topological ordered
  least : ∀ l, l.Perm (modules.map (·.sorted)) → Topological l →
    ¬ List.Lex (· < ·) (l.map (key ·.resource)) (ordered.map (key ·.resource))

theorem LeastOrder.congr (h : LeastOrder modules ordered)
    (hperm : (modules.map (·.sorted)).Perm (modules'.map (·.sorted))) :
    LeastOrder modules' ordered where
  perm := h.perm.trans hperm
  topological := h.topological
  least l hl := h.least l (hl.trans hperm.symm)

/-- The second loop takes the least order. -/
theorem orderModules_eq_ok (h : SortedModules byResource)
    (hok : orderModules byResource = .ok ordered) : LeastOrder byResource ordered := by
  have hname (m : BytecodeBundleModule) : key m.sorted.resource = key m.resource := rfl
  have hdeps (m : BytecodeBundleModule) (k : Key) :
      k ∈ m.sorted.dependencies.map key ↔ k ∈ m.dependencies.map key :=
    (perm_sortStrings.map key).mem_iff
  rw [orderModules] at hok
  split at hok
  · cases hok
  next l hl =>
    cases hok
    -- the loop treats a module and the module with its dependencies sorted alike
    have horder : LeastFirst.order (fun m ↦ key m.resource) (fun m ↦ m.dependencies.map key)
        byResource.length (byResource.map (·.sorted)) =
          (LeastFirst.order (fun m ↦ key m.resource) (fun m ↦ m.dependencies.map key)
            byResource.length byResource).map (List.map (·.sorted)) := by
      apply LeastFirst.order_map
      · exact hname
      · exact hdeps
    rw [hl] at horder
    have hsorted : SortedModules (byResource.map (·.sorted)) := pairwise_map.mpr h
    obtain ⟨hperm, htopological, hleast⟩ := LeastFirst.order_spec hsorted horder
    exact ⟨hperm, topological_key.mp htopological,
      fun l' hl' htop ↦ hleast l' hl' (topological_key.mpr htop)⟩

theorem exists_orderModules (h : SortedModules byResource) :
    (∃ ordered, orderModules byResource = .ok ordered) ↔ Acyclic byResource := by
  rw [← acyclic_key, ← LeastFirst.exists_order_iff h]
  constructor
  · rintro ⟨ordered, hok⟩
    rw [orderModules] at hok
    split at hok
    · cases hok
    next l hl => exact ⟨l, hl⟩
  · rintro ⟨l, hl⟩
    refine ⟨l.map (·.sorted), ?_⟩
    rw [orderModules, hl]

/-! ## Validation -/

theorem validateModules_eq_ok {seen : List String} :
    validateModules seen modules = .ok () ↔
      (∀ m ∈ modules, m.resource ≠ "" ∧ m.namespaceForm ≠ "" ∧ Ascending m.dependencies) ∧
      (modules.map (·.resource)).Nodup ∧ ∀ m ∈ modules, m.resource ∉ seen := by
  induction modules generalizing seen with
  | nil => simp [validateModules]
  | cons m modules ih =>
    simp only [validateModules, bind_eq_ok, ensure_eq_ok, anyAdjacent_le_eq_false, ih,
      forall_mem_cons, map_cons, nodup_cons]
    simp only [mem_cons, not_or]
    constructor
    · rintro ⟨-, hresource, -, hform, -, hseen, -, hascending, hrest, hnodup, hfresh⟩
      refine ⟨⟨⟨hresource, hform, hascending⟩, hrest⟩, ⟨?_, hnodup⟩, hseen,
        fun m' hm' ↦ (hfresh m' hm').2⟩
      intro hmem
      obtain ⟨m', hm', hname⟩ := mem_map.mp hmem
      exact (hfresh m' hm').1 hname
    · rintro ⟨⟨⟨hresource, hform, hascending⟩, hrest⟩, ⟨hnew, hnodup⟩, hseen, hfresh⟩
      refine ⟨(), hresource, (), hform, (), hseen, (), hascending, hrest, hnodup, ?_⟩
      refine fun m' hm' ↦ ⟨fun hname ↦ hnew ?_, hfresh m' hm'⟩
      exact mem_map.mpr ⟨m', hm', hname⟩

/-- Modules that come after their dependencies pass the second loop. -/
theorem validateDependencies_of_topological (h : Topological modules) {index : ℕ}
    (hm : modules[index]? = some m) :
    validateDependencies (modules.map (·.resource)) index m = .ok () := by
  rw [validateDependencies, forM_eq_ok]
  intro dependency hdependency
  rw [ensure_eq_ok, Option.any_eq_false]
  intro position hposition
  obtain ⟨hlt, hname, -⟩ := idxOf?_eq_some_iff.mp hposition
  rw [getElem_map] at hname
  rw [decide_eq_false_iff_not]
  intro hle
  have hlt' : position < modules.length := by simpa using hlt
  refine h.of_getElem? hle hm (getElem?_eq_getElem hlt') ?_
  rw [hname]
  exact hdependency

theorem validateBundleModules_of_topological (h : Topological modules)
    (hmodules : ∀ m ∈ modules, m.resource ≠ "" ∧ m.namespaceForm ≠ "" ∧ Ascending m.dependencies)
    (hnodup : (modules.map (·.resource)).Nodup) : validateBundleModules modules = .ok () := by
  rw [validateBundleModules, bind_eq_ok]
  refine ⟨(), validateModules_eq_ok.mpr ⟨hmodules, hnodup, fun _ _ ↦ nofun⟩, ?_⟩
  rw [forM_eq_ok]
  rintro ⟨m, index⟩ hmem
  exact validateDependencies_of_topological h (mem_zipIdx_iff_getElem?.mp hmem)

/-- Every module comes after the ones of the bundle that it depends on, no name or namespace form is
empty, the dependencies of each module are sorted without repetition, and no name is repeated. -/
def Accepted (modules : List BytecodeBundleModule) : Prop :=
  Topological modules ∧
    (∀ m ∈ modules, m.resource ≠ "" ∧ m.namespaceForm ≠ "" ∧ Ascending m.dependencies) ∧
    (modules.map (·.resource)).Nodup

theorem accepted_of_validate (h : validateBundleModules modules = .ok ()) : Accepted modules := by
  rw [validateBundleModules, bind_eq_ok] at h
  obtain ⟨_, hvalid, hdependencies⟩ := h
  obtain ⟨hnamed, hnodup, -⟩ := validateModules_eq_ok.mp hvalid
  refine ⟨.of_forall_getElem? fun i j m m' hij hm hm' hmem ↦ ?_, hnamed, hnodup⟩
  have hchecked := forM_eq_ok.mp hdependencies (m, i) (mem_zipIdx_iff_getElem?.mpr hm)
  have hfirst := ensure_eq_ok.mp (forM_eq_ok.mp hchecked _ hmem)
  -- the names are distinct, so the position that is found is that of the dependency
  cases hp : (modules.map (·.resource)).idxOf? m'.resource with
  | none => exact idxOf?_eq_none_iff.mp hp (mem_map_of_mem (mem_of_getElem? hm'))
  | some p =>
    obtain ⟨hlt, hname, -⟩ := idxOf?_eq_some_iff.mp hp
    obtain rfl : p = j := by
      refine (getElem?_inj hlt hnodup).mp ?_
      rw [getElem?_eq_getElem hlt, hname, getElem?_map, hm']
      rfl
    simp [hp, hij] at hfirst

/-! ## Canonical modules -/

/-- What `canonical_modules` asks for. -/
structure WellFormed (modules : List BytecodeBundleModule) : Prop where
  named : ∀ m ∈ modules, m.resource ≠ "" ∧ m.namespaceForm ≠ ""
  distinct : (modules.map (·.resource)).Nodup
  dependencies : ∀ m ∈ modules, m.dependencies.Nodup
  acyclic : Acyclic modules

theorem resource_map_sorted : (modules.map (·.sorted)).map (·.resource) =
    modules.map (·.resource) := by
  rw [map_map]
  rfl

theorem LeastOrder.resource_perm (h : LeastOrder modules ordered) :
    (ordered.map (·.resource)).Perm (modules.map (·.resource)) :=
  (h.perm.map _).trans (.of_eq resource_map_sorted)

theorem nodup_key : (modules.map (key ·.resource)).Nodup ↔ (modules.map (·.resource)).Nodup := by
  have hmap : modules.map (key ·.resource) = (modules.map (·.resource)).map key := by
    rw [map_map]
    rfl
  rw [hmap, nodup_map_iff key_injective]

theorem LeastOrder.unique (h : LeastOrder modules ordered) {ordered' : List BytecodeBundleModule}
    (h' : LeastOrder modules ordered') (hnodup : (modules.map (·.resource)).Nodup) :
    ordered = ordered' := by
  have hkeys : (ordered.map (key ·.resource)).Nodup :=
    nodup_key.mpr (h.resource_perm.nodup_iff.mpr hnodup)
  exact LeastFirst.eq_of_not_lex hkeys (h.perm.trans h'.perm.symm)
    (h'.least _ h.perm h.topological) (h.least _ h'.perm h'.topological)

theorem canonicalModules_eq_ok (h : canonicalModules modules = .ok ordered) :
    WellFormed modules ∧ LeastOrder modules ordered ∧
      validateBundleModules ordered = .ok () := by
  simp only [canonicalModules, bind_eq_ok] at h
  obtain ⟨byResource, hcollect, ordered', horder, _, hvalidate, h⟩ := h
  cases h
  obtain ⟨hperm, hsorted, hdependencies⟩ := collectModules_eq_ok .nil hcollect
  have hleast := orderModules_eq_ok hsorted horder
  have hacyclic := (exists_orderModules hsorted).mp ⟨ordered, horder⟩
  have hmodules : ∀ m ∈ modules, m ∈ byResource := fun m hm ↦ hperm.mem_iff.mpr hm
  refine ⟨⟨fun m hm ↦ ?_, ?_, hdependencies, hacyclic.of_subset hmodules⟩,
    hleast.congr (hperm.map _), hvalidate⟩
  · have hmem : m.sorted ∈ ordered := hleast.perm.mem_iff.mpr (mem_map_of_mem (hmodules m hm))
    rw [validateBundleModules, bind_eq_ok] at hvalidate
    obtain ⟨_, hvalidate, -⟩ := hvalidate
    obtain ⟨hresource, hform, -⟩ := (validateModules_eq_ok.mp hvalidate).1 m.sorted hmem
    exact ⟨hresource, hform⟩
  · exact (hperm.map _).nodup_iff.mp (nodup_key.mp hsorted.nodup)

theorem WellFormed.exists_canonicalModules (h : WellFormed modules) :
    ∃ ordered, canonicalModules modules = .ok ordered := by
  obtain ⟨byResource, hcollect⟩ := exists_collectModules .nil h.distinct h.dependencies
  obtain ⟨hperm, hsorted, -⟩ := collectModules_eq_ok .nil hcollect
  have hacyclic : Acyclic byResource := h.acyclic.of_subset fun m hm ↦ hperm.mem_iff.mp hm
  obtain ⟨ordered, horder⟩ := (exists_orderModules hsorted).mpr hacyclic
  have hleast : LeastOrder modules ordered :=
    (orderModules_eq_ok hsorted horder).congr (hperm.map _)
  have hvalidate : validateBundleModules ordered = .ok () := by
    refine validateBundleModules_of_topological hleast.topological (fun m' hm' ↦ ?_)
      (hleast.resource_perm.nodup_iff.mpr h.distinct)
    obtain ⟨m, hm, rfl⟩ := mem_map.mp (hleast.perm.mem_iff.mp hm')
    obtain ⟨hresource, hform⟩ := h.named m hm
    exact ⟨hresource, hform, ascending_sortStrings.mpr (h.dependencies m hm)⟩
  simp only [canonicalModules, bind_eq_ok]
  exact ⟨ordered, byResource, hcollect, ordered, horder, (), hvalidate, rfl⟩

/-! ## Other orders of the input -/

/-- The modules in another order, each with its dependencies in another order. -/
def SameUpToOrder (modules modules' : List BytecodeBundleModule) : Prop :=
  ∃ l, modules.Perm l ∧ List.Forall₂ (fun m m' ↦
    m.dependencies.Perm m'.dependencies ∧ m' = { m with dependencies := m'.dependencies })
      l modules'

theorem SameUpToOrder.perm (h : SameUpToOrder modules modules') :
    (modules.map (·.sorted)).Perm (modules'.map (·.sorted)) := by
  obtain ⟨l, hperm, hl⟩ := h
  refine (hperm.map _).trans (.of_eq ?_)
  clear hperm
  induction hl with
  | nil => rfl
  | cons hm _ ih =>
    rw [map_cons, map_cons]
    congr 1
    have hsorted : sortStrings _ = sortStrings _ := Lib.sortBy_congr key_injective hm.1
    rw [hm.2, BytecodeBundleModule.sorted, BytecodeBundleModule.sorted, hsorted]

/-- Sorting dependencies makes no cycle disappear. -/
theorem acyclic_of_map_sorted (h : Acyclic (modules.map (·.sorted))) : Acyclic modules := by
  intro m hcycle
  refine h m.sorted (Relation.TransGen.lift BytecodeBundleModule.sorted ?_ m m hcycle)
  rintro a b ⟨ha, hb, hdepends⟩
  exact ⟨mem_map_of_mem ha, mem_map_of_mem hb, perm_sortStrings.mem_iff.mpr hdepends⟩

theorem WellFormed.congr (h : WellFormed modules)
    (hperm : (modules.map (·.sorted)).Perm (modules'.map (·.sorted))) : WellFormed modules' := by
  have hmem : ∀ m' ∈ modules', ∃ m ∈ modules, m.sorted = m'.sorted := fun m' hm' ↦
    mem_map.mp (hperm.mem_iff.mpr (mem_map_of_mem hm'))
  refine ⟨fun m' hm' ↦ ?_, ?_, fun m' hm' ↦ ?_, acyclic_of_map_sorted ?_⟩
  · obtain ⟨m, hm, heq⟩ := hmem m' hm'
    have hnamed : m.sorted.resource ≠ "" ∧ m.sorted.namespaceForm ≠ "" := h.named m hm
    rw [heq] at hnamed
    exact hnamed
  · rw [← resource_map_sorted, ← (hperm.map _).nodup_iff, resource_map_sorted]
    exact h.distinct
  · obtain ⟨m, hm, heq⟩ := hmem m' hm'
    have hascending : Ascending m.sorted.dependencies :=
      ascending_sortStrings.mpr (h.dependencies m hm)
    rw [heq] at hascending
    exact ascending_sortStrings.mp hascending
  · -- the modules can be put in order, so there is no cycle
    obtain ⟨ordered, hok⟩ := h.exists_canonicalModules
    have hleast := (canonicalModules_eq_ok hok).2.1.congr hperm
    exact hleast.topological.acyclic.of_subset fun m hm ↦ hleast.perm.mem_iff.mpr hm

/-- **Canonical modules do not depend on the order of the input.** -/
theorem canonicalModules_congr (h : SameUpToOrder modules modules')
    (hok : canonicalModules modules = .ok ordered) : canonicalModules modules' = .ok ordered := by
  obtain ⟨hwf, hleast, -⟩ := canonicalModules_eq_ok hok
  have hwf' := hwf.congr h.perm
  obtain ⟨ordered', hok'⟩ := hwf'.exists_canonicalModules
  have heq := (hleast.congr h.perm).unique (canonicalModules_eq_ok hok').2.1 hwf'.distinct
  rw [heq]
  exact hok'

end Hara.Bundle
