import Hara.Lib.Except
import Hara.Vector.Standard
import Hara.Vector.Tree

/-!
# What a vector represents

`Layout vector leaves` ties a vector to the leaves of its tree: they are full, the tail has the
rest, and the root has no more levels than the leaves need. The vector represents the values of the
leaves and then those of the tail.

## What tightness is for

A root with more than one level keeps a second child, so taking its last leaf away never empties
it. This is why the root that replaces it when one child is left is always there.
-/

namespace Hara.Vector

open Hara.Lib
open List hiding length_flatten set_tail

variable {E : Type} {value : E} {append : E → Except Fault (Standard E)}
  {ready : Node E → Except Fault (Node E)} {leaf : List E} {token : ℕ} {text : String}

structure Layout (vector : Standard E) (leaves : List (List E)) : Prop where
  tree : Holds vector.levels vector.root leaves
  full : ∀ leaf ∈ leaves, leaf.length = 32
  room : vector.tail.length ≤ 32
  tailed : leaves ≠ [] → vector.tail ≠ []
  size_eq : vector.size = 32 * leaves.length + vector.tail.length
  rooted : 1 ≤ vector.levels
  tight : 1 < vector.levels → 32 ^ (vector.levels - 1) < leaves.length

/-- The vector has these values. -/
def Represents (vector : Standard E) (values : List E) : Prop :=
  ∃ leaves, Layout vector leaves ∧ values = leaves.flatten ++ vector.tail

namespace Layout

variable {vector : Standard E} {leaves : List (List E)}

theorem new (token : ℕ) : Layout (⟨0, 1, emptyBranch token, []⟩ : Standard E) [] where
  tree := holds_emptyBranch
  full := forall_mem_nil _
  room := Nat.zero_le _
  tailed h := absurd rfl h
  size_eq := rfl
  rooted := Nat.le_refl 1
  tight h := absurd h (Nat.lt_irrefl 1)

section

variable (h : Layout vector leaves)

include h

/-- The same tree through other handles. -/
theorem withRoot {root : Node E} (hroot : Holds vector.levels root leaves) :
    Layout { vector with root := root } leaves := { h with tree := hroot }

/-- A tail of one value or more after any leaf. -/
theorem length_eq_zero_or : leaves.length = 0 ∨ 1 ≤ vector.tail.length := by
  by_cases hnil : leaves = []
  · exact .inl (hnil ▸ rfl)
  · exact .inr (length_pos_of_ne_nil (h.tailed hnil))

theorem tailOffset_eq : tailOffset vector.size = 32 * leaves.length := by
  have hroom := h.room
  have htail := h.length_eq_zero_or
  rw [tailOffset, Nat.shiftRight_eq_div_pow, Nat.shiftLeft_eq, h.size_eq]
  by_cases hlt : 32 * leaves.length + vector.tail.length < nodeWidth
  · rw [if_pos hlt]
    change _ < 32 at hlt
    omega
  · rw [if_neg hlt]
    change _ / 32 * 32 = _
    omega

theorem size_sub : vector.size - tailOffset vector.size = vector.tail.length := by
  rw [h.tailOffset_eq, h.size_eq]
  omega

theorem length_flatten : leaves.flatten.length = 32 * leaves.length := by
  rw [length_flatten_of_forall h.full, Nat.mul_comm]

theorem length_values : (leaves.flatten ++ vector.tail).length = vector.size := by
  rw [length_append, h.length_flatten, h.size_eq]

/-- A leaf of the tree, found from an index before the tail. -/
theorem leafValues {index : ℕ} (hleaf : leaves[index / 32]? = some leaf) :
    Vector.leafValues index vector.levels vector.root = .ok (some leaf) := by
  obtain ⟨hlt, _⟩ := List.getElem?_eq_some_iff.mp hleaf
  exact h.tree.leafValues (Nat.mod_eq_of_lt (hlt.trans_le h.tree.length_le)) hleaf

end

theorem exists_leaf {index : ℕ} (hindex : index < 32 * leaves.length) :
    ∃ leaf, leaves[index / 32]? = some leaf := by
  have hlt : index / 32 < leaves.length := Nat.div_lt_of_lt_mul hindex
  exact ⟨leaves[index / 32], getElem?_eq_getElem hlt⟩

end Layout

namespace Represents

variable {vector : Standard E} {values : List E} {index : ℕ}

theorem empty (token : ℕ) : Represents (⟨0, 1, emptyBranch token, []⟩ : Standard E) [] :=
  ⟨[], .new token, rfl⟩

theorem new : Represents (Standard.new : Standard E) [] := empty noEdit

section

variable (h : Represents vector values)

include h

theorem clone : Represents vector.clone values := by
  obtain ⟨leaves, hlayout, rfl⟩ := h
  exact ⟨leaves, hlayout.withRoot (hlayout.tree.withStrong _), rfl⟩

theorem withToken (token : ℕ) :
    Represents { vector with root := vector.root.withToken token } values := by
  obtain ⟨leaves, hlayout, rfl⟩ := h
  exact ⟨leaves, hlayout.withRoot (hlayout.tree.withToken token), rfl⟩

theorem size_eq : vector.size = values.length := by
  obtain ⟨leaves, hlayout, rfl⟩ := h
  exact hlayout.length_values.symm

theorem len_eq : vector.len = values.length := h.size_eq

/-! ## Reading -/

/-- The values that are stored together with the value at an index. -/
theorem arrayFor_eq (hindex : index < values.length) :
    vector.arrayFor index = .ok (some (chunk 32 values (index / 32))) := by
  have hsize := h.size_eq
  obtain ⟨leaves, hlayout, rfl⟩ := h
  rw [Standard.arrayFor, if_neg (Nat.not_le_of_lt (hsize ▸ hindex)), hlayout.tailOffset_eq]
  by_cases htail : 32 * leaves.length ≤ index
  · have hroom := hlayout.room
    rw [hlayout.length_values, hlayout.size_eq] at hindex
    have hlast : index / 32 = leaves.length := by
      omega
    rw [if_pos htail, hlast, chunk_flatten_append_length hlayout.full hroom]
  · obtain ⟨leaf, hleaf⟩ := Layout.exists_leaf (Nat.lt_of_not_le htail)
    rw [if_neg htail, chunk_flatten_append hlayout.full hleaf]
    exact hlayout.leafValues hleaf

theorem get_eq (index : ℕ) : vector.get index = .ok values[index]? := by
  rw [Standard.get]
  by_cases hindex : index < values.length
  · rw [h.arrayFor_eq hindex, and_nodeMask]
    exact congrArg Except.ok (getElem?_chunk_div (by decide))
  · rw [Standard.arrayFor, if_pos (h.size_eq ▸ Nat.le_of_not_lt hindex),
      getElem?_eq_none (Nat.le_of_not_lt hindex)]
    rfl

end

/-! ## Appending -/

variable {leaves : List (List E)}

/-- Room in the tail. -/
theorem push_room (h : Layout vector leaves) (hroom : vector.tail.length < 32) :
    Represents { vector with size := vector.size + 1, tail := vector.tail ++ [value] }
      (leaves.flatten ++ vector.tail ++ [value]) := by
  refine ⟨leaves, { h with room := ?_, tailed := ?_, size_eq := ?_ }, append_assoc _ _ _⟩
  · rw [length_append]
    exact hroom
  · exact fun _ ↦ append_ne_nil_of_right_ne_nil _ (cons_ne_nil _ _)
  · rw [h.size_eq, length_append]
    rfl

variable {root : Node E}

/-- A full tail goes to the tree and a new one begins. -/
theorem push_full (h : Layout vector leaves) (hfull : vector.tail.length = 32) {levels : ℕ}
    (htree : Holds levels root (leaves ++ [vector.tail])) (hrooted : 1 ≤ levels)
    (htight : 1 < levels → 32 ^ (levels - 1) < leaves.length + 1) :
    Represents ⟨vector.size + 1, levels, root, [value]⟩
      (leaves.flatten ++ vector.tail ++ [value]) := by
  refine ⟨leaves ++ [vector.tail], ?_, ?_⟩
  · constructor
    · exact htree
    · exact forall_mem_append.mpr ⟨h.full, forall_mem_singleton.mpr hfull⟩
    · exact Nat.le_add_left 1 31
    · exact fun _ ↦ cons_ne_nil _ _
    · rw [h.size_eq, hfull, length_append]
      exact congrArg (· + 1) (Nat.mul_succ 32 leaves.length).symm
    · exact hrooted
    · rw [length_append]
      exact htight
  · rw [flatten_append, flatten_singleton]

/-- A new root over a full one and a path to one more leaf. -/
theorem holds_grown {level : ℕ} (h : Holds level root leaves) (hfull : leaves.length = 32 ^ level) :
    Holds (level + 1) (.branch 1 token (((List.replicate nodeWidth none).set 0 (some root)).set 1
      (some (newPath token level (.leaf 1 token leaf))))) (leaves ++ [leaf]) := by
  have hpos := pow_pos level
  have hle : leaves.length ≤ 32 ^ level := hfull.le
  have hone : leaves.length / 32 ^ level = 1 := by rw [hfull, Nat.div_self hpos]
  have hold : Holds (level + 1)
      (.branch 1 token ((List.replicate nodeWidth none).set 0 (some root))) leaves := by
    refine holds_emptyBranch.set ?_ ?_ fun i hi ↦ ?_
    · exact hle.trans (Nat.pow_le_pow_right (by decide) (Nat.le_succ _))
    · rw [chunk_zero hle]
      exact ⟨ne_nil_of_length_pos (hfull ▸ hpos), h⟩
    · rw [chunk_eq_nil, chunk_eq_nil (Nat.zero_le _)]
      rw [hfull]
      exact Nat.le_mul_of_pos_left _ (Nat.pos_of_ne_zero hi)
  have hroom : leaves.length < 32 ^ (level + 1) := by omega
  have hnil : chunk (32 ^ level) leaves 1 = [] := chunk_eq_nil (by rwa [Nat.one_mul])
  have hpath : Holds level (newPath token level (.leaf 1 token leaf)) [leaf] :=
    holds_newPath 1 token
  have hadded := hold.set_concat hroom (hone ▸ hnil) hpath
  rwa [hone] at hadded

section

variable (h : Represents vector values)

include h

theorem pushLastWith (hready : Readies ready) :
    ∃ vector', pushLastWith token (pushTailWith ready token text) vector value = .ok vector' ∧
      Represents vector' (values ++ [value]) := by
  obtain ⟨leaves, hlayout, rfl⟩ := h
  rw [Vector.pushLastWith, hlayout.size_sub]
  by_cases htail : vector.tail.length < nodeWidth
  · exact ⟨_, if_pos htail, push_room hlayout htail⟩
  · have hfull : vector.tail.length = 32 := Nat.le_antisymm hlayout.room (Nat.le_of_not_lt htail)
    have hsize : vector.size = 32 * leaves.length + 32 := hfull ▸ hlayout.size_eq
    have hleaves : vector.size >>> nodeShift = leaves.length + 1 := by
      rw [Nat.shiftRight_eq_div_pow]
      change _ / 32 = _
      omega
    have hcapacity : 1 <<< (nodeShift * vector.levels) = 32 ^ vector.levels := by
      rw [Nat.shiftLeft_eq, Nat.one_mul, Nat.pow_mul]
      rfl
    have hle := hlayout.tree.length_le
    rw [if_neg htail, hleaves, hcapacity]
    by_cases hover : leaves.length + 1 > 32 ^ vector.levels
    · have hexact : leaves.length = 32 ^ vector.levels :=
        Nat.le_antisymm hle (Nat.lt_succ_iff.mp hover)
      rw [if_pos hover]
      exact ⟨_, rfl, push_full hlayout hfull (holds_grown hlayout.tree hexact)
        (Nat.le_add_left 1 _) (fun _ ↦ hover)⟩
    · have hlt : leaves.length < 32 ^ vector.levels := Nat.lt_of_not_le fun hge ↦
        hover (Nat.lt_succ_of_le hge)
      have hposition : (vector.size - 1) / 32 % 32 ^ vector.levels = leaves.length := by
        rw [show (vector.size - 1) / 32 = leaves.length by omega, Nat.mod_eq_of_lt hlt]
      obtain ⟨level, hlevel⟩ := Nat.exists_eq_add_of_le' hlayout.rooted
      have htree := hlayout.tree
      rw [hlevel] at htree hlt hposition
      obtain ⟨root, hroot, hholds⟩ := htree.pushTailWith hready hlt hposition
      rw [if_neg hover, hlevel, hroot]
      refine ⟨_, rfl, push_full hlayout hfull hholds (Nat.le_add_left 1 level) ?_⟩
      intro hone
      rw [← hlevel] at hone ⊢
      exact Nat.lt_succ_of_lt (hlayout.tight hone)

theorem pushLast (value : E) :
    ∃ vector', vector.pushLast value = .ok vector' ∧ Represents vector' (values ++ [value]) :=
  h.clone.pushLastWith readies_copied

theorem pushLastOwned :
    ∃ vector', vector.pushLastOwned value = .ok vector' ∧ Represents vector' (values ++ [value]) :=
  h.pushLastWith (readies_editable noEdit)

/-! ## Setting -/

omit h in
/-- A value in the tail. -/
theorem set_tail (h : Layout vector leaves) {place : ℕ} :
    Represents { vector with tail := vector.tail.set place value }
      (leaves.flatten ++ vector.tail.set place value) := by
  refine ⟨leaves, { h with room := ?_, tailed := ?_, size_eq := ?_ }, rfl⟩
  · rw [length_set]
    exact h.room
  · intro hne hnil
    rw [set_eq_nil_iff] at hnil
    exact h.tailed hne hnil
  · rw [length_set]
    exact h.size_eq

omit h in
/-- A value in a leaf of the tree. -/
theorem set_leaf (h : Layout vector leaves) {j : ℕ} (hlength : leaf.length = 32)
    (htree : Holds vector.levels root (leaves.set j leaf)) :
    Represents { vector with root := root } ((leaves.set j leaf).flatten ++ vector.tail) := by
  refine ⟨leaves.set j leaf, { h with
    tree := htree, full := ?_, tailed := ?_, size_eq := ?_, tight := ?_ }, rfl⟩
  · intro other hmem
    rcases mem_or_eq_of_mem_set hmem with hold | rfl
    · exact h.full other hold
    · exact hlength
  · intro hne
    exact h.tailed fun hnil ↦ hne (by rw [hnil]; rfl)
  · rw [length_set]
    exact h.size_eq
  · rw [length_set]
    exact h.tight

omit h in
/-- The new value in a list, at its end too. -/
def assocValues (values : List E) (index : ℕ) (value : E) : Option (List E) :=
  if index = values.length then some (values ++ [value])
  else if index < values.length then some (values.set index value)
  else none

theorem assocValueWith_of_lt (hready : Readies ready) (hindex : index < values.length) :
    ∃ vector', assocValueWith append (assocNodeWith ready text) vector index value =
      .ok (some vector') ∧ Represents vector' (values.set index value) := by
  have hsize := h.size_eq
  obtain ⟨leaves, hlayout, rfl⟩ := h
  have hroom := hlayout.room
  have hsplit := hlayout.size_eq
  have hflatten := hlayout.length_flatten
  rw [assocValueWith, if_neg (ne_of_lt (hsize ▸ hindex)),
    if_neg (Nat.not_le_of_lt (hsize ▸ hindex)), hlayout.tailOffset_eq, and_nodeMask]
  by_cases htail : 32 * leaves.length ≤ index
  · have hplace : index % 32 = index - leaves.flatten.length := by omega
    rw [if_pos htail, setItem_of_lt (by omega), hplace]
    refine ⟨_, rfl, ?_⟩
    rw [set_append_right _ _ (hflatten ▸ htail)]
    exact set_tail hlayout
  · obtain ⟨leaf, hleaf⟩ := Layout.exists_leaf (Nat.lt_of_not_le htail)
    have hfull := hlayout.full leaf (mem_of_getElem? hleaf)
    obtain ⟨hj, _⟩ := List.getElem?_eq_some_iff.mp hleaf
    have hposition : index / 32 % 32 ^ vector.levels = index / 32 :=
      Nat.mod_eq_of_lt (hj.trans_le hlayout.tree.length_le)
    have hplace : index % 32 < leaf.length := by omega
    obtain ⟨root, hroot, hholds⟩ := hlayout.tree.assocNodeWith hready hposition hleaf hplace
    rw [if_neg htail, hroot]
    refine ⟨_, rfl, ?_⟩
    rw [set_append_left _ _ (hflatten ▸ Nat.lt_of_not_le htail),
      ← flatten_set hlayout.full (by decide) hleaf]
    exact set_leaf hlayout (by rw [length_set, hfull]) hholds

theorem assocValue_of_lt (hindex : index < values.length) (value : E) :
    ∃ vector', vector.assocValue index value = .ok (some vector') ∧
      Represents vector' (values.set index value) :=
  h.clone.assocValueWith_of_lt readies_copied hindex

theorem assocValueWith (hready : Readies ready)
    (happend : ∃ vector', append value = .ok vector' ∧ Represents vector' (values ++ [value])) :
    ∃ result, assocValueWith append (assocNodeWith ready text) vector index value = .ok result ∧
      Option.Rel Represents result (assocValues values index value) := by
  have hsize := h.size_eq
  rw [assocValues]
  by_cases hend : index = values.length
  · obtain ⟨vector', hvector', hrep⟩ := happend
    rw [Vector.assocValueWith, hsize, if_pos hend, if_pos hend, hvector']
    exact ⟨_, rfl, .some hrep⟩
  · rw [if_neg hend]
    by_cases hindex : index < values.length
    · obtain ⟨vector', hvector', hrep⟩ := h.assocValueWith_of_lt hready hindex
      rw [if_pos hindex]
      exact ⟨_, hvector', .some hrep⟩
    · rw [Vector.assocValueWith, hsize, if_neg hend, if_pos (Nat.le_of_not_lt hindex),
        if_neg hindex]
      exact ⟨_, rfl, .none⟩

theorem assocValue (index : ℕ) :
    ∃ result, vector.assocValue index value = .ok result ∧
      Option.Rel Represents result (assocValues values index value) :=
  h.clone.assocValueWith readies_copied (h.pushLast value)

theorem assocValueOwned :
    ∃ result, vector.assocValueOwned index value = .ok result ∧
      Option.Rel Represents result (assocValues values index value) :=
  h.assocValueWith (readies_editable noEdit) h.pushLastOwned

end

/-! ## Removing the last value -/

/-- A tail of more than one value loses its last one. -/
theorem pop_tail (h : Layout vector leaves) (hmore : 1 < vector.tail.length ∨ leaves = []) :
    Represents { vector with size := vector.size - 1, tail := vector.tail.dropLast }
      (leaves.flatten ++ vector.tail.dropLast) := by
  refine ⟨leaves, { h with room := ?_, tailed := ?_, size_eq := ?_ }, rfl⟩
  · rw [length_dropLast]
    exact (Nat.sub_le _ _).trans h.room
  · intro hne
    rcases hmore with hmore | hnil
    · refine ne_nil_of_length_pos ?_
      rw [length_dropLast]
      omega
    · exact absurd hnil hne
  · rw [length_dropLast, h.size_eq]
    rcases hmore with hmore | rfl
    · change _ - 1 = _
      omega
    · simp

/-- A root that may have one child too few is replaced by its first child. -/
theorem collapseWith_spec {adopt : Node E → Node E} {level : ℕ} (h : Holds (level + 1) root leaves)
    (hready : ready root = .ok root)
    (hadopt : ∀ {child leaves}, Holds level child leaves → Holds level (adopt child) leaves)
    (hmany : 0 < level → 32 ^ level ≤ leaves.length) :
    ∃ root' level', collapseWith ready adopt (level + 1) root = .ok (root', level' + 1) ∧
      Holds (level' + 1) root' leaves ∧ (0 < level' → 32 ^ level' < leaves.length) := by
  obtain ⟨strong, token, children, rfl⟩ := h.exists_branch
  obtain ⟨_, hchildren⟩ := h.children
  cases level with
  | zero => exact ⟨_, 0, rfl, h, fun hpos ↦ absurd hpos (Nat.lt_irrefl 0)⟩
  | succ level =>
    have hle := hmany (Nat.succ_pos level)
    obtain ⟨second, hsecond, hsecondHolds⟩ := hchildren 1 (by decide)
    obtain ⟨first, hfirst, hfirstHolds⟩ := hchildren 0 (by decide)
    rw [collapseWith, hsecond]
    cases second with
    | some second =>
      refine ⟨_, level + 1, rfl, h, fun _ ↦ ?_⟩
      have hlt := lt_length_of_chunk_ne_nil hsecondHolds.1
      rwa [Nat.one_mul] at hlt
    | none =>
      -- the leaves fit in the first child
      have hlength : leaves.length ≤ 32 ^ (level + 1) := by
        by_contra hgt
        have hnil : (chunk (32 ^ (level + 1)) leaves 1).length = 0 := by
          rw [show chunk _ leaves 1 = [] from hsecondHolds]
          rfl
        rw [length_chunk] at hnil
        have hpos := pow_pos (level + 1)
        omega
      rw [chunk_zero hlength] at hfirstHolds
      have hlt : 32 ^ level < leaves.length :=
        (Nat.pow_lt_pow_right (by decide) (Nat.lt_succ_self level)).trans_le hle
      simp only [bind, Except.bind, hready, hfirst]
      cases first with
      | some first => exact ⟨adopt first, level, rfl, hadopt hfirstHolds.2, fun _ ↦ hlt⟩
      | none =>
        rw [show leaves = [] from hfirstHolds] at hlt
        exact absurd hlt (Nat.not_lt_zero _)

/-- The last leaf of the tree becomes the tail. -/
theorem pop_leaf {finish : Node E → Except Fault (Node E)} {adopt : Node E → Node E}
    (hready : Readies ready) (hfinish : ∀ root, root.strong = 1 → finish root = .ok root)
    (hadopt : ∀ {level child leaves}, Holds level child leaves → Holds level (adopt child) leaves)
    (h : Layout vector leaves) (hone : vector.tail.length = 1) (hmore : vector.size ≠ 1) :
    ∃ leaf left root levels,
      leafValues (vector.size - 2) vector.levels vector.root = .ok (some leaf) ∧
      popTailWith ready vector.size vector.levels vector.root = .ok left ∧
      collapseWith finish adopt vector.levels (left.getD (emptyBranch token)) =
        .ok (root, levels) ∧
      Represents ⟨vector.size - 1, levels, root, leaf⟩
        (leaves.flatten ++ vector.tail.dropLast) := by
  have hsize := h.size_eq
  have hrest : vector.tail.dropLast = [] := by
    refine eq_nil_of_length_eq_zero ?_
    rw [length_dropLast, hone]
  rcases eq_nil_or_concat leaves with rfl | ⟨leaves, leaf, rfl⟩
  · exact absurd (by rw [hsize, hone]; rfl) hmore
  rw [concat_eq_append] at *
  rw [hrest, append_nil, flatten_append, flatten_singleton]
  rw [length_append, length_singleton] at hsize
  have hdiv : (vector.size - 2) / 32 = leaves.length := by omega
  have hlast : (leaves ++ [leaf])[(vector.size - 2) / 32]? = some leaf := by
    rw [hdiv, getElem?_concat_length]
  have hlt : leaves.length < 32 ^ vector.levels := by
    have hle := h.tree.length_le
    rw [length_append] at hle
    exact hle
  obtain ⟨level, hlevel⟩ := Nat.exists_eq_add_of_le' h.rooted
  have htree := h.tree
  have htight := h.tight
  have hleaf := h.leafValues hlast
  rw [hlevel] at htree hlt htight hleaf ⊢
  obtain ⟨left, hleft, hholds⟩ := htree.popTailWith hready (by rw [hdiv, Nat.mod_eq_of_lt hlt])
  -- the root that is left has no other owner: it was edited or is new
  have hroot : Own (level + 1) (left.getD (emptyBranch token)) leaves := by
    cases left with
    | none =>
      rw [show leaves = [] from hholds]
      exact ⟨rfl, holds_emptyBranch⟩
    | some root => exact hholds.2
  have hmany : 0 < level → 32 ^ level ≤ leaves.length := by
    intro hpos
    have hmore := htight (Nat.succ_lt_succ hpos)
    rw [length_append] at hmore
    exact Nat.lt_succ_iff.mp hmore
  obtain ⟨root, level', hcollapse, hheld, hsmall⟩ :=
    collapseWith_spec hroot.2 (hfinish _ hroot.1) hadopt hmany
  have hfull := h.full leaf (by simp)
  refine ⟨leaf, left, root, level' + 1, hleaf, hleft, hcollapse, leaves, ?_, rfl⟩
  constructor
  · exact hheld
  · exact fun other hother ↦ h.full other (mem_append_left _ hother)
  · exact hfull.le
  · rintro _ rfl
    cases hfull
  · rw [hfull]
    change vector.size - 1 = _
    omega
  · exact Nat.le_add_left 1 level'
  · exact fun hlt ↦ hsmall (Nat.lt_of_succ_lt_succ hlt)

/-- Where the last value is: the tail is never empty in a vector that is not. -/
theorem exists_last (h : Represents vector values) (hne : values ≠ []) :
    ∃ leaves, Layout vector leaves ∧ values = leaves.flatten ++ vector.tail ∧ vector.tail ≠ [] := by
  obtain ⟨leaves, hlayout, rfl⟩ := h
  refine ⟨leaves, hlayout, rfl, ?_⟩
  intro hnil
  by_cases hleaves : leaves = []
  · rw [hleaves, hnil] at hne
    exact hne rfl
  · exact hlayout.tailed hleaves hnil

theorem popLastValue_nil (h : Represents vector []) : vector.popLastValue = .ok none :=
  if_pos h.size_eq

theorem popLastValue (h : Represents vector values) (hne : values ≠ []) :
    ∃ vector', vector.popLastValue = .ok (some vector') ∧
      Represents vector' values.dropLast := by
  obtain ⟨leaves, hlayout, rfl, htail⟩ := h.exists_last hne
  have htailPos := length_pos_of_ne_nil htail
  have hsize := hlayout.size_eq
  rw [Standard.popLastValue, if_neg (by omega), dropLast_append_of_ne_nil htail]
  by_cases hone : vector.size = 1
  · have hleaves : leaves = [] := eq_nil_of_length_eq_zero (by omega)
    have hlast : vector.tail.dropLast = [] := by
      refine eq_nil_of_length_eq_zero ?_
      rw [length_dropLast]
      omega
    rw [if_pos hone, hleaves, hlast]
    exact ⟨_, rfl, new⟩
  rw [if_neg hone, hlayout.size_sub]
  by_cases hmore : vector.tail.length > 1
  · rw [if_pos hmore]
    exact ⟨_, rfl, (pop_tail hlayout (.inl hmore)).clone⟩
  · rw [if_neg hmore]
    have hsingle : vector.tail.length = 1 := by omega
    have harray : vector.arrayFor (vector.size - 2) =
        Vector.leafValues (vector.size - 2) vector.levels vector.root := by
      rw [Standard.arrayFor, if_neg (by omega), hlayout.tailOffset_eq, if_neg (by omega)]
    have hadopt {level : ℕ} {child : Node E} {leaves : List (List E)}
        (hchild : Holds level child leaves) : Holds level child.clone.released leaves :=
      (hchild.withStrong _).withStrong _
    obtain ⟨leaf, left, root, levels, hleaf, hleft, hcollapse, hrep⟩ :=
      pop_leaf readies_copied (fun _ _ ↦ rfl) hadopt hlayout hsingle hone
    have hpop : popTail vector.size vector.levels vector.root = .ok left := by
      obtain ⟨level, hlevel⟩ := Nat.exists_eq_add_of_le' hlayout.rooted
      have htree := hlayout.tree
      rw [hlevel] at htree hleft ⊢
      rw [htree.popTail_eq, hleft]
    have hcollapsed : collapse vector.levels (left.getD (emptyBranch noEdit)) =
      .ok (root, levels) := hcollapse
    rw [harray, hleaf]
    simp only [bind, Except.bind, hpop, hcollapsed]
    exact ⟨_, rfl, hrep⟩

/-! ## Transients -/

theorem mutable_popLast (h : Represents vector values) :
    ∃ vector', Mutable.popLast ⟨true, token, vector⟩ =
        .ok (values.getLast?, ⟨true, token, vector'⟩) ∧
      Represents vector' values.dropLast := by
  by_cases hne : values = []
  · subst hne
    refine ⟨vector, ?_, h⟩
    simp only [Mutable.popLast, h.size_eq]
    rfl
  obtain ⟨leaves, hlayout, rfl, htail⟩ := h.exists_last hne
  have htailPos := length_pos_of_ne_nil htail
  have hsize := hlayout.size_eq
  have hroom := hlayout.room
  obtain ⟨popped, hpopped⟩ : ∃ popped, vector.tail.getLast? = some popped :=
    ⟨_, getLast?_eq_some_getLast htail⟩
  have hresult : (leaves.flatten ++ vector.tail).getLast? = some popped := by
    rw [getLast?_append_of_ne_nil _ htail, hpopped]
  rw [dropLast_append_of_ne_nil htail, hresult]
  simp only [Mutable.popLast, Mutable.checkEditable, bind, Except.bind, if_true, hpopped]
  rw [if_neg (by omega)]
  by_cases hone : vector.size = 1
  · rw [if_pos hone]
    refine ⟨_, rfl, ?_⟩
    have hleaves : leaves = [] := eq_nil_of_length_eq_zero (by omega)
    have hpop := pop_tail hlayout (.inr hleaves)
    rwa [hone] at hpop
  rw [if_neg hone, and_nodeMask]
  by_cases hmore : (vector.size - 1) % 32 > 0
  · rw [if_pos hmore]
    exact ⟨_, rfl, pop_tail hlayout (.inl (by omega))⟩
  · rw [if_neg hmore]
    have hsingle : vector.tail.length = 1 := by omega
    obtain ⟨leaf, left, root, levels, hleaf, hleft, hcollapse, hrep⟩ :=
      pop_leaf (readies_editable token) (fun _ hstrong ↦ if_pos hstrong)
        (fun hchild ↦ hchild.ensureEditable token) hlayout hsingle hone
    have hedit : popTailEditable token vector.size vector.levels vector.root = .ok left := hleft
    have hcollapsed : collapseEditable token vector.levels (left.getD (emptyBranch token)) =
      .ok (root, levels) := hcollapse
    simp only [hleaf, hedit, hcollapsed]
    exact ⟨_, rfl, hrep⟩

end Represents

/-! ## Iteration -/

/-- An iterator that is about to give the value at `index`: its chunk is the one of the index, or
it ended just before. -/
structure Reading (values : List E) (stop index : ℕ) (iter : Iter E) : Prop where
  index_eq : iter.index = index
  stop_eq : iter.stop = stop
  place : iter.base = index - index % 32 ∧
      (index < values.length → iter.chunk = some (chunk 32 values (index / 32))) ∨
    iter.base + 32 = index ∧ index % 32 = 0

namespace Represents

variable {vector : Standard E} {values : List E} {stop index : ℕ} {iter : Iter E}
  (h : Represents vector values)

include h

theorem iter_new {start : ℕ} :
    ∃ iter, Iter.new vector start stop = .ok iter ∧ Reading values stop start iter := by
  rw [Iter.new, h.size_eq]
  by_cases hstart : start < values.length
  · rw [if_pos hstart, h.arrayFor_eq hstart]
    exact ⟨_, rfl, rfl, rfl, .inl ⟨rfl, fun _ ↦ rfl⟩⟩
  · rw [if_neg hstart]
    exact ⟨_, rfl, rfl, rfl, .inl ⟨rfl, fun hlt ↦ absurd hlt hstart⟩⟩

/-- The chunk of the index, whether it was there or is fetched. -/
theorem advance (hreading : Reading values stop index iter) (hindex : index < values.length) :
    ∃ base, iter.advance vector = .ok ⟨index, stop, base, some (chunk 32 values (index / 32))⟩ ∧
      base = index - index % 32 := by
  obtain ⟨hi, hstop, hplace⟩ := hreading
  rw [Iter.advance, hi]
  change ∃ base, (if _ = 32 then _ else _) = _ ∧ _
  rcases hplace with ⟨hbase, hchunk⟩ | ⟨hbase, hmod⟩
  · refine ⟨iter.base, ?_, hbase⟩
    rw [if_neg (by omega), ← hchunk hindex, ← hi, ← hstop]
  · refine ⟨index, ?_, by omega⟩
    rw [if_pos (by omega), h.arrayFor_eq hindex, ← hstop]
    exact congrArg Except.ok (by rw [← hbase]; rfl)

theorem next_of_lt (hreading : Reading values stop index iter) (hindex : index < stop)
    (hvalue : values[index]? = some value) :
    ∃ iter', iter.next vector = .ok (some (value, iter')) ∧
      Reading values stop (index + 1) iter' := by
  obtain ⟨hlt, _⟩ := List.getElem?_eq_some_iff.mp hvalue
  obtain ⟨base, hadvance, hbase⟩ := h.advance hreading hlt
  have hitem : itemAt (chunk 32 values (index / 32)) (index &&& nodeMask) = .ok value := by
    rw [and_nodeMask]
    exact itemAt_of_getElem? ((getElem?_chunk_div (by decide)).trans hvalue)
  refine ⟨⟨index + 1, stop, base, some (chunk 32 values (index / 32))⟩, ?_, rfl, rfl, ?_⟩
  · rw [Iter.next, hreading.index_eq, hreading.stop_eq, if_neg (Nat.not_le_of_lt hindex), hadvance]
    simp only [bind, Except.bind, hitem]
    rfl
  · by_cases hlast : index % 32 = 31
    · exact .inr ⟨show base + 32 = index + 1 by omega, by omega⟩
    · refine .inl ⟨show base = index + 1 - (index + 1) % 32 by omega, fun _ ↦ ?_⟩
      rw [show (index + 1) / 32 = index / 32 by omega]

/-- An iterator gives the values from its index to its end. -/
theorem yields_of_reading (hstop : stop ≤ values.length)
    (hreading : Reading values stop index iter) :
    Yields (fun iter r ↦ Iter.next vector iter = .ok r) iter
      ((values.drop index).take (stop - index)) := by
  -- by induction on what is left
  generalize hleft : stop - index = left
  induction left generalizing index iter with
  | zero =>
    refine .stop ?_
    rw [Iter.next, hreading.index_eq, hreading.stop_eq, if_pos (by omega)]
  | succ left ih =>
    have hlt : index < values.length := by omega
    obtain ⟨iter', hnext, hreading'⟩ := h.next_of_lt hreading (by omega) (getElem?_eq_getElem hlt)
    rw [drop_eq_getElem_cons hlt]
    exact .next hnext (ih hreading' (by omega))

theorem yields_new {start : ℕ} (hstop : stop ≤ values.length) :
    ∃ iter, Iter.new vector start stop = .ok iter ∧
      Yields (fun iter r ↦ Iter.next vector iter = .ok r) iter
        ((values.drop start).take (stop - start)) := by
  obtain ⟨iter, hiter, hreading⟩ := h.iter_new
  exact ⟨iter, hiter, h.yields_of_reading hstop hreading⟩

theorem yields_iter :
    ∃ iter, vector.iter = .ok iter ∧
      Yields (fun iter r ↦ Iter.next vector iter = .ok r) iter values := by
  obtain ⟨iter, hiter, hyields⟩ := h.yields_new (Nat.le_refl values.length)
  rw [drop_zero, Nat.sub_zero, take_length] at hyields
  exact ⟨iter, by rw [Standard.iter, h.size_eq, hiter], hyields⟩

theorem toVec_eq : vector.toVec = .ok values := by
  obtain ⟨iter, hiter, hyields⟩ := h.yields_iter
  rw [Standard.toVec, hiter]
  exact hyields.drain_eq (h.size_eq.ge)

end Represents

end Hara.Vector
