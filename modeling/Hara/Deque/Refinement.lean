import Hara.Deque.FingerTree
import Hara.Lib.Except

/-!
# The deque refines the list of its values

## The invariant

An item of a tree at depth `d` is a complete 2-3 tree of depth `d`; the middle of a tree at depth
`d` is a tree at depth `d + 1`. Digits have one to four items, and every recorded measure is the
number of leaves below it. A whole deque is a tree at depth zero.
-/

namespace Hara.Deque

open List hiding singleton

variable {E : Type}

/-- A complete 2-3 tree of the given depth, with its measures right. -/
inductive Complete : ℕ → Item E → Prop
  | leaf (value : E) : Complete 0 (.leaf value)
  | branch {depth measure : ℕ} {children : List (Item E)}
      (two : 2 ≤ children.length) (three : children.length ≤ 3)
      (complete : ∀ child ∈ children, Complete depth child)
      (measured : measure = (leaves children).length) :
      Complete (depth + 1) (.branch measure children)

/-- One to four complete items. -/
structure Digit (depth : ℕ) (items : List (Item E)) : Prop where
  one : 1 ≤ items.length
  four : items.length ≤ 4
  complete : ∀ item ∈ items, Complete depth item

inductive Valid : ℕ → FingerTree E → Prop
  | empty {depth : ℕ} : Valid depth .empty
  | single {depth : ℕ} {item : Item E} (complete : Complete depth item) : Valid depth (.single item)
  | deep {depth measure : ℕ} {front suffix : List (Item E)} {middle : FingerTree E}
      (hfront : Digit depth front) (hmiddle : Valid (depth + 1) middle)
      (hsuffix : Digit depth suffix)
      (measured : measure = (FingerTree.deep measure front middle suffix).toList.length) :
      Valid depth (.deep measure front middle suffix)

/-! ## Items -/

namespace Complete

theorem measure_eq {depth : ℕ} {item : Item E} (h : Complete depth item) :
    item.measure = item.toList.length := by
  cases h with
  | leaf value => rfl
  | branch two three complete measured => rw [Item.toList_branch]; exact measured

theorem eq_leaf {item : Item E} (h : Complete 0 item) : ∃ value, item = .leaf value := by
  cases h with
  | leaf value => exact ⟨value, rfl⟩

end Complete

variable {depth : ℕ} {items : List (Item E)}

section

variable (h : ∀ item ∈ items, Complete depth item)

include h

theorem sum_measure : (items.map Item.measure).sum = (leaves items).length := by
  induction items with
  | nil => rfl
  | cons item rest ih =>
    obtain ⟨hitem, hrest⟩ := forall_mem_cons.mp h
    rw [map_cons, sum_cons, hitem.measure_eq, ih hrest, leaves_cons, length_append]

theorem ofChildren_spec (two : 2 ≤ items.length) (three : items.length ≤ 3) :
    ∃ item, Item.ofChildren items = .ok item ∧ Complete (depth + 1) item ∧
      item.toList = leaves items :=
  ⟨_, if_pos ⟨two, three⟩, .branch two three h (sum_measure h), Item.toList_branch⟩

variable {item : Item E}

omit h in
/-- The children of an item of a middle tree are a digit of the tree around it. -/
theorem Complete.children (h : Complete (depth + 1) item) :
    ∃ items, item.children = .ok items ∧ Digit depth items ∧ leaves items = item.toList := by
  cases h with
  | branch two three complete measured =>
    refine ⟨_, rfl, ⟨?_, ?_, complete⟩, Item.toList_branch.symm⟩
    · exact Nat.le_of_succ_le two
    · exact Nat.le_succ_of_le three

omit h in
/-- The loop of `get` over items that are searched right. -/
theorem getIn_eq (h : ∀ item ∈ items, item.measure = item.toList.length ∧
      ∀ index, item.get index = item.toList[index]?) {index : ℕ} :
    Item.getIn items index =
      if index < (leaves items).length then .returned (leaves items)[index]?
      else .ended (index - (leaves items).length) := by
  induction items generalizing index with
  | nil => rfl
  | cons item rest ih =>
    obtain ⟨⟨hmeasure, hget⟩, hrest⟩ := forall_mem_cons.mp h
    rw [Item.getIn, hmeasure, leaves_cons, length_append]
    by_cases hindex : index < item.toList.length
    · rw [if_pos hindex, hget, if_pos (by omega), getElem?_append_left hindex]
    · rw [if_neg hindex, ih hrest, getElem?_append_right (by omega), Nat.sub_sub]
      by_cases hlater : index - item.toList.length < (leaves rest).length
      · rw [if_pos hlater, if_pos (by omega)]
      · rw [if_neg hlater, if_neg (by omega)]

omit h in
theorem Complete.get_eq (h : Complete depth item) (index : ℕ) :
    item.get index = item.toList[index]? := by
  induction h generalizing index with
  | leaf value =>
    cases index with
    | zero | succ index => rfl
  | @branch _ _ children two three complete measured ih =>
    rw [Item.get, Item.toList_branch,
      getIn_eq fun item hitem ↦ ⟨(complete item hitem).measure_eq, ih item hitem⟩]
    by_cases hindex : index < (leaves children).length
    · rw [if_pos hindex]
    · rw [if_neg hindex]
      exact (getElem?_eq_none (Nat.le_of_not_lt hindex)).symm

/-- The loop of `get` over complete items. -/
theorem getIn_complete (index : ℕ) :
    Item.getIn items index =
      if index < (leaves items).length then .returned (leaves items)[index]?
      else .ended (index - (leaves items).length) :=
  getIn_eq (fun item hitem ↦ ⟨(h item hitem).measure_eq, (h item hitem).get_eq⟩)

omit h in
/-- What `replace` gives for an item. -/
structure Replaces (depth : ℕ) (value : E) (item : Item E) : Prop where
  of_lt : ∀ {index}, index < item.toList.length →
    ∃ item', item.replace value index = .ok (some item') ∧ Complete depth item' ∧
      item'.toList = item.toList.set index value
  of_le : ∀ {index}, item.toList.length ≤ index → item.replace value index = .ok none

variable {index : ℕ} {value : E}

omit h in
/-- The loop of `replace` over items in which values are replaced right, below their end. -/
theorem replaceIn_of_lt (h : ∀ item ∈ items, Complete depth item ∧ Replaces depth value item)
    (hindex : index < (leaves items).length) :
    ∃ items', Item.replaceIn value items index = .ok (.returned (some items')) ∧
      items'.length = items.length ∧ (∀ item ∈ items', Complete depth item) ∧
      leaves items' = (leaves items).set index value := by
  induction items generalizing index with
  | nil => exact absurd hindex (Nat.not_lt_zero index)
  | cons item rest ih =>
    obtain ⟨⟨hitem, hreplaces⟩, hrest⟩ := forall_mem_cons.mp h
    rw [leaves_cons, length_append] at hindex
    rw [Item.replaceIn, hitem.measure_eq, leaves_cons]
    by_cases hhere : index < item.toList.length
    · obtain ⟨item', hitem', hcomplete, htoList⟩ := hreplaces.of_lt hhere
      refine ⟨item' :: rest, by rw [if_pos hhere, hitem']; rfl, rfl, ?_, ?_⟩
      · exact forall_mem_cons.mpr ⟨hcomplete, fun item hitem ↦ (hrest item hitem).1⟩
      · rw [leaves_cons, htoList, set_append_left _ _ hhere]
    · have hthere : index - item.toList.length < (leaves rest).length := by omega
      obtain ⟨rest', hrest', hlength, hcomplete, hleaves⟩ := ih hrest hthere
      refine ⟨item :: rest', by rw [if_neg hhere, hrest']; rfl, congrArg (· + 1) hlength, ?_, ?_⟩
      · exact forall_mem_cons.mpr ⟨hitem, hcomplete⟩
      · rw [leaves_cons, hleaves, set_append_right _ _ (Nat.le_of_not_lt hhere)]

/-- The loop of `replace`, past the end of the items. -/
theorem replaceIn_of_le (hindex : (leaves items).length ≤ index) :
    Item.replaceIn value items index = .ok (.ended (index - (leaves items).length)) := by
  induction items generalizing index with
  | nil => rfl
  | cons item rest ih =>
    obtain ⟨hitem, hrest⟩ := forall_mem_cons.mp h
    rw [leaves_cons, length_append] at hindex
    rw [Item.replaceIn, hitem.measure_eq, if_neg (by omega), ih hrest (by omega), leaves_cons,
      length_append, Nat.sub_sub]
    rfl

end

theorem Complete.replaces (h : Complete depth item) : Replaces depth value item := by
  induction h with
  | leaf old =>
    constructor
    · intro index hindex
      obtain rfl := Nat.lt_one_iff.mp hindex
      exact ⟨.leaf value, rfl, .leaf value, rfl⟩
    · intro index hindex
      rw [Item.replace, if_neg (Nat.one_le_iff_ne_zero.mp hindex)]
  | branch two three complete measured ih =>
    constructor
    · intro index hindex
      rw [Item.toList_branch] at hindex ⊢
      obtain ⟨items', hreplace, hlength, hcomplete, hleaves⟩ :=
        replaceIn_of_lt (fun item hitem ↦ ⟨complete item hitem, ih item hitem⟩) hindex
      obtain ⟨item', hitem', hcomplete', htoList⟩ :=
        ofChildren_spec hcomplete (hlength ▸ two) (hlength ▸ three)
      refine ⟨item', ?_, hcomplete', by rw [htoList, hleaves]⟩
      rw [Item.replace, hreplace]
      exact congrArg (· >>= fun item ↦ pure (some item)) hitem'
    · intro index hindex
      rw [Item.toList_branch] at hindex
      rw [Item.replace, replaceIn_of_le complete hindex]
      rfl

/-! ## Trees -/

namespace Digit

theorem singleton (h : Complete depth item) : Digit depth [item] where
  one := Nat.le_refl 1
  four := Nat.le_add_left 1 3
  complete := forall_mem_singleton.mpr h

theorem pair {item' : Item E} (h : Complete depth item) (h' : Complete depth item') :
    Digit depth [item, item'] where
  one := Nat.le_add_left 1 1
  four := Nat.le_add_left 2 2
  complete := forall_mem_cons.mpr ⟨h, forall_mem_singleton.mpr h'⟩

end Digit

variable {tree : FingerTree E}

section

variable (h : Valid depth tree)

include h

theorem Valid.measure_eq : tree.measure = tree.toList.length := by
  cases h with
  | empty => rfl
  | single complete => exact complete.measure_eq
  | deep front middle suffix measured => exact measured

omit h in
/-- The result is a valid tree with these values. -/
def Builds (depth : ℕ) (values : List E) (result : Except Fault (FingerTree E)) : Prop :=
  ∃ tree, result = .ok tree ∧ Valid depth tree ∧ tree.toList = values

omit h in
theorem ofDigits_spec {front suffix : List (Item E)} {middle : FingerTree E}
    (hfront : Digit depth front) (hmiddle : Valid (depth + 1) middle)
    (hsuffix : Digit depth suffix) :
    Builds depth (leaves front ++ middle.toList ++ leaves suffix)
      (FingerTree.ofDigits front middle suffix) := by
  have hok : FingerTree.ofDigits front middle suffix = .ok (.deep
      ((front.map Item.measure).sum + middle.measure + (suffix.map Item.measure).sum)
      front middle suffix) := by
    rw [FingerTree.ofDigits, if_neg (not_not.mpr ⟨hfront.one, hfront.four⟩),
      if_neg (not_not.mpr ⟨hsuffix.one, hsuffix.four⟩)]
  refine ⟨_, hok, .deep hfront hmiddle hsuffix ?_, FingerTree.toList_deep⟩
  rw [FingerTree.toList_deep, sum_measure hfront.complete, sum_measure hsuffix.complete,
    hmiddle.measure_eq, length_append, length_append]

/-- One more item in front, spilling three items of a full digit into the middle. -/
theorem Valid.pushFirstItem (hitem : Complete depth item) :
    Builds depth (item.toList ++ tree.toList) (tree.pushFirstItem item) := by
  induction h generalizing item with
  | empty => exact ⟨_, rfl, .single hitem, (append_nil _).symm⟩
  | single complete =>
    rw [FingerTree.pushFirstItem]
    simpa using ofDigits_spec (.singleton hitem) .empty (.singleton complete)
  | @deep depth measure front suffix middle hfront hmiddle hsuffix measured ih =>
    rw [FingerTree.pushFirstItem]
    by_cases hlen : front.length < 4
    · rw [if_pos hlen]
      have hmore : Digit depth (item :: front) :=
        ⟨Nat.le_add_left 1 _, hlen, forall_mem_cons.mpr ⟨hitem, hfront.complete⟩⟩
      simpa using ofDigits_spec hmore hmiddle hsuffix
    · rw [if_neg hlen]
      have hfour : front.length = 4 := Nat.le_antisymm hfront.four (Nat.le_of_not_lt hlen)
      cases front with
      | nil => cases hfour
      | cons first rest =>
        have hthree : rest.length = 3 := Nat.succ.inj hfour
        obtain ⟨hfirst, hrest⟩ := forall_mem_cons.mp hfront.complete
        obtain ⟨node, hnode, hcomplete, hleaves⟩ := ofChildren_spec hrest (by omega) (by omega)
        obtain ⟨middle', hmiddle', hvalid, htoList⟩ := ih hcomplete
        simp only [drop_succ_cons, drop_zero, hnode, hmiddle', itemAt, getElem?_cons_zero,
          Except.bind, bind]
        simpa [htoList, hleaves] using ofDigits_spec (.pair hitem hfirst) hvalid hsuffix

/-- One more item at the end. -/
theorem Valid.pushLastItem (hitem : Complete depth item) :
    Builds depth (tree.toList ++ item.toList) (tree.pushLastItem item) := by
  induction h generalizing item with
  | empty => exact ⟨_, rfl, .single hitem, rfl⟩
  | single complete =>
    rw [FingerTree.pushLastItem]
    simpa using ofDigits_spec (.singleton complete) .empty (.singleton hitem)
  | @deep depth measure front suffix middle hfront hmiddle hsuffix measured ih =>
    rw [FingerTree.pushLastItem]
    by_cases hlen : suffix.length < 4
    · rw [if_pos hlen]
      have hmore : Digit depth (suffix ++ [item]) := by
        refine ⟨?_, ?_, ?_⟩
        · rw [length_append]
          exact Nat.le_add_left 1 _
        · rw [length_append]
          exact hlen
        · exact forall_mem_append.mpr ⟨hsuffix.complete, forall_mem_singleton.mpr hitem⟩
      simpa using ofDigits_spec hfront hmiddle hmore
    · have hfour : suffix.length = 4 := Nat.le_antisymm hsuffix.four (Nat.le_of_not_lt hlen)
      obtain ⟨a, b, c, last, rfl⟩ := length_eq_four.mp hfour
      have hcomplete := hsuffix.complete
      have hspilled : ∀ item ∈ [a, b, c], Complete depth item :=
        fun item hitem ↦ hcomplete item (mem_of_mem_take (i := 3) hitem)
      obtain ⟨node, hnode, hnodeComplete, hleaves⟩ := ofChildren_spec hspilled (by simp) (by simp)
      obtain ⟨middle', hmiddle', hvalid, htoList⟩ := ih hnodeComplete
      simp only [take_succ_cons, take_zero, hnode, hmiddle', itemAt, getElem?_cons_succ,
        getElem?_cons_zero, Except.bind, bind]
      simpa [htoList, hleaves] using
        ofDigits_spec hfront hvalid (.pair (hcomplete last (by simp)) hitem)

omit h in
/-- A digit alone, as a tree. -/
theorem fromItems_spec (h : ∀ item ∈ items, Complete depth item) :
    Builds depth (leaves items) (FingerTree.fromItems items) := by
  have hfold : ∀ tree : FingerTree E, Valid depth tree →
      Builds depth (tree.toList ++ leaves items) (items.foldlM FingerTree.pushLastItem tree) := by
    induction items with
    | nil => exact fun tree htree ↦ ⟨tree, rfl, htree, (append_nil _).symm⟩
    | cons item rest ih =>
      intro tree htree
      obtain ⟨hitem, hrest⟩ := forall_mem_cons.mp h
      obtain ⟨tree', hpush, hvalid, htoList⟩ := htree.pushLastItem hitem
      obtain ⟨tree'', hrun, hvalid', htoList'⟩ := ih hrest tree' hvalid
      refine ⟨tree'', ?_, hvalid', ?_⟩
      · rw [foldlM_cons, hpush]
        exact hrun
      · rw [htoList', htoList, leaves_cons, append_assoc]
  exact hfold .empty .empty

omit h in
/-- What the pops give: nothing for the empty tree, otherwise an item and the rest. -/
inductive Popped (depth : ℕ) (tree : FingerTree E) (split : List E → List E → List E) :
    Except Fault (Option (Item E × FingerTree E)) → Prop
  | none (empty : tree.toList = []) : Popped depth tree split (.ok none)
  | some {item : Item E} {tree' : FingerTree E} (complete : Complete depth item)
      (valid : Valid depth tree') (eq : tree.toList = split item.toList tree'.toList) :
      Popped depth tree split (.ok (some (item, tree')))

variable {values : List E} {result : Except Fault (FingerTree E)}

omit h in
theorem Builds.popped {split : List E → List E → List E} (h : Builds depth values result)
    (hitem : Complete depth item) (heq : tree.toList = split item.toList values) :
    Popped depth tree split (result >>= fun tree' ↦ pure (some (item, tree'))) := by
  obtain ⟨tree', rfl, hvalid, rfl⟩ := h
  exact .some hitem hvalid heq

theorem Valid.popFirstItem :
    Popped depth tree (fun item rest ↦ item ++ rest) tree.popFirstItem := by
  induction h with
  | empty => exact .none rfl
  | single complete => exact .some complete .empty (append_nil _).symm
  | @deep depth measure front suffix middle hfront hmiddle hsuffix measured ih =>
    cases front with
    | nil => exact absurd hfront.one (Nat.not_succ_le_zero 0)
    | cons first rest =>
      obtain ⟨hfirst, hrest⟩ := forall_mem_cons.mp hfront.complete
      rw [FingerTree.popFirstItem]
      by_cases hlen : 1 < (first :: rest).length
      · have hless : Digit depth rest :=
          ⟨Nat.lt_succ_iff.mp hlen, Nat.le_of_succ_le hfront.four, hrest⟩
        rw [if_pos hlen]
        exact (ofDigits_spec hless hmiddle hsuffix).popped hfirst (by simp)
      · obtain rfl : rest = [] := eq_nil_of_length_eq_zero (by simpa using hlen)
        generalize middle.popFirstItem = popped at ih
        cases ih with
        | none hnil =>
          exact (fromItems_spec hsuffix.complete).popped hfirst (by simp [hnil])
        | @some node middle' hcomplete hvalid heq =>
          obtain ⟨items, hitems, hdigit, hleaves⟩ := hcomplete.children
          simp only [hitems, bind, Except.bind]
          exact (ofDigits_spec hdigit hvalid hsuffix).popped hfirst (by simp [heq, hleaves])

theorem Valid.popLastItem : Popped depth tree (fun item rest ↦ rest ++ item) tree.popLastItem := by
  induction h with
  | empty => exact .none rfl
  | single complete => exact .some complete .empty rfl
  | @deep depth measure front suffix middle hfront hmiddle hsuffix measured ih =>
    rcases eq_nil_or_concat suffix with rfl | ⟨rest, last, rfl⟩
    · exact absurd hsuffix.one (Nat.not_succ_le_zero 0)
    rw [concat_eq_append] at *
    obtain ⟨hrest, hlast⟩ := forall_mem_append.mp hsuffix.complete
    rw [forall_mem_singleton] at hlast
    have hlength : (rest ++ [last]).length = rest.length + 1 := length_append
    rw [FingerTree.popLastItem]
    by_cases hlen : 1 < (rest ++ [last]).length
    · have hfour := hsuffix.four
      have hless : Digit depth rest := ⟨by omega, by omega, hrest⟩
      rw [if_pos hlen, hlength, Nat.add_sub_cancel, take_left,
        itemAt_of_getElem? getElem?_concat_length]
      exact (ofDigits_spec hfront hmiddle hless).popped hlast (by simp)
    · obtain rfl : rest = [] := eq_nil_of_length_eq_zero (by omega)
      generalize middle.popLastItem = popped at ih
      cases ih with
      | none hnil =>
        exact (fromItems_spec hfront.complete).popped hlast (by simp [hnil])
      | @some node middle' hcomplete hvalid heq =>
        obtain ⟨items, hitems, hdigit, hleaves⟩ := hcomplete.children
        simp only [hitems, bind, Except.bind]
        exact (ofDigits_spec hfront hvalid hdigit).popped hlast (by simp [heq, hleaves])

theorem Valid.get_eq (index : ℕ) : tree.get index = tree.toList[index]? := by
  induction h generalizing index with
  | empty => rfl
  | single complete => exact complete.get_eq index
  | @deep depth measure front suffix middle hfront hmiddle hsuffix measured ih =>
    rw [FingerTree.get, getIn_complete hfront.complete, FingerTree.toList_deep]
    by_cases hindex : index < (leaves front).length
    · rw [if_pos hindex, append_assoc, getElem?_append_left hindex]
    · rw [if_neg hindex]
      simp only
      rw [hmiddle.measure_eq, append_assoc, getElem?_append_right (by omega)]
      by_cases hinner : index - (leaves front).length < middle.toList.length
      · rw [if_pos hinner, ih, getElem?_append_left hinner]
      · rw [if_neg hinner, getIn_complete hsuffix.complete, getElem?_append_right (by omega)]
        by_cases hlater :
            index - (leaves front).length - middle.toList.length < (leaves suffix).length
        · rw [if_pos hlater]
        · rw [if_neg hlater]
          exact (getElem?_eq_none (Nat.le_of_not_lt hlater)).symm

omit h in
theorem Digit.replaceIn (h : Digit depth items) (value : E)
    (hindex : index < (leaves items).length) :
    ∃ items', Item.replaceIn value items index = .ok (.returned (some items')) ∧
      Digit depth items' ∧ leaves items' = (leaves items).set index value := by
  obtain ⟨items', hreplace, hlength, hcomplete, hleaves⟩ :=
    replaceIn_of_lt (fun item hitem ↦
      ⟨h.complete item hitem, (h.complete item hitem).replaces⟩) hindex
  exact ⟨items', hreplace, ⟨hlength ▸ h.one, hlength ▸ h.four, hcomplete⟩, hleaves⟩

omit h in
theorem Builds.replaced (h : Builds depth values result) :
    ∃ tree, (result >>= fun tree ↦ pure (some tree)) = .ok (some tree) ∧ Valid depth tree ∧
      tree.toList = values := by
  obtain ⟨tree, rfl, hspec⟩ := h
  exact ⟨tree, rfl, hspec⟩

theorem Valid.replace_of_lt (value : E) (hindex : index < tree.toList.length) :
    ∃ tree', tree.replace value index = .ok (some tree') ∧ Valid depth tree' ∧
      tree'.toList = tree.toList.set index value := by
  induction h generalizing index with
  | empty => exact absurd hindex (Nat.not_lt_zero index)
  | single complete =>
    obtain ⟨item', hitem', hcomplete, htoList⟩ := complete.replaces.of_lt hindex
    exact ⟨.single item', by rw [FingerTree.replace, hitem']; rfl, .single hcomplete, htoList⟩
  | @deep depth measure front suffix middle hfront hmiddle hsuffix measured ih =>
    rw [FingerTree.toList_deep] at hindex ⊢
    rw [length_append, length_append] at hindex
    rw [FingerTree.replace, append_assoc]
    by_cases hfirst : index < (leaves front).length
    · obtain ⟨items', hreplace, hdigit, hleaves⟩ := hfront.replaceIn value hfirst
      rw [hreplace, set_append_left _ _ hfirst, ← hleaves, ← append_assoc]
      exact (ofDigits_spec hdigit hmiddle hsuffix).replaced
    · rw [replaceIn_of_le hfront.complete (Nat.le_of_not_lt hfirst),
        set_append_right _ _ (Nat.le_of_not_lt hfirst)]
      simp only [bind, Except.bind, hmiddle.measure_eq]
      generalize hrest : index - (leaves front).length = rest
      by_cases hinner : rest < middle.toList.length
      · obtain ⟨middle', hreplace, hvalid, htoList⟩ := ih hinner
        rw [if_pos hinner, hreplace, set_append_left _ _ hinner, ← htoList, ← append_assoc]
        exact (ofDigits_spec hfront hvalid hsuffix).replaced
      · obtain ⟨items', hreplace, hdigit, hleaves⟩ :=
          hsuffix.replaceIn value (show rest - middle.toList.length < _ by omega)
        rw [if_neg hinner, hreplace, set_append_right _ _ (Nat.le_of_not_lt hinner), ← hleaves,
          ← append_assoc]
        exact (ofDigits_spec hfront hmiddle hdigit).replaced

theorem Valid.replace_of_le (value : E) (hindex : tree.toList.length ≤ index) :
    tree.replace value index = .ok none := by
  cases h with
  | empty => rfl
  | single complete =>
    rw [FingerTree.replace, complete.replaces.of_le hindex]
    rfl
  | deep hfront hmiddle hsuffix measured =>
    rw [FingerTree.toList_deep, length_append, length_append] at hindex
    rw [FingerTree.replace, replaceIn_of_le hfront.complete (by omega)]
    simp only [bind, Except.bind, hmiddle.measure_eq]
    rw [if_neg (by omega), replaceIn_of_le hsuffix.complete (by omega)]
    rfl

end

/-! ## Runs -/

inductive Op (E : Type) where
  | pushFirst (value : E)
  | pushLast (value : E)
  | popFirstValue
  | popLastValue
  | assocValue (index : ℕ) (value : E)

/-- One operation. An index that is refused leaves the deque as it was. -/
def Op.apply (deque : FingerTree E) : Op E → Except Fault (FingerTree E)
  | pushFirst value => Standard.pushFirst deque value
  | pushLast value => Standard.pushLast deque value
  | popFirstValue => Standard.popFirstValue deque
  | popLastValue => Standard.popLastValue deque
  | assocValue index value => return (← Standard.assocValue deque index value).getD deque

def run (ops : List (Op E)) : Except Fault (FingerTree E) := ops.foldlM Op.apply Standard.new

/-- The operation on the list of the values. -/
def Op.model (values : List E) : Op E → List E
  | pushFirst value => value :: values
  | pushLast value => values ++ [value]
  | popFirstValue => values.tail
  | popLastValue => values.dropLast
  | assocValue index value => values.set index value

def model (ops : List (Op E)) : List E := ops.foldl Op.model []

theorem Valid.popFirstValue (h : Valid 0 tree) :
    Builds 0 tree.toList.tail (Standard.popFirstValue tree) := by
  have hpop := h.popFirstItem
  rw [Standard.popFirstValue]
  generalize tree.popFirstItem = popped at hpop
  cases hpop with
  | none hnil => exact ⟨tree, rfl, h, by rw [hnil]; rfl⟩
  | some hcomplete hvalid heq =>
    obtain ⟨value, rfl⟩ := hcomplete.eq_leaf
    exact ⟨_, rfl, hvalid, by rw [heq]; rfl⟩

theorem Valid.popLastValue (h : Valid 0 tree) :
    Builds 0 tree.toList.dropLast (Standard.popLastValue tree) := by
  have hpop := h.popLastItem
  rw [Standard.popLastValue]
  generalize tree.popLastItem = popped at hpop
  cases hpop with
  | none hnil => exact ⟨tree, rfl, h, by rw [hnil]; rfl⟩
  | some hcomplete hvalid heq =>
    obtain ⟨value, rfl⟩ := hcomplete.eq_leaf
    exact ⟨_, rfl, hvalid, by rw [heq, Item.toList_leaf, dropLast_concat]⟩

/-- One operation keeps the invariant and does to the values what the model does. -/
theorem apply_spec {values : List E} (op : Op E) (h : Valid 0 tree ∧ tree.toList = values) :
    Builds 0 (op.model values) (op.apply tree) := by
  obtain ⟨h, rfl⟩ := h
  cases op with
  | pushFirst value => exact h.pushFirstItem (.leaf value)
  | pushLast value => exact h.pushLastItem (.leaf value)
  | popFirstValue => exact h.popFirstValue
  | popLastValue => exact h.popLastValue
  | assocValue index value =>
    rw [Op.apply, Standard.assocValue]
    by_cases hindex : index < tree.toList.length
    · obtain ⟨tree', hreplace, hvalid, htoList⟩ := h.replace_of_lt value hindex
      exact ⟨tree', by rw [hreplace]; rfl, hvalid, htoList⟩
    · have hle := Nat.le_of_not_lt hindex
      refine ⟨tree, by rw [h.replace_of_le value hle]; rfl, h, ?_⟩
      exact (set_eq_of_length_le hle).symm

/-- After every run the tree is valid and the deque is the list of the model: in its length, in
what it lists, at every index, and in the indices it accepts. -/
theorem deque_refines (ops : List (Op E)) :
    ∃ deque, run ops = .ok deque ∧ Valid 0 deque ∧
      Standard.iter deque = model ops ∧
      Standard.len deque = (model ops).length ∧
      (∀ index, Standard.get deque index = (model ops)[index]?) ∧
      ∀ index value, ∃ result, Standard.assocValue deque index value = .ok result ∧
        (result.isSome ↔ index < (model ops).length) := by
  obtain ⟨deque, hrun, hvalid, htoList⟩ := Except.exists_foldlM
    (R := fun tree values ↦ Valid 0 tree ∧ tree.toList = values) apply_spec ⟨.empty, rfl⟩ ops
  have hmodel : deque.toList = model ops := htoList
  refine ⟨deque, hrun, hvalid, hmodel, ?_, ?_, ?_⟩
  · rw [Standard.len, hvalid.measure_eq, hmodel]
  · intro index
    rw [Standard.get, hvalid.get_eq, hmodel]
  · intro index value
    rw [← hmodel]
    by_cases hindex : index < deque.toList.length
    · obtain ⟨deque', hreplace, _⟩ := hvalid.replace_of_lt value hindex
      exact ⟨_, hreplace, iff_of_true rfl hindex⟩
    · exact ⟨_, hvalid.replace_of_le value (Nat.le_of_not_lt hindex), iff_of_false nofun hindex⟩

end Hara.Deque
