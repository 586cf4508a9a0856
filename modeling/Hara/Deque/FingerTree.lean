import Hara.Core.Fault
import Mathlib.Algebra.BigOperators.Group.List.Basic

/-!
# Finger trees

The deque of `lang/data/deque.rs`. A tree has two digits of items and, between them, a tree whose
items are one level deeper. The type does not say how deep an item is: only the invariant makes
sure that an item of a middle tree is a branch.

Searches are steered by the recorded measures. A loop over the items of a node or of a digit
returns, or ends with an index for what follows it.

The assertions of the debug build are faults, like the places where any build would stop.
-/

namespace Hara.Deque

inductive Item (E : Type) where
  | leaf (value : E)
  | branch (measure : ℕ) (children : List (Item E))

variable {E : Type}

/-- The end of a search loop: the function returns, or the loop is over and an index is left. -/
inductive Search (R : Type) where
  | returned (result : R)
  | ended (index : ℕ)

/-! ## Items -/

namespace Item

def measure : Item E → ℕ
  | leaf _ => 1
  | branch measure _ => measure

/-- `Item::branch`. -/
def ofChildren (children : List (Item E)) : Except Fault (Item E) :=
  if 2 ≤ children.length ∧ children.length ≤ 3 then
    .ok (branch (children.map measure).sum children)
  else
    .error (.assertion "(2..=3).contains(&children.len())")

def children : Item E → Except Fault (List (Item E))
  | branch _ children => .ok children
  | leaf _ => .error (.unreachable "finger-tree middle item must be a branch")

mutual

def get : Item E → ℕ → Option E
  | leaf value, index => if index = 0 then some value else none
  | branch _ children, index =>
    match getIn children index with
    | .returned value => value
    | .ended _ => none

/-- The loop of `get`. -/
def getIn : List (Item E) → ℕ → Search (Option E)
  | [], index => .ended index
  | item :: rest, index =>
    if index < item.measure then .returned (item.get index)
    else getIn rest (index - item.measure)

end

mutual

def replace (value : E) : Item E → ℕ → Except Fault (Option (Item E))
  | leaf _, index => .ok (if index = 0 then some (leaf value) else none)
  | branch _ children, index => do
    match ← replaceIn value children index with
    | .returned (some replaced) => return some (← ofChildren replaced)
    | .returned none => return none
    | .ended _ => return none

/-- The loop of `replace`, with all the items when one of them was replaced. -/
def replaceIn (value : E) : List (Item E) → ℕ → Except Fault (Search (Option (List (Item E))))
  | [], index => .ok (.ended index)
  | item :: rest, index =>
    if index < item.measure then do
      match ← item.replace value index with
      | some replaced => return .returned (some (replaced :: rest))
      | none => return .returned none
    else do
      match ← replaceIn value rest (index - item.measure) with
      | .returned (some replaced) => return .returned (some (item :: replaced))
      | .returned none => return .returned none
      | .ended index => return .ended index

end

mutual

def collect : Item E → List E → List E
  | leaf value, output => output ++ [value]
  | branch _ children, output => collectAll children output

def collectAll : List (Item E) → List E → List E
  | [], output => output
  | item :: rest, output => collectAll rest (item.collect output)

end

/-- The leaves. -/
def toList (item : Item E) : List E := item.collect []

end Item

/-- The leaves of a node or of a digit. -/
def leaves (items : List (Item E)) : List E := items.flatMap Item.toList

@[simp] theorem leaves_nil : leaves ([] : List (Item E)) = [] := rfl

@[simp] theorem leaves_cons (item : Item E) (items : List (Item E)) :
    leaves (item :: items) = item.toList ++ leaves items := rfl

@[simp] theorem leaves_append (items items' : List (Item E)) :
    leaves (items ++ items') = leaves items ++ leaves items' := List.flatMap_append

namespace Item

mutual

theorem collect_eq {item : Item E} {output : List E} :
    item.collect output = output ++ item.toList := by
  cases item with
  | leaf value => rfl
  | branch measure items =>
    rw [toList, collect, collect, collectAll_eq, collectAll_eq]
    rfl

theorem collectAll_eq {items : List (Item E)} {output : List E} :
    collectAll items output = output ++ leaves items := by
  cases items with
  | nil => rw [collectAll, leaves_nil, List.append_nil]
  | cons item rest =>
    rw [collectAll, collect_eq, collectAll_eq, leaves_cons, List.append_assoc]

end

@[simp] theorem toList_leaf (value : E) : (leaf value).toList = [value] := rfl

@[simp] theorem toList_branch {measure : ℕ} {items : List (Item E)} :
    (branch measure items).toList = leaves items := collectAll_eq

end Item

/-! ## Trees -/

inductive FingerTree (E : Type) where
  | empty
  | single (item : Item E)
  | deep (measure : ℕ) (front : List (Item E)) (middle : FingerTree E) (suffix : List (Item E))

namespace FingerTree

def measure : FingerTree E → ℕ
  | empty => 0
  | single item => item.measure
  | deep measure .. => measure

/-- `FingerTree::deep`. -/
def ofDigits (front : List (Item E)) (middle : FingerTree E) (suffix : List (Item E)) :
    Except Fault (FingerTree E) :=
  if ¬(1 ≤ front.length ∧ front.length ≤ 4) then
    .error (.assertion "(1..=4).contains(&prefix.len())")
  else if ¬(1 ≤ suffix.length ∧ suffix.length ≤ 4) then
    .error (.assertion "(1..=4).contains(&suffix.len())")
  else
    .ok (deep ((front.map Item.measure).sum + middle.measure + (suffix.map Item.measure).sum)
      front middle suffix)

def pushFirstItem : FingerTree E → Item E → Except Fault (FingerTree E)
  | empty, item => .ok (single item)
  | single existing, item => ofDigits [item] empty [existing]
  | deep _ front middle suffix, item =>
    if front.length < 4 then
      ofDigits (item :: front) middle suffix
    else do
      let node ← Item.ofChildren (front.drop 1)
      let first ← itemAt front 0
      let middle ← middle.pushFirstItem node
      ofDigits [item, first] middle suffix

def pushLastItem : FingerTree E → Item E → Except Fault (FingerTree E)
  | empty, item => .ok (single item)
  | single existing, item => ofDigits [existing] empty [item]
  | deep _ front middle suffix, item =>
    if suffix.length < 4 then
      ofDigits front middle (suffix ++ [item])
    else do
      let node ← Item.ofChildren (suffix.take 3)
      let middle ← middle.pushLastItem node
      let last ← itemAt suffix 3
      ofDigits front middle [last, item]

def fromItems (items : List (Item E)) : Except Fault (FingerTree E) :=
  items.foldlM pushLastItem empty

def popFirstItem : FingerTree E → Except Fault (Option (Item E × FingerTree E))
  | empty => .ok none
  | single item => .ok (some (item, empty))
  | deep _ front middle suffix =>
    if 1 < front.length then do
      let first ← itemAt front 0
      let tree ← ofDigits (front.drop 1) middle suffix
      return some (first, tree)
    else do
      match ← middle.popFirstItem with
      | some (node, middle) =>
        let first ← itemAt front 0
        let children ← node.children
        let tree ← ofDigits children middle suffix
        return some (first, tree)
      | none =>
        let first ← itemAt front 0
        let tree ← fromItems suffix
        return some (first, tree)

def popLastItem : FingerTree E → Except Fault (Option (Item E × FingerTree E))
  | empty => .ok none
  | single item => .ok (some (item, empty))
  | deep _ front middle suffix =>
    if 1 < suffix.length then do
      let last ← itemAt suffix (suffix.length - 1)
      let tree ← ofDigits front middle (suffix.take (suffix.length - 1))
      return some (last, tree)
    else do
      match ← middle.popLastItem with
      | some (node, middle) =>
        let last ← itemAt suffix 0
        let children ← node.children
        let tree ← ofDigits front middle children
        return some (last, tree)
      | none =>
        let last ← itemAt suffix 0
        let tree ← fromItems front
        return some (last, tree)

def get : FingerTree E → ℕ → Option E
  | empty, _ => none
  | single item, index => item.get index
  | deep _ front middle suffix, index =>
    match Item.getIn front index with
    | .returned value => value
    | .ended index =>
      if index < middle.measure then middle.get index
      else
        match Item.getIn suffix (index - middle.measure) with
        | .returned value => value
        | .ended _ => none

def replace (value : E) : FingerTree E → ℕ → Except Fault (Option (FingerTree E))
  | empty, _ => .ok none
  | single item, index => do
    match ← item.replace value index with
    | some replaced => return some (single replaced)
    | none => return none
  | deep _ front middle suffix, index => do
    match ← Item.replaceIn value front index with
    | .returned (some next) => return some (← ofDigits next middle suffix)
    | .returned none => return none
    | .ended index =>
      if index < middle.measure then
        match ← middle.replace value index with
        | some next => return some (← ofDigits front next suffix)
        | none => return none
      else
        match ← Item.replaceIn value suffix (index - middle.measure) with
        | .returned (some next) => return some (← ofDigits front middle next)
        | .returned none => return none
        | .ended _ => return none

def collect : FingerTree E → List E → List E
  | empty, output => output
  | single item, output => item.collect output
  | deep _ front middle suffix, output =>
    Item.collectAll suffix (middle.collect (Item.collectAll front output))

/-- The values in order. -/
def toList (tree : FingerTree E) : List E := tree.collect []

theorem collect_eq (tree : FingerTree E) (output : List E) :
    tree.collect output = output ++ tree.toList := by
  induction tree generalizing output with
  | empty => exact (List.append_nil output).symm
  | single item => exact item.collect_eq
  | deep measure front middle suffix ih =>
    rw [toList, collect, collect, ih, ih]
    simp only [Item.collectAll_eq, List.append_assoc, List.nil_append]

@[simp] theorem toList_empty : (empty : FingerTree E).toList = [] := rfl

@[simp] theorem toList_single (item : Item E) : (single item).toList = item.toList := rfl

@[simp] theorem toList_deep {measure : ℕ} {front : List (Item E)} {middle : FingerTree E}
    {suffix : List (Item E)} :
    (deep measure front middle suffix).toList =
      leaves front ++ middle.toList ++ leaves suffix := by
  rw [toList, collect, Item.collectAll_eq, collect_eq, Item.collectAll_eq, List.nil_append]

end FingerTree

/-! ## Deques

A deque is its tree. -/

namespace Standard

def new : FingerTree E := .empty

variable (deque : FingerTree E)

def len : ℕ := deque.measure

def get (deque : FingerTree E) (index : ℕ) : Option E := FingerTree.get deque index

def pushFirst (value : E) : Except Fault (FingerTree E) :=
  deque.pushFirstItem (.leaf value)

def pushLast (value : E) : Except Fault (FingerTree E) :=
  deque.pushLastItem (.leaf value)

def popFirstValue : Except Fault (FingerTree E) := do
  match ← deque.popFirstItem with
  | some (_, tree) => return tree
  | none => return deque

def popLastValue : Except Fault (FingerTree E) := do
  match ← deque.popLastItem with
  | some (_, tree) => return tree
  | none => return deque

def assocValue (index : ℕ) (value : E) :
    Except Fault (Option (FingerTree E)) := deque.replace value index

/-- The values that `iter` goes over. -/
def iter : List E := deque.collect []

end Standard

end Hara.Deque
