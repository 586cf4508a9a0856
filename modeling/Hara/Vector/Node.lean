import Hara.Core.Fault

/-!
# Radix trees

The tree of the vector of `lang/data/vector.rs`. A branch has 32 children, of which some may be
missing; a leaf has the values. Five bits of an index choose a child at each level.

The source counts a level in bits, always a multiple of five. Here a level is a number of nodes:
level zero is a leaf, and `NODE_SHIFT` is level one.

## Owners

A tree is made of `Rc` handles. A handle is modelled with the strong count of its box, which says
how many handles to the box there are, in this tree and elsewhere; there are no weak ones. A node
is edited in place only when its count is one, and `Rc::get_mut` stops at any other count, so the
counts are kept where the source clones or drops a handle.
-/

namespace Hara.Vector

def nodeShift : ℕ := 5
def nodeWidth : ℕ := 1 <<< nodeShift
def nodeMask : ℕ := nodeWidth - 1

/-- `NOEDIT`, the token of persistent nodes. -/
def noEdit : ℕ := 0

/-- `Rc<Node>`: a handle, with the strong count of its box and the token of the node. -/
inductive Node (E : Type) where
  | branch (strong token : ℕ) (children : List (Option (Node E)))
  | leaf (strong token : ℕ) (values : List E)

variable {E : Type}

namespace Node

/-- `Rc::strong_count`. -/
def strong : Node E → ℕ
  | branch strong _ _ => strong
  | leaf strong _ _ => strong

def token : Node E → ℕ
  | branch _ token _ => token
  | leaf _ token _ => token

/-- The handle when its box has this many. -/
def withStrong (strong : ℕ) : Node E → Node E
  | branch _ token children => branch strong token children
  | leaf _ token values => leaf strong token values

/-- `Rc::clone`. -/
def clone (node : Node E) : Node E := node.withStrong (node.strong + 1)

/-- The handle when another one to its box was dropped. -/
def released (node : Node E) : Node E := node.withStrong (node.strong - 1)

/-- `Rc::new(node.with_token(token))`: a box of its own, with handles to the same children. -/
def withToken (token : ℕ) : Node E → Node E
  | branch _ _ children => branch 1 token (children.map (Option.map clone))
  | leaf _ _ values => leaf 1 token values

/-- The node when one that has handles to the same children was freed. -/
def releaseChildren : Node E → Node E
  | branch strong token children => branch strong token (children.map (Option.map released))
  | leaf strong token values => leaf strong token values

end Node

/-- `Node::empty_branch` and `Node::editable_empty_branch`. -/
def emptyBranch (token : ℕ) : Node E := .branch 1 token (List.replicate nodeWidth none)

/-- `ensure_editable`. The handle it is given is dropped when the node is copied, and with it the
node when nobody else has it. -/
def ensureEditable (node : Node E) (token : ℕ) : Node E :=
  if node.token = token ∧ node.strong = 1 then node
  else if node.strong = 1 then (node.withToken token).releaseChildren
  else node.withToken token

/-- `Rc::get_mut(&mut node).expect(text)`. -/
def getMut (text : String) (node : Node E) : Except Fault (Node E) :=
  if node.strong = 1 then .ok node else .error (.expect text)

/-- How the transient functions make a node ready to be changed. -/
def editable (token : ℕ) (node : Node E) : Except Fault (Node E) :=
  getMut "editable vector node" (ensureEditable node token)

/-- How the persistent ones do: they change a copy. -/
def copied (node : Node E) : Except Fault (Node E) := .ok (node.withToken noEdit)

/-- `(position >> level) & NODE_MASK`. -/
def childIndex (position level : ℕ) : ℕ := (position >>> (nodeShift * level)) &&& nodeMask

def newPath (token : ℕ) : ℕ → Node E → Node E
  | 0, node => node
  | level + 1, node =>
    .branch 1 token ((List.replicate nodeWidth none).set 0 (some (newPath token level node)))

/-- `push_tail` and `push_tail_editable`, which differ in how they make a parent ready, in the token
of new nodes and in what they say of a parent that is a leaf. -/
def pushTailWith (ready : Node E → Except Fault (Node E)) (token : ℕ) (text : String) (size : ℕ)
    (tail : Node E) : ℕ → Node E → Except Fault (Node E)
  | 0, parent => do
    match ← ready parent with
    | .leaf _ _ _ => .error (.unreachable text)
    | .branch _ _ _ => .error .subtractOverflow
  | level + 1, parent => do
    match ← ready parent with
    | .leaf _ _ _ => .error (.unreachable text)
    | .branch strong own children =>
      let index := childIndex (size - 1) (level + 1)
      let slot ← itemAt children index
      let child ← (
        if level = 0 then .ok tail
        else
          match slot with
          | some child => pushTailWith ready token text size tail level child
          | none => .ok (newPath token level tail))
      return .branch strong own (← setItem children index (some child))

def pushTail (size : ℕ) (tail : Node E) (level : ℕ) (parent : Node E) : Except Fault (Node E) :=
  pushTailWith copied noEdit "vector tree parent must be a branch" size tail level parent

def pushTailEditable (token size : ℕ) (tail : Node E) (level : ℕ) (parent : Node E) :
    Except Fault (Node E) :=
  pushTailWith (editable token) token "editable vector path must be a branch" size tail level parent

/-- `assoc_node` and `assoc_editable`, which differ in how they make a node ready and in what they
say of a leaf on the path. -/
def assocNodeWith (ready : Node E → Except Fault (Node E)) (text : String) (index : ℕ) (value : E) :
    ℕ → Node E → Except Fault (Node E)
  | 0, node => do
    match ← ready node with
    | .branch _ _ _ => .error (.unreachable "vector terminal node must be a leaf")
    | .leaf strong own values =>
      return .leaf strong own (← setItem values (index &&& nodeMask) value)
  | level + 1, node => do
    match ← ready node with
    | .leaf _ _ _ => .error (.unreachable text)
    | .branch strong own children =>
      match ← itemAt children (childIndex index (level + 1)) with
      | some child =>
        let child ← assocNodeWith ready text index value level child
        return .branch strong own (← setItem children (childIndex index (level + 1)) (some child))
      | none => .error (.expect "existing vector path")

def assocNode (index : ℕ) (value : E) (level : ℕ) (node : Node E) : Except Fault (Node E) :=
  assocNodeWith copied "vector path must contain branches" index value level node

def assocEditable (token index : ℕ) (value : E) (level : ℕ) (node : Node E) :
    Except Fault (Node E) :=
  assocNodeWith (editable token) "editable vector path must be a branch" index value level node

/-- `pop_tail`, which copies a node after it has looked at the child. -/
def popTail (size : ℕ) : ℕ → Node E → Except Fault (Option (Node E))
  | _, .leaf _ _ _ => .error (.unreachable "vector path must contain branches")
  | level + 2, .branch _ _ children => do
    match ← itemAt children (childIndex (size - 2) (level + 2)) with
    | some child =>
      let child ← popTail size (level + 1) child
      if child.isNone ∧ childIndex (size - 2) (level + 2) = 0 then return none
      else
        return some (.branch 1 noEdit
          (← setItem (children.map (Option.map .clone)) (childIndex (size - 2) (level + 2)) child))
    | none => .error (.expect "existing vector path")
  | level, .branch _ _ children =>
    if childIndex (size - 2) level = 0 then .ok none
    else do
      return some (.branch 1 noEdit
        (← setItem (children.map (Option.map .clone)) (childIndex (size - 2) level) none))

/-- `pop_tail_editable`, which looks at the index before it looks at the node, with what makes a
node ready. -/
def popTailWith (ready : Node E → Except Fault (Node E)) (size : ℕ) :
    ℕ → Node E → Except Fault (Option (Node E))
  | level + 2, node => do
    match ← ready node with
    | .leaf _ _ _ => .error (.unreachable "editable vector path must be a branch")
    | .branch strong own children =>
      match ← itemAt children (childIndex (size - 2) (level + 2)) with
      | some child =>
        let child ← popTailWith ready size (level + 1) child
        if child.isNone ∧ childIndex (size - 2) (level + 2) = 0 then return none
        else
          return some (.branch strong own
            (← setItem children (childIndex (size - 2) (level + 2)) child))
      | none => .error (.expect "existing vector path")
  | level, node =>
    if level = 1 ∧ childIndex (size - 2) level = 0 then .ok none
    else do
      match ← ready node with
      | .leaf _ _ _ => .error (.unreachable "editable vector path must be a branch")
      | .branch strong own children =>
        return some (.branch strong own (← setItem children (childIndex (size - 2) level) none))

def popTailEditable (token size level : ℕ) (node : Node E) : Except Fault (Option (Node E)) :=
  popTailWith (editable token) size level node

/-- The way down to the leaf with an index, as in `array_for` and `leaf_values`. -/
def leafValues (index : ℕ) : ℕ → Node E → Except Fault (Option (List E))
  | 0, .leaf _ _ values => .ok (some values)
  | 0, .branch _ _ _ => .ok none
  | _ + 1, .leaf _ _ _ => .ok none
  | level + 1, .branch _ _ children => do
    match ← itemAt children (childIndex index (level + 1)) with
    | some child => leafValues index level child
    | none => return none

end Hara.Vector
