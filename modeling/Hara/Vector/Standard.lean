import Hara.Lib.Yields
import Hara.Vector.Node

/-!
# Vectors

The persistent vector of `lang/data/vector.rs`, its transient, its iterator and its views. The last
values, up to 32 of them, are in the tail; the values before are in the tree, in full leaves.

Sizes are natural numbers: no vector that fits in memory has a size at which a `usize` overflows.
The subtractions of the source are of numbers that its own tests have compared, so they are
subtractions of natural numbers here.
-/

namespace Hara.Vector

variable {E : Type}

def tailOffset (size : ℕ) : ℕ :=
  if size < nodeWidth then 0 else ((size - 1) >>> nodeShift) <<< nodeShift

/-- `Standard`. The shift of the root is given by its level. The tail is in an `Rc` of its own,
which `Rc::make_mut` copies when somebody else has it, so it is its values. -/
structure Standard (E : Type) where
  size : ℕ
  levels : ℕ
  root : Node E
  tail : List E

/-- `self.clone()`. -/
def Standard.clone (vector : Standard E) : Standard E := { vector with root := vector.root.clone }

/-! ## Shared steps -/

/-- `push_last`, with the token of new nodes and the function that puts a full tail in the tree. -/
def pushLastWith (token : ℕ) (pushTail : ℕ → Node E → ℕ → Node E → Except Fault (Node E))
    (vector : Standard E) (value : E) : Except Fault (Standard E) :=
  if vector.size - tailOffset vector.size < nodeWidth then
    .ok { vector with size := vector.size + 1, tail := vector.tail ++ [value] }
  else
    let tailNode := .leaf 1 token vector.tail
    -- the root has no room for another leaf
    if vector.size >>> nodeShift > 1 <<< (nodeShift * vector.levels) then
      let children := ((List.replicate nodeWidth none).set 0 (some vector.root)).set 1
        (some (newPath token vector.levels tailNode))
      .ok ⟨vector.size + 1, vector.levels + 1, .branch 1 token children, [value]⟩
    else do
      let root ← pushTail vector.size tailNode vector.levels vector.root
      return ⟨vector.size + 1, vector.levels, root, [value]⟩

/-- `assoc_value`, with what is appended to at the end and the function that sets a value in the
tree. -/
def assocValueWith (append : E → Except Fault (Standard E))
    (assocNode : ℕ → E → ℕ → Node E → Except Fault (Node E))
    (vector : Standard E) (index : ℕ) (value : E) : Except Fault (Option (Standard E)) :=
  if index = vector.size then do
    return some (← append value)
  else if index ≥ vector.size then
    .ok none
  else if index ≥ tailOffset vector.size then do
    return some { vector with tail := ← setItem vector.tail (index &&& nodeMask) value }
  else do
    return some { vector with root := ← assocNode index value vector.levels vector.root }

/-- The root after its last leaf was taken: a root with one child left is replaced by the child. The
child is taken from the root that `ready` gives, and `adopt` is what becomes of it. -/
def collapseWith (ready : Node E → Except Fault (Node E)) (adopt : Node E → Node E) (levels : ℕ)
    (root : Node E) : Except Fault (Node E × ℕ) :=
  match root with
  | .leaf _ _ _ => .ok (root, levels)
  | .branch _ _ children =>
    if levels > 1 then do
      match ← itemAt children 1 with
      | some _ => return (root, levels)
      | none =>
        match ← ready root with
        | .leaf _ _ _ => .error (.unreachable "editable vector path must be a branch")
        | .branch _ _ children =>
          match ← itemAt children 0 with
          | some child => return (adopt child, levels - 1)
          | none => .error (.expect "collapsed vector root")
    else .ok (root, levels)

/-- In `pop_last_value` the child is cloned and the root, which is new, is freed. -/
def collapse (levels : ℕ) (root : Node E) : Except Fault (Node E × ℕ) :=
  collapseWith .ok (fun child ↦ child.clone.released) levels root

/-- In the transient's `pop_last` the child is taken out of the root. -/
def collapseEditable (token levels : ℕ) (root : Node E) : Except Fault (Node E × ℕ) :=
  collapseWith (getMut "editable vector root") (fun child ↦ ensureEditable child token) levels root

/-! ## Persistent vectors -/

namespace Standard

def new : Standard E := ⟨0, 1, emptyBranch noEdit, []⟩

variable (vector : Standard E)

def len : ℕ := vector.size

def arrayFor (index : ℕ) : Except Fault (Option (List E)) :=
  if index ≥ vector.size then .ok none
  else if index ≥ tailOffset vector.size then .ok (some vector.tail)
  else leafValues index vector.levels vector.root

def get (index : ℕ) : Except Fault (Option E) := do
  match ← vector.arrayFor index with
  | some values => return values[index &&& nodeMask]?
  | none => return none

def pushLast (value : E) : Except Fault (Standard E) :=
  pushLastWith noEdit pushTail vector.clone value

def pushLastOwned (value : E) : Except Fault (Standard E) :=
  pushLastWith noEdit (pushTailEditable noEdit) vector value

def assocValue (index : ℕ) (value : E) : Except Fault (Option (Standard E)) :=
  assocValueWith vector.pushLast assocNode vector.clone index value

def assocValueOwned (index : ℕ) (value : E) : Except Fault (Option (Standard E)) :=
  assocValueWith vector.pushLastOwned (assocEditable noEdit) vector index value

def popLastValue : Except Fault (Option (Standard E)) :=
  if vector.size = 0 then .ok none
  else if vector.size = 1 then .ok (some new)
  else if vector.size - tailOffset vector.size > 1 then
    .ok (some { vector.clone with size := vector.size - 1, tail := vector.tail.dropLast })
  else do
    match ← vector.arrayFor (vector.size - 2) with
    | some newTail =>
      let popped ← popTail vector.size vector.levels vector.root
      let (root, levels) ← collapse vector.levels (popped.getD (emptyBranch noEdit))
      return some ⟨vector.size - 1, levels, root, newTail⟩
    | none => .error (.expect "previous vector leaf")

end Standard

/-! ## Transients -/

/-- `Mutable`, which has the fields of a vector, a flag and a token. -/
structure Mutable (E : Type) where
  editable : Bool
  token : ℕ
  vector : Standard E

namespace Mutable

/-- `to_mutable`, with the token that `next_token` gives. -/
def fromStandard (token : ℕ) (vector : Standard E) : Mutable E :=
  ⟨true, token, { vector with root := vector.root.withToken token }⟩

variable (mutable : Mutable E)

def checkEditable : Except Fault Unit :=
  if mutable.editable then .ok ()
  else .error (.assertion "mutable vector used after to_persistent")

def len : Except Fault ℕ := do
  mutable.checkEditable
  return mutable.vector.size

def get (mutable : Mutable E) (index : ℕ) : Except Fault (Option E) := do
  mutable.checkEditable
  mutable.vector.get index

def pushLast (value : E) : Except Fault (Mutable E) := do
  mutable.checkEditable
  let vector ← pushLastWith mutable.token (pushTailEditable mutable.token) mutable.vector value
  return { mutable with vector := vector }

def assoc (index : ℕ) (value : E) : Except Fault (Mutable E) := do
  mutable.checkEditable
  let assigned ← assocValueWith
    (pushLastWith mutable.token (pushTailEditable mutable.token) mutable.vector)
    (assocEditable mutable.token) mutable.vector index value
  match assigned with
  | some vector => return { mutable with vector := vector }
  | none => .error (.assertion "vector index out of bounds")

/-- `pop_last`. Unlike the persistent vector, a transient with one value keeps its root. -/
def popLast : Except Fault (Option E × Mutable E) := do
  mutable.checkEditable
  let vector := mutable.vector
  if vector.size = 0 then
    return (none, mutable)
  else
    match vector.tail.getLast? with
    | none => .error (.expect "non-empty vector has a tail")
    | some popped =>
      if vector.size = 1 then
        return (some popped,
          { mutable with vector := { vector with size := 0, tail := vector.tail.dropLast } })
      else if (vector.size - 1) &&& nodeMask > 0 then
        return (some popped, { mutable with
          vector := { vector with size := vector.size - 1, tail := vector.tail.dropLast } })
      else
        match ← leafValues (vector.size - 2) vector.levels vector.root with
        | some newTail =>
          let left ← popTailEditable mutable.token vector.size vector.levels vector.root
          let (root, levels) ← collapseEditable mutable.token vector.levels
            (left.getD (emptyBranch mutable.token))
          return (some popped,
            { mutable with vector := ⟨vector.size - 1, levels, root, newTail⟩ })
        | none => .error (.expect "previous vector leaf")

def empty : Except Fault (Mutable E) := do
  mutable.checkEditable
  return { mutable with vector := ⟨0, 1, emptyBranch mutable.token, []⟩ }

/-- `to_persistent`: the vector, and the transient that can no longer be used but keeps a handle to
the root. -/
def toPersistent : Except Fault (Standard E × Mutable E) := do
  mutable.checkEditable
  return (mutable.vector.clone,
    { mutable with editable := false, vector := { mutable.vector.clone with tail := [] } })

end Mutable

/-! ## Iterators and views -/

structure Iter (E : Type) where
  index : ℕ
  stop : ℕ
  base : ℕ
  chunk : Option (List E)

namespace Iter

def new (vector : Standard E) (start stop : ℕ) : Except Fault (Iter E) := do
  let chunk ← (if start < vector.size then vector.arrayFor start else .ok none)
  return ⟨start, stop, start - start % nodeWidth, chunk⟩

/-- The iterator after the chunk is changed where the last one ended. -/
def advance (vector : Standard E) (iter : Iter E) : Except Fault (Iter E) :=
  if iter.index - iter.base = nodeWidth then do
    let chunk ← vector.arrayFor iter.index
    return { iter with chunk := chunk, base := iter.base + nodeWidth }
  else .ok iter

def next (vector : Standard E) (iter : Iter E) : Except Fault (Option (E × Iter E)) :=
  if iter.index ≥ iter.stop then .ok none
  else do
    let iter ← iter.advance vector
    match iter.chunk with
    | some values =>
      let value ← itemAt values (iter.index &&& nodeMask)
      return some (value, { iter with index := iter.index + 1 })
    | none => return none

end Iter

namespace Standard

def iter (vector : Standard E) : Except Fault (Iter E) := Iter.new vector 0 vector.size

/-- What a whole iteration gives. The iterator stops at the size. -/
def toVec (vector : Standard E) : Except Fault (List E) := do
  Lib.drain (Iter.next vector) vector.size (← vector.iter)

end Standard

structure SubView (E : Type) where
  vector : Standard E
  start : ℕ
  stop : ℕ

def Standard.subview (vector : Standard E) (start stop : ℕ) : Option (SubView E) :=
  if start > stop ∨ stop > vector.size then none else some ⟨vector.clone, start, stop⟩

namespace SubView

def len (view : SubView E) : ℕ := view.stop - view.start

def get (view : SubView E) (index : ℕ) : Except Fault (Option E) :=
  if index ≥ view.len then .ok none else view.vector.get (view.start + index)

def iter (view : SubView E) : Except Fault (Iter E) := Iter.new view.vector view.start view.stop

end SubView

end Hara.Vector
