import Hara.Core.Fault
import Hara.Lib.Bitmap

/-!
# CHAMP maps

The map of `lang/data/map.rs`. A data node has two bitmaps and a list of slots in two regions: the
entries, ascending by position, and then the sub-nodes, descending by position. Keys whose hashes
agree in all the bits that were looked at end in a collision node.

The places where the source would stop — an `unreachable!`, an `expect`, an assertion, an index out
of range, a shift by 64 or more, a size below zero — are faults here, so that their absence can be
stated.

Nodes are shared and edited in place only when they are not shared, which cannot be seen from
outside: a node is its value, and the edit tokens, which are written and never read, are left out.
So is `ensure`, the one place that decides between the two: it copies a shared node with
`Rc::make_mut`, which does not stop, or makes a new box and takes the only handle to it, so that its
`expect` ("freshly cloned node is uniquely owned") is not among the faults.
-/

namespace Hara.Champ

open Hara.Lib Bitmap

/-- A placement hash. -/
abbrev Hash := BitVec 64

/-- `Slot::Entry`. -/
structure Entry (K V : Type) where
  hash : Hash
  key : K
  value : V
  deriving DecidableEq, Repr

mutual

inductive Slot (K V : Type) where
  | entry (e : Entry K V)
  | node (child : Node K V)

inductive Node (K V : Type) where
  | data (datamap nodemap : BitVec 32) (slots : List (Slot K V))
  | collision (hash : Hash) (entries : List (K × V))

end

variable {K V : Type}

namespace Node

def empty : Node K V := .data 0 0 []

def isSingle : Node K V → Bool
  | .data datamap nodemap _ => nodemap = 0 ∧ countOnes datamap = 1
  | .collision _ entries => entries.length = 1

end Node

/-! ## Positions -/

def mask (hash : Hash) (shift : ℕ) : Except Fault ℕ :=
  if shift < 64 then .ok ((hash >>> shift) &&& 0x1f#64).toNat else .error .shiftOverflow

def bit (hash : Hash) (shift : ℕ) : Except Fault (BitVec 32) :=
  (mask hash shift).map (single 32)

/-- `node_slot`: sub-nodes ascend from the end. -/
def nodeSlot (datamap nodemap bit : BitVec 32) : ℕ :=
  countOnes datamap + (countOnes nodemap - 1 - index nodemap bit)

/-- `Vec::insert`. -/
def insertAt {α : Type} (l : List α) (i : ℕ) (a : α) : Except Fault (List α) :=
  if i ≤ l.length then .ok (l.insertIdx i a) else .error .outOfBounds

/-- `Vec::remove`. -/
def removeAt {α : Type} (l : List α) (i : ℕ) : Except Fault (List α) :=
  if i < l.length then .ok (l.eraseIdx i) else .error .outOfBounds

/-! ## Merging -/

/-- `merge_two`. From `shift` on, at most `64 - shift` more levels are looked at before a shift is
too large; `levels` counts them. -/
def mergeTwoFrom (levels shift : ℕ) (a b : Entry K V) : Except Fault (Node K V) :=
  if 32 < shift ∧ a.hash = b.hash then
    .ok (.collision a.hash [(a.key, a.value), (b.key, b.value)])
  else do
    let amask ← mask a.hash shift
    let bmask ← mask b.hash shift
    if single 32 amask = single 32 bmask then
      match levels with
      | 0 => .error .shiftOverflow
      | levels + 1 => do
        let child ← mergeTwoFrom levels (shift + 5) a b
        return .data 0 (single 32 amask) [.node child]
    else if amask < bmask then
      return .data (single 32 amask ||| single 32 bmask) 0 [.entry a, .entry b]
    else
      return .data (single 32 amask ||| single 32 bmask) 0 [.entry b, .entry a]

def mergeTwo (shift : ℕ) (a b : Entry K V) : Except Fault (Node K V) :=
  mergeTwoFrom (64 - shift) shift a b

/-- `merge_node`. -/
def mergeNodeFrom (levels shift : ℕ) (nodeHash : Hash) (node : Node K V) (e : Entry K V) :
    Except Fault (Node K V) := do
  let abit ← bit nodeHash shift
  let bbit ← bit e.hash shift
  if abit = bbit then
    match levels with
    | 0 => .error .shiftOverflow
    | levels + 1 => do
      let child ← mergeNodeFrom levels (shift + 5) nodeHash node e
      return .data 0 abit [.node child]
  else
    return .data bbit abit [.entry e, .node node]

def mergeNode (shift : ℕ) (nodeHash : Hash) (node : Node K V) (e : Entry K V) :
    Except Fault (Node K V) :=
  mergeNodeFrom (64 - shift) shift nodeHash node e

/-! ## Collapsing -/

/-- The new data bitmap of a node that keeps one of its two entries. Below the root it is the bit
of the removed key at the root. -/
def rebase (shift : ℕ) (hash : Hash) (datamap b : BitVec 32) : Except Fault (BitVec 32) :=
  if shift = 0 then .ok (datamap ^^^ b) else bit hash 0

/-- The entry of a node with one pair. -/
def soleEntry : Node K V → Except Fault (Entry K V)
  | .data _ _ slots =>
    match slots with
    | [] => .error .outOfBounds
    | .entry e :: _ => .ok e
    | .node _ :: _ => .error (.unreachable "single-pair node holds an entry")
  | .collision hash entries =>
    match entries with
    | [] => .error .outOfBounds
    | (key, value) :: _ => .ok ⟨hash, key, value⟩

/-- What becomes of a data node when its sub-node at `b` has become `child`. -/
def replaceChild (datamap nodemap b : BitVec 32) (slots : List (Slot K V)) (child : Node K V) :
    Except Fault (Node K V) :=
  if child.isSingle = false then .ok (.data datamap nodemap slots)
  else if datamap = 0 ∧ countOnes nodemap = 1 then .ok child
  else do
    let e ← soleEntry child
    let slots ← removeAt slots (nodeSlot datamap nodemap b)
    let slots ← insertAt slots (index (datamap ||| b) b) (.entry e)
    return .data (datamap ||| b) (nodemap ^^^ b) slots

/-! ## Iterating -/

mutual

/-- `collect`. -/
def collect : Node K V → Except Fault (List (K × V))
  | .collision _ entries => .ok entries
  | .data datamap _ slots => collectSlots slots (countOnes datamap)

/-- The two loops: `arity` slots of the data region are left. -/
def collectSlots : List (Slot K V) → ℕ → Except Fault (List (K × V))
  | [], 0 => .ok []
  | [], _ + 1 => .error .outOfBounds
  | slot :: slots, 0 => do
    let pairs ← collectNode slot
    let rest ← collectSlots slots 0
    return pairs ++ rest
  | slot :: slots, arity + 1 => do
    let pair ← collectEntry slot
    let rest ← collectSlots slots arity
    return pair :: rest

/-- A slot of the data region. -/
def collectEntry : Slot K V → Except Fault (K × V)
  | .entry e => .ok (e.key, e.value)
  | .node _ => .error (.unreachable "data region holds entries only")

/-- A slot of the node region. -/
def collectNode : Slot K V → Except Fault (List (K × V))
  | .entry _ => .error (.unreachable "node region holds nodes only")
  | .node child => collect child

end

section Keys

variable [BEq K]

/-! ## Adding -/

mutual

/-- `assoc_node`. -/
def assocNode (shift : ℕ) (e : Entry K V) : Node K V → Except Fault (Node K V × Bool)
  | .collision hash entries =>
    if hash = e.hash then
      match entries.findIdx? (fun p ↦ p.1 == e.key) with
      | some i => .ok (.collision hash (entries.modify i fun p ↦ (p.1, e.value)), false)
      | none => .ok (.collision hash (entries ++ [(e.key, e.value)]), true)
    else do
      let merged ← mergeNode shift hash (.collision hash entries) e
      return (merged, true)
  | .data datamap nodemap slots => do
    let b ← bit e.hash shift
    if datamap &&& b ≠ 0 then
      let i := index datamap b
      match slots[i]? with
      | none => .error .outOfBounds
      | some (.node _) => .error (.unreachable "data region holds entries only")
      | some (.entry old) =>
        if old.key == e.key then
          return (.data datamap nodemap (slots.set i (.entry e)), false)
        else do
          let merged ← mergeTwo (shift + 5) old e
          let slots ← removeAt slots i
          let slots ← insertAt slots (nodeSlot (datamap ^^^ b) (nodemap ||| b) b) (.node merged)
          return (.data (datamap ^^^ b) (nodemap ||| b) slots, true)
    else if nodemap &&& b ≠ 0 then do
      let (slots, added) ← assocAt shift e slots (nodeSlot datamap nodemap b)
      return (.data datamap nodemap slots, added)
    else do
      let slots ← insertAt slots (index datamap b) (.entry e)
      return (.data (datamap ||| b) nodemap slots, true)

/-- The descent into the slot with the given index. -/
def assocAt (shift : ℕ) (e : Entry K V) :
    List (Slot K V) → ℕ → Except Fault (List (Slot K V) × Bool)
  | [], _ => .error .outOfBounds
  | slot :: slots, 0 => do
    let (slot, added) ← assocSlot shift e slot
    return (slot :: slots, added)
  | slot :: slots, i + 1 => do
    let (slots, added) ← assocAt shift e slots i
    return (slot :: slots, added)

def assocSlot (shift : ℕ) (e : Entry K V) : Slot K V → Except Fault (Slot K V × Bool)
  | .entry _ => .error (.unreachable "node region holds nodes only")
  | .node child => do
    let (child, added) ← assocNode (shift + 5) e child
    return (.node child, added)

end

/-! ## Finding -/

mutual

/-- `find_node`. -/
def findNode (shift : ℕ) (hash : Hash) (key : K) : Node K V → Except Fault (Option (K × V))
  | .collision hash' entries =>
    if hash' = hash then .ok (entries.find? fun p ↦ p.1 == key) else .ok none
  | .data datamap nodemap slots => do
    let b ← bit hash shift
    if datamap &&& b ≠ 0 then
      match slots[index datamap b]? with
      | none => .error .outOfBounds
      | some (.entry e) => return if e.key == key then some (e.key, e.value) else none
      | some (.node _) => return none
    else if nodemap &&& b ≠ 0 then findAt shift hash key slots (nodeSlot datamap nodemap b)
    else return none

/-- The descent into the slot with the given index. -/
def findAt (shift : ℕ) (hash : Hash) (key : K) :
    List (Slot K V) → ℕ → Except Fault (Option (K × V))
  | [], _ => .error .outOfBounds
  | slot :: _, 0 => findSlot shift hash key slot
  | _ :: slots, i + 1 => findAt shift hash key slots i

def findSlot (shift : ℕ) (hash : Hash) (key : K) : Slot K V → Except Fault (Option (K × V))
  | .entry _ => .ok none
  | .node child => findNode (shift + 5) hash key child

end

/-! ## Removing -/

mutual

/-- `without_present`. -/
def withoutPresent (shift : ℕ) (hash : Hash) (key : K) : Node K V → Except Fault (Node K V)
  | .collision hash' entries =>
    if hash' ≠ hash then .error (.assertion "c.hash == hash")
    else if entries.length = 1 then .ok (.data 0 0 [])
    else if entries.length = 2 then
      match entries.find? (fun p ↦ !(p.1 == key)) with
      | none => .error (.expect "other entry is present")
      | some (k, v) => do
        let b ← bit hash 0
        return .data b 0 [.entry ⟨hash, k, v⟩]
    else
      match entries.findIdx? (fun p ↦ p.1 == key) with
      | none => .error (.expect "key is present")
      | some i => .ok (.collision hash' (entries.eraseIdx i))
  | .data datamap nodemap slots => do
    let b ← bit hash shift
    if datamap &&& b ≠ 0 then
      let i := index datamap b
      if countOnes datamap = 2 ∧ nodemap = 0 then do
        let newDatamap ← rebase shift hash datamap b
        match slots[if i = 0 then 1 else 0]? with
        | none => .error .outOfBounds
        | some kept => return .data newDatamap 0 [kept]
      else do
        let slots ← removeAt slots i
        return .data (datamap ^^^ b) nodemap slots
    else if nodemap &&& b = 0 then .error (.assertion "key is present below")
    else do
      let (slots, child) ← withoutAt shift hash key slots (nodeSlot datamap nodemap b)
      replaceChild datamap nodemap b slots child

/-- The descent into the slot with the given index; the new sub-node is also returned. -/
def withoutAt (shift : ℕ) (hash : Hash) (key : K) :
    List (Slot K V) → ℕ → Except Fault (List (Slot K V) × Node K V)
  | [], _ => .error .outOfBounds
  | slot :: slots, 0 => do
    let child ← withoutSlot shift hash key slot
    return (.node child :: slots, child)
  | slot :: slots, i + 1 => do
    let (slots, child) ← withoutAt shift hash key slots i
    return (slot :: slots, child)

def withoutSlot (shift : ℕ) (hash : Hash) (key : K) : Slot K V → Except Fault (Node K V)
  | .entry _ => .error (.unreachable "node region holds nodes only")
  | .node child => withoutPresent (shift + 5) hash key child

end

end Keys

end Hara.Champ
