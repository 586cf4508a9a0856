import Hara.PriorityMap.Standard
import Hara.Values.Atom

/-!
# Values

The immutable data values of `core/value.rs`, with `==`, `display`, `java_hash`, the hash by which a
map places a key, and `cmp`.

## Levels

`layer n` has the values that are nested at most `n` deep. A value of one level is an atom or a
collection of values of the level below, and the collections are those of the other modules, at that
type. So the functions on values are not recursive: each of them is written once, from the
functions on the level below, which is also how the maps inside a value compare and place their
keys.

## Collections

Sequences and sets are only listed by what is modelled here, and stand as the lists of what they
hold. The maps are also looked into. Where the model of a map stops, which no map in use does, it
counts as empty, and finds nothing.
-/

namespace Hara.Values

open Hara.SortedMap (Link findEntry)

/-- The values of one level, with the functions on them. -/
structure Layer where
  Carrier : Type
  ofAtom : Atom → Carrier
  asAtom : Carrier → Option Atom
  eq : Carrier → Carrier → Bool
  cmp : Carrier → Carrier → Ordering
  javaHash : HashType → Carrier → BitVec 64
  display : Carrier → Text
  rank : Carrier → ℕ
  /-- `key_hash`. -/
  placementHash : Carrier → Champ.Hash

namespace Layer

instance (L : Layer) : BEq L.Carrier := ⟨L.eq⟩

instance (L : Layer) : Ord L.Carrier := ⟨L.cmp⟩

end Layer

inductive SequentialKind where
  | list
  | cons
  | queue
  | deque
  | tuple
  | vector
  deriving DecidableEq

inductive SetKind where
  | set
  | orderedSet
  | sortedSet
  deriving DecidableEq

/-- A value with parts of the given level. -/
inductive Data (L : Layer) where
  | atom (a : Atom)
  | sequential (kind : SequentialKind) (items : List L.Carrier)
  | map (values : Champ.Standard L.Carrier L.Carrier)
  | orderedMap (values : OrderedMap.Standard L.Carrier L.Carrier)
  | sortedMap (values : Link L.Carrier L.Carrier)
  | priorityMap (values : PriorityMap.Standard L.Carrier L.Carrier)
  | trie (entries : List (Text × L.Carrier))
  | setLike (kind : SetKind) (items : List L.Carrier)

/-- `cmp`, of which only the first two steps look into a value. -/
def compareValues {C : Type} (asAtom : C → Option Atom) (eq : C → C → Bool) (rank : C → ℕ)
    (display : C → Text) (stableHash : C → BitVec 64) (a b : C) : Ordering :=
  match (asAtom a).bind fun x ↦ (asAtom b).bind fun y ↦ x.numericTotalCompare y with
  | some ordering => ordering
  | none =>
    if eq a b then .eq
    else
      match asAtom a, asAtom b with
      | some (.character left), some (.character right) => compare left right
      | some (.bool left), some (.bool right) => compare left right
      | some (.string left), some (.string right) => compare left right
      | some (.keyword left), some (.keyword right) => compare left right
      | _, _ => (compare (rank a) (rank b)).then <| (compare (display a) (display b)).then <|
          compare (stableHash a).toNat (stableHash b).toNat

/-- What `Hash` writes under a map, cut to 32 bits: for some numbers not the hash of the value. -/
def placement (formatDouble : Double → Text) (asAtom : Option Atom) (stableHash : BitVec 64) :
    Champ.Hash :=
  let written := match asAtom.bind (Atom.numberPlacement formatDouble) with
    | some h => h.signExtend 64
    | none => stableHash
  (written.setWidth 32).setWidth 64

def Atom.rank : Atom → ℕ
  | nil => 0
  | bool _ => 1
  | number _ => 2
  | float _ => 3
  | bigInteger _ => 4
  | character _ => 5
  | string _ => 7
  | keyword _ => 8
  | symbol _ => 9

/-- What an operation on a map gives, or a default where the model stops. -/
def completed {α : Type} (default : α) (result : Except Fault α) : α :=
  result.toOption.getD default

namespace Data

variable {L : Layer}

def asAtom : Data L → Option Atom
  | atom a => some a
  | _ => none

theorem eq_atom_of_asAtom {a : Data L} {x : Atom} (h : a.asAtom = some x) : a = atom x := by
  cases a <;> cases h
  rfl

/-! ## Equality -/

/-- The items of a sequence. -/
def items : Data L → Option (List L.Carrier)
  | sequential _ items => some items
  | _ => none

def sequentialEquality (left right : Data L) : Option Bool := do
  return (← left.items) == (← right.items)

def mapEntries : Data L → Option (List (L.Carrier × L.Carrier))
  | map values => some (completed [] values.entries)
  | orderedMap values => some (completed [] values.iter)
  | sortedMap values => some values.toList
  | priorityMap values => some (completed [] values.iter)
  | trie entries => some (entries.map fun entry ↦ (L.ofAtom (.string entry.1), entry.2))
  | _ => none

def mapValue (key : L.Carrier) : Data L → Option L.Carrier
  | map values => completed none (values.get L.placementHash key)
  | orderedMap values => completed none (values.get L.placementHash key)
  | sortedMap values => (findEntry key values).map Prod.snd
  | priorityMap values => completed none (values.get L.placementHash key)
  | trie entries =>
    match L.asAtom key with
    | some (.string key) => (entries.find? fun entry ↦ entry.1 = key).map Prod.snd
    | _ => none
  | _ => none

def mapEquality (left right : Data L) : Option Bool := do
  let leftEntries ← left.mapEntries
  let rightEntries ← right.mapEntries
  return leftEntries.length == rightEntries.length &&
    leftEntries.all fun entry ↦ right.mapValue entry.1 == some entry.2

def setItems : Data L → Option (List L.Carrier)
  | setLike _ items => some items
  | _ => none

def setEquality (left right : Data L) : Option Bool := do
  let leftItems ← left.setItems
  let rightItems ← right.setItems
  return leftItems.length == rightItems.length &&
    leftItems.all fun item ↦ rightItems.any (· == item)

def eq (left right : Data L) : Bool :=
  match sequentialEquality left right, mapEquality left right, setEquality left right with
  | some equal, _, _ => equal
  | none, some equal, _ => equal
  | none, none, some equal => equal
  | none, none, none =>
    match left, right with
    | atom left, atom right => left.eq right
    | _, _ => false

/-! ## Texts -/

variable (formatDouble : Double → Text)

/-- The parts with spaces between them, in brackets. -/
def bracketed (start : Text) (parts : List Text) (stop : Char) : Text :=
  start ++ (parts.intersperse [' ']).flatten ++ [stop]

def displayEntries (entries : List (L.Carrier × L.Carrier)) : Text :=
  bracketed ['\x7b']
    (entries.map fun entry ↦ L.display entry.1 ++ ' ' :: L.display entry.2) '\x7d'

def display : Data L → Text
  | atom a => a.display formatDouble
  | sequential kind items =>
    let parts := items.map L.display
    match kind with
    | .list => bracketed ['('] parts ')'
    | .cons => bracketed ['('] parts ')'
    | .queue => bracketed "#queue[".toList parts ']'
    | .deque => bracketed "#deque[".toList parts ']'
    | .tuple => bracketed ['['] parts ']'
    | .vector => bracketed ['['] parts ']'
  | map values => displayEntries (completed [] values.entries)
  | orderedMap values => displayEntries (completed [] values.iter)
  | sortedMap values => displayEntries values.toList
  | priorityMap values => displayEntries (completed [] values.iter)
  | trie entries =>
    displayEntries (entries.map fun entry ↦ (L.ofAtom (.string entry.1), entry.2))
  | setLike _ items => bracketed ['#', '\x7b'] (items.map L.display) '\x7d'

/-! ## Hashes -/

/-- The hash of a map from its bindings. -/
def hashEntries (hashType : HashType) (entries : List (L.Carrier × L.Carrier)) : BitVec 64 :=
  composeUnordered "MAP".toList (entries.map fun entry ↦
    composeEntry (L.javaHash hashType entry.1) (L.javaHash hashType entry.2))

/-- A trie has a hash of its own, in which an entry is only a sum. -/
def hashTrie (hashType : HashType) (entries : List (Text × L.Carrier)) : BitVec 64 :=
  entries.foldl
    (fun acc entry ↦
      acc + (javaStringHash entry.1).signExtend 64 + L.javaHash hashType entry.2)
    ((hashSeed "MAP".toList).signExtend 64)

def javaHash (hashType : HashType) : Data L → BitVec 64
  | atom a => a.javaHash formatDouble hashType
  | sequential _ items => composeOrdered "SEQUENTIAL".toList (items.map (L.javaHash hashType))
  | map values => hashEntries hashType (completed [] values.entries)
  | orderedMap values => hashEntries hashType (completed [] values.iter)
  | sortedMap values => hashEntries hashType values.toList
  | priorityMap values => hashEntries hashType (completed [] values.priorities.entries)
  | trie entries => hashTrie hashType entries
  | setLike _ items => composeUnordered "SET".toList (items.map (L.javaHash hashType))

/-! ## Order -/

def rank : Data L → ℕ
  | atom a => a.rank
  | sequential .. => 10
  | map _ => 11
  | orderedMap _ => 11
  | sortedMap _ => 11
  | priorityMap _ => 11
  | trie _ => 11
  | setLike .. => 12

end Data

/-! ## Levels -/

section Levels

variable (formatDouble : Double → Text)

/-- The values without parts. -/
def atoms : Layer where
  Carrier := Atom
  ofAtom := id
  asAtom := some
  eq := Atom.eq
  cmp := compareValues some Atom.eq Atom.rank (Atom.display formatDouble)
    (Atom.javaHash formatDouble .rapid)
  javaHash := Atom.javaHash formatDouble
  display := Atom.display formatDouble
  rank := Atom.rank
  placementHash a := placement formatDouble (some a) (a.javaHash formatDouble .rapid)

/-- The values with parts in the given level. -/
def layerOver (L : Layer) : Layer where
  Carrier := Data L
  ofAtom := .atom
  asAtom := Data.asAtom
  eq := Data.eq
  cmp := compareValues Data.asAtom Data.eq Data.rank (Data.display formatDouble)
    (Data.javaHash formatDouble .rapid)
  javaHash := Data.javaHash formatDouble
  display := Data.display formatDouble
  rank := Data.rank
  placementHash a := placement formatDouble a.asAtom (a.javaHash formatDouble .rapid)

/-- The values that are nested at most so deep. -/
def layer : ℕ → Layer
  | 0 => atoms formatDouble
  | n + 1 => layerOver formatDouble (layer n)

end Levels

end Hara.Values
