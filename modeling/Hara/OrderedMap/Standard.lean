import Hara.Champ.Map
import Hara.Vector.Standard

/-!
# Insertion-ordered maps

The ordered map of `lang/data/ordered_map.rs`. Each binding is stored twice: in a CHAMP map, with
its index, and at that index of a vector. A removal leaves an empty slot; when more than half of
the slots are empty and there are more than 32 of them, everything is built again.
-/

namespace Hara.OrderedMap

open Hara.Champ (Hash)

variable {K V : Type}

def compactMinimum : ℕ := 32

structure Standard (K V : Type) where
  lookup : Champ.Standard K (ℕ × V)
  order : Vector.Standard (Option (K × V))

namespace Standard

def new : Standard K V := ⟨.new, .new⟩

def len (map : Standard K V) : ℕ := map.lookup.len

def isEmpty (map : Standard K V) : Bool := map.len = 0

/-- The bindings that `iter` goes over. -/
def iter (map : Standard K V) : Except Fault (List (K × V)) := do
  let slots ← map.order.toVec
  return slots.filterMap id

variable [BEq K] (keyHash : K → Hash)

def get (map : Standard K V) (key : K) : Except Fault (Option V) := do
  let stored ← map.lookup.get keyHash key
  return stored.map Prod.snd

/-- What `assoc_value` and `assoc_value_owned` share: they differ in how the two parts are
edited. -/
def assocValueWith
    (assocLookup : Champ.Standard K (ℕ × V) → K → ℕ × V → Except Fault (Champ.Standard K (ℕ × V)))
    (pushLast : Vector.Standard (Option (K × V)) → Option (K × V) →
      Except Fault (Vector.Standard (Option (K × V))))
    (assocOrder : Vector.Standard (Option (K × V)) → ℕ → Option (K × V) →
      Except Fault (Option (Vector.Standard (Option (K × V)))))
    (map : Standard K V) (key : K) (value : V) : Except Fault (Standard K V) := do
  match ← map.lookup.get keyHash key with
  | none =>
    let lookup ← assocLookup map.lookup key (map.order.len, value)
    let order ← pushLast map.order (some (key, value))
    return ⟨lookup, order⟩
  | some (index, _) =>
    let lookup ← assocLookup map.lookup key (index, value)
    match ← assocOrder map.order index (some (key, value)) with
    | some order => return ⟨lookup, order⟩
    | none => .error (.expect "ordered-map index")

def assocValue (map : Standard K V) (key : K) (value : V) : Except Fault (Standard K V) :=
  map.assocValueWith keyHash (Champ.Standard.assocValue keyHash) Vector.Standard.pushLast
    Vector.Standard.assocValue key value

def assocValueOwned (map : Standard K V) (key : K) (value : V) : Except Fault (Standard K V) :=
  map.assocValueWith keyHash (Champ.Standard.assocValueOwned keyHash)
    Vector.Standard.pushLastOwned Vector.Standard.assocValueOwned key value

def fromIter (bindings : List (K × V)) : Except Fault (Standard K V) :=
  bindings.foldlM (fun map binding ↦ map.assocValue keyHash binding.1 binding.2) new

def compactIfSparse (map : Standard K V) : Except Fault (Standard K V) :=
  if map.order.len ≤ compactMinimum ∨ map.order.len ≤ 2 * map.lookup.len then .ok map
  else do
    fromIter keyHash (← map.iter)

def dissocValue (map : Standard K V) (key : K) : Except Fault (Standard K V) := do
  match ← map.lookup.get keyHash key with
  | none => return map
  | some (index, _) =>
    let lookup ← map.lookup.dissocValue keyHash key
    match ← map.order.assocValue index none with
    | some order => compactIfSparse keyHash ⟨lookup, order⟩
    | none => .error (.expect "ordered-map index")

end Standard

end Hara.OrderedMap
