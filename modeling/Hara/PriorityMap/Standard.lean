import Hara.OrderedMap.Standard
import Hara.SortedMap.Tree

/-!
# Priority maps

The priority map of `lang/data/priority_map.rs`. Each key is stored twice: in a CHAMP map, with its
priority, and in the bucket of that priority. The buckets are the values of a sorted map. A bucket
is an ordered map of which only the keys are used.
-/

namespace Hara.PriorityMap

open Hara.Champ (Hash)
open Hara.Lib Hara.SortedMap

variable {K V : Type}

structure Standard (K V : Type) where
  priorities : Champ.Standard K V
  buckets : Link V (OrderedMap.Standard K Unit)

namespace Standard

def new : Standard K V := ⟨.new, .empty⟩

def len (map : Standard K V) : ℕ := map.priorities.len

variable (map : Standard K V)

/-- The buckets that `iter` goes over, with their keys. -/
def keysByPriority : Except Fault (List (V × List K)) := do
  let buckets ← drain (fun stack ↦ .ok (next stack)) map.buckets.size (pushLeft [] map.buckets)
  buckets.mapM fun bucket ↦ do
    let keys ← bucket.2.iter
    return (bucket.1, keys.map Prod.fst)

def iter : Except Fault (List (K × V)) := do
  let buckets ← map.keysByPriority
  return buckets.flatMap fun bucket ↦ bucket.2.map fun key ↦ (key, bucket.1)

def peekFirstEntry : Except Fault (Option (K × V)) := do
  return (← map.iter).head?

def peekLastEntry : Except Fault (Option (K × V)) := do
  return (← map.iter).getLast?

variable [BEq K] (keyHash : K → Hash)

def get (map : Standard K V) (key : K) : Except Fault (Option V) := map.priorities.get keyHash key

variable [Ord V]

/-- Take a key out of the bucket of its priority. A bucket that becomes empty is removed. -/
def leaveBucket (key : K) (old : V) (buckets : Link V (OrderedMap.Standard K Unit)) :
    Except Fault (Link V (OrderedMap.Standard K Unit)) :=
  match findEntry old buckets with
  | some (_, bucket) => do
    let next ← bucket.dissocValue keyHash key
    if next.isEmpty then remove buckets old else return put buckets old next
  | none => return buckets

/-- Take a key out of the bucket of its current priority, if it has one. -/
def leaveCurrent (key : K) (current : Option V) (buckets : Link V (OrderedMap.Standard K Unit)) :
    Except Fault (Link V (OrderedMap.Standard K Unit)) :=
  match current with
  | some old => leaveBucket keyHash key old buckets
  | none => return buckets

/-- Put a key into the bucket of a priority. -/
def joinBucket (key : K) (priority : V) (buckets : Link V (OrderedMap.Standard K Unit)) :
    Except Fault (Link V (OrderedMap.Standard K Unit)) := do
  let bucket := ((findEntry priority buckets).map Prod.snd).getD .new
  let bucket ← bucket.assocValue keyHash key ()
  return put buckets priority bucket

def assocValue [BEq V] (map : Standard K V) (key : K) (priority : V) :
    Except Fault (Standard K V) := do
  let current ← map.get keyHash key
  if current == some priority then return map
  else
    let buckets ← leaveCurrent keyHash key current map.buckets
    let buckets ← joinBucket keyHash key priority buckets
    let priorities ← map.priorities.assocValue keyHash key priority
    return ⟨priorities, buckets⟩

def dissocValue (map : Standard K V) (key : K) : Except Fault (Standard K V) := do
  match ← map.get keyHash key with
  | none => return map
  | some priority =>
    let buckets ← leaveBucket keyHash key priority map.buckets
    let priorities ← map.priorities.dissocValue keyHash key
    return ⟨priorities, buckets⟩

def popFirstValue (map : Standard K V) : Except Fault (Standard K V) := do
  match ← map.peekFirstEntry with
  | some (key, _) => map.dissocValue keyHash key
  | none => return map

def popLastValue (map : Standard K V) : Except Fault (Standard K V) := do
  match ← map.peekLastEntry with
  | some (key, _) => map.dissocValue keyHash key
  | none => return map

end Standard

end Hara.PriorityMap
