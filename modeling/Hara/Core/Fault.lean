import Mathlib.Algebra.Order.Ring.Int
/-!
# Faults

The places where the data structures of `lang/data` would stop. They are results of the modelled
operations, so that their absence can be stated.
-/

namespace Hara

/-- The ways an operation can stop. -/
inductive Fault where
  | unreachable (text : String)
  | expect (text : String)
  | assertion (text : String)
  | outOfBounds
  | shiftOverflow
  | subtractOverflow
  deriving DecidableEq, Repr

variable {α : Type}

/-- `items[index]`. -/
def itemAt (items : List α) (index : Nat) : Except Fault α :=
  match items[index]? with
  | some item => .ok item
  | none => .error .outOfBounds

/-- `items[index] = item`. -/
def setItem (items : List α) (index : Nat) (item : α) : Except Fault (List α) :=
  if index < items.length then .ok (items.set index item) else .error .outOfBounds

/-- `a - b`, of numbers that cannot be negative. -/
def subtract (a b : Nat) : Except Fault Nat :=
  if b ≤ a then .ok (a - b) else .error .subtractOverflow

theorem subtract_of_le {a b : Nat} (h : b ≤ a) : subtract a b = .ok (a - b) := if_pos h

theorem itemAt_of_getElem? {items : List α} {index : Nat} {item : α}
    (h : items[index]? = some item) : itemAt items index = .ok item := by
  rw [itemAt, h]

theorem setItem_of_lt {items : List α} {index : Nat} (h : index < items.length) (item : α) :
    setItem items index item = .ok (items.set index item) := if_pos h

end Hara
