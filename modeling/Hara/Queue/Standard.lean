import Hara.Vector.Standard

/-!
# Queues

The queue of `lang/data/queue.rs`: a head that is read from an offset, then full segments in a
buffer, then a tail. The three parts are vectors and the size is counted on its own.

The buffer is a list of `lang/data/list.rs`, which is a list here.
-/

namespace Hara.Queue

variable {E : Type}

def maxLength : ℕ := 1024

structure Standard (E : Type) where
  size : ℕ
  offset : ℕ
  head : Vector.Standard E
  tail : Vector.Standard E
  buffer : List (Vector.Standard E)

namespace Standard

def new : Standard E := ⟨0, 0, .new, .new, []⟩

variable (queue : Standard E)

def len : ℕ := queue.size

def peekFirst : Except Fault (Option E) :=
  if queue.size = 0 then .ok none else queue.head.get queue.offset

/-- `v.get(v.len() - 1)`. -/
def lastOf (vector : Vector.Standard E) : Except Fault (Option E) := do
  vector.get (← subtract vector.len 1)

def peekLast : Except Fault (Option E) :=
  if queue.size = 0 then .ok none
  else if queue.tail.len ≠ 0 then lastOf queue.tail
  else if queue.buffer ≠ [] then
    match queue.buffer[queue.buffer.length - 1]? with
    | some segment => lastOf segment
    | none => .ok none
  else lastOf queue.head

def get (queue : Standard E) (index : ℕ) : Except Fault (Option E) :=
  if index ≥ queue.size then .ok none
  else
    -- `saturating_sub`
    let headRemaining := queue.head.len - queue.offset
    if index < headRemaining then queue.head.get (queue.offset + index)
    else
      let after := index - headRemaining
      if after / maxLength < queue.buffer.length then
        match queue.buffer[after / maxLength]? with
        | some segment => segment.get (after % maxLength)
        | none => .ok none
      else queue.tail.get (after % maxLength)

def pushLast (queue : Standard E) (value : E) : Except Fault (Standard E) := do
  let space ← subtract maxLength queue.offset
  if queue.size < space then
    let head ← queue.head.pushLast value
    return { queue with size := queue.size + 1, head := head }
  else
    let tail ← queue.tail.pushLast value
    if tail.len < maxLength then
      return { queue with size := queue.size + 1, tail := tail }
    else
      return { queue with
        size := queue.size + 1, tail := .new, buffer := queue.buffer ++ [tail] }

/-- The values that `iter` goes over: the head from the offset on, the segments and the tail. -/
def iter : Except Fault (List E) := do
  let head ← queue.head.toVec
  let segments ← queue.buffer.mapM Vector.Standard.toVec
  let tail ← queue.tail.toVec
  return head.drop queue.offset ++ segments.flatten ++ tail

def fromIter (values : List E) : Except Fault (Standard E) := values.foldlM pushLast new

def pushFirst (value : E) : Except Fault (Standard E) := do
  fromIter (value :: (← queue.iter))

def popFirstValue : Except Fault (Standard E) :=
  if queue.size = 0 then .ok queue
  else if queue.offset + 1 < maxLength then
    .ok { queue with size := queue.size - 1, offset := queue.offset + 1 }
  else
    match queue.buffer with
    | [] => .ok { queue with size := queue.size - 1, offset := 0, head := queue.tail, tail := .new }
    | segment :: segments =>
      .ok { queue with size := queue.size - 1, offset := 0, head := segment, buffer := segments }

/-- `pop_last_value`. With an empty tail the last segment becomes the tail, whole. -/
def popLastValue (queue : Standard E) : Except Fault (Standard E) :=
  if queue.size = 0 then .ok queue
  else if queue.tail.len ≠ 0 then do
    match ← queue.tail.popLastValue with
    | some tail => return { queue with size := queue.size - 1, tail := tail }
    | none => .error (.expect "nonempty tail")
  else if queue.buffer = [] then do
    let head ← queue.head.popLastValue
    return { queue with size := queue.size - 1, head := head.getD .new }
  else do
    let tail ← itemAt queue.buffer (queue.buffer.length - 1)
    return { queue with size := queue.size - 1, tail := tail, buffer := queue.buffer.dropLast }

end Standard

end Hara.Queue
