import Hara.Core.Fault
import Hara.Lib.SortedAssoc
import Hara.Lib.Yields

/-!
# Sorted maps

The red-black tree of `lang/data/sorted_map.rs`. A link is one of the two leaves or a node, and a
node records its size. The second leaf and the third colour are for deletion, which passes a missing
black node up as a double black until a rotation absorbs it.

Contents are settled here once for all colours: whatever the colours are, `balance` and `rotate`
only rearrange, so the operations are right on any tree that is in order and has its sizes right.
What the colours are for is that `rotate` finds the nodes it expects, and that is in
`Hara.SortedMap.Balance`.
-/

namespace Hara.SortedMap

open Hara.Lib SortedAssoc Std

inductive Color where
  | red | black | doubleBlack
  deriving DecidableEq, Repr

/-- `Link`, with the fields of `Node`. -/
inductive Link (K V : Type) where
  | empty
  | doubleEmpty
  | full (color : Color) (left : Link K V) (key : K) (value : V) (right : Link K V) (size : ℕ)
  deriving Repr

variable {K V U : Type}

namespace Link

def color : Link K V → Color
  | empty => .black
  | doubleEmpty => .doubleBlack
  | full color .. => color

def size : Link K V → ℕ
  | full _ _ _ _ _ size => size
  | _ => 0

end Link

open Link

/-- The constructor that records the size. -/
def node (color : Color) (left : Link K V) (key : K) (value : V) (right : Link K V) : Link K V :=
  .full color left key value right (left.size + right.size + 1)

def red (left : Link K V) (key : K) (value : V) (right : Link K V) : Link K V :=
  node .red left key value right

def black (left : Link K V) (key : K) (value : V) (right : Link K V) : Link K V :=
  node .black left key value right

def redden : Link K V → Link K V
  | full color left key value right size =>
    if color = .black ∧ left.color = .black ∧ right.color = .black then
      red left key value right
    else full color left key value right size
  | link => link

def blacken : Link K V → Link K V
  | full .red left key value right _ => black left key value right
  | link => link

def unblacken : Link K V → Link K V
  | doubleEmpty => empty
  | full .doubleBlack left key value right _ => black left key value right
  | link => link

/-! ## Rebalancing -/

/-- The red-red cases on the left of `balance_black`. -/
def redRedLeft (left : Link K V) (zk : K) (zv : V) (d : Link K V) : Option (Link K V) :=
  match left with
  | full .red (full .red a xk xv b s) yk yv c _ =>
    some (red (blacken (full .red a xk xv b s)) yk yv (black c zk zv d))
  | full .red a xk xv (full .red b yk yv c _) _ =>
    some (red (black a xk xv b) yk yv (black c zk zv d))
  | _ => none

/-- The red-red cases on the right of `balance_black`. -/
def redRedRight (a : Link K V) (xk : K) (xv : V) (right : Link K V) : Option (Link K V) :=
  match right with
  | full .red (full .red b yk yv c _) zk zv d _ =>
    some (red (black a xk xv b) yk yv (black c zk zv d))
  | full .red b yk yv (full .red c zk zv d s) _ =>
    some (red (black a xk xv b) yk yv (blacken (full .red c zk zv d s)))
  | _ => none

def balanceBlack : Link K V → Link K V
  | full color left key value right size =>
    ((redRedLeft left key value right).or (redRedRight left key value right)).getD
      (full color left key value right size)
  | link => link

/-- The red-red case on the left of `balance_double_black`. -/
def doubleRedLeft (left : Link K V) (zk : K) (zv : V) (d : Link K V) : Option (Link K V) :=
  match left with
  | full .red a xk xv (full .red b yk yv c _) _ =>
    some (black (black a xk xv b) yk yv (black c zk zv d))
  | _ => none

/-- The red-red case on the right of `balance_double_black`. -/
def doubleRedRight (a : Link K V) (xk : K) (xv : V) (right : Link K V) : Option (Link K V) :=
  match right with
  | full .red (full .red b yk yv c _) zk zv d _ =>
    some (black (black a xk xv b) yk yv (black c zk zv d))
  | _ => none

def balanceDoubleBlack : Link K V → Link K V
  | full color left key value right size =>
    ((doubleRedLeft left key value right).or (doubleRedRight left key value right)).getD
      (full color left key value right size)
  | link => link

def balance (link : Link K V) : Link K V :=
  match link with
  | full .black .. => balanceBlack link
  | full .doubleBlack .. => balanceDoubleBlack link
  | _ => link

/-- The `unreachable!` of `rotate`. -/
def noSibling : Fault := .unreachable "sibling of a double black must be an internal node"

/-- A double black on the left, and its sibling is black. The new root is of the given colour. -/
def rotateLeft (color : Color) (left : Link K V) (key : K) (value : V) :
    Link K V → Except Fault (Link K V)
  | full _ rl rk rv rr _ =>
    .ok (balance (node color (red (unblacken left) key value rl) rk rv rr))
  | _ => .error noSibling

/-- The mirror image. -/
def rotateRight (color : Color) (key : K) (value : V) (right : Link K V) :
    Link K V → Except Fault (Link K V)
  | full _ ll lk lv lr _ =>
    .ok (balance (node color ll lk lv (red lr key value (unblacken right))))
  | _ => .error noSibling

/-- A double black on the left, and its sibling is red. -/
def rotateRedLeft (link left : Link K V) (key : K) (value : V) :
    Link K V → Except Fault (Link K V)
  | full _ (full .black a yk yv b _) rk rv rr _ =>
    .ok (black (balance (black (red (unblacken left) key value a) yk yv b)) rk rv rr)
  | full .. => .ok link
  | _ => .error noSibling

/-- The mirror image. -/
def rotateRedRight (link : Link K V) (key : K) (value : V) (right : Link K V) :
    Link K V → Except Fault (Link K V)
  | full _ ll lk lv (full .black a xk xv b _) _ =>
    .ok (black ll lk lv (balance (black a xk xv (red b key value (unblacken right)))))
  | full .. => .ok link
  | _ => .error noSibling

def rotate (link : Link K V) : Except Fault (Link K V) :=
  match link with
  | full .red left key value right _ =>
    if left.color = .doubleBlack ∧ right.color = .black then
      rotateLeft .black left key value right
    else if right.color = .doubleBlack ∧ left.color = .black then
      rotateRight .black key value right left
    else .ok link
  | full .black left key value right _ =>
    if left.color = .doubleBlack ∧ right.color = .black then
      rotateLeft .doubleBlack left key value right
    else if left.color = .black ∧ right.color = .doubleBlack then
      rotateRight .doubleBlack key value right left
    else if left.color = .doubleBlack ∧ right.color = .red then
      rotateRedLeft link left key value right
    else if left.color = .red ∧ right.color = .doubleBlack then
      rotateRedRight link key value right left
    else .ok link
  | _ => .ok link

/-! ## Operations -/

def leftmost : Link K V → Except Fault (K × V)
  | full _ (full c l k v r s) _ _ _ _ => leftmost (full c l k v r s)
  | full _ _ key value _ _ => .ok (key, value)
  | _ => .error (.unreachable "min of an empty subtree")

/-- A node without a left child, without its pair. -/
def removeMinHere (color : Color) (right : Link K V) : Link K V :=
  if color = .red then empty else if right.size = 0 then doubleEmpty else blacken right

def removeMin (link : Link K V) : Except Fault (Link K V) :=
  match link with
  | full color left key value right _ =>
    if left.size = 0 then .ok (removeMinHere color right)
    else do
      let left ← removeMin left
      rotate (node color left key value right)
  | link => .ok link

def mapValues (f : K → V → U) : Link K V → Link K U
  | empty => empty
  | doubleEmpty => doubleEmpty
  | full color left key value right _ =>
    node color (mapValues f left) key (f key value) (mapValues f right)

/-- The validation that the tests use; `none` where it would stop. -/
def checkInvariant : Link K V → Option ℕ
  | empty => some 1
  | doubleEmpty => none
  | full color left _ _ right size =>
    if color = .doubleBlack then none
    else if color = .red ∧ (left.color = .red ∨ right.color = .red) then none
    else
      match checkInvariant left, checkInvariant right with
      | some leftDepth, some rightDepth =>
        if leftDepth = rightDepth ∧ size = left.size + right.size + 1 then
          some (leftDepth + if color = .black then 1 else 0)
        else none
      | _, _ => none

section Keys

variable [Ord K]

def putRec (key : K) (value : V) : Link K V → Link K V
  | empty => red empty key value empty
  | doubleEmpty => black empty key value empty
  | full color left k v right _ =>
    match compare key k with
    | .lt => balance (node color (putRec key value left) k v right)
    | .gt => balance (node color left k v (putRec key value right))
    | .eq => node color left key value right

def put (root : Link K V) (key : K) (value : V) : Link K V := blacken (putRec key value root)

/-- The removal of the pair of a node. -/
def removeHere (color : Color) (left right : Link K V) (size : ℕ) : Except Fault (Link K V) :=
  if size = 1 then .ok (if color = .black then doubleEmpty else empty)
  else if right.size = 0 then .ok (blacken left)
  else do
    let min ← leftmost right
    let right ← removeMin right
    rotate (node color left min.1 min.2 right)

def removeRec (key : K) (link : Link K V) : Except Fault (Link K V) :=
  match link with
  | full color left k v right size =>
    match compare key k with
    | .lt => do
      let left ← removeRec key left
      rotate (node color left k v right)
    | .gt => do
      let right ← removeRec key right
      rotate (node color left k v right)
    | .eq => removeHere color left right size
  | link => .ok link

def remove (root : Link K V) (key : K) : Except Fault (Link K V) := do
  let result ← removeRec key (redden root)
  return if result.size = root.size then root else result

def slice (min max : K) (link : Link K V) : Except Fault (Link K V) :=
  match link with
  | full color left key value right _ =>
    match compare key min, compare key max with
    | .lt, _ => slice min max right
    | _, .gt => slice min max left
    | _, _ => do
      let left ← slice min max left
      let right ← slice min max right
      rotate (node color left key value right)
  | link => .ok link

/-- `Standard::find_entry`. -/
def findEntry (key : K) : Link K V → Option (K × V)
  | full _ left k v right _ =>
    match compare key k with
    | .lt => findEntry key left
    | .gt => findEntry key right
    | .eq => some (k, v)
  | _ => none

end Keys

/-! ## Iteration -/

/-- The nodes on the stack of an iterator: a pair, and what comes after it. -/
abbrev Stack (K V : Type) := List ((K × V) × Link K V)

def pushLeft (stack : Stack K V) : Link K V → Stack K V
  | full _ left key value right _ => pushLeft (((key, value), right) :: stack) left
  | _ => stack

/-- `Iter::next`. -/
def next : Stack K V → Option ((K × V) × Stack K V)
  | [] => none
  | (pair, right) :: stack => some (pair, pushLeft stack right)

/-- The pairs in order. -/
def Link.toList : Link K V → List (K × V)
  | full _ left key value right _ => left.toList ++ (key, value) :: right.toList
  | _ => []

@[simp] theorem toList_node (color : Color) (left : Link K V) (key : K) (value : V)
    (right : Link K V) :
    (node color left key value right).toList = left.toList ++ (key, value) :: right.toList := rfl

/-- What a stack still has to list. -/
def Stack.toList (stack : Stack K V) : List (K × V) :=
  stack.flatMap fun item ↦ item.1 :: item.2.toList

theorem toList_pushLeft (stack : Stack K V) (link : Link K V) :
    (pushLeft stack link).toList = link.toList ++ stack.toList := by
  induction link generalizing stack with
  | empty | doubleEmpty => rfl
  | full _ left key value right _ ihl _ =>
    rw [pushLeft, ihl, Link.toList, List.append_assoc]
    rfl

/-- A stack yields what it has to list. -/
theorem yields_stack (stack : Stack K V) {l : List (K × V)} (h : stack.toList = l) :
    Yields (fun s r ↦ next s = r) stack l := by
  induction l generalizing stack with
  | nil =>
    cases stack with
    | nil => exact .stop rfl
    | cons item stack => cases h
  | cons p l ih =>
    cases stack with
    | nil => cases h
    | cons item stack =>
      obtain ⟨rfl, hrest⟩ := List.cons.inj h
      refine .next rfl (ih _ ?_)
      rw [toList_pushLeft]
      exact hrest

/-- Iteration lists the pairs in order. -/
theorem yields_iter {link : Link K V} :
    Yields (fun s r ↦ next s = r) (pushLeft [] link) link.toList :=
  yields_stack _ (by rw [toList_pushLeft]; exact List.append_nil _)

/-! ## Trees at rest -/

/-- Between operations there is no double black, and the recorded sizes are right. -/
def Plain : Link K V → Prop
  | empty => True
  | doubleEmpty => False
  | full color left _ _ right size =>
    color ≠ .doubleBlack ∧ Plain left ∧ Plain right ∧ size = left.size + right.size + 1

/-- Every node records the number of nodes of its subtree. -/
def Counted : Link K V → Prop
  | full _ left _ _ right size =>
    size = left.toList.length + right.toList.length + 1 ∧ Counted left ∧ Counted right
  | _ => True

variable {link left right t : Link K V} {color : Color} {key : K} {value : V}

theorem Counted.size_eq (h : Counted link) : link.size = link.toList.length := by
  cases link with
  | empty | doubleEmpty => rfl
  | full => rw [Link.size, h.1, Link.toList, List.length_append, List.length_cons, Nat.add_assoc]

@[simp] theorem counted_node :
    Counted (node color left key value right) ↔ Counted left ∧ Counted right := by
  refine ⟨And.right, fun h ↦ ⟨?_, h⟩⟩
  rw [h.1.size_eq, h.2.size_eq]

@[simp] theorem plain_node : Plain (node color left key value right) ↔
    color ≠ .doubleBlack ∧ Plain left ∧ Plain right :=
  and_congr_right fun _ ↦ and_congr_right fun _ ↦ and_iff_left rfl

namespace Plain

theorem node (hc : color ≠ .doubleBlack) (hl : Plain left) (hr : Plain right) (key : K)
    (value : V) : Plain (node color left key value right) := ⟨hc, hl, hr, rfl⟩

theorem color_ne (h : Plain link) : link.color ≠ .doubleBlack := by
  cases link with
  | empty => exact fun heq ↦ nomatch heq
  | doubleEmpty => exact h.elim
  | full color left key value right size => exact h.1

theorem counted (h : Plain link) : Counted link := by
  induction link with
  | empty | doubleEmpty => trivial
  | full color left k v right size ihl ihr =>
    obtain ⟨_, hl, hr, rfl⟩ := h
    exact counted_node.mpr ⟨ihl hl, ihr hr⟩

theorem size_eq (h : Plain link) : link.size = link.toList.length := h.counted.size_eq

/-- Without a double black there is nothing to rotate. -/
theorem rotate_eq {size : ℕ} (hl : Plain left) (hr : Plain right) :
    rotate (full color left key value right size) = .ok (full color left key value right size) := by
  cases color <;> simp [rotate, hl.color_ne, hr.color_ne]

end Plain

/-! ## Rearrangements -/

/-- The same pairs in order; right sizes stay right, and no double black comes in. -/
structure Rearranges (t link : Link K V) : Prop where
  toList : t.toList = link.toList
  counted : Counted link → Counted t
  plain : Plain link → Plain t

theorem Rearranges.refl (link : Link K V) : Rearranges link link := ⟨rfl, id, id⟩

theorem rearranges_blacken : Rearranges (blacken link) link := by
  unfold blacken
  split
  · constructor <;> simp +contextual [black, Link.toList, Counted, Plain]
  · exact .refl link

theorem rearranges_redden : Rearranges (redden link) link := by
  unfold redden
  split
  · split
    · constructor <;> simp +contextual [red, Link.toList, Counted, Plain]
    · exact .refl _
  · exact .refl link

@[simp] theorem toList_blacken : (blacken link).toList = link.toList := rearranges_blacken.toList

@[simp] theorem toList_redden : (redden link).toList = link.toList := rearranges_redden.toList

@[simp] theorem toList_unblacken : (unblacken link).toList = link.toList := by
  unfold unblacken
  split <;> rfl

@[simp] theorem counted_unblacken (h : Counted link) : Counted (unblacken link) := by
  unfold unblacken
  split
  · trivial
  · exact counted_node.mpr h.2
  · exact h

/-- The cases of `balance`. -/
theorem rearranges_cases (h : redRedLeft left key value right = some t ∨
    redRedRight left key value right = some t ∨ doubleRedLeft left key value right = some t ∨
    doubleRedRight left key value right = some t) :
    Rearranges t (node color left key value right) := by
  unfold redRedLeft redRedRight doubleRedLeft doubleRedRight at h
  rcases h with h | h | h | h <;> split at h
  all_goals cases h
  all_goals constructor <;> simp +contextual [red, black, blacken, Link.toList, Counted, Plain]

/-- The first of two cases that applies, or the link itself. -/
theorem Rearranges.getD_or {first second : Option (Link K V)}
    (hfirst : ∀ t, first = some t → Rearranges t link)
    (hsecond : ∀ t, second = some t → Rearranges t link) :
    Rearranges ((first.or second).getD link) link := by
  cases first with
  | some t => exact hfirst t rfl
  | none =>
    cases second with
    | some t => exact hsecond t rfl
    | none => exact .refl link

theorem rearranges_balance (left : Link K V) (key : K) (value : V) (right : Link K V) :
    Rearranges (balance (node color left key value right))
      (node color left key value right) := by
  cases color with
  | red => exact .refl _
  | black =>
    exact .getD_or (fun _ h ↦ rearranges_cases (.inl h)) fun _ h ↦ rearranges_cases (.inr (.inl h))
  | doubleBlack =>
    exact .getD_or (fun _ h ↦ rearranges_cases (.inr (.inr (.inl h))))
      fun _ h ↦ rearranges_cases (.inr (.inr (.inr h)))

@[simp] theorem toList_balance : (balance (node color left key value right)).toList =
    (node color left key value right).toList :=
  (rearranges_balance left key value right).toList

@[simp] theorem counted_balance (hl : Counted left) (hr : Counted right) :
    Counted (balance (node color left key value right)) :=
  (rearranges_balance left key value right).counted (counted_node.mpr ⟨hl, hr⟩)

/-- The cases of `rotate`. -/
theorem rearranges_rotations {c : Color}
    (hdouble : left.color = .doubleBlack ∨ right.color = .doubleBlack)
    (h : rotateLeft c left key value right = .ok t ∨ rotateRight c key value right left = .ok t ∨
      rotateRedLeft (node color left key value right) left key value right = .ok t ∨
      rotateRedRight (node color left key value right) key value right left = .ok t) :
    Rearranges t (node color left key value right) := by
  have hnot : ¬Plain (node color left key value right) := fun hplain ↦
    hdouble.elim hplain.2.1.color_ne hplain.2.2.1.color_ne
  unfold rotateLeft rotateRight rotateRedLeft rotateRedRight at h
  rcases h with h | h | h | h <;> split at h
  all_goals cases h
  all_goals refine ⟨?_, ?_, fun hplain ↦ absurd hplain hnot⟩
  all_goals simp +contextual [red, black, Link.toList, Counted]

/-- A rotation only rearranges. -/
theorem rearranges_rotate (h : rotate (node color left key value right) = .ok t) :
    Rearranges t (node color left key value right) := by
  cases color with
  | red =>
    simp only [rotate, node] at h
    split at h
    next hc => exact rearranges_rotations (.inl hc.1) (.inl h)
    split at h
    next hc => exact rearranges_rotations (.inr hc.1) (.inr (.inl h))
    exact Except.ok.inj h ▸ .refl _
  | black =>
    simp only [rotate, node] at h
    split at h
    next hc => exact rearranges_rotations (.inl hc.1) (.inl h)
    split at h
    next hc => exact rearranges_rotations (.inr hc.2) (.inr (.inl h))
    split at h
    next hc => exact rearranges_rotations (c := .red) (.inl hc.1) (.inr (.inr (.inl h)))
    split at h
    next hc => exact rearranges_rotations (c := .red) (.inr hc.2) (.inr (.inr (.inr h)))
    exact Except.ok.inj h ▸ .refl _
  | doubleBlack => exact Except.ok.inj h ▸ .refl _

theorem toList_rotate (h : rotate (node color left key value right) = .ok t) :
    t.toList = (node color left key value right).toList := (rearranges_rotate h).toList

end Hara.SortedMap
