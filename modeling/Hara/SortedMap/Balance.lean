import Hara.SortedMap.Contents

/-!
# Colours

`Balanced t c n`: the root has colour `c`, no red node has a red child, and every path has `n` black
nodes. An insertion may leave one red node with a red child at the root (`RedRed`), and a removal a
root that counts twice (`Double`); `balance` and `rotate` repair the first and pass on the second.

## Removal

From a red tree, removal gives a balanced tree of any colour. From a black one it gives a black tree
or a double black one, and the latter only if both children are black. That is why `remove` paints
such a root red before it starts: no double black is left at the end.
-/

namespace Hara.SortedMap

open Hara.Lib SortedAssoc Std Link

variable {K V : Type}

/-- The colour of the root and the number of black nodes on every path. -/
inductive Balanced : Link K V → Color → ℕ → Prop
  | empty : Balanced .empty .black 0
  | red {l r : Link K V} {n : ℕ} (k : K) (v : V) (hl : Balanced l .black n)
      (hr : Balanced r .black n) : Balanced (full .red l k v r (l.size + r.size + 1)) .red n
  | black {l r : Link K V} {c₁ c₂ : Color} {n : ℕ} (k : K) (v : V) (hl : Balanced l c₁ n)
      (hr : Balanced r c₂ n) : Balanced (full .black l k v r (l.size + r.size + 1)) .black (n + 1)

/-- A tree whose root may be red above red children. -/
inductive RedRed : Link K V → ℕ → Prop
  | balanced {t : Link K V} {c : Color} {n : ℕ} (h : Balanced t c n) : RedRed t n
  | redRed {l r : Link K V} {c₁ c₂ : Color} {n : ℕ} (k : K) (v : V) (hl : Balanced l c₁ n)
      (hr : Balanced r c₂ n) : RedRed (full .red l k v r (l.size + r.size + 1)) n

/-- A tree whose root counts as two black nodes. -/
inductive Double : Link K V → ℕ → Prop
  | leaf : Double .doubleEmpty 1
  | node {l r : Link K V} {c₁ c₂ : Color} {n : ℕ} (k : K) (v : V) (hl : Balanced l c₁ n)
      (hr : Balanced r c₂ n) :
      Double (full .doubleBlack l k v r (l.size + r.size + 1)) (n + 2)

/-- What a removal gives, by the colour of the tree. -/
inductive Shrinks : Color → Link K V → ℕ → Prop
  | black {c : Color} {t : Link K V} {n : ℕ} (h : Balanced t .black n) : Shrinks c t n
  | any {c : Color} {t : Link K V} {n : ℕ} (h : Balanced t c n) : Shrinks .red t n
  | double {t : Link K V} {n : ℕ} (h : Double t n) : Shrinks .black t n

variable {t l r d a : Link K V} {c c₁ c₂ : Color} {n : ℕ} {k key : K} {v : V}

theorem Balanced.color_eq (h : Balanced t c n) : t.color = c := by
  cases h <;> rfl

theorem Balanced.plain (h : Balanced t c n) : Plain t := by
  induction h with
  | empty => trivial
  | red _ _ _ _ ihl ihr | black _ _ _ _ ihl ihr => exact Plain.node (by decide) ihl ihr _ _

theorem Balanced.eq_empty (h : Balanced t c n) (hsize : t.size = 0) : t = .empty ∧ n = 0 := by
  cases h with
  | empty => exact ⟨rfl, rfl⟩
  | red | black => cases hsize

/-- A black tree with a black node on each path has a node at its root. -/
theorem Balanced.exists_of_black (h : Balanced t .black (n + 1)) :
    ∃ l r k v c₁ c₂, t = full .black l k v r (l.size + r.size + 1) ∧ Balanced l c₁ n ∧
      Balanced r c₂ n := by
  cases h with
  | black k v hl hr => exact ⟨_, _, k, v, _, _, rfl, hl, hr⟩

theorem Balanced.blacken (h : Balanced t c n) : ∃ n', Balanced (blacken t) .black n' := by
  cases h with
  | empty => exact ⟨0, .empty⟩
  | red k v hl hr | black k v hl hr => exact ⟨_, .black k v hl hr⟩

theorem RedRed.blacken (h : RedRed t n) : ∃ n', Balanced (blacken t) .black n' := by
  cases h with
  | balanced h => exact h.blacken
  | redRed k v hl hr => exact ⟨_, .black k v hl hr⟩

theorem Double.color_eq (h : Double t n) : t.color = .doubleBlack := by
  cases h <;> rfl

theorem Balanced.not_double {m : ℕ} (h : Balanced t c n) : ¬ Double t m :=
  fun hdouble ↦ h.plain.color_ne hdouble.color_eq

theorem Double.exists_unblacken (h : Double t n) :
    ∃ m, n = m + 1 ∧ Balanced (unblacken t) .black m := by
  cases h with
  | leaf => exact ⟨0, rfl, .empty⟩
  | node k v hl hr => exact ⟨_, rfl, .black k v hl hr⟩

/-! ## Insertion -/

theorem Balanced.redRedLeft_eq (h : Balanced l c n) : redRedLeft l k v d = none := by
  cases h with
  | empty | black => rfl
  | red _ _ hl hr =>
    cases hl <;> cases hr <;> rfl

theorem Balanced.redRedRight_eq (h : Balanced r c n) : redRedRight a k v r = none := by
  cases h with
  | empty | black => rfl
  | red _ _ hl hr =>
    cases hl <;> cases hr <;> rfl

/-- A red-red on the left of a black root is repaired. -/
theorem RedRed.balance_left (hl : RedRed l n) (hr : Balanced r c n) :
    ∃ c', Balanced (balance (SortedMap.black l k v r)) c' (n + 1) := by
  simp only [SortedMap.balance, SortedMap.black, SortedMap.node, balanceBlack, hr.redRedRight_eq]
  cases hl with
  | balanced hl =>
    rw [hl.redRedLeft_eq]
    exact ⟨_, .black k v hl hr⟩
  | redRed xk xv ha hb =>
    have ha' := ha
    have hb' := hb
    cases ha with
    | red ak av haa hab =>
      exact ⟨_, .red xk xv (.black ak av haa hab) (.black k v hb hr)⟩
    | empty | black =>
      cases hb with
      | red bk bv hba hbb => exact ⟨_, .red bk bv (.black xk xv ha' hba) (.black k v hbb hr)⟩
      | _ => exact ⟨_, .black k v (.red xk xv ha' hb') hr⟩

theorem RedRed.balance_right (hl : Balanced l c n) (hr : RedRed r n) :
    ∃ c', Balanced (balance (SortedMap.black l k v r)) c' (n + 1) := by
  simp only [SortedMap.balance, SortedMap.black, SortedMap.node, balanceBlack, hl.redRedLeft_eq]
  cases hr with
  | balanced hr =>
    rw [hr.redRedRight_eq]
    exact ⟨_, .black k v hl hr⟩
  | redRed xk xv ha hb =>
    have ha' := ha
    have hb' := hb
    cases ha with
    | red ak av haa hab =>
      exact ⟨_, .red ak av (.black k v hl haa) (.black xk xv hab hb)⟩
    | empty | black =>
      cases hb with
      | red bk bv hba hbb => exact ⟨_, .red xk xv (.black k v hl ha') (.black bk bv hba hbb)⟩
      | _ => exact ⟨_, .black k v hl (.red xk xv ha' hb')⟩

section Put

variable [Ord K]

theorem Balanced.putRec (h : Balanced t c n) {value : V} :
    RedRed (putRec key value t) n ∧
      (c = .black → ∃ c', Balanced (putRec key value t) c' n) := by
  induction h with
  | empty => exact ⟨.balanced (.red key value .empty .empty), fun _ ↦ ⟨_, .red _ _ .empty .empty⟩⟩
  | red k v hl hr ihl ihr =>
    refine ⟨?_, nofun⟩
    rw [SortedMap.putRec]
    cases compare key k with
    | lt =>
      obtain ⟨_, hput⟩ := ihl.2 rfl
      exact .redRed k v hput hr
    | gt =>
      obtain ⟨_, hput⟩ := ihr.2 rfl
      exact .redRed k v hl hput
    | eq => exact .balanced (.red key value hl hr)
  | @black l r _ _ n k v hl hr ihl ihr =>
    have hput : ∃ c', Balanced
        (SortedMap.putRec key value (full .black l k v r (l.size + r.size + 1))) c' (n + 1) := by
      rw [SortedMap.putRec]
      cases compare key k with
      | lt => exact ihl.1.balance_left hr
      | gt => exact RedRed.balance_right hl ihr.1
      | eq => exact ⟨_, .black key value hl hr⟩
    obtain ⟨c', hput⟩ := hput
    exact ⟨.balanced hput, fun _ ↦ ⟨c', hput⟩⟩

theorem Balanced.put (h : Balanced t c n) (key : K) (value : V) :
    ∃ n', Balanced (put t key value) .black n' := h.putRec.1.blacken

end Put

/-! ## Rotation -/

theorem Balanced.doubleRedLeft_eq (h : Balanced l c n) (k : K) (v : V) (d : Link K V) :
    doubleRedLeft l k v d = none := by
  cases h with
  | empty | black => rfl
  | red _ _ _ hr => cases hr <;> rfl

theorem Balanced.doubleRedRight_eq (h : Balanced r c n) (k : K) (v : V) (a : Link K V) :
    doubleRedRight a k v r = none := by
  cases h with
  | empty | black => rfl
  | red _ _ hl _ => cases hl <;> rfl

/-- A red left child of a double black root: its right child may be red. -/
theorem balance_double_left {b : Link K V} (ha : Balanced a .black n) (hb : Balanced b c₁ n)
    (hd : Balanced d c₂ n) {xk : K} {xv : V} :
    Shrinks .black (balance (node .doubleBlack (red a xk xv b) k v d)) (n + 2) := by
  simp only [balance, node, balanceDoubleBlack, hd.doubleRedRight_eq]
  have hb' := hb
  cases hb with
  | red bk bv hba hbb => exact .black (.black bk bv (.black xk xv ha hba) (.black k v hbb hd))
  | empty | black => exact .double (.node k v (.red xk xv ha hb') hd)

theorem balance_double_right {b : Link K V} (hd : Balanced d c₂ n) (hb : Balanced b c₁ n)
    (ha : Balanced a .black n) {xk : K} {xv : V} :
    Shrinks .black (balance (node .doubleBlack d k v (red b xk xv a))) (n + 2) := by
  simp only [balance, node, balanceDoubleBlack, hd.doubleRedLeft_eq]
  have hb' := hb
  cases hb with
  | red bk bv hba hbb => exact .black (.black bk bv (.black k v hd hba) (.black xk xv hbb ha))
  | empty | black => exact .double (.node k v hd (.red xk xv hb' ha))

theorem rotate_red_left (hl : Shrinks .black l n) (hr : Balanced r .black n) :
    ∃ t c, rotate (node .red l k v r) = .ok t ∧ Balanced t c n := by
  cases hl with
  | black hl => exact ⟨_, _, Plain.rotate_eq hl.plain hr.plain, .red k v hl hr⟩
  | double hl =>
    simp only [rotate, node, hl.color_eq]
    obtain ⟨m, rfl, hl'⟩ := hl.exists_unblacken
    obtain ⟨rl, rr, rk, rv, _, _, rfl, hrl, hrr⟩ := hr.exists_of_black
    obtain ⟨c', hc'⟩ := RedRed.balance_left (.redRed k v hl' hrl) hrr
    exact ⟨_, c', rfl, hc'⟩

theorem rotate_red_right (hl : Balanced l .black n) (hr : Shrinks .black r n) :
    ∃ t c, rotate (node .red l k v r) = .ok t ∧ Balanced t c n := by
  cases hr with
  | black hr => exact ⟨_, _, Plain.rotate_eq hl.plain hr.plain, .red k v hl hr⟩
  | double hr =>
    simp only [rotate, node, hr.color_eq]
    obtain ⟨m, rfl, hr'⟩ := hr.exists_unblacken
    obtain ⟨ll, lr, lk, lv, _, _, rfl, hll, hlr⟩ := hl.exists_of_black
    obtain ⟨c', hc'⟩ := RedRed.balance_right hll (.redRed k v hlr hr')
    exact ⟨_, c', rfl, hc'⟩

/-- A removal on the left of a black root. -/
theorem rotate_black_left (hl : Shrinks c₁ l n) (hr : Balanced r c₂ n) :
    ∃ t, rotate (node .black l k v r) = .ok t ∧ Shrinks .black t (n + 1) ∧
      (Double t (n + 1) → c₁ = .black ∧ c₂ = .black) := by
  cases hl with
  | black hl | any hl =>
    have h := Balanced.black k v hl hr
    exact ⟨_, Plain.rotate_eq hl.plain hr.plain, .black h,
      fun hdouble ↦ absurd hdouble h.not_double⟩
  | double hl =>
    simp only [rotate, node, hl.color_eq]
    obtain ⟨m, rfl, hl'⟩ := hl.exists_unblacken
    cases hr with
    | red rk rv hrl hrr =>
      obtain ⟨a, b, yk, yv, _, _, rfl, ha, hb⟩ := hrl.exists_of_black
      obtain ⟨c', hc'⟩ := RedRed.balance_left (.redRed k v hl' ha) hb
      have h := Balanced.black rk rv hc' hrr
      exact ⟨_, rfl, .black h, fun hdouble ↦ absurd hdouble h.not_double⟩
    | black rk rv hrl hrr =>
      exact ⟨_, rfl, balance_double_left hl' hrl hrr, fun _ ↦ ⟨trivial, rfl⟩⟩

theorem rotate_black_right (hl : Balanced l c₁ n) (hr : Shrinks c₂ r n) :
    ∃ t, rotate (node .black l k v r) = .ok t ∧ Shrinks .black t (n + 1) ∧
      (Double t (n + 1) → c₁ = .black ∧ c₂ = .black) := by
  cases hr with
  | black hr | any hr =>
    have h := Balanced.black k v hl hr
    exact ⟨_, Plain.rotate_eq hl.plain hr.plain, .black h,
      fun hdouble ↦ absurd hdouble h.not_double⟩
  | double hr =>
    simp only [rotate, node, hr.color_eq]
    obtain ⟨m, rfl, hr'⟩ := hr.exists_unblacken
    cases hl with
    | red lk lv hll hlr =>
      obtain ⟨a, b, xk, xv, _, _, rfl, ha, hb⟩ := hlr.exists_of_black
      obtain ⟨c', hc'⟩ := RedRed.balance_right ha (.redRed k v hb hr')
      have h := Balanced.black lk lv hll hc'
      exact ⟨_, rfl, .black h, fun hdouble ↦ absurd hdouble h.not_double⟩
    | black lk lv hll hlr =>
      exact ⟨_, rfl, balance_double_right hll hlr hr', fun _ ↦ ⟨rfl, trivial⟩⟩

/-! ## Removal -/

theorem Shrinks.of_balanced (h : Balanced t c n) : Shrinks c t n := by
  cases h with
  | empty => exact .black .empty
  | red k v hl hr => exact .any (.red k v hl hr)
  | black k v hl hr => exact .black (.black k v hl hr)

theorem leftmost_full (hl : l.size ≠ 0) (k : K) (v : V) (size : ℕ) :
    leftmost (full c l k v r size) = leftmost l := by
  cases l with
  | empty | doubleEmpty => exact absurd rfl hl
  | full => rfl

/-- The least pair of a node is that of its left child, or its own. -/
theorem leftmost_node (hl : Balanced l c₁ n) {size : ℕ}
    (ih : l.size ≠ 0 → ∃ p rest, leftmost l = .ok p ∧ l.toList = p :: rest) :
    ∃ p rest, leftmost (full c l k v r size) = .ok p ∧
      (full c l k v r size).toList = p :: rest := by
  by_cases hsize : l.size = 0
  · obtain ⟨rfl, _⟩ := hl.eq_empty hsize
    exact ⟨(k, v), r.toList, rfl, rfl⟩
  · obtain ⟨p, rest, hp, hrest⟩ := ih hsize
    refine ⟨p, rest ++ (k, v) :: r.toList, ?_, ?_⟩
    · rw [leftmost_full hsize, hp]
    · rw [Link.toList, hrest]
      rfl

theorem Balanced.leftmost (h : Balanced t c n) (hsize : t.size ≠ 0) :
    ∃ p rest, leftmost t = .ok p ∧ t.toList = p :: rest := by
  induction h with
  | empty => exact absurd rfl hsize
  | red k v hl _ ihl _ | black k v hl _ ihl _ => exact leftmost_node hl ihl

/-- What a removal from a tree, with its contents before and after, has to do. -/
def Removes (t : Link K V) (after : List (K × V)) (result : Except Fault (Link K V)) : Prop :=
  ∀ c n, Balanced t c n → ∃ t', result = .ok t' ∧ Shrinks c t' n ∧ t'.toList = after

/-- Both children are black. -/
def BlackChildren : Link K V → Prop
  | full _ left _ _ right _ => left.color = .black ∧ right.color = .black
  | _ => False

variable {size : ℕ} {result : Except Fault (Link K V)}

/-- A removal on the left is followed by a rotation. -/
theorem Balanced.rotate_left {after : List (K × V)} (h : Balanced (full c l k v r size) c n)
    (hl : Removes l after result) :
    ∃ t, (result >>= fun l' ↦ rotate (node c l' k v r)) = .ok t ∧ Shrinks c t n ∧
      t.toList = after ++ (k, v) :: r.toList ∧
      (Double t n → BlackChildren (full c l k v r size)) := by
  cases h with
  | red _ _ hbl hbr =>
    obtain ⟨l', rfl, hshrinks, htoList⟩ := hl _ _ hbl
    obtain ⟨t, c', ht, hbalanced⟩ := rotate_red_left hshrinks hbr
    refine ⟨t, ht, .any hbalanced, ?_, fun _ ↦ ⟨hbl.color_eq, hbr.color_eq⟩⟩
    rw [toList_rotate ht, toList_node, htoList]
  | black _ _ hbl hbr =>
    obtain ⟨l', rfl, hshrinks, htoList⟩ := hl _ _ hbl
    obtain ⟨t, ht, hresult, hblack⟩ := rotate_black_left hshrinks hbr
    refine ⟨t, ht, hresult, ?_, ?_⟩
    · rw [toList_rotate ht, toList_node, htoList]
    · rwa [BlackChildren, hbl.color_eq, hbr.color_eq]

/-- And so is a removal on the right, where the pair of the root may also be replaced. -/
theorem Balanced.rotate_right {after : List (K × V)} (h : Balanced (full c l k v r size) c n)
    (hr : Removes r after result) {j : K} {w : V} :
    ∃ t, (result >>= fun r' ↦ rotate (node c l j w r')) = .ok t ∧ Shrinks c t n ∧
      t.toList = l.toList ++ (j, w) :: after ∧
      (Double t n → BlackChildren (full c l k v r size)) := by
  cases h with
  | red _ _ hbl hbr =>
    obtain ⟨r', rfl, hshrinks, htoList⟩ := hr _ _ hbr
    obtain ⟨t, c', ht, hbalanced⟩ := rotate_red_right hbl hshrinks
    refine ⟨t, ht, .any hbalanced, ?_, fun _ ↦ ⟨hbl.color_eq, hbr.color_eq⟩⟩
    rw [toList_rotate ht, toList_node, htoList]
  | black _ _ hbl hbr =>
    obtain ⟨r', rfl, hshrinks, htoList⟩ := hr _ _ hbr
    obtain ⟨t, ht, hresult, hblack⟩ := rotate_black_right hbl hshrinks
    refine ⟨t, ht, hresult, ?_, ?_⟩
    · rw [toList_rotate ht, toList_node, htoList]
    · rwa [BlackChildren, hbl.color_eq, hbr.color_eq]

theorem Balanced.color_full (h : Balanced (full c₁ l k v r size) c n) : c₁ = c := h.color_eq

/-- A balanced node without a left child has a single red node on the right, or none. -/
theorem Balanced.removeMin_here (h : Balanced (full c .empty k v r size) c n) :
    Shrinks c (removeMinHere c r) n ∧ (removeMinHere c r).toList = r.toList := by
  cases h with
  | red _ _ hbl hbr =>
    cases hbl
    cases hbr
    exact ⟨.black .empty, rfl⟩
  | black _ _ hbl hbr =>
    cases hbl
    cases hbr with
    | empty => exact ⟨.double .leaf, rfl⟩
    | red rk rv hrl hrr => exact ⟨.black (.black rk rv hrl hrr), rfl⟩

theorem removes_removeMin (hsize : t.size ≠ 0) : Removes t t.toList.tail (removeMin t) := by
  induction t with
  | empty | doubleEmpty => exact absurd rfl hsize
  | full color left k v right size ihl _ =>
    intro c n h
    obtain rfl := h.color_full
    rw [SortedMap.removeMin]
    by_cases hleft : left.size = 0
    · obtain rfl : left = .empty := by
        cases h with
        | red _ _ hbl _ | black _ _ hbl _ => exact (hbl.eq_empty hleft).1
      exact ⟨_, rfl, h.removeMin_here⟩
    · rw [if_neg hleft]
      obtain ⟨t, ht, hshrinks, htoList, _⟩ := h.rotate_left (ihl hleft)
      refine ⟨t, ht, hshrinks, ?_⟩
      rw [htoList, Link.toList, List.tail_append_of_ne_nil]
      intro hnil
      have hplain : Plain left := h.plain.2.1
      rw [hplain.size_eq, hnil] at hleft
      exact hleft rfl

/-- The removal of the pair of the root. -/
theorem Balanced.removeHere (h : Balanced (full c l k v r size) c n) :
    ∃ t, removeHere c l r size = .ok t ∧ Shrinks c t n ∧ t.toList = l.toList ++ r.toList ∧
      (Double t n → BlackChildren (full c l k v r size)) := by
  have hplain := h.plain
  rw [SortedMap.removeHere]
  by_cases hone : size = 1
  · have hl : l.size = 0 := by
      have := hplain.2.2.2
      omega
    have hr : r.size = 0 := by
      have := hplain.2.2.2
      omega
    cases h with
    | red _ _ hbl hbr =>
      obtain ⟨rfl, rfl⟩ := hbl.eq_empty hl
      obtain ⟨rfl, _⟩ := hbr.eq_empty hr
      exact ⟨_, rfl, .black .empty, rfl, fun _ ↦ ⟨rfl, rfl⟩⟩
    | black _ _ hbl hbr =>
      obtain ⟨rfl, rfl⟩ := hbl.eq_empty hl
      obtain ⟨rfl, _⟩ := hbr.eq_empty hr
      exact ⟨_, rfl, .double .leaf, rfl, fun _ ↦ ⟨rfl, rfl⟩⟩
  · rw [if_neg hone]
    by_cases hr : r.size = 0
    · rw [if_pos hr]
      refine ⟨_, rfl, ?_⟩
      cases h with
      | red _ _ hbl hbr =>
        obtain ⟨rfl, rfl⟩ := hbr.eq_empty hr
        cases hbl
        exact absurd rfl hone
      | black _ _ hbl hbr =>
        obtain ⟨rfl, rfl⟩ := hbr.eq_empty hr
        cases hbl with
        | empty => exact absurd rfl hone
        | red lk lv hll hlr =>
          have h := Balanced.black lk lv hll hlr
          exact ⟨.black h, by simp [Link.toList], fun hdouble ↦ absurd hdouble h.not_double⟩
    · rw [if_neg hr]
      obtain ⟨p, rest, hp, hrest⟩ :
          ∃ p rest, SortedMap.leftmost r = .ok p ∧ r.toList = p :: rest := by
        cases h with
        | red _ _ _ hbr | black _ _ _ hbr => exact hbr.leftmost hr
      obtain ⟨t, ht, hshrinks, htoList, hdouble⟩ := h.rotate_right (removes_removeMin hr)
      refine ⟨t, ?_, hshrinks, ?_, hdouble⟩
      · rw [hp]
        exact ht
      · rw [htoList, hrest]
        rfl

/-- A root that is painted red where it would count twice. -/
theorem Balanced.redden (h : Balanced t c n) :
    ∃ c' n', Balanced (redden t) c' n' ∧ (c' = .black → ¬ BlackChildren (redden t)) := by
  cases h with
  | empty => exact ⟨_, _, .empty, fun _ h ↦ h⟩
  | red k v hl hr => exact ⟨_, _, .red k v hl hr, nofun⟩
  | @black l r c₁ c₂ n k v hl hr =>
    rw [SortedMap.redden]
    by_cases hblack : l.color = .black ∧ r.color = .black
    · rw [if_pos ⟨rfl, hblack⟩]
      obtain ⟨hlc, hrc⟩ := hblack
      rw [hl.color_eq] at hlc
      rw [hr.color_eq] at hrc
      subst hlc hrc
      exact ⟨_, _, .red k v hl hr, nofun⟩
    · rw [if_neg fun h ↦ hblack h.2]
      exact ⟨_, _, .black k v hl hr, fun _ ↦ hblack⟩

section Remove

variable [Ord K] [TransOrd K]

theorem Balanced.removeRec (h : Balanced t c n) (hs : Sorted t.toList) :
    ∃ t', removeRec key t = .ok t' ∧ Shrinks c t' n ∧ t'.toList = erase key t.toList ∧
      (Double t' n → BlackChildren t) := by
  induction t generalizing c n with
  | empty =>
    exact ⟨.empty, rfl, .of_balanced h, rfl, fun hdouble ↦ absurd hdouble h.not_double⟩
  | doubleEmpty => cases h
  | full color left k v right size ihl ihr =>
    obtain rfl := h.color_full
    obtain ⟨hsl, hsr, hsplits⟩ := sorted_append_cons.mp hs
    rw [SortedMap.removeRec, Link.toList]
    cases hk : compare key k with
    | lt =>
      have hl : Removes left (erase key left.toList) (SortedMap.removeRec key left) := by
        intro c₁ m hbl
        obtain ⟨l', hl', hshrinks, htoList, _⟩ := ihl hbl hsl
        exact ⟨l', hl', hshrinks, htoList⟩
      rw [erase_append_of_lt hsplits hk]
      exact h.rotate_left hl
    | gt =>
      have hr : Removes right (erase key right.toList) (SortedMap.removeRec key right) := by
        intro c₂ m hbr
        obtain ⟨r', hr', hshrinks, htoList, _⟩ := ihr hbr hsr
        exact ⟨r', hr', hshrinks, htoList⟩
      rw [erase_append_of_gt hsplits hk]
      exact h.rotate_right hr
    | eq =>
      rw [erase_append_of_eq hsplits hk]
      exact h.removeHere

/-- Removal from a balanced tree. -/
theorem Balanced.remove (h : Balanced t c n) (hs : Sorted t.toList) :
    ∃ t' c' n', remove t key = .ok t' ∧ Balanced t' c' n' ∧ t'.toList = erase key t.toList := by
  obtain ⟨c', n', hred, hblack⟩ := h.redden
  obtain ⟨t', ht', hshrinks, htoList, hdouble⟩ := hred.removeRec (by rw [toList_redden]; exact hs)
  rw [toList_redden] at htoList
  -- no double black is left
  obtain ⟨c'', hbalanced⟩ : ∃ c'', Balanced t' c'' n' := by
    cases hshrinks with
    | black h | any h => exact ⟨_, h⟩
    | double h => exact absurd (hdouble h) (hblack rfl)
  rw [SortedMap.remove, ht']
  by_cases hsize : t'.size = t.size
  · -- nothing was removed
    have hlength : (erase key t.toList).length = t.toList.length := by
      rw [← htoList, ← hbalanced.plain.size_eq, hsize, h.plain.size_eq]
    have hsame : erase key t.toList = t.toList :=
      List.filter_eq_self.mpr (List.length_filter_eq_length_iff.mp hlength)
    exact ⟨t, c, n, congrArg Except.ok (if_pos hsize), h, hsame.symm⟩
  · exact ⟨t', c'', n', congrArg Except.ok (if_neg hsize), hbalanced, htoList⟩

end Remove

end Hara.SortedMap
