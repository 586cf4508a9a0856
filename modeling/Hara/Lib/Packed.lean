import Mathlib.Algebra.Order.Ring.Int
import Mathlib.Data.List.Range

/-!
# Packed tables

A partial function on the positions below `n` can be stored as the list of its values, the place of
a value in the list being the number of values below it. Everything here follows from one
splitting: at a position `i`, the list is what is stored below `i`, the value at `i` if there is
one, and what is stored above `i`, and the two outer parts do not depend on the value at `i`.
-/

namespace Hara.Lib.Packed

open List

variable {β : Type}

/-- The values of `f` at the positions below `n`. -/
def pack (n : ℕ) (f : ℕ → Option β) : List β := (List.range n).filterMap f

/-- The values of `f` at the positions between `i` and `n`. -/
def above (i n : ℕ) (f : ℕ → Option β) : List β :=
  (List.range' (i + 1) (n - (i + 1))).filterMap f

/-- The number of positions below `i` at which `p` holds. -/
def rank (p : ℕ → Bool) (i : ℕ) : ℕ := (List.range i).countP p

theorem length_pack (n : ℕ) (f : ℕ → Option β) :
    (pack n f).length = rank (fun j ↦ (f j).isSome) n := by
  rw [pack, rank, length_filterMap_eq_countP]

variable {i : ℕ}

theorem rank_congr {p q : ℕ → Bool} (h : ∀ j < i, p j = q j) : rank p i = rank q i := by
  apply countP_congr
  intro j hj
  rw [h j (mem_range.mp hj)]

variable {n : ℕ} {f : ℕ → Option β}

theorem mem_pack {b : β} : b ∈ pack n f ↔ ∃ i < n, f i = some b := by
  simp [pack]

/-- Functions that are related at each position are stored as related lists. -/
theorem forall₂_pack {γ : Type} {R : β → γ → Prop} {g : ℕ → Option γ}
    (h : ∀ i < n, Option.Rel R (f i) (g i)) : List.Forall₂ R (pack n f) (pack n g) := by
  have hrange : ∀ l : List ℕ, (∀ i ∈ l, i < n) →
      List.Forall₂ R (l.filterMap f) (l.filterMap g) := by
    intro l hl
    induction l with
    | nil => exact .nil
    | cons i l ih =>
      have hi := h i (hl i mem_cons_self)
      have hrest := ih fun j hj ↦ hl j (mem_cons_of_mem i hj)
      rw [filterMap_cons, filterMap_cons]
      generalize f i = x at hi
      generalize g i = y at hi
      cases hi with
      | none => exact hrest
      | some hR => exact .cons hR hrest
  exact hrange _ fun i hi ↦ mem_range.mp hi

/-! ## The splitting -/

theorem range_eq (h : i < n) :
    List.range n = List.range i ++ (i :: List.range' (i + 1) (n - (i + 1))) := by
  have hsplit : List.range' 0 i ++ List.range' i (n - i) = List.range' 0 n := by
    have happend := @range'_append_1 0 i (n - i)
    rwa [Nat.zero_add, Nat.add_sub_cancel' (h.le)] at happend
  have hpeel : List.range' i (n - i) = i :: List.range' (i + 1) (n - (i + 1)) := by
    rw [show n - i = n - (i + 1) + 1 by omega, range'_succ]
  rw [range_eq_range', range_eq_range', ← hsplit, hpeel]

theorem pack_eq (h : i < n) : pack n f = pack i f ++ ((f i).toList ++ above i n f) := by
  rw [pack, range_eq h, filterMap_append, filterMap_cons]
  cases f i <;> rfl

theorem pack_update (b : Option β) : pack i (Function.update f i b) = pack i f := by
  apply filterMap_congr
  intro j hj
  exact Function.update_of_ne (ne_of_lt (mem_range.mp hj)) b f

theorem above_update (b : Option β) : above i n (Function.update f i b) = above i n f := by
  apply filterMap_congr
  intro j hj
  have hlt : i + 1 ≤ j := (mem_range'_1.mp hj).1
  exact Function.update_of_ne (Nat.ne_of_gt hlt) b f

/-- The splitting, for a function with another value at `i`. -/
theorem pack_update_eq (h : i < n) (b : Option β) :
    pack n (Function.update f i b) = pack i f ++ (b.toList ++ above i n f) := by
  rw [pack_eq h, pack_update, above_update, Function.update_self]

@[simp] theorem pack_none : pack n (fun _ ↦ (none : Option β)) = [] := by
  simp [pack]

@[simp] theorem above_none : above i n (fun _ ↦ (none : Option β)) = [] := by
  simp [above]

theorem pack_single (h : i < n) (b : β) :
    pack n (Function.update (fun _ ↦ none) i (some b)) = [b] := by
  rw [pack_update_eq h, pack_none, above_none]
  rfl

theorem pack_pair {j : ℕ} (hij : i < j) (hj : j < n) (b c : β) :
    pack n (Function.update (Function.update (fun _ ↦ none) i (some b)) j (some c)) = [b, c] := by
  have habove : above j n (Function.update (fun _ ↦ none) i (some b)) = [] := by
    apply filterMap_eq_nil_iff.mpr
    intro k hk
    have hlt : j + 1 ≤ k := (mem_range'_1.mp hk).1
    exact Function.update_of_ne (by omega) _ _
  rw [pack_update_eq hj, pack_single hij, habove]
  rfl

/-- What stands at the other places. -/
theorem mem_around (hi : i < n) {b : β} :
    b ∈ pack i f ++ above i n f ↔ ∃ j < n, j ≠ i ∧ f j = some b := by
  simp only [mem_append, mem_pack, above, mem_filterMap, mem_range'_1]
  constructor
  · rintro (⟨j, hj, hb⟩ | ⟨j, hj, hb⟩) <;> exact ⟨j, by omega, by omega, hb⟩
  · rintro ⟨j, hj, hne, hb⟩
    rcases Nat.lt_or_gt_of_ne hne with hlt | hgt
    · exact .inl ⟨j, hlt, hb⟩
    · exact .inr ⟨j, by omega, hb⟩

/-! ## Access by place -/

section Lists

variable (l l' : List β) (b c : β)

theorem getElem?_middle : (l ++ b :: l')[l.length]? = some b := by
  rw [getElem?_append_right le_rfl, Nat.sub_self, getElem?_cons_zero]

theorem set_middle : (l ++ b :: l').set l.length c = l ++ c :: l' := by
  rw [set_append_right _ _ le_rfl, Nat.sub_self, set_cons_zero]

theorem modify_middle (f : β → β) : (l ++ b :: l').modify l.length f = l ++ f b :: l' := by
  induction l with
  | nil => rfl
  | cons a l ih => rw [cons_append, length_cons, modify_succ_cons, ih, cons_append]

theorem eraseIdx_middle : (l ++ b :: l').eraseIdx l.length = l ++ l' := by
  rw [eraseIdx_append_of_length_le le_rfl, Nat.sub_self, eraseIdx_cons_zero]

theorem insertIdx_middle : (l ++ l').insertIdx l.length b = l ++ b :: l' := by
  induction l with
  | nil => rfl
  | cons a l ih => rw [cons_append, length_cons, insertIdx_succ_cons, ih, cons_append]

/-- The place where a search ends. -/
theorem exists_of_findIdx? {p : β → Bool} {l : List β} {i : ℕ} (h : l.findIdx? p = some i) :
    ∃ front b back, l = front ++ b :: back ∧ front.length = i ∧ p b := by
  obtain ⟨hi, hp, _⟩ := findIdx?_eq_some_iff_getElem.mp h
  refine ⟨l.take i, l[i], l.drop (i + 1), ?_, length_take_of_le (hi.le), hp⟩
  rw [getElem_cons_drop, take_append_drop]

end Lists

end Hara.Lib.Packed
