import Mathlib.Algebra.Order.Ring.Int
import Mathlib.Data.List.Basic

/-!
# Chunks of a list

A list cut into chunks of `w` elements, the last of which may be shorter or empty. The position `j`
is in chunk `j / w`, at `j % w`. Adding an element at the end and setting an element each change
one chunk.
-/

namespace Hara.Lib

open List hiding min

variable {α : Type} {w i j : ℕ} {l : List α} {a : α}

/-- The elements from `i * w` on, `w` of them where there are as many. -/
def chunk (w : ℕ) (l : List α) (i : ℕ) : List α := (l.drop (i * w)).take w

theorem getElem?_chunk (hj : j < w) : (chunk w l i)[j]? = l[i * w + j]? := by
  rw [chunk, getElem?_take_of_lt hj, getElem?_drop]

theorem getElem?_chunk_of_le (hj : w ≤ j) : (chunk w l i)[j]? = none := by
  refine getElem?_eq_none ?_
  rw [chunk, length_take]
  omega

theorem length_chunk : (chunk w l i).length = min w (l.length - i * w) := by
  rw [chunk, length_take, length_drop]

theorem chunk_eq_nil (h : l.length ≤ i * w) : chunk w l i = [] := by
  rw [chunk, drop_eq_nil_of_le h, take_nil]

theorem lt_length_of_chunk_ne_nil (h : chunk w l i ≠ []) : i * w < l.length := by
  by_contra hle
  exact h (chunk_eq_nil (Nat.le_of_not_lt hle))

theorem chunk_zero (h : l.length ≤ w) : chunk w l 0 = l := by
  rw [chunk, Nat.zero_mul, drop_zero, take_of_length_le h]

/-- The position of an element, from its chunk and its place there. -/
theorem getElem?_chunk_div (hw : 0 < w) : (chunk w l (j / w))[j % w]? = l[j]? := by
  rw [getElem?_chunk (Nat.mod_lt j hw), Nat.div_add_mod']

/-- The chunk after the last full one has what is left. -/
theorem length_chunk_last (hw : 0 < w) : (chunk w l (l.length / w)).length = l.length % w := by
  have hlt := Nat.mod_lt l.length hw
  have hsplit := Nat.div_add_mod' l.length w
  rw [length_chunk]
  omega

/-- Two lists have a chunk in common when they agree at its positions. -/
theorem chunk_congr {l' : List α} (h : ∀ j < w, l[i * w + j]? = l'[i * w + j]?) :
    chunk w l i = chunk w l' i := by
  refine ext_getElem? fun j ↦ ?_
  by_cases hj : j < w
  · rw [getElem?_chunk hj, getElem?_chunk hj, h j hj]
  · rw [getElem?_chunk_of_le (Nat.le_of_not_lt hj), getElem?_chunk_of_le (Nat.le_of_not_lt hj)]

theorem div_eq_of_mem_chunk (hj : j < w) : (i * w + j) / w = i := by
  rw [Nat.add_comm, Nat.add_mul_div_right j i (Nat.zero_lt_of_lt hj), Nat.div_eq_of_lt hj,
    Nat.zero_add]

theorem chunk_concat_of_ne (h : i ≠ l.length / w) : chunk w (l ++ [a]) i = chunk w l i := by
  refine chunk_congr fun j hj ↦ ?_
  have hne : i * w + j ≠ l.length := by
    intro heq
    rw [← heq, div_eq_of_mem_chunk hj] at h
    exact h rfl
  rcases Nat.lt_or_gt_of_ne hne with hlt | hgt
  · exact getElem?_append_left hlt
  · rw [getElem?_eq_none (hgt.le), getElem?_eq_none]
    rw [length_append]
    exact hgt

theorem chunk_concat (hw : 0 < w) :
    chunk w (l ++ [a]) (l.length / w) = chunk w l (l.length / w) ++ [a] := by
  have hlt := Nat.mod_lt l.length hw
  have hsplit := Nat.div_add_mod' l.length w
  rw [chunk, drop_append_of_le_length (by omega), take_append, length_drop]
  refine congrArg _ (take_of_length_le ?_)
  rw [length_singleton]
  omega

theorem chunk_set_of_ne (h : i ≠ j / w) : chunk w (l.set j a) i = chunk w l i := by
  refine chunk_congr fun k hk ↦ getElem?_set_ne ?_
  rintro rfl
  rw [div_eq_of_mem_chunk hk] at h
  exact h rfl

theorem chunk_set (hw : 0 < w) :
    chunk w (l.set j a) (j / w) = (chunk w l (j / w)).set (j % w) a := by
  have hlt := Nat.mod_lt j hw
  have hsplit := Nat.div_add_mod' j w
  rw [chunk, drop_set, if_neg (by omega), take_set]
  congr 1
  omega

/-! ## Lists of full chunks -/

section Flatten

variable {L : List (List α)}

section

variable (h : ∀ c ∈ L, c.length = w)

include h

theorem length_flatten_of_forall : L.flatten.length = L.length * w := by
  induction L with
  | nil => simp
  | cons c L ih =>
    obtain ⟨hc, hL⟩ := forall_mem_cons.mp h
    rw [flatten_cons, length_append, hc, ih hL, length_cons, Nat.succ_mul, Nat.add_comm]

/-- The chunks of a flattened list are what it was made from. -/
theorem chunk_flatten_append {i : ℕ} {c rest : List α} (hi : L[i]? = some c) :
    chunk w (L.flatten ++ rest) i = c := by
  induction L generalizing i with
  | nil => cases hi
  | cons d L ih =>
    obtain ⟨hd, hL⟩ := forall_mem_cons.mp h
    rw [flatten_cons, append_assoc]
    cases i with
    | zero =>
      obtain rfl := Option.some.inj hi
      rw [chunk, Nat.zero_mul, drop_zero, ← hd, take_left]
    | succ i =>
      rw [chunk, Nat.succ_mul, Nat.add_comm, ← drop_drop, drop_left' hd]
      exact ih hL hi

/-- After the full chunks comes the rest. -/
theorem chunk_flatten_append_length {rest : List α} (hrest : rest.length ≤ w) :
    chunk w (L.flatten ++ rest) L.length = rest := by
  rw [chunk, drop_left' (length_flatten_of_forall h), take_of_length_le hrest]

theorem flatten_set (hw : 0 < w) {c : List α} (hj : L[j / w]? = some c) :
    (L.set (j / w) (c.set (j % w) a)).flatten = L.flatten.set j a := by
  induction L generalizing j with
  | nil => cases hj
  | cons d L ih =>
    obtain ⟨hd, hL⟩ := forall_mem_cons.mp h
    by_cases hlt : j < w
    · rw [Nat.div_eq_of_lt hlt] at hj ⊢
      obtain rfl := Option.some.inj hj
      rw [set_cons_zero, flatten_cons, flatten_cons, Nat.mod_eq_of_lt hlt,
        set_append_left _ _ (hd ▸ hlt)]
    · have hle := Nat.le_of_not_lt hlt
      rw [Nat.div_eq_sub_div hw hle] at hj ⊢
      rw [set_cons_succ, flatten_cons, flatten_cons, Nat.mod_eq_sub_mod hle,
        set_append_right _ _ (hd ▸ hle), hd]
      exact congrArg _ (ih hL hj)

end

end Flatten

end Hara.Lib
