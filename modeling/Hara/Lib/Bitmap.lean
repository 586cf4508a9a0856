import Hara.Lib.Packed

/-!
# Bitmaps

A bitmap is a set of positions below its width. A single position is the bitmap with one bit, and
the number of members below a position is found by masking with that bit less one.
-/

namespace Hara.Lib.Bitmap

open Packed

variable {w : ℕ}

/-- The bitmap with the one member `i`. -/
def single (w i : ℕ) : BitVec w := 1#w <<< i

/-- The number of members. -/
def countOnes (x : BitVec w) : ℕ := rank x.getLsbD w

/-- The number of members below the position of `bit`. -/
def index (x bit : BitVec w) : ℕ := countOnes (x &&& (bit - 1#w))

theorem single_eq_twoPow (i : ℕ) : single w i = BitVec.twoPow w i := by
  rw [single, BitVec.twoPow_eq]

variable {i : ℕ}

theorem getLsbD_single (h : i < w) (j : ℕ) : (single w i).getLsbD j = decide (j = i) := by
  rw [single_eq_twoPow]
  by_cases hj : j = i
  · simp [hj, h]
  · simp [hj, Ne.symm hj]

theorem single_injective {j : ℕ} (hi : i < w) (hj : j < w) (h : single w i = single w j) :
    i = j := by
  have hbit := congrArg (fun x ↦ x.getLsbD i) h
  simpa [getLsbD_single hi, getLsbD_single hj] using hbit

variable {x : BitVec w}

theorem and_single_ne_zero (h : i < w) : x &&& single w i ≠ 0 ↔ x.getLsbD i = true := by
  constructor
  · intro hne
    by_contra hx
    rw [Bool.not_eq_true] at hx
    apply hne
    apply BitVec.eq_of_getLsbD_eq
    intro j _
    rw [BitVec.getLsbD_and, getLsbD_single h]
    by_cases hj : j = i
    · simp [hj, hx]
    · simp [hj]
  · intro hx hzero
    have hbit := congrArg (fun y ↦ y.getLsbD i) hzero
    simp [getLsbD_single h, hx] at hbit

theorem getLsbD_or_single (h : i < w) (j : ℕ) :
    (x ||| single w i).getLsbD j = (x.getLsbD j || decide (j = i)) := by
  rw [BitVec.getLsbD_or, getLsbD_single h]

theorem getLsbD_xor_single (h : i < w) (j : ℕ) :
    (x ^^^ single w i).getLsbD j = (x.getLsbD j ^^ decide (j = i)) := by
  rw [BitVec.getLsbD_xor, getLsbD_single h]

/-- The bit less one has the members below its position. -/
theorem getLsbD_single_sub_one (h : i < w) (j : ℕ) :
    (single w i - 1#w).getLsbD j = decide (j < i) := by
  have hlt : 2 ^ i < 2 ^ w := Nat.pow_lt_pow_right (by decide) h
  have hpos : 0 < 2 ^ i := Nat.two_pow_pos i
  have htoNat : (single w i - 1#w).toNat = 2 ^ i - 1 := by
    rw [single_eq_twoPow, BitVec.toNat_sub_of_le]
    · rw [BitVec.toNat_twoPow, BitVec.toNat_ofNat, Nat.mod_eq_of_lt hlt,
        Nat.mod_eq_of_lt (lt_of_le_of_lt hpos hlt)]
    · rw [BitVec.le_def, BitVec.toNat_twoPow, BitVec.toNat_ofNat, Nat.mod_eq_of_lt hlt,
        Nat.mod_eq_of_lt (lt_of_le_of_lt hpos hlt)]
      exact hpos
  rw [BitVec.getLsbD, htoNat, Nat.testBit_two_pow_sub_one]

theorem index_single (h : i < w) : index x (single w i) = rank x.getLsbD i := by
  rw [index, countOnes, rank, rank, range_eq h, List.countP_append]
  have hbelow : (List.range i).countP (x &&& (single w i - 1#w)).getLsbD =
      (List.range i).countP x.getLsbD := by
    apply List.countP_congr
    intro j hj
    simp [getLsbD_single_sub_one h, List.mem_range.mp hj]
  have habove : (i :: List.range' (i + 1) (w - (i + 1))).countP
      (x &&& (single w i - 1#w)).getLsbD = 0 := by
    apply List.countP_eq_zero.mpr
    intro j hj
    have hle : ¬ j < i := by
      rcases List.mem_cons.mp hj with rfl | hj
      · exact lt_irrefl j
      · have hlow := (List.mem_range'_1.mp hj).1
        omega
    simp [getLsbD_single_sub_one h, hle]
  rw [hbelow, habove, Nat.add_zero]

/-- Having the position itself does not change the number of members below it. -/
theorem index_or_single (h : i < w) :
    index (x ||| single w i) (single w i) = index x (single w i) := by
  rw [index_single h, index_single h]
  apply rank_congr
  intro j hj
  rw [getLsbD_or_single h, decide_eq_false (ne_of_lt hj), Bool.or_false]

end Hara.Lib.Bitmap
