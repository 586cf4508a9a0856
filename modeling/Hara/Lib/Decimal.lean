import Mathlib.Data.Nat.Digits.Defs

/-!
# Decimal integers as texts

`toString` of an integer and the usual parser for it: an optional sign, then at least one digit.
Digits and their value are those of the core library (`Nat.toDigits`, `Nat.ofDigitChars`).
-/

namespace Decimal

/-- An unsigned number: digits only, at least one. -/
def digits? (text : List Char) : Option ℕ :=
  if text ≠ [] ∧ text.all Char.isDigit then some (Nat.ofDigitChars 10 text 0) else none

/-- A natural number, possibly with a plus sign. -/
def nat? : List Char → Option ℕ
  | '+' :: text => digits? text
  | text => digits? text

/-- An integer, possibly with a sign. -/
def int? : List Char → Option ℤ
  | '-' :: text => (digits? text).map fun n : ℕ ↦ -(n : ℤ)
  | text => (nat? text).map Int.ofNat

theorem isDigit_of_mem {n : ℕ} {c : Char} (h : c ∈ Nat.toDigits 10 n) : c.isDigit = true :=
  Nat.isDigit_of_mem_toDigits (by decide) (by decide) h

theorem digits?_toDigits (n : ℕ) : digits? (Nat.toDigits 10 n) = some n := by
  rw [digits?, if_pos, Nat.ofDigitChars_ten_toDigits]
  exact ⟨Nat.toDigits_ne_nil, List.all_eq_true.mpr fun c ↦ isDigit_of_mem⟩

/-- The first character of a number is a digit. -/
theorem toDigits_ne_cons {n : ℕ} {c : Char} {l : List Char} (hc : c.isDigit = false) :
    Nat.toDigits 10 n ≠ c :: l := by
  intro h
  have hdigit := isDigit_of_mem (h ▸ List.mem_cons_self)
  rw [hc] at hdigit
  cases hdigit

theorem nat?_toDigits (n : ℕ) : nat? (Nat.toDigits 10 n) = some n := by
  rw [nat?.eq_def]
  split
  · next heq => exact absurd heq (toDigits_ne_cons rfl)
  · exact digits?_toDigits n

theorem int?_repr (n : ℤ) : int? (toString n).toList = some n := by
  rw [Int.toString_eq_repr, Int.repr_eq_if]
  split
  · next hn =>
    rw [Nat.toList_repr, int?.eq_def]
    split
    · next heq => exact absurd heq (toDigits_ne_cons rfl)
    · rw [nat?_toDigits, Option.map_some, Int.ofNat_eq_natCast, Int.toNat_of_nonneg hn]
  · next hn =>
    have hsign : "-".toList = ['-'] := by decide
    rw [String.toList_append, Nat.toList_repr, hsign, List.singleton_append, int?, digits?_toDigits,
      Option.map_some]
    congr 1
    omega

/-- The characters of a decimal integer. -/
theorem mem_toString_int {n : ℤ} {c : Char} (h : c ∈ (toString n).toList) :
    c = '-' ∨ c.isDigit = true := by
  rw [Int.toString_eq_repr, Int.repr_eq_if] at h
  split at h
  · rw [Nat.toList_repr] at h
    exact .inr (isDigit_of_mem h)
  · rw [String.toList_append, Nat.toList_repr] at h
    rcases List.mem_append.mp h with h | h
    · exact .inl (by simpa using h)
    · exact .inr (isDigit_of_mem h)

theorem length_toString_int {n : ℤ} {k : ℕ} (hk : 0 < k) (h : n.natAbs < 10 ^ k) :
    (toString n).toList.length ≤ k + 1 := by
  have hnat : ∀ m : ℕ, m ≤ n.natAbs → (Nat.toDigits 10 m).length ≤ k := fun m hm ↦
    (Nat.length_toDigits_le_iff (by decide) hk).mpr (hm.trans_lt h)
  rw [Int.toString_eq_repr, Int.repr_eq_if]
  split
  · rw [Nat.toList_repr]
    exact Nat.le_succ_of_le (hnat _ (by omega))
  · rw [String.toList_append, Nat.toList_repr, List.length_append]
    have hdigits := hnat (-n).toNat (by omega)
    have hsign : "-".toList.length = 1 := by decide
    omega

end Decimal
