import Mathlib.Algebra.Order.Ring.Int

/-!
# Comparing for equality first

A comparison may ask whether two things are equal, and only then go by some order that does not know
of the equality. `CompatibleOn S` says that the outcome is a total order up to equality, on the
things in `S`. It is one when equality is an equivalence there, the order does not confuse what is
not equal, and nothing is ordered between two equal things (`Agrees.compatibleOn`).
-/

namespace Hara.Lib.EqFirst

open Std

variable {α : Type}

/-- Equal, or as the order says. -/
def compareFirst (eq : α → α → Bool) (order : α → α → Ordering) (a b : α) : Ordering :=
  if eq a b then .eq else order a b

/-- On `S`, a comparison is a total order up to an equality. -/
structure CompatibleOn (cmp : α → α → Ordering) (eq : α → α → Bool) (S : Set α) : Prop where
  eq_iff : ∀ a ∈ S, ∀ b ∈ S, cmp a b = .eq ↔ eq a b = true
  swap : ∀ a ∈ S, ∀ b ∈ S, cmp b a = (cmp a b).swap
  trans : ∀ a ∈ S, ∀ b ∈ S, ∀ c ∈ S, (cmp a b).isLE → (cmp b c).isLE → (cmp a c).isLE

/-- On `S`, an order goes with an equality. -/
structure Agrees (order : α → α → Ordering) (eq : α → α → Bool) (S : Set α) : Prop where
  symm : ∀ a ∈ S, ∀ b ∈ S, eq a b = true → eq b a = true
  trans : ∀ a ∈ S, ∀ b ∈ S, ∀ c ∈ S, eq a b = true → eq b c = true → eq a c = true
  /-- What is not equal is not confused. -/
  apart : ∀ a ∈ S, ∀ b ∈ S, order a b = .eq → eq a b = true
  /-- What is equal to neither of two equal things is on the same side of both. -/
  side : ∀ a ∈ S, ∀ b ∈ S, ∀ c ∈ S, eq a b = true → eq a c = false → order a c = order b c

variable {eq : α → α → Bool} {order : α → α → Ordering} {S : Set α} {a b c : α}

theorem compareFirst_of_eq (h : eq a b = true) : compareFirst eq order a b = .eq := if_pos h

theorem compareFirst_of_ne (h : eq a b = false) : compareFirst eq order a b = order a b :=
  if_neg (by rw [h]; exact Bool.false_ne_true)

namespace Agrees

variable [TransCmp order] (h : Agrees order eq S)
include h

omit [TransCmp order] in
theorem eq_comm (ha : a ∈ S) (hb : b ∈ S) : eq a b = eq b a :=
  Bool.eq_iff_iff.mpr ⟨h.symm a ha b hb, h.symm b hb a ha⟩

theorem side_right (ha : a ∈ S) (hb : b ∈ S) (hc : c ∈ S) (hbc : eq b c = true)
    (hab : eq a b = false) : order a b = order a c := by
  have hswap (x y : α) : order x y = (order y x).swap := OrientedCmp.eq_swap
  rw [hswap a b, hswap a c, h.side b hb c hc a ha hbc (by rw [h.eq_comm hb ha, hab])]

theorem compatibleOn : CompatibleOn (compareFirst eq order) eq S where
  eq_iff a ha b hb := by
    by_cases hab : eq a b = true
    · rw [compareFirst_of_eq hab]
      exact iff_of_true rfl hab
    · refine iff_of_false ?_ hab
      rw [Bool.not_eq_true] at hab
      rw [compareFirst_of_ne hab]
      intro heq
      rw [h.apart a ha b hb heq] at hab
      cases hab
  swap a ha b hb := by
    rw [compareFirst, compareFirst, h.eq_comm hb ha]
    by_cases hab : eq a b = true
    · rw [if_pos hab, if_pos hab]
      rfl
    · rw [if_neg hab, if_neg hab]
      exact OrientedCmp.eq_swap
  trans a ha b hb c hc hab hbc := by
    by_cases hac : eq a c = true
    · rw [compareFirst_of_eq hac]
      rfl
    rw [Bool.not_eq_true] at hac
    rw [compareFirst_of_ne hac]
    by_cases heq : eq a b = true
    · -- `c` is on the same side of `a` and `b`
      have hne : eq b c = false := by
        rw [← Bool.not_eq_true]
        intro hbc
        rw [h.trans a ha b hb c hc heq hbc] at hac
        cases hac
      rw [h.side a ha b hb c hc heq hac]
      rwa [compareFirst_of_ne hne] at hbc
    · rw [Bool.not_eq_true] at heq
      rw [compareFirst_of_ne heq] at hab
      by_cases heq' : eq b c = true
      · rwa [← h.side_right ha hb hc heq' heq]
      · rw [Bool.not_eq_true] at heq'
        rw [compareFirst_of_ne heq'] at hbc
        exact TransCmp.isLE_trans hab hbc

end Agrees

end Hara.Lib.EqFirst
