import Mathlib.Algebra.Order.Ring.Int
/-!
# What an iterator yields

An iterator is a state and a way to ask it for the next item. `Yields step s l` says that asking
again and again, from `s` on, gives the items of `l` and then the end. `drain` asks, with a bound on
how often.
-/

namespace Hara.Lib

variable {σ α : Type}

/-- Asking from `s` on gives the items of a list. -/
inductive Yields (step : σ → Option (α × σ) → Prop) : σ → List α → Prop
  | stop {s : σ} (h : step s none) : Yields step s []
  | next {s s' : σ} {a : α} {l : List α} (h : step s (some (a, s'))) (rest : Yields step s' l) :
      Yields step s (a :: l)

/-- The items, at most `fuel` of them. -/
def drain {ε : Type} (step : σ → Except ε (Option (α × σ))) : Nat → σ → Except ε (List α)
  | 0, _ => .ok []
  | fuel + 1, s => do
    match ← step s with
    | some (a, s) => return a :: (← drain step fuel s)
    | none => return []

/-- All the items, when the bound is not below their number. -/
theorem Yields.drain_eq {ε : Type} {step : σ → Except ε (Option (α × σ))} {s : σ} {l : List α}
    (h : Yields (fun s r ↦ step s = .ok r) s l) {fuel : Nat} (hfuel : l.length ≤ fuel) :
    drain step fuel s = .ok l := by
  induction h generalizing fuel with
  | stop hstop =>
    cases fuel with
    | zero => rfl
    | succ fuel =>
      rw [drain, hstop]
      rfl
  | next hnext _ ih =>
    cases fuel with
    | zero => exact absurd hfuel (Nat.not_succ_le_zero _)
    | succ fuel =>
      rw [drain, hnext]
      simp only [bind, Except.bind, ih (Nat.le_of_succ_le_succ hfuel)]
      rfl

end Hara.Lib
