import Mathlib.Algebra.Order.Ring.Int

/-!
# Sequences of writes to a store

A store is a function from keys to cells, and a write changes the cell of one key. What a sequence
of writes leaves in a cell depends only on the writes to its key: none of them, and the cell is
what it was; all of them the same idempotent change, and the cell is changed once, however often
and in whatever order the key is written.
-/

namespace Hara.Lib

variable {κ α : Type} [DecidableEq κ] {ws : List (κ × (α → α))}

/-- Make the writes in order. -/
def writeAll (m : κ → α) (ws : List (κ × (α → α))) : κ → α :=
  ws.foldl (fun m w ↦ Function.update m w.1 (w.2 (m w.1))) m

@[simp] theorem writeAll_cons (m : κ → α) (w : κ × (α → α)) (ws : List (κ × (α → α))) :
    writeAll m (w :: ws) = writeAll (Function.update m w.1 (w.2 (m w.1))) ws := rfl

theorem writeAll_append (m : κ → α) (ws ws' : List (κ × (α → α))) :
    writeAll m (ws ++ ws') = writeAll (writeAll m ws) ws' :=
  List.foldl_append

/-- A key that is not written keeps its cell. -/
theorem writeAll_of_forall_ne {m : κ → α} {k : κ} (h : ∀ w ∈ ws, w.1 ≠ k) :
    writeAll m ws k = m k := by
  induction ws generalizing m with
  | nil => rfl
  | cons w ws ih =>
    rw [writeAll_cons, ih fun w' hw' ↦ h w' (List.mem_cons_of_mem w hw')]
    exact Function.update_of_ne (h w List.mem_cons_self).symm _ _

/-- A key that is written, always with the same idempotent change, has its cell changed once. -/
theorem writeAll_of_agree {m : κ → α} {k : κ} {g : α → α} (hg : ∀ x, g (g x) = g x)
    (hmem : ∃ w ∈ ws, w.1 = k) (h : ∀ w ∈ ws, w.1 = k → w.2 = g) : writeAll m ws k = g (m k) := by
  induction ws generalizing m with
  | nil =>
    obtain ⟨w, hw, _⟩ := hmem
    exact absurd hw List.not_mem_nil
  | cons w ws ih =>
    have htail : ∀ w' ∈ ws, w'.1 = k → w'.2 = g := fun w' hw' ↦ h w' (List.mem_cons_of_mem w hw')
    -- the first write either leaves `k` alone or applies `g` to it
    have hfirst : w.1 = k → Function.update m w.1 (w.2 (m w.1)) k = g (m k) := by
      intro hk
      rw [h w List.mem_cons_self hk, hk, Function.update_self]
    rw [writeAll_cons]
    by_cases hlater : ∃ w' ∈ ws, w'.1 = k
    · rw [ih hlater htail]
      by_cases hk : w.1 = k
      · rw [hfirst hk, hg]
      · rw [Function.update_of_ne (Ne.symm hk)]
    · have hne : ∀ w' ∈ ws, w'.1 ≠ k := fun w' hw' hk ↦ hlater ⟨w', hw', hk⟩
      rw [writeAll_of_forall_ne hne]
      obtain ⟨w', hw', hk⟩ := hmem
      rcases List.mem_cons.mp hw' with rfl | hw'
      · exact hfirst hk
      · exact absurd hk (hne w' hw')

end Hara.Lib
