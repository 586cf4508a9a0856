import Mathlib.Algebra.Order.Ring.Int

/-!
# Names with generations

A registry gives out a name again after its owner is gone. So that an old handle does not reach
the new owner, every handle carries a generation, which is larger each time the name is given out.

`Stamps` is what such a registry shows: for each name the generation its next owner will get, and
which handles reach an owner now. A step of the registry may forget owners and may take in new
ones, but a new one only under a generation that was not given out before (`Follows`). A handle that
was given out and has lost its owner (`Retired`) stays without one.
-/

namespace Hara.Lib

/-- For each name the next generation, and the generations that have an owner now. -/
structure Stamps (Name : Type) where
  next : Name → ℕ
  live : Name → ℕ → Prop

namespace Stamps

variable {Name : Type} {s s' s'' : Stamps Name} {name : Name} {generation : ℕ}

/-- Every generation with an owner was given out. -/
def Issued (s : Stamps Name) : Prop := ∀ name generation, s.live name generation →
  generation < s.next name

/-- What steps of the registry may do: they take in owners under new generations only. -/
structure Follows (s s' : Stamps Name) : Prop where
  next_le : ∀ name, s.next name ≤ s'.next name
  live_new : ∀ name generation, s'.live name generation →
    s.live name generation ∨ s.next name ≤ generation

/-- The generation was given out and has no owner any more. -/
def Retired (s : Stamps Name) (name : Name) (generation : ℕ) : Prop :=
  generation < s.next name ∧ ¬s.live name generation

theorem Follows.refl (s : Stamps Name) : Follows s s := ⟨fun _ ↦ le_rfl, fun _ _ h ↦ .inl h⟩

theorem Follows.trans (h : Follows s s') (h' : Follows s' s'') : Follows s s'' where
  next_le name := (h.next_le name).trans (h'.next_le name)
  live_new := by
    intro name generation hlive
    rcases h'.live_new name generation hlive with hlive | hle
    · exact h.live_new name generation hlive
    · exact .inr ((h.next_le name).trans hle)

/-- A handle that lost its owner never gets one again. -/
theorem Retired.follows (h : Retired s name generation) (hf : Follows s s') :
    Retired s' name generation := by
  obtain ⟨hlt, hdead⟩ := h
  refine ⟨hlt.trans_le (hf.next_le name), ?_⟩
  intro hlive
  rcases hf.live_new name generation hlive with hlive | hle
  · exact hdead hlive
  · omega

/-- A handle that loses its owner in a step is without one after any later steps. -/
theorem Issued.not_live (h : Issued s) (hlive : s.live name generation) (hf : Follows s s')
    (hdead : ¬s'.live name generation) (hf' : Follows s' s'') : ¬s''.live name generation :=
  have hretired : Retired s' name generation :=
    ⟨(h name generation hlive).trans_le (hf.next_le name), hdead⟩
  (hretired.follows hf').2

end Stamps

end Hara.Lib
