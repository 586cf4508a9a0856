import Mathlib.Algebra.BigOperators.Group.List.Basic
import Mathlib.Algebra.Order.Ring.Int

/-!
# Lists with the same items in any order

`Matched R l m` says that the items of the two lists can be paired up so that each pair is related.
A list whose items all have a partner in a list of the same length is matched with it, if no two of
the items can have the same partner.
-/

namespace Hara.Lib

open List

variable {α β γ : Type}

/-! ## Lists with related items in order -/

variable {R : α → β → Prop} {l : List α} {m : List β}

theorem exists_forall₂ (h : ∀ a ∈ l, ∃ b, R a b) : ∃ m, List.Forall₂ R l m := by
  induction l with
  | nil => exact ⟨[], .nil⟩
  | cons a l ih =>
    obtain ⟨⟨b, hb⟩, hl⟩ := forall_mem_cons.mp h
    obtain ⟨m, hm⟩ := ih hl
    exact ⟨b :: m, .cons hb hm⟩

section

variable (h : List.Forall₂ R l m)

include h

theorem forall₂_trans {S : β → γ → Prop} {T : α → γ → Prop} {k : List γ}
    (hRST : ∀ a b c, R a b → S b c → T a c) (h' : List.Forall₂ S m k) : List.Forall₂ T l k := by
  induction h generalizing k with
  | nil =>
    cases h'
    exact .nil
  | cons hab _ ih =>
    cases h' with
    | cons hbc hrest => exact .cons (hRST _ _ _ hab hbc) (ih hrest)

theorem forall₂_and_mem : List.Forall₂ (fun a b ↦ a ∈ l ∧ b ∈ m ∧ R a b) l m := by
  induction h with
  | nil => exact .nil
  | cons hab _ ih =>
    refine .cons ⟨mem_cons_self, mem_cons_self, hab⟩ (ih.imp ?_)
    rintro a b ⟨ha, hb, hrelated⟩
    exact ⟨mem_cons_of_mem _ ha, mem_cons_of_mem _ hb, hrelated⟩

theorem exists_of_mem_left {a : α} (ha : a ∈ l) : ∃ b ∈ m, R a b := by
  induction h with
  | nil => exact absurd ha not_mem_nil
  | cons hab _ ih =>
    rcases mem_cons.mp ha with rfl | ha
    · exact ⟨_, mem_cons_self, hab⟩
    · obtain ⟨b, hb, hrelated⟩ := ih ha
      exact ⟨b, mem_cons_of_mem _ hb, hrelated⟩

theorem exists_of_mem_right {b : β} (hb : b ∈ m) : ∃ a ∈ l, R a b := exists_of_mem_left h.flip hb

end

/-! ## Lists with related items in any order -/

/-- The items can be paired up. -/
def Matched (R : α → β → Prop) (l : List α) (m : List β) : Prop :=
  ∃ m', m'.Perm m ∧ List.Forall₂ R l m'

namespace Matched

/-- Items with partners, of which no two can share one. -/
theorem of_forall_exists (hlength : l.length = m.length) (hpartner : ∀ a ∈ l, ∃ b ∈ m, R a b)
    (hapart : l.Pairwise fun a a' ↦ ∀ b, R a b → ¬R a' b) : Matched R l m := by
  induction l generalizing m with
  | nil =>
    obtain rfl : m = [] := length_eq_zero_iff.mp hlength.symm
    exact ⟨[], .refl _, .nil⟩
  | cons a l ih =>
    obtain ⟨hfirst, hrest⟩ := pairwise_cons.mp hapart
    obtain ⟨b, hb, hab⟩ := hpartner a mem_cons_self
    obtain ⟨front, back, rfl⟩ := append_of_mem hb
    have hperm : (b :: (front ++ back)).Perm (front ++ b :: back) := perm_middle.symm
    -- the others have their partners elsewhere
    obtain ⟨m', hm', hrelated⟩ := ih (m := front ++ back)
      (by rw [length_cons, ← hperm.length_eq] at hlength; exact Nat.succ.inj hlength)
      (fun a' ha' ↦ by
        obtain ⟨b', hb', hab'⟩ := hpartner a' (mem_cons_of_mem a ha')
        refine ⟨b', ?_, hab'⟩
        rcases mem_cons.mp (hperm.mem_iff.mpr hb') with rfl | hmem
        · exact absurd hab' (hfirst a' ha' b' hab)
        · exact hmem)
      hrest
    exact ⟨b :: m', (hm'.cons b).trans hperm, .cons hab hrelated⟩

theorem perm_left {l' : List α} (h : Matched R l m) (hperm : l'.Perm l) : Matched R l' m := by
  obtain ⟨m', hm', hrelated⟩ := h
  obtain ⟨m'', hm'', hperm'⟩ := perm_comp_forall₂ hperm hrelated
  exact ⟨m'', hperm'.trans hm', hm''⟩

theorem symm {S : β → α → Prop} (hRS : ∀ a b, R a b → S b a) (h : Matched R l m) :
    Matched S m l := by
  obtain ⟨m', hm', hrelated⟩ := h
  have hflip : List.Forall₂ S m' l := by
    induction hrelated generalizing m with
    | nil => exact .nil
    | cons hab _ ih => exact .cons (hRS _ _ hab) (ih (.refl _))
  obtain ⟨l', hl', hperm⟩ := perm_comp_forall₂ hm'.symm hflip
  exact ⟨l', hperm, hl'⟩

theorem trans {S : β → γ → Prop} {T : α → γ → Prop} {k : List γ}
    (hRST : ∀ a b c, R a b → S b c → T a c) (h : Matched R l m) (h' : Matched S m k) :
    Matched T l k := by
  obtain ⟨m', hm', hrelated⟩ := h
  obtain ⟨k', hk', hrelated'⟩ := h'.perm_left hm'
  exact ⟨k', hk', forall₂_trans hrelated hRST hrelated'⟩

theorem imp_mem {S : α → β → Prop} (h : Matched R l m)
    (hRS : ∀ a ∈ l, ∀ b ∈ m, R a b → S a b) : Matched S l m := by
  obtain ⟨m', hm', hrelated⟩ := h
  refine ⟨m', hm', (forall₂_and_mem hrelated).imp ?_⟩
  rintro a b ⟨ha, hb, hab⟩
  exact hRS a ha b (hm'.mem_iff.mp hb) hab

/-- Sums over matched lists. -/
theorem sum_eq {A : Type} [AddCommMonoid A] {f : α → A} {g : β → A}
    (hfg : ∀ {a b}, R a b → f a = g b) (h : Matched R l m) : (l.map f).sum = (m.map g).sum := by
  obtain ⟨m', hm', hrelated⟩ := h
  have hmap : l.map f = m'.map g := by
    clear hm'
    induction hrelated with
    | nil => rfl
    | cons hab _ ih => rw [map_cons, map_cons, hfg hab, ih]
  rw [hmap, (hm'.map g).sum_eq]

end Matched

end Hara.Lib
