import Hara.Lib.Except
import Mathlib.Data.List.Perm.Subperm

/-!
# Depth-first order

Items require other items. The search from an item goes to what it requires first and then appends
the item. It stops at a bad item and at a cycle, and nowhere else; otherwise it adds the items that
can be reached, each after what it requires.
-/

namespace DepthFirst

open List Except
open Relation (TransGen ReflTransGen)

variable {α ε : Type}

/-- The search from an item, inside the searches from the `active` ones, of which there are fewer
than the first number allows. -/
def visit [DecidableEq α] (required : α → Except ε (List α)) (cycle : α → ε) :
    ℕ → List α → List α → α → Except ε (List α)
  | 0, _, _, a => .error (cycle a)
  | fuel + 1, active, ordered, a =>
    if a ∈ ordered then .ok ordered
    else if a ∈ active then .error (cycle a)
    else do
      let items ← required a
      let ordered ← items.foldlM (visit required cycle fuel (a :: active)) ordered
      pure (ordered ++ [a])

section

variable (R : α → α → Prop) (Bad : α → Prop)

/-- A bad item or a cycle can be reached. -/
def Blocked (a : α) : Prop := ∃ b, ReflTransGen R a b ∧ (Bad b ∨ TransGen R b b)

/-- Each item comes once, after all it requires, and none is bad. -/
inductive Settled : List α → Prop
  | nil : Settled []
  | push {l : List α} {a : α} (settled : Settled l) (new : a ∉ l) (good : ¬ Bad a)
      (after : ∀ b, R a b → b ∈ l) : Settled (l ++ [a])

/-- The search adds what is reached, or stops for a reason. -/
def Finds (ordered : List α) (reached : α → Prop) (stops : Prop) (result : Except ε (List α)) :
    Prop :=
  Ensures result (fun ordered' ↦ ¬ stops ∧ Settled R Bad ordered' ∧
    ∀ b, b ∈ ordered' ↔ b ∈ ordered ∨ reached b) fun _ ↦ stops

end

variable {R : α → α → Prop} {Bad : α → Prop} {ordered : List α} {a b : α}

theorem Settled.nodup (h : Settled R Bad ordered) : ordered.Nodup := by
  induction h with
  | nil => exact nodup_nil
  | push _ new _ _ ih =>
    exact (perm_append_singleton _ _).nodup_iff.mpr (nodup_cons.mpr ⟨new, ih⟩)

theorem Settled.step (h : Settled R Bad ordered) (ha : a ∈ ordered) (hab : R a b) :
    b ∈ ordered := by
  induction h with
  | nil => cases ha
  | push _ _ _ after ih =>
    rcases mem_append.mp ha with ha | ha
    · exact mem_append_left _ (ih ha)
    · obtain rfl := mem_singleton.mp ha
      exact mem_append_left _ (after b hab)

theorem Settled.closed (h : Settled R Bad ordered) (ha : a ∈ ordered) (hab : ReflTransGen R a b) :
    b ∈ ordered := by
  induction hab with
  | refl => exact ha
  | tail _ hbc ih => exact h.step ih hbc

theorem Settled.good (h : Settled R Bad ordered) (ha : a ∈ ordered) :
    ¬ (Bad a ∨ TransGen R a a) := by
  induction h with
  | nil => cases ha
  | push h new good after ih =>
    rcases mem_append.mp ha with ha | ha
    · exact ih ha
    · obtain rfl := mem_singleton.mp ha
      refine not_or_intro good fun hcycle ↦ ?_
      obtain ⟨b, hab, hba⟩ := TransGen.head'_iff.mp hcycle
      exact new (h.closed (after b hab) hba)

theorem Settled.not_blocked (h : Settled R Bad ordered) (ha : a ∈ ordered) : ¬ Blocked R Bad a := by
  rintro ⟨b, hab, hb⟩
  exact h.good (h.closed ha hab) hb

theorem Finds.iff {reached : α → Prop} {stops : Prop} {result : Except ε (List α)}
    (h : Finds R Bad [] reached stops result) :
    (∀ ordered, result = .ok ordered →
      Settled R Bad ordered ∧ ∀ b, b ∈ ordered ↔ reached b) ∧
    ((∃ e, result = .error e) ↔ stops) := by
  cases result with
  | error e => exact ⟨nofun, iff_of_true ⟨e, rfl⟩ h⟩
  | ok ordered =>
    obtain ⟨hgo, hsettled, hmem⟩ := h
    refine ⟨fun _ hok ↦ ?_, iff_of_false nofun hgo⟩
    cases hok
    exact ⟨hsettled, by simpa using hmem⟩

/-- Searches one after the other. -/
theorem finds_foldlM {γ : Type} {goals : List γ} {f : List α → γ → Except ε (List α)}
    {reached : γ → α → Prop} {stops : γ → Prop}
    (hf : ∀ g ∈ goals, ∀ ordered, Settled R Bad ordered →
      Finds R Bad ordered (reached g) (stops g) (f ordered g)) (h : Settled R Bad ordered) :
    Finds R Bad ordered (fun b ↦ ∃ g ∈ goals, reached g b) (∃ g ∈ goals, stops g)
      (goals.foldlM f ordered) := by
  induction goals generalizing ordered with
  | nil => exact ⟨by simp, h, by simp⟩
  | cons g goals ih =>
    obtain ⟨hg, hgoals⟩ := forall_mem_cons.mp hf
    simp only [exists_mem_cons_iff]
    refine ((hg ordered h).imp fun _ ↦ .inl).bind fun ordered₁ ⟨hgo, h₁, hmem₁⟩ ↦ ?_
    refine ((ih hgoals h₁).imp fun _ ↦ .inr).mono fun ordered₂ ⟨hgo', h₂, hmem₂⟩ ↦ ?_
    refine ⟨not_or_intro hgo hgo', h₂, fun b ↦ ?_⟩
    rw [hmem₂, hmem₁, or_assoc]

/-- **The search from an item** finds what it requires, directly or through others. -/
theorem finds_visit [DecidableEq α] {required : α → Except ε (List α)} {cycle : α → ε}
    {all active : List α} {fuel : ℕ} (hall : ∀ a ∈ all, ∀ b, R a b → b ∈ all)
    (hrequired : ∀ a ∈ all, Ensures (required a)
      (fun items ↦ ¬ Bad a ∧ ∀ b, b ∈ items ↔ R a b) fun _ ↦ Bad a)
    (hfuel : all.length < fuel + active.length) (hnodup : active.Nodup) (ha : a ∈ all)
    (hactive : ∀ b ∈ active, b ∈ all ∧ TransGen R b a) (h : Settled R Bad ordered) :
    Finds R Bad ordered (ReflTransGen R a) (Blocked R Bad a)
      (visit required cycle fuel active ordered a) := by
  induction fuel generalizing active ordered a with
  | zero =>
    have hle := (hnodup.subperm fun b hb ↦ (hactive b hb).1).length_le
    omega
  | succ fuel ih =>
    rw [visit]
    split_ifs with hordered hmem
    · refine ⟨h.not_blocked hordered, h, fun b ↦ ?_⟩
      exact (or_iff_left_of_imp fun hab ↦ h.closed hordered hab).symm
    · exact ⟨a, .refl, .inr (hactive a hmem).2⟩
    refine ((hrequired a ha).imp fun _ hbad ↦ ⟨a, .refl, .inl hbad⟩).bind ?_
    rintro items ⟨hbad, hitems⟩
    have hfold : Finds R Bad ordered (fun b ↦ ∃ c ∈ items, ReflTransGen R c b)
        (∃ c ∈ items, Blocked R Bad c)
        (items.foldlM (visit required cycle fuel (a :: active)) ordered) := by
      refine finds_foldlM (fun c hc ordered h ↦ ?_) h
      have hac := (hitems c).mp hc
      refine ih (by rw [length_cons]; omega) (nodup_cons.mpr ⟨hmem, hnodup⟩) (hall a ha c hac)
        (forall_mem_cons.mpr ⟨⟨ha, .single hac⟩, fun b hb ↦ ?_⟩) h
      exact ⟨(hactive b hb).1, (hactive b hb).2.tail hac⟩
    simp only [hitems] at hfold
    refine (hfold.imp ?_).bind fun ordered' ⟨_, h', hmem'⟩ ↦ ?_
    · rintro _ ⟨c, hac, b, hcb, hb⟩
      exact ⟨b, .head hac hcb, hb⟩
    -- an item that is reached from what it requires would be on a cycle
    have hnew : a ∉ ordered' := by
      intro hold
      obtain ⟨c, hac, hca⟩ := ((hmem' a).mp hold).resolve_left hordered
      exact h'.good hold (.inr (.head' hac hca))
    have hsettled := h'.push hnew hbad fun c hac ↦ (hmem' c).mpr (.inr ⟨c, hac, .refl⟩)
    refine ⟨hsettled.not_blocked (by simp), hsettled, fun b ↦ ?_⟩
    rw [mem_append, mem_singleton, hmem', ReflTransGen.cases_head_iff, or_assoc, eq_comm]
    exact or_congr_right or_comm

end DepthFirst
