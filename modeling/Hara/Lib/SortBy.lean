import Mathlib.Algebra.Order.Ring.Int
import Mathlib.Data.List.Destutter
import Mathlib.Data.List.Sort

/-!
# Sorting by a key

A list sorted by a key, in which items with equal keys keep their order, and a sorted list in which
only the first of the items with one key is kept. Byte strings are keys: they are compared as the
lists of their values.
-/

namespace Hara.Lib

open List hiding le_of_lt le_total

variable {α β γ : Type} [LinearOrder β]

/-- The items by ascending key. -/
def sortBy (f : α → β) (l : List α) : List α := l.insertionSort fun a b ↦ f a ≤ f b

/-- The keys ascend, and no two are equal. -/
def Ascending (f : α → β) (l : List α) : Prop := l.Pairwise fun a b ↦ f a < f b

variable {f : α → β} {l l' : List α}

theorem sortBy_perm (f : α → β) (l : List α) : (sortBy f l).Perm l := perm_insertionSort _ l

theorem pairwise_sortBy : (sortBy f l).Pairwise fun a b ↦ f a ≤ f b := by
  exact pairwise_insertionSort _ l

theorem sortBy_congr (hf : Function.Injective f) (hperm : l.Perm l') : sortBy f l = sortBy f l' :=
  ((sortBy_perm f l).trans (hperm.trans (sortBy_perm f l').symm)).eq_of_pairwise
    (fun _ _ _ _ hab hba ↦ hf (le_antisymm hab hba)) pairwise_sortBy pairwise_sortBy

theorem sortBy_of_pairwise (h : l.Pairwise fun a b ↦ f a ≤ f b) : sortBy f l = l :=
  h.insertionSort_eq

theorem map_sortBy (f : α → β) (g : γ → α) (l : List γ) :
    (sortBy (fun c ↦ f (g c)) l).map g = sortBy f (l.map g) :=
  map_insertionSort _ _ g l fun _ _ _ _ ↦ Iff.rfl

theorem Ascending.le (h : Ascending f l) : l.Pairwise fun a b ↦ f a ≤ f b := h.imp le_of_lt

/-- There is only one way to put items with different keys in order. -/
theorem Ascending.eq_of_perm (h : Ascending f l) (h' : Ascending f l') (hperm : l.Perm l') :
    l = l' :=
  hperm.eq_of_pairwise (fun _ _ _ _ hab hba ↦ absurd hab hba.asymm) h h'

/-- A sorted list without neighbours with the same key. -/
theorem ascending_of_isChain (h : l.Pairwise fun a b ↦ f a ≤ f b)
    (hne : l.IsChain fun a b ↦ f a ≠ f b) : Ascending f l := by
  induction l with
  | nil => exact .nil
  | cons a l ih =>
    obtain ⟨ha, hl⟩ := pairwise_cons.mp h
    have hrest := ih hl hne.tail
    refine pairwise_cons.mpr ⟨?_, hrest⟩
    cases l with
    | nil => nofun
    | cons b l =>
      have hab : f a < f b := lt_of_le_of_ne (ha b mem_cons_self) hne.rel
      intro c hc
      rcases mem_cons.mp hc with rfl | hc
      · exact hab
      · exact hab.trans (rel_of_pairwise_cons hrest hc)

theorem Ascending.isChain (h : Ascending f l) : l.IsChain fun a b ↦ f a ≠ f b :=
  (h.imp fun hab ↦ hab.ne).isChain

/-- Sorted, with the items whose keys are different. -/
theorem ascending_sortBy (h : (l.map f).Nodup) : Ascending f (sortBy f l) := by
  have hnodup : ((sortBy f l).map f).Nodup := ((sortBy_perm f l).map f).nodup_iff.mpr h
  have hne : (sortBy f l).Pairwise fun a b ↦ f a ≠ f b := pairwise_map.mp hnodup
  exact pairwise_sortBy.imp₂ (fun _ _ hle hne ↦ lt_of_le_of_ne hle hne) hne

/-- The only sorted list with these items. -/
theorem sortBy_eq_of_perm (hperm : l.Perm l') (h : Ascending f l') : sortBy f l = l' := by
  have hnodup : (l.map f).Nodup :=
    (hperm.map f).nodup_iff.mpr (pairwise_map.mpr (h.imp fun hab ↦ hab.ne))
  exact (ascending_sortBy hnodup).eq_of_perm h ((sortBy_perm f l).trans hperm)

theorem Ascending.nodup (h : Ascending f l) : (l.map f).Nodup :=
  pairwise_map.mpr (h.imp fun hab ↦ hab.ne)

/-- An item with a new key. -/
theorem Ascending.orderedInsert (h : Ascending f l) {a : α} (ha : f a ∉ l.map f) :
    Ascending f (l.orderedInsert (fun a b ↦ f a ≤ f b) a) := by
  have hperm := perm_orderedInsert (fun a b ↦ f a ≤ f b) a l
  have hnodup : ((l.orderedInsert (fun a b ↦ f a ≤ f b) a).map f).Nodup :=
    (hperm.map f).nodup_iff.mpr (nodup_cons.mpr ⟨ha, h.nodup⟩)
  have hle := h.le.orderedInsert a l
  exact hle.imp₂ (fun _ _ hle hne ↦ lt_of_le_of_ne hle hne) (pairwise_map.mp hnodup)

/-! ## Byte strings -/

/-- What a byte string is compared by. -/
def Rank := List ℕ

instance : LinearOrder Rank := inferInstanceAs (LinearOrder (List ℕ))

def rank (data : List UInt8) : Rank := data.map UInt8.toNat

theorem rank_injective : Function.Injective rank := by
  intro data data' h
  exact map_injective_iff.mpr (fun _ _ h ↦ UInt8.toNat_inj.mp h) h

/-! ## Items that are kept once -/

section Destutter

variable [DecidableEq α]

theorem mem_destutter'_ne (a b : α) : b ∈ l.destutter' (· ≠ ·) a ↔ b = a ∨ b ∈ l := by
  induction l generalizing a with
  | nil => rw [destutter'_nil, mem_singleton, or_iff_left not_mem_nil]
  | cons c l ih =>
    by_cases hne : a ≠ c
    · rw [destutter'_cons_pos _ hne, mem_cons, ih, mem_cons]
    · obtain rfl := not_not.mp hne
      rw [destutter'_cons_neg _ hne, ih, mem_cons, ← or_assoc, or_self]

/-- Dropping repetitions drops no item. -/
theorem mem_destutter_ne {l : List α} {b : α} : b ∈ l.destutter (· ≠ ·) ↔ b ∈ l := by
  cases l with
  | nil => rfl
  | cons a l => rw [destutter_cons', mem_destutter'_ne, mem_cons]

theorem ascending_destutter (hf : Function.Injective f) :
    Ascending f ((sortBy f l).destutter (· ≠ ·)) := by
  apply ascending_of_isChain
  · exact pairwise_sortBy.sublist (destutter_sublist _ _)
  · exact (isChain_destutter _ _).imp fun _ _ hne ↦ hf.ne hne

end Destutter

end Hara.Lib
