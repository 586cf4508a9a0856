import Mathlib.Algebra.Order.Ring.Int

/-!
# Families of stacks

A family has one stack for each index. `Pushed` compares two families that differ by pushes,
whatever was pushed and in whatever order; `popAll` pops stacks one after the other and stops where
there is nothing to pop. `popAll_eq_iff` tells when pops take back exactly what was pushed.
-/

namespace Stacks

open List

variable {ι α : Type} [DecidableEq ι] {ids popped : List ι} {a b : ι → List α} {id : ι}

/-- The second family has one more value for each occurrence of an index. -/
def Pushed (ids : List ι) (a b : ι → List α) : Prop :=
  ∀ id, ∃ values, values.length = ids.count id ∧ b id = values ++ a id

theorem Pushed.nil (a : ι → List α) : Pushed [] a a := fun _ ↦ ⟨[], rfl, rfl⟩

theorem Pushed.cons (h : Pushed ids a b) (id : ι) (value : α) :
    Pushed (id :: ids) a (Function.update b id (value :: b id)) := by
  intro id'
  obtain ⟨values, hlength, hvalues⟩ := h id'
  by_cases heq : id' = id
  · subst heq
    exact ⟨value :: values, by simp [hlength], by simp [hvalues]⟩
  · exact ⟨values, by simp [hlength, Ne.symm heq], by simp [heq, hvalues]⟩

theorem Pushed.perm (h : Pushed ids a b) {ids' : List ι} (hperm : ids ~ ids') :
    Pushed ids' a b := by
  intro id
  obtain ⟨values, hlength, hvalues⟩ := h id
  exact ⟨values, hlength.trans (hperm.count_eq id), hvalues⟩

/-- What was pushed is known up to its order. -/
theorem Pushed.perm_of (h : Pushed ids a b) {ids' : List ι} (h' : Pushed ids' a b) :
    ids ~ ids' := by
  rw [perm_iff_count]
  intro id
  obtain ⟨values, hlength, hvalues⟩ := h id
  obtain ⟨values', hlength', hvalues'⟩ := h' id
  rw [← hlength, ← hlength', append_cancel_right (hvalues.symm.trans hvalues')]

/-- One pop takes back one push. -/
theorem Pushed.pop (h : Pushed (id :: ids) a b) :
    ∃ value rest, b id = value :: rest ∧ Pushed ids a (Function.update b id rest) := by
  obtain ⟨values, hlength, hvalues⟩ := h id
  rw [count_cons_self] at hlength
  obtain ⟨value, rest, rfl⟩ := exists_cons_of_length_eq_add_one hlength
  refine ⟨value, rest ++ a id, hvalues, ?_⟩
  intro id'
  by_cases heq : id' = id
  · subst heq
    exact ⟨rest, by simpa using hlength, by simp⟩
  · obtain ⟨values', hlength', hvalues'⟩ := h id'
    exact ⟨values', by simpa [Ne.symm heq] using hlength', by simp [heq, hvalues']⟩

/-- Pops the stacks in turn, up to the first place that names no stack or an empty one. -/
def popAll : List (Option ι) → (ι → List α) → ι → List α
  | some id :: ids, σ =>
    match σ id with
    | _ :: rest => popAll ids (Function.update σ id rest)
    | [] => σ
  | _, σ => σ

theorem popAll_stuck {ids : List (Option ι)} (h : ∀ id, ids.head? = some (some id) → a id = []) :
    popAll ids a = a := by
  match ids with
  | [] => rfl
  | none :: _ => rfl
  | some id :: _ => rw [popAll, h id rfl]

/-- What is popped, and where it stops. -/
theorem popAll_spec (ids : List (Option ι)) (σ : ι → List α) :
    ∃ popped rest, ids = popped.map some ++ rest ∧ Pushed popped (popAll ids σ) σ ∧
      ∀ id, rest.head? = some (some id) → popAll ids σ id = [] := by
  induction ids generalizing σ with
  | nil => exact ⟨[], [], rfl, .nil _, nofun⟩
  | cons target ids ih =>
    match target with
    | none => exact ⟨[], none :: ids, rfl, .nil _, nofun⟩
    | some id =>
      match hstack : σ id with
      | [] =>
        have hstuck : popAll (some id :: ids) σ = σ := by rw [popAll, hstack]
        rw [hstuck]
        refine ⟨[], some id :: ids, rfl, .nil _, ?_⟩
        rintro _ ⟨⟩
        exact hstack
      | value :: below =>
        obtain ⟨popped, rest, hids, hpushed, hstuck⟩ := ih (Function.update σ id below)
        have hpop : popAll (some id :: ids) σ =
            popAll ids (Function.update σ id below) := by
          rw [popAll, hstack]
        have hback := hpushed.cons id value
        rw [Function.update_self, Function.update_idem, ← hstack, Function.update_eq_self] at hback
        rw [hpop]
        exact ⟨id :: popped, rest, by rw [hids, map_cons, cons_append], hback, hstuck⟩

theorem popAll_append (rest : List (Option ι)) (h : Pushed popped a b) :
    popAll (popped.map some ++ rest) b = popAll rest a := by
  induction popped generalizing b with
  | nil =>
    have hab : b = a := by
      funext id
      obtain ⟨values, hlength, hvalues⟩ := h id
      rw [hvalues, length_eq_zero_iff.mp hlength, nil_append]
    rw [hab, map_nil, nil_append]
  | cons id popped ih =>
    obtain ⟨value, below, hstack, hpop⟩ := h.pop
    rw [map_cons, cons_append, popAll, hstack]
    exact ih hpop

/-- Pops take back exactly what was pushed if and only if they start with the pushed stacks, in any
order, and stop there. -/
theorem popAll_eq_iff (h : Pushed ids a b) (targets : List (Option ι)) :
    popAll targets b = a ↔ ∃ popped rest, targets = popped.map some ++ rest ∧ popped ~ ids ∧
      ∀ id, rest.head? = some (some id) → a id = [] := by
  constructor
  · intro heq
    obtain ⟨popped, rest, htargets, hpushed, hstuck⟩ := popAll_spec targets b
    rw [heq] at hpushed hstuck
    exact ⟨popped, rest, htargets, hpushed.perm_of h, hstuck⟩
  · rintro ⟨popped, rest, rfl, hperm, hstuck⟩
    rw [popAll_append rest (h.perm hperm.symm), popAll_stuck hstuck]

end Stacks
