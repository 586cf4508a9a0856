import Hara.Champ.Map

/-!
# A map as a function

`Answers s f n` says that the map answers lookups as `f` does and has `n` bindings. It is what the
structures that are built on maps need of them.
-/

namespace Hara.Champ

open Hara.Lib Keyed

variable {K V : Type} [BEq K]

/-- The function with another value at a key. -/
def update (f : K → Option V) (key : K) (value : V) : K → Option V :=
  fun k ↦ if key == k then some value else f k

/-- The function without a key. -/
def erase (f : K → Option V) (key : K) : K → Option V :=
  fun k ↦ if key == k then none else f k

/-- Lookups in the map are answered by the function, and its size is `n`. -/
def Answers (keyHash : K → Hash) (s : Standard K V) (f : K → Option V) (n : ℕ) : Prop :=
  ∃ m, Valid keyHash s m ∧ (∀ k, m.get k = f k) ∧ m.length = n

namespace Answers

variable {keyHash : K → Hash} {s : Standard K V} {f : K → Option V} {n : ℕ}

theorem new : Answers keyHash (.new : Standard K V) (fun _ ↦ none) 0 := ⟨[], .new, fun _ ↦ rfl, rfl⟩

theorem len_eq (h : Answers keyHash s f n) : s.len = n := by
  obtain ⟨m, hvalid, _, rfl⟩ := h
  exact hvalid.size.trans hvalid.length

variable [EquivBEq K]

section

variable (hash_eq : Respects keyHash) (h : Answers keyHash s f n) (key : K)

include hash_eq h key

theorem get_eq : s.get keyHash key = .ok (f key) := by
  obtain ⟨m, hvalid, hf, _⟩ := h
  rw [(hvalid.refines hash_eq).get, hf]

theorem assocValue (value : V) :
    ∃ s', s.assocValue keyHash key value = .ok s' ∧
      Answers keyHash s' (update f key value) (n + (f key).isNone.toNat) := by
  obtain ⟨m, hvalid, hf, rfl⟩ := h
  obtain ⟨s', hassoc, hvalid'⟩ := hvalid.assocRoot hash_eq
  have hinserted := inserted_drop (k := key) hvalid.bindings (key, value)
  refine ⟨s', hassoc, _, hvalid', ?_, ?_⟩
  · intro k
    rw [Bindings.get, Bindings.edit, hinserted.lookup BEq.rfl hvalid.bindings, update]
    by_cases hk : (key == k) = true
    · rw [if_pos hk, if_pos hk, Option.map_some]
    · rw [if_neg hk, if_neg hk]
      exact hf k
  · rw [Bindings.edit, hinserted.length, ← hf key, Bindings.get, Option.isNone_map]

theorem dissocValue (hkey : (f key).isSome) :
    ∃ s', s.dissocValue keyHash key = .ok s' ∧ Answers keyHash s' (erase f key) (n - 1) := by
  obtain ⟨m, hvalid, hf, rfl⟩ := h
  obtain ⟨s', hdissoc, hvalid'⟩ := hvalid.dissocRoot hash_eq key
  rw [← hf key, Bindings.get, Option.isSome_map] at hkey
  obtain ⟨old, hold⟩ := Option.isSome_iff_exists.mp hkey
  have hremoved := removed_drop hvalid.bindings hold
  refine ⟨s', hdissoc, _, hvalid', ?_, ?_⟩
  · intro k
    rw [Bindings.get, Bindings.edit, hremoved.lookup hvalid.bindings, erase]
    by_cases hk : (key == k) = true
    · rw [if_pos hk, if_pos hk, Option.map_none]
    · rw [if_neg hk, if_neg hk]
      exact hf k
  · rw [Bindings.edit, hremoved.length, Nat.add_sub_cancel]

end

end Answers

end Hara.Champ
