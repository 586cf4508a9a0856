import Mathlib.Algebra.Order.Ring.Int
import Mathlib.Data.List.AList

/-!
# Finite maps

Finite maps with values of one type, as association lists with pairwise different keys. Looking up
after a change is stated with a case split on the key, and `retain` keeps the entries that pass a
test.
-/

namespace Hara.Lib

/-- A finite map from keys to values. -/
abbrev AssocMap (K V : Type) := AList fun _ : K ↦ V

namespace AssocMap

variable {K V : Type} [DecidableEq K] {m : AssocMap K V} {k k' : K} {v v' : V}

/-- The map without the entries that fail the test. -/
def retain (m : AssocMap K V) (p : K → V → Bool) : AssocMap K V where
  entries := m.entries.filter fun e ↦ p e.1 e.2
  nodupKeys := List.NodupKeys.sublist List.filter_sublist m.nodupKeys

/-- The values, in the order of the entries. -/
def values (m : AssocMap K V) : List V := m.entries.map fun e ↦ e.2

theorem lookup_insert_eq_some :
    (m.insert k v).lookup k' = some v' ↔
      k' = k ∧ v' = v ∨ k' ≠ k ∧ m.lookup k' = some v' := by
  by_cases hk : k' = k
  · subst hk
    simp [AList.lookup_insert, eq_comm]
  · simp [AList.lookup_insert_ne hk, hk]

/-- What holds for the new entry and for those before holds for every entry. -/
theorem forall_lookup_insert {P : K → V → Prop} (hnew : P k v)
    (hold : ∀ k v, m.lookup k = some v → P k v) :
    ∀ k' v', (m.insert k v).lookup k' = some v' → P k' v' := by
  intro k' v' h
  rcases lookup_insert_eq_some.mp h with ⟨rfl, rfl⟩ | ⟨-, h⟩
  · exact hnew
  · exact hold k' v' h

theorem lookup_erase_eq_some :
    (m.erase k).lookup k' = some v' ↔ k' ≠ k ∧ m.lookup k' = some v' := by
  by_cases hk : k' = k
  · subst hk
    simp [AList.lookup_erase]
  · simp [AList.lookup_erase_ne hk, hk]

theorem lookup_retain_eq_some {p : K → V → Bool} :
    (m.retain p).lookup k = some v ↔ m.lookup k = some v ∧ p k v := by
  have hmem := AList.mem_lookup_iff (s := m.retain p) (a := k) (b := v)
  rw [Option.mem_def] at hmem
  rw [hmem, retain, List.mem_filter, ← AList.mem_lookup_iff, Option.mem_def]

theorem mem_entries_iff {e : (_ : K) × V} : e ∈ m.entries ↔ m.lookup e.1 = some e.2 := by
  rw [← Option.mem_def, AList.mem_lookup_iff]

theorem mem_iff : k ∈ m ↔ ∃ v, m.lookup k = some v := by
  rw [← AList.lookup_isSome, Option.isSome_iff_exists]

theorem ne_of_lookup (h : m.lookup k = some v) (hnew : k' ∉ m) : k ≠ k' := by
  rintro rfl
  exact hnew (mem_iff.mpr ⟨v, h⟩)

theorem mem_values_iff : v ∈ m.values ↔ ∃ k, m.lookup k = some v := by
  constructor
  · intro h
    obtain ⟨e, he, rfl⟩ := List.mem_map.mp h
    exact ⟨e.1, mem_entries_iff.mp he⟩
  · rintro ⟨k, hk⟩
    exact List.mem_map.mpr ⟨⟨k, v⟩, mem_entries_iff.mpr hk, rfl⟩

/-- What is read off the values is different when it gives away the key. -/
theorem nodup_map_values {α : Type} {f : V → α}
    (h : ∀ {k v k' v'}, m.lookup k = some v → m.lookup k' = some v' → f v = f v' → k = k') :
    (m.values.map f).Nodup := by
  rw [values, List.map_map]
  refine List.Nodup.map_on ?_ (List.NodupKeys.nodup m.nodupKeys)
  rintro ⟨k, v⟩ he ⟨k', v'⟩ he' hsame
  rw [mem_entries_iff] at he he'
  obtain rfl := h he he' hsame
  obtain rfl := Option.some.inj (he.symm.trans he')
  rfl

end AssocMap

end Hara.Lib
