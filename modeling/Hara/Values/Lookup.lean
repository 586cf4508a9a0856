import Hara.Values.Equality

/-!
# What maps find

Each kind of map has its own way to look up a key: hash maps, ordered maps and priority maps through
a CHAMP map, sorted maps by `cmp`, and tries by the text of a string. What it finds, it has stored
under a key that counts as equal, whatever placement and order do. So a map that lists what it
has stored finds only what it lists (`Stored.found`).
-/

namespace Hara.Values

open Hara.SortedMap (Link findEntry)
open List hiding map

variable {L : Layer}

theorem eq_some_of_completed {α : Type} {result : Except Fault (Option α)} {value : α}
    (h : completed none result = some value) : result = .ok (some value) := by
  rcases result with fault | found
  · cases h
  · exact congrArg _ h

theorem mem_of_champ_get {V : Type} {values : Champ.Standard L.Carrier V}
    {stored : List (L.Carrier × V)} (hstored : values.entries = .ok stored) {key : L.Carrier}
    {value : V} (h : values.get L.placementHash key = .ok (some value)) :
    ∃ p ∈ stored, p.2 = value ∧ L.eq p.1 key = true := by
  rw [Champ.Standard.get] at h
  rcases hfind : Champ.findNode 0 (L.placementHash key) key values.root with fault | _ | p <;>
    rw [hfind] at h
  · cases h
  · cases h
  · obtain ⟨hmem, hkey⟩ := Champ.mem_of_findNode values.root hstored hfind
    exact ⟨p, hmem, Option.some.inj (Except.ok.inj h), hkey⟩

theorem mem_of_findEntry {V : Type} {key : L.Carrier} {p : L.Carrier × V}
    {link : Link L.Carrier V} (h : findEntry key link = some p) :
    p ∈ link.toList ∧ L.cmp key p.1 = .eq := by
  induction link with
  | empty | doubleEmpty => cases h
  | full color left k v right _ ihl ihr =>
    rw [findEntry] at h
    rw [Link.toList]
    cases hk : compare key k with
    | lt =>
      rw [hk] at h
      exact ⟨mem_append_left _ (ihl h).1, (ihl h).2⟩
    | gt =>
      rw [hk] at h
      exact ⟨mem_append_right _ (mem_cons_of_mem _ (ihr h).1), (ihr h).2⟩
    | eq =>
      rw [hk] at h
      obtain rfl := Option.some.inj h
      exact ⟨mem_append_right _ mem_cons_self, hk⟩

namespace Data

/-- A map that lists what it has stored, and orders no key alike with one that is not equal. -/
def Stored : Data L → Prop
  | map values => ∃ entries, values.entries = .ok entries
  | orderedMap values => ∃ stored entries, values.lookup.entries = .ok stored ∧
      values.iter = .ok entries ∧ ∀ p ∈ stored, (p.1, p.2.2) ∈ entries
  | sortedMap values => ∀ p ∈ values.toList, ∀ key, L.cmp key p.1 = .eq → L.eq key p.1 = true
  | priorityMap values => ∃ stored entries, values.priorities.entries = .ok stored ∧
      values.iter = .ok entries ∧ ∀ p ∈ stored, p ∈ entries
  | _ => True

/-- **A map finds only what it lists.** -/
theorem Stored.found {a : Data L} (h : a.Stored)
    (hatom : ∀ key x, L.asAtom key = some x → L.eq (L.ofAtom x) key = true)
    {entries : List (L.Carrier × L.Carrier)} {key value : L.Carrier}
    (hentries : a.shape = .bindings entries) (hvalue : a.mapValue key = some value) :
    ∃ p ∈ entries, p.2 = value ∧ (L.eq p.1 key = true ∨ L.eq key p.1 = true) := by
  cases a with
  | atom | sequential | setLike => cases hvalue
  | map values =>
    obtain ⟨stored, hstored⟩ := h
    obtain rfl : stored = entries := by
      rw [shape, hstored] at hentries
      exact Shape.bindings.inj hentries
    obtain ⟨p, hp, rfl, hkey⟩ := mem_of_champ_get hstored (eq_some_of_completed hvalue)
    exact ⟨p, hp, rfl, .inl hkey⟩
  | orderedMap values =>
    obtain ⟨stored, listed, hstored, hiter, hmem⟩ := h
    obtain rfl : listed = entries := by
      rw [shape, hiter] at hentries
      exact Shape.bindings.inj hentries
    have hget := eq_some_of_completed hvalue
    rw [OrderedMap.Standard.get] at hget
    rcases hfound : values.lookup.get L.placementHash key with fault | _ | slot <;>
      rw [hfound] at hget
    · cases hget
    · cases hget
    · obtain ⟨p, hp, rfl, hkey⟩ := mem_of_champ_get hstored hfound
      exact ⟨_, hmem p hp, Option.some.inj (Except.ok.inj hget), .inl hkey⟩
  | sortedMap values =>
    obtain ⟨p, hfind, rfl⟩ := Option.map_eq_some_iff.mp hvalue
    obtain rfl := Shape.bindings.inj hentries
    obtain ⟨hp, hcmp⟩ := mem_of_findEntry hfind
    exact ⟨p, hp, rfl, .inr (h p hp key hcmp)⟩
  | priorityMap values =>
    obtain ⟨stored, listed, hstored, hiter, hmem⟩ := h
    obtain rfl : listed = entries := by
      rw [shape, hiter] at hentries
      exact Shape.bindings.inj hentries
    obtain ⟨p, hp, rfl, hkey⟩ := mem_of_champ_get hstored (eq_some_of_completed hvalue)
    exact ⟨p, hmem p hp, rfl, .inl hkey⟩
  | trie stored =>
    obtain rfl := Shape.bindings.inj hentries
    rw [mapValue] at hvalue
    split at hvalue
    · next s hkey =>
      obtain ⟨entry, hfind, rfl⟩ := Option.map_eq_some_iff.mp hvalue
      obtain rfl : entry.1 = s := of_decide_eq_true (find?_some hfind :)
      exact ⟨_, mem_map_of_mem (mem_of_find?_eq_some hfind), rfl, .inl (hatom key _ hkey)⟩
    · cases hvalue

end Data

/-- Atoms are found by what they are. -/
theorem eq_ofAtom {formatDouble : Double → Text} {n : ℕ} (key : (layer formatDouble n).Carrier)
    (x : Atom) (h : (layer formatDouble n).asAtom key = some x) :
    (layer formatDouble n).eq ((layer formatDouble n).ofAtom x) key = true := by
  cases n with
  | zero =>
    cases h
    exact Atom.eq_iff.mpr rfl
  | succ n =>
    obtain rfl := Data.eq_atom_of_asAtom h
    exact Atom.eq_iff.mpr rfl

/-! ## Maps with one entry -/

variable {formatDouble : Double → Text} {n : ℕ}

/-- A string is alike only itself. -/
theorem eq_string_of_alike {a : (layer formatDouble n).Carrier} {s : Text}
    (h : Alike formatDouble n a ((layer formatDouble n).ofAtom (.string s))) :
    a = (layer formatDouble n).ofAtom (.string s) := by
  have hstring {x : Atom} (hx : x.eq (.string s) = true) : x = .string s := by
    rw [Atom.eq_iff] at hx
    cases x <;> cases hx
    rfl
  cases n with
  | zero => exact hstring h
  | succ n =>
    rcases Data.asAtom_of_alike h with ⟨-, hnone⟩ | ⟨x, y, hxa, hxb, hxy⟩
    · cases hnone
    · obtain rfl := Option.some.inj hxb
      obtain rfl := hstring hxy
      exact Data.eq_atom_of_asAtom hxa

theorem searchable_string (s : Text) :
    Searchable formatDouble n ((layer formatDouble n).ofAtom (.string s)) := by
  cases n with
  | zero => trivial
  | succ n => exact .of_parts nofun trivial nofun

variable {a : Data (layer formatDouble n)} {s : Text} {v : (layer formatDouble n).Carrier}

theorem searchable_one (hv : Searchable formatDouble n v) (hstored : a.Stored)
    (hshape : a.shape = .bindings [((layer formatDouble n).ofAtom (.string s), v)])
    (hget : a.mapValue ((layer formatDouble n).ofAtom (.string s)) = some v) :
    Searchable formatDouble (n + 1) a := by
  refine ⟨⟨?_, ?_, ?_⟩, ?_⟩
  · rw [hshape]
    intro x hx
    rcases mem_pair.mp hx with rfl | rfl
    · exact searchable_string s
    · exact hv
  · rw [hshape]
    exact pairwise_singleton _ _
  · intro entries key value
    exact hstored.found eq_ofAtom
  · intro entries hentries p hp key _ hlike
    obtain rfl := Shape.bindings.inj (hshape.symm.trans hentries)
    obtain rfl := mem_singleton.mp hp
    rw [eq_string_of_alike hlike]
    exact hget

end Hara.Values
