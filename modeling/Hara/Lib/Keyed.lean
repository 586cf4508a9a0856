import Mathlib.Algebra.Order.Ring.Int
import Mathlib.Data.List.Perm.Basic

/-!
# Keyed items in any order

A finite map as an unordered list of items with pairwise different keys. Keys are compared by a
boolean equality that need only be an equivalence, so two items with equal keys may still differ.

What it means to put in an item or to take one out is stated up to the order, so that a data
structure can be shown to do it one part at a time: `Inserted.append` and `Removed.append` add the
part that is left alone.
-/

namespace Hara.Lib.Keyed

variable {α K : Type} [BEq K] (key : α → K)

/-- The keys are pairwise different. -/
def Distinct (l : List α) : Prop := l.Pairwise fun a b ↦ (key a == key b) = false

/-- The item with the given key. -/
def lookup (k : K) (l : List α) : Option α := l.find? fun a ↦ key a == k

/-- No item has the key. -/
def Absent (k : K) (l : List α) : Prop := ∀ a ∈ l, (key a == k) = false

/-- Putting in `a` for the key `k`; the flag says whether the key is new. -/
inductive Inserted (k : K) (l : List α) (a : α) (l' : List α) : Bool → Prop
  | added (hnew : Absent key k l) (hperm : l'.Perm (a :: l)) : Inserted k l a l' true
  | replaced {old : α} {rest : List α} (hold : l.Perm (old :: rest)) (hkey : key old == k)
      (hperm : l'.Perm (a :: rest)) : Inserted k l a l' false

/-- Taking out the item with key `k`. -/
def Removed (k : K) (l l' : List α) : Prop := ∃ a, (key a == k) ∧ l.Perm (a :: l')

variable {key} {k k' : K} {l l' m m' r : List α} {a : α} {added : Bool}

theorem lookup_eq_none_iff : lookup key k l = none ↔ Absent key k l := by
  simp only [lookup, Absent, List.find?_eq_none, Bool.not_eq_true]

theorem Absent.perm (h : Absent key k l) (hperm : l.Perm l') : Absent key k l' :=
  fun a ha ↦ h a (hperm.mem_iff.mpr ha)

theorem Absent.append (h : Absent key k l) (h' : Absent key k l') : Absent key k (l ++ l') :=
  List.forall_mem_append.mpr ⟨h, h'⟩

/-! ## One part at a time -/

section

variable (h : Inserted key k l a l' added)

include h

theorem Inserted.append (hr : Absent key k r) (hm : m.Perm (l ++ r)) (hm' : m'.Perm (l' ++ r)) :
    Inserted key k m a m' added := by
  cases h with
  | added hnew hperm =>
    refine .added ((hnew.append hr).perm hm.symm) ?_
    calc m'.Perm (l' ++ r) := hm'
      _ |>.Perm ((a :: l) ++ r) := hperm.append_right r
      _ |>.Perm (a :: m) := hm.symm.cons a
  | replaced hold hkey hperm =>
    exact .replaced (hm.trans (hold.append_right r)) hkey (hm'.trans (hperm.append_right r))

theorem Inserted.perm (hperm : m.Perm l') : Inserted key k l a m added := by
  cases h with
  | added hnew hperm' => exact .added hnew (hperm.trans hperm')
  | replaced hold hkey hperm' => exact .replaced hold hkey (hperm.trans hperm')

omit h in
theorem Removed.append (h : Removed key k l l') (hm : m.Perm (l ++ r))
    (hm' : m'.Perm (l' ++ r)) : Removed key k m m' := by
  obtain ⟨a, hkey, hperm⟩ := h
  exact ⟨a, hkey, (hm.trans (hperm.append_right r)).trans (hm'.symm.cons a)⟩

theorem Inserted.length : l'.length = l.length + added.toNat := by
  cases h with
  | added hnew hperm => rw [hperm.length_eq, List.length_cons, Bool.toNat_true]
  | replaced hold hkey hperm =>
    rw [hperm.length_eq, hold.length_eq, List.length_cons, List.length_cons, Bool.toNat_false]

omit h in
theorem Removed.length (h : Removed key k l l') : l.length = l'.length + 1 := by
  obtain ⟨a, _, hperm⟩ := h
  rw [hperm.length_eq, List.length_cons]

theorem Inserted.mem {b : α} (hb : b ∈ l') : b = a ∨ b ∈ l := by
  cases h with
  | added hnew hperm => exact List.mem_cons.mp (hperm.mem_iff.mp hb)
  | replaced hold hkey hperm =>
    rcases List.mem_cons.mp (hperm.mem_iff.mp hb) with hb | hb
    · exact .inl hb
    · exact .inr (hold.mem_iff.mpr (List.mem_cons_of_mem _ hb))

end

theorem Removed.mem (h : Removed key k l l') {b : α} (hb : b ∈ l') : b ∈ l := by
  obtain ⟨a, _, hperm⟩ := h
  exact hperm.mem_iff.mpr (List.mem_cons_of_mem a hb)

/-! ## Lookups -/

theorem lookup_cons : lookup key k (a :: l) = if key a == k then some a else lookup key k l := by
  rw [lookup, List.find?_cons]
  cases key a == k <;> rfl

theorem lookup_append_of_absent (h : Absent key k r) :
    lookup key k (l ++ r) = lookup key k l := by
  rw [lookup, List.find?_append]
  have hnone : r.find? (fun a ↦ key a == k) = none := lookup_eq_none_iff.mpr h
  rw [hnone, Option.or_none]
  rfl

theorem Distinct.append_left (h : Distinct key (l ++ l')) : Distinct key l :=
  (List.pairwise_append.mp h).1

variable (key) in
/-- The items with other keys. -/
def drop (k : K) (l : List α) : List α := l.filter fun a ↦ !(key a == k)

theorem drop_of_absent (h : Absent key k l) : drop key k l = l := by
  apply List.filter_eq_self.mpr
  intro a ha
  rw [h a ha]
  rfl

theorem absent_drop (l : List α) : Absent key k (drop key k l) := by
  intro a ha
  simpa using (List.mem_filter.mp ha).2

theorem drop_cons :
    drop key k (a :: l) = if key a == k then drop key k l else a :: drop key k l := by
  rw [drop, List.filter_cons, drop]
  cases key a == k <;> rfl

variable [EquivBEq K]

theorem Distinct.perm (h : Distinct key l) (hperm : l.Perm l') : Distinct key l' := by
  refine hperm.pairwise h ?_
  intro a b hab
  rwa [BEq.comm]

theorem distinct_cons : Distinct key (a :: l) ↔ Absent key (key a) l ∧ Distinct key l := by
  rw [Distinct, List.pairwise_cons]
  refine and_congr_left' (forall₂_congr fun b _ ↦ ?_)
  rw [BEq.comm]

theorem Absent.congr (h : Absent key k l) (hk : k == k') : Absent key k' l := by
  intro a ha
  rw [← BEq.congr_right hk]
  exact h a ha

/-- The rest has no item with the key of the first. -/
theorem Distinct.absent_of_perm (h : Distinct key l) (hperm : l.Perm (a :: r))
    (hkey : key a == k) : Absent key k r :=
  ((distinct_cons.mp (h.perm hperm)).1).congr hkey

theorem lookup_eq_some_iff (h : Distinct key l) :
    lookup key k l = some a ↔ a ∈ l ∧ (key a == k) := by
  constructor
  · intro hfind
    have hkey := List.find?_some hfind
    exact ⟨List.mem_of_find?_eq_some hfind, hkey⟩
  · rintro ⟨hmem, hkey⟩
    induction l with
    | nil => exact absurd hmem List.not_mem_nil
    | cons b l ih =>
      obtain ⟨habsent, hdistinct⟩ := distinct_cons.mp h
      rcases List.mem_cons.mp hmem with rfl | hmem
      · exact List.find?_cons_of_pos hkey
      · -- the first item has another key than `a`, and `a` has the key looked for
        have hne : (key b == k) = false := by
          rw [← BEq.congr_right hkey, BEq.comm]
          exact habsent a hmem
        rw [lookup, List.find?_cons_of_neg (by rw [hne]; exact Bool.false_ne_true)]
        exact ih hdistinct hmem

/-- Where lookups find the same values, each item has its counterpart. -/
theorem exists_counterpart {β V : Type} {key' : β → K} {m : List β} {f : α → V} {g : β → V}
    (hl : Distinct key l) (hm : Distinct key' m)
    (h : ∀ k, (lookup key k l).map f = (lookup key' k m).map g) (ha : a ∈ l) :
    ∃ b ∈ m, (key a == key' b) = true ∧ f a = g b := by
  have hfound := h (key a)
  rw [(lookup_eq_some_iff hl).mpr ⟨ha, BEq.rfl⟩] at hfound
  obtain ⟨b, hb, hvalue⟩ := Option.map_eq_some_iff.mp hfound.symm
  obtain ⟨hmem, hkey⟩ := (lookup_eq_some_iff hm).mp hb
  exact ⟨b, hmem, BEq.symm hkey, hvalue.symm⟩

theorem lookup_perm (h : Distinct key l) (hperm : l.Perm l') :
    lookup key k l = lookup key k l' := by
  ext a
  rw [lookup_eq_some_iff h, lookup_eq_some_iff (h.perm hperm), hperm.mem_iff]

theorem Inserted.distinct (h : Inserted key k l a l' added) (ha : key a == k)
    (hl : Distinct key l) : Distinct key l' := by
  cases h with
  | added hnew hperm =>
    exact (distinct_cons.mpr ⟨hnew.congr (BEq.symm ha), hl⟩).perm hperm.symm
  | replaced hold hkey hperm =>
    have hrest := hl.absent_of_perm hold hkey
    have hdistinct := (distinct_cons.mp (hl.perm hold)).2
    exact (distinct_cons.mpr ⟨hrest.congr (BEq.symm ha), hdistinct⟩).perm hperm.symm

theorem Removed.distinct (h : Removed key k l l') (hl : Distinct key l) : Distinct key l' := by
  obtain ⟨a, _, hperm⟩ := h
  exact (distinct_cons.mp (hl.perm hperm)).2

/-- The flag says whether the key was there before. -/
theorem Inserted.added_eq (h : Inserted key k l a l' added) (hl : Distinct key l) :
    added = (Keyed.lookup key k l).isNone := by
  cases h with
  | added hnew _ => rw [lookup_eq_none_iff.mpr hnew, Option.isNone_none]
  | @replaced old _ hold hkey _ =>
    have hmem : old ∈ l := hold.mem_iff.mpr List.mem_cons_self
    rw [(lookup_eq_some_iff hl).mpr ⟨hmem, hkey⟩, Option.isNone_some]

/-- What is found after putting in an item. -/
theorem Inserted.lookup (h : Inserted key k l a l' added) (ha : key a == k) (hl : Distinct key l)
    (k' : K) :
    lookup key k' l' = if k == k' then some a else lookup key k' l := by
  have hsame : (key a == k') = (k == k') := BEq.congr_left ha
  cases h with
  | added hnew hperm =>
    rw [lookup_perm ((Inserted.added hnew hperm).distinct ha hl) hperm, lookup_cons, hsame]
  | @replaced old rest hold hkey hperm =>
    have hold' : (key old == k') = (k == k') := BEq.congr_left hkey
    rw [lookup_perm ((Inserted.replaced hold hkey hperm).distinct ha hl) hperm, lookup_cons, hsame,
      lookup_perm hl hold, lookup_cons, hold']
    cases k == k' <;> rfl

/-- What is found after taking out an item. -/
theorem Removed.lookup (h : Removed key k l l') (hl : Distinct key l) (k' : K) :
    lookup key k' l' = if k == k' then none else lookup key k' l := by
  obtain ⟨a, hkey, hperm⟩ := h
  have hsame : (key a == k') = (k == k') := BEq.congr_left hkey
  rw [lookup_perm hl hperm, lookup_cons, hsame]
  cases hk : k == k' with
  | false => rfl
  | true =>
    exact lookup_eq_none_iff.mpr ((hl.absent_of_perm hperm hkey).congr hk)

/-! ## The operations on lists -/

theorem perm_drop (h : Distinct key l) (ha : lookup key k l = some a) :
    l.Perm (a :: drop key k l) := by
  induction l with
  | nil => cases ha
  | cons b l ih =>
    obtain ⟨habsent, hdistinct⟩ := distinct_cons.mp h
    rw [lookup_cons] at ha
    rw [drop_cons]
    by_cases hb : (key b == k) = true
    · rw [if_pos hb] at ha ⊢
      rw [drop_of_absent (habsent.congr hb), Option.some.inj ha]
    · rw [if_neg hb] at ha ⊢
      exact ((ih hdistinct ha).cons b).trans (List.Perm.swap a b _)

/-- An item is put in front of those with other keys. -/
theorem inserted_drop (h : Distinct key l) (a : α) :
    Inserted key k l a (a :: drop key k l) (lookup key k l).isNone := by
  cases hold : lookup key k l with
  | none =>
    have habsent := lookup_eq_none_iff.mp hold
    rw [drop_of_absent habsent]
    exact .added habsent (List.Perm.refl _)
  | some old =>
    exact .replaced (perm_drop h hold) ((lookup_eq_some_iff h).mp hold).2 (List.Perm.refl _)

theorem removed_drop (h : Distinct key l) (ha : lookup key k l = some a) :
    Removed key k l (drop key k l) :=
  ⟨a, ((lookup_eq_some_iff h).mp ha).2, perm_drop h ha⟩

end Hara.Lib.Keyed
