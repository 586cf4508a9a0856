import Mathlib.Algebra.Order.Ring.Int
import Mathlib.Data.Set.Finite.List

/-!
# Ordering by dependencies, least name first

Items have a name and depend on names. The loop takes, again and again, the item with the least
name among those that depend on nothing that is left. It gets stuck exactly if the dependencies
have a cycle, and otherwise its result is the least of all orders in which every item comes after
what it depends on. Names that are not among the items do not matter.
-/

namespace LeastFirst

open List hiding le_antisymm le_of_lt le_refl

variable {α β K : Type}

section

variable (name : α → K) (deps : α → List K)

/-- The item depends on nothing that is left. -/
def Available (rest : List α) (a : α) : Prop := ∀ b ∈ rest, name b ∉ deps a

instance [DecidableEq K] (rest : List α) (a : α) : Decidable (Available name deps rest a) :=
  inferInstanceAs (Decidable (∀ b ∈ rest, name b ∉ deps a))

/-- The loop, over items sorted by name. -/
def order [DecidableEq K] : ℕ → List α → Option (List α)
  | _, [] => some []
  | 0, _ :: _ => none
  | n + 1, rest@(_ :: _) =>
    match rest.find? fun a ↦ decide (Available name deps rest a) with
    | none => none
    | some a => (order n (rest.filter fun b ↦ decide (name b ≠ name a))).map (a :: ·)

/-- No item depends on itself or on a later one. -/
def Topological : List α → Prop
  | [] => True
  | a :: rest => Available name deps (a :: rest) a ∧ Topological rest

/-- The item depends on another one. -/
def Depends (items : List α) (a b : α) : Prop := a ∈ items ∧ b ∈ items ∧ name b ∈ deps a

/-- No item depends on itself, directly or through others. -/
def Acyclic (items : List α) : Prop := ∀ a, ¬ Relation.TransGen (Depends name deps items) a a

end

variable {name : α → K} {deps : α → List K} {rest items l l' : List α} {a b : α}

/-! ## Cycles -/

theorem Acyclic.of_subset (h : Acyclic name deps items) (hsub : ∀ a ∈ rest, a ∈ items) :
    Acyclic name deps rest := by
  intro a hcycle
  have hle : Depends name deps rest ≤ Depends name deps items := by
    rintro b c ⟨hb, hc, hdep⟩
    exact ⟨hsub b hb, hsub c hc, hdep⟩
  exact h a (Relation.TransGen.mono hle a a hcycle)

/-- Where there is no cycle, something depends on nothing. -/
theorem Acyclic.exists_available (h : Acyclic name deps rest) (hne : rest ≠ []) :
    ∃ a ∈ rest, Available name deps rest a := by
  -- below an item is what it depends on, directly or through others
  let below (b a : { a // a ∈ rest }) : Prop :=
    Relation.TransGen (Depends name deps rest) a.1 b.1
  have hirrefl : Std.Irrefl below := ⟨fun a hcycle ↦ h a.1 hcycle⟩
  have hfinite : Finite { a // a ∈ rest } := (finite_toSet rest).to_subtype
  obtain ⟨first, hfirst⟩ := exists_mem_of_ne_nil rest hne
  obtain ⟨m, -, hmin⟩ := (Finite.wellFounded_of_trans_of_irrefl below).has_min Set.univ
    ⟨⟨first, hfirst⟩, trivial⟩
  refine ⟨m.1, m.2, fun b hb hdep ↦ ?_⟩
  exact hmin ⟨b, hb⟩ trivial (.single ⟨m.2, hb, hdep⟩)

/-- Where everything comes after what it depends on, there is no cycle. -/
theorem Topological.acyclic (h : Topological name deps l) : Acyclic name deps l := by
  induction l with
  | nil =>
    intro a hcycle
    obtain ⟨b, hb, -⟩ := Relation.TransGen.head'_iff.mp hcycle
    cases hb.1
  | cons a l ih =>
    obtain ⟨havailable, hl⟩ := h
    -- nothing leads away from the first item
    have hfirst {x y : α} (hxy : Depends name deps (a :: l) x y) : x ∈ l := by
      rcases mem_cons.mp hxy.1 with rfl | hx
      · exact absurd hxy.2.2 (havailable y hxy.2.1)
      · exact hx
    have hpath {x y : α} (hxy : Relation.TransGen (Depends name deps (a :: l)) x y)
        (hy : y ∈ l) : Relation.TransGen (Depends name deps l) x y := by
      induction hxy with
      | single hxy => exact .single ⟨hfirst hxy, hy, hxy.2.2⟩
      | tail _ hxy ih => exact .tail (ih (hfirst hxy)) ⟨hfirst hxy, hy, hxy.2.2⟩
    intro x hcycle
    obtain ⟨y, hxy, -⟩ := Relation.TransGen.head'_iff.mp hcycle
    exact ih hl x (hpath hcycle (hfirst hxy))

/-- Nothing that comes later is depended on. -/
theorem Topological.of_getElem? (h : Topological name deps l) {i j : ℕ} (hij : i ≤ j)
    (ha : l[i]? = some a) (hb : l[j]? = some b) : name b ∉ deps a := by
  induction l generalizing i j with
  | nil => cases ha
  | cons first rest ih =>
    cases i with
    | zero =>
      cases ha
      exact h.1 b (mem_of_getElem? hb)
    | succ i =>
      cases j with
      | zero => exact absurd hij (Nat.not_succ_le_zero i)
      | succ j => exact ih h.2 (Nat.le_of_succ_le_succ hij) ha hb

theorem Topological.of_forall_getElem?
    (h : ∀ (i j : ℕ) a b, i ≤ j → l[i]? = some a → l[j]? = some b → name b ∉ deps a) :
    Topological name deps l := by
  induction l with
  | nil => trivial
  | cons a l ih =>
    refine ⟨fun b hb ↦ ?_, ih fun i j b c hij ↦ h (i + 1) (j + 1) b c (Nat.succ_le_succ hij)⟩
    obtain ⟨j, hj⟩ := mem_iff_getElem?.mp hb
    exact h 0 j a b (Nat.zero_le j) rfl hj

/-! ## The loop -/

theorem available_congr (h : ∀ b, b ∈ l ↔ b ∈ l') :
    Available name deps l a ↔ Available name deps l' a := by
  simp only [Available, h]

/-- One turn of the loop. -/
theorem order_succ [DecidableEq K] (hne : rest ≠ []) (n : ℕ) :
    order name deps (n + 1) rest =
      (rest.find? fun a ↦ decide (Available name deps rest a)).bind fun a ↦
        (order name deps n (rest.filter fun b ↦ decide (name b ≠ name a))).map (a :: ·) := by
  cases rest with
  | nil => exact absurd rfl hne
  | cons first others =>
    rw [order]
    cases (first :: others).find? fun a ↦ decide (Available name deps (first :: others) a) <;> rfl

section LinearOrder

variable [LinearOrder K]

/-- The names are sorted, and no two are the same. -/
def Sorted (name : α → K) (l : List α) : Prop := l.Pairwise fun a b ↦ name a < name b

theorem Sorted.filter (h : Sorted name l) {p : α → Bool} : Sorted name (l.filter p) :=
  List.Pairwise.filter p h

theorem Sorted.nodup (h : Sorted name l) : (l.map name).Nodup :=
  pairwise_map.mpr (h.imp fun hlt ↦ ne_of_lt hlt)

theorem Sorted.eq_of_name (h : Sorted name l) (ha : a ∈ l) (hb : b ∈ l) (hab : name a = name b) :
    a = b :=
  inj_on_of_nodup_map h.nodup ha hb hab

/-- The first item that meets a condition has the least name of all that do. -/
theorem Sorted.find?_le {p : α → Bool} (h : Sorted name l) (hfind : l.find? p = some a) (hb : b ∈ l)
    (hpb : p b = true) : name a ≤ name b := by
  obtain ⟨-, before, after, rfl, hbefore⟩ := find?_eq_some_iff_append.mp hfind
  rcases mem_append.mp hb with hb | hb
  · have hnot := hbefore b hb
    rw [hpb] at hnot
    cases hnot
  · rcases mem_cons.mp hb with rfl | hb
    · exact le_refl _
    · exact le_of_lt ((pairwise_cons.mp (pairwise_append.mp h).2.1).1 b hb)

/-- What is left when an item is taken. -/
theorem Sorted.perm_cons_filter (h : Sorted name l) (ha : a ∈ l) :
    (a :: l.filter fun b ↦ decide (name b ≠ name a)).Perm l := by
  classical
  have hnodup : l.Nodup := h.nodup.of_map name
  refine List.Perm.trans ?_ (perm_cons_erase ha).symm
  rw [hnodup.erase_eq_filter]
  refine List.Perm.of_eq (congrArg _ (filter_congr fun b hb ↦ ?_))
  by_cases hba : b = a
  · simp [hba]
  · have hne : name b ≠ name a := fun hname ↦ hba (h.eq_of_name hb ha hname)
    simp [hba, hne]

/-- **The loop finds the least order.** The result has all items, each after what it depends on,
and no such order has a sequence of names that is less. -/
theorem order_spec {n : ℕ} (hsorted : Sorted name rest) (h : order name deps n rest = some l) :
    l.Perm rest ∧ Topological name deps l ∧
    ∀ l', l'.Perm rest → Topological name deps l' →
      ¬ List.Lex (· < ·) (l'.map name) (l.map name) := by
  induction n generalizing rest l with
  | zero =>
    cases rest with
    | nil =>
      cases h
      exact ⟨.refl _, trivial, fun l' _ _ ↦ not_lex_nil⟩
    | cons a rest => cases h
  | succ n ih =>
    by_cases hnil : rest = []
    · subst hnil
      cases h
      exact ⟨.refl _, trivial, fun l' _ _ ↦ not_lex_nil⟩
    rw [order_succ hnil] at h
    obtain ⟨a, hfind, hmap⟩ := Option.bind_eq_some_iff.mp h
    obtain ⟨l₁, hl₁, rfl⟩ := Option.map_eq_some_iff.mp hmap
    have ha : a ∈ rest := mem_of_find?_eq_some hfind
    have havailable : Available name deps rest a := by simpa using find?_some hfind
    have hcons := hsorted.perm_cons_filter ha
    obtain ⟨hperm, htopological, hleast⟩ := ih hsorted.filter hl₁
    have hperm' : (a :: l₁).Perm rest := (hperm.cons a).trans hcons
    refine ⟨hperm', ⟨(available_congr fun b ↦ hperm'.mem_iff).mpr havailable, htopological⟩, ?_⟩
    intro l' hl' htop hlex
    cases l' with
    | nil => exact hnil (nil_perm.mp hl')
    | cons a' l₁' =>
      -- the first item of another order is available too, so its name is not less
      have ha' : a' ∈ rest := hl'.mem_iff.mp mem_cons_self
      have havailable' : Available name deps rest a' :=
        (available_congr fun b ↦ hl'.mem_iff).mp htop.1
      have hle : name a ≤ name a' := hsorted.find?_le hfind ha' (by simpa using havailable')
      rcases cons_lex_cons_iff.mp hlex with hlt | ⟨hname, htail⟩
      · exact absurd hlt (not_lt_of_ge hle)
      · obtain rfl := hsorted.eq_of_name ha' ha hname
        exact hleast l₁' (List.Perm.cons_inv (hl'.trans hcons.symm)) htop.2 htail

/-- The loop ends if there is no cycle. -/
theorem exists_order {n : ℕ} (hsorted : Sorted name rest) (h : Acyclic name deps rest)
    (hn : rest.length ≤ n) : ∃ l, order name deps n rest = some l := by
  induction n generalizing rest with
  | zero =>
    obtain rfl := length_eq_zero_iff.mp (Nat.le_zero.mp hn)
    exact ⟨[], rfl⟩
  | succ n ih =>
    by_cases hnil : rest = []
    · subst hnil
      exact ⟨[], rfl⟩
    obtain ⟨a, ha, havailable⟩ := h.exists_available hnil
    have hsome : (rest.find? fun a ↦ decide (Available name deps rest a)).isSome :=
      find?_isSome.mpr ⟨a, ha, by simpa using havailable⟩
    obtain ⟨b, hb⟩ := Option.isSome_iff_exists.mp hsome
    have hlength := (hsorted.perm_cons_filter (mem_of_find?_eq_some hb)).length_eq
    obtain ⟨l, hl⟩ := ih hsorted.filter (h.of_subset fun c hc ↦ (mem_filter.mp hc).1)
      (Nat.le_of_succ_le_succ (hlength ▸ hn))
    refine ⟨b :: l, ?_⟩
    rw [order_succ hnil, hb, Option.bind_some, hl, Option.map_some]

/-- There is only one least order. -/
theorem eq_of_not_lex (hnodup : (l.map name).Nodup) (hperm : l.Perm l')
    (h : ¬ List.Lex (· < ·) (l.map name) (l'.map name))
    (h' : ¬ List.Lex (· < ·) (l'.map name) (l.map name)) : l = l' := by
  have hnames : l'.map name = l.map name :=
    lex_trichotomous (fun _ _ hxy hyx ↦ le_antisymm (le_of_not_gt hyx) (le_of_not_gt hxy)) h h'
  refine ext_getElem hperm.length_eq fun i hi hi' ↦ ?_
  have hname : name (l.get ⟨i, hi⟩) = name (l'.get ⟨i, hi'⟩) := by
    have hget := congrArg (·[i]?) hnames
    simp only [getElem?_map, getElem?_eq_getElem hi, getElem?_eq_getElem hi', Option.map_some,
      Option.some.injEq] at hget
    exact hget.symm
  exact inj_on_of_nodup_map hnodup (get_mem l ⟨i, hi⟩)
    (hperm.mem_iff.mpr (get_mem l' ⟨i, hi'⟩)) hname

/-- **The loop gets stuck exactly on a cycle.** -/
theorem exists_order_iff (hsorted : Sorted name rest) :
    (∃ l, order name deps rest.length rest = some l) ↔ Acyclic name deps rest := by
  constructor
  · rintro ⟨l, hl⟩
    obtain ⟨hperm, htopological, -⟩ := order_spec hsorted hl
    exact htopological.acyclic.of_subset fun a ha ↦ hperm.mem_iff.mpr ha
  · exact fun h ↦ exists_order hsorted h le_rfl

end LinearOrder

/-! ## Renaming items -/

section Map

variable {f : α → β} {name' : β → K} {deps' : β → List K}

theorem available_map (hname : ∀ a, name' (f a) = name a)
    (hdeps : ∀ a k, k ∈ deps' (f a) ↔ k ∈ deps a) :
    Available name' deps' (rest.map f) (f a) ↔ Available name deps rest a := by
  simp only [Available, forall_mem_map, hname, hdeps]

/-- Items that only look different are taken in the same order. -/
theorem order_map [DecidableEq K] (hname : ∀ a, name' (f a) = name a)
    (hdeps : ∀ a k, k ∈ deps' (f a) ↔ k ∈ deps a) (n : ℕ) :
    order name' deps' n (rest.map f) = (order name deps n rest).map (List.map f) := by
  induction n generalizing rest with
  | zero => cases rest <;> rfl
  | succ n ih =>
    by_cases hnil : rest = []
    · subst hnil
      rfl
    have hfind : (fun b ↦ decide (Available name' deps' (rest.map f) b)) ∘ f =
        fun a ↦ decide (Available name deps rest a) :=
      funext fun a ↦ decide_eq_decide.mpr (available_map hname hdeps)
    rw [order_succ hnil, order_succ (mt map_eq_nil_iff.mp hnil), find?_map, hfind]
    cases rest.find? fun a ↦ decide (Available name deps rest a) with
    | none => rfl
    | some a =>
      have hfilter : (rest.map f).filter (fun b ↦ decide (name' b ≠ name' (f a))) =
          (rest.filter fun b ↦ decide (name b ≠ name a)).map f := by
        simp only [filter_map, Function.comp_def, hname]
      rw [Option.map_some, Option.bind_some, Option.bind_some, hfilter, ih, Option.map_map,
        Option.map_map]
      rfl

end Map

end LeastFirst
