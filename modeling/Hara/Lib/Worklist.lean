import Hara.Lib.Except

/-!
# Worklist exploration of a table

A depth-first worklist over the cells of a table. Every cell is visited at most once and then
carries a label; a visit returns further `(cell, label)` pairs, which go on top of the list. A
pair that meets a labelled cell has to agree with the label found there.

Three facts carry every use. `explore_closed` says what a successful exploration returns: a table in
which all pairs produced by a visited cell are recorded. `explore_ok` says when it succeeds: as
soon as one labelling of the cells is consistent with the visits. `explore_isSome` says that a
budget of `B` pairs for each unvisited cell is enough.
-/

namespace Worklist

open List

variable {ε η : Type}

/-- Depth-first exploration of `table`. The result is `none` when the budget is spent or a pair
names no cell of the table. -/
def explore [DecidableEq η] (visit : ℕ → η → Except ε (List (ℕ × η))) (clash : ℕ → η → η → ε) :
    ℕ → List (ℕ × η) → List (Option η) → Option (Except ε (List (Option η)))
  | _, [], table => some (.ok table)
  | 0, _ :: _, _ => none
  | fuel + 1, (n, h) :: work, table =>
    match table[n]? with
    | none => none
    | some (some old) =>
      if old = h then explore visit clash fuel work table else some (.error (clash n old h))
    | some none =>
      match visit n h with
      | .error e => some (.error e)
      | .ok pushed => explore visit clash fuel (pushed.reverse ++ work) (table.set n (some h))

variable {visit : ℕ → η → Except ε (List (ℕ × η))} {clash : ℕ → η → η → ε}

/-- Cell `n` of the table carries the label `h`. -/
def Labelled (table : List (Option η)) (n : ℕ) (h : η) : Prop := table[n]? = some (some h)

variable {table : List (Option η)} {n : ℕ} {h : η} {k : η}

theorem Labelled.unique (hh : Labelled table n h) (hk : Labelled table n k) : h = k := by
  rw [Labelled] at hh hk
  rw [hh] at hk
  simpa using hk

theorem labelled_set_self (hn : n < table.length) : Labelled (table.set n (some h)) n h := by
  rw [Labelled, getElem?_set_self hn]

theorem labelled_set_of_ne {m : ℕ} (hne : n ≠ m) :
    Labelled (table.set n (some h)) m k ↔ Labelled table m k := by
  rw [Labelled, Labelled, getElem?_set_ne hne]

theorem Labelled.set {m : ℕ} (hm : Labelled table m k) (hn : table[n]? = some none) :
    Labelled (table.set n (some h)) m k := by
  have hne : n ≠ m := by
    rintro rfl
    rw [Labelled, hn] at hm
    simp at hm
  exact (labelled_set_of_ne hne).mpr hm

variable {work : List (ℕ × η)} {fuel : ℕ} {outcome : Except ε (List (Option η))}

/-- **The rule.** What holds of the worklist and the table, and is kept by every step, holds of the
result. -/
theorem explore_invariant [DecidableEq η] {I : List (ℕ × η) → List (Option η) → Prop} {E : ε → Prop}
    (hskip : ∀ {n h work table}, I ((n, h) :: work) table → Labelled table n h → I work table)
    (hclash : ∀ {n old h work table}, I ((n, h) :: work) table → Labelled table n old → old ≠ h →
      E (clash n old h))
    (hvisit : ∀ {n h work table}, I ((n, h) :: work) table → table[n]? = some none →
      Except.Ensures (visit n h)
        (fun pushed ↦ I (pushed.reverse ++ work) (table.set n (some h))) E)
    (hrun : explore visit clash fuel work table = some outcome) (hI : I work table) :
    Except.Ensures outcome (I []) E := by
  induction fuel generalizing work table with
  | zero =>
    cases work with
    | nil =>
      cases hrun
      exact hI
    | cons q work => cases hrun
  | succ fuel ih =>
    cases work with
    | nil =>
      cases hrun
      exact hI
    | cons q work =>
      rw [explore] at hrun
      split at hrun
      · cases hrun
      next old hold =>
        split at hrun
        next heq =>
          subst heq
          exact ih hrun (hskip hI hold)
        next hne =>
          cases hrun
          exact hclash hI hold hne
      next hnone =>
        have hstep := hvisit hI hnone
        split at hrun
        next e herror =>
          cases hrun
          rwa [herror] at hstep
        next pushed hpushed =>
          rw [hpushed] at hstep
          exact ih hrun hstep

theorem not_labelled_replicate {size : ℕ} : ¬Labelled (replicate size none) n h := by
  simp [Labelled, getElem?_replicate]

/-! ## What a successful exploration returns -/

/-- Every pair produced by a labelled cell is recorded in the table or still waiting in `work`. -/
def ClosedUpTo (visit : ℕ → η → Except ε (List (ℕ × η))) (table : List (Option η))
    (work : List (ℕ × η)) : Prop :=
  ∀ n h, Labelled table n h → ∃ pushed, visit n h = .ok pushed ∧
    ∀ q ∈ pushed, Labelled table q.1 q.2 ∨ q ∈ work

variable {q : ℕ × η} {pushed : List (ℕ × η)}

theorem recorded_skip (hq : Labelled table q.1 q.2 ∨ q ∈ (n, h) :: work)
    (hn : Labelled table n h) : Labelled table q.1 q.2 ∨ q ∈ work := by
  rcases hq with hq | hq
  · exact .inl hq
  · rcases mem_cons.mp hq with rfl | hq
    · exact .inl hn
    · exact .inr hq

theorem recorded_visit (hq : Labelled table q.1 q.2 ∨ q ∈ (n, h) :: work)
    (hn : table[n]? = some none) :
    Labelled (table.set n (some h)) q.1 q.2 ∨ q ∈ pushed.reverse ++ work := by
  rcases hq with hq | hq
  · exact .inl (hq.set hn)
  · rcases mem_cons.mp hq with rfl | hq
    · exact .inl (labelled_set_self (List.getElem?_eq_some_iff.mp hn).1)
    · exact .inr (mem_append_right _ hq)

theorem closedUpTo_visit (hclosed : ClosedUpTo visit table ((n, h) :: work))
    (hn : table[n]? = some none) (hvisit : visit n h = .ok pushed) :
    ClosedUpTo visit (table.set n (some h)) (pushed.reverse ++ work) := by
  intro m k hm
  by_cases hnm : n = m
  · subst hnm
    obtain rfl := hm.unique (labelled_set_self (List.getElem?_eq_some_iff.mp hn).1)
    exact ⟨pushed, hvisit, fun q hq ↦ .inr (by simp [hq])⟩
  · rw [labelled_set_of_ne hnm] at hm
    obtain ⟨pushed', hvisit', hpushed'⟩ := hclosed m k hm
    exact ⟨pushed', hvisit', fun q hq ↦ recorded_visit (hpushed' q hq) hn⟩

/-- **Soundness.** A successful exploration records every pair of the worklist and is closed under
the visits of its labelled cells. -/
theorem explore_closed [DecidableEq η] {result : List (Option η)}
    (hrun : explore visit clash fuel work table = some (.ok result))
    (hclosed : ClosedUpTo visit table work) :
    result.length = table.length ∧ (∀ q ∈ work, Labelled result q.1 q.2) ∧
      ClosedUpTo visit result [] := by
  have hI := explore_invariant (E := fun _ ↦ True) (I := fun rest t ↦ t.length = table.length ∧
      (∀ q ∈ work, Labelled t q.1 q.2 ∨ q ∈ rest) ∧ ClosedUpTo visit t rest)
    ?_ (fun _ _ _ ↦ trivial) ?_ hrun ⟨rfl, fun _ ↦ .inr, hclosed⟩
  · exact ⟨hI.1, fun q hq ↦ (hI.2.1 q hq).resolve_right not_mem_nil, hI.2.2⟩
  · rintro n h rest t ⟨hlength, hwork, hclosed⟩ hn
    refine ⟨hlength, fun q hq ↦ recorded_skip (hwork q hq) hn, fun m k hm ↦ ?_⟩
    obtain ⟨pushed, hvisit, hpushed⟩ := hclosed m k hm
    exact ⟨pushed, hvisit, fun q hq ↦ recorded_skip (hpushed q hq) hn⟩
  · rintro n h rest t ⟨hlength, hwork, hclosed⟩ hn
    cases hvisit : visit n h with
    | error e => trivial
    | ok pushed =>
      exact ⟨length_set.trans hlength, fun q hq ↦ recorded_visit (hwork q hq) hn,
        closedUpTo_visit hclosed hn hvisit⟩

/-- A property of pairs that visits pass on holds of every label recorded. -/
theorem explore_forall [DecidableEq η] {P : ℕ → η → Prop} {E : ε → Prop}
    (hclash : ∀ n old h, P n old → P n h → old ≠ h → E (clash n old h))
    (hvisit : ∀ n h, P n h → Except.Ensures (visit n h) (fun pushed ↦ ∀ q ∈ pushed, P q.1 q.2) E)
    (hrun : explore visit clash fuel work table = some outcome) (hwork : ∀ q ∈ work, P q.1 q.2)
    (htable : ∀ n h, Labelled table n h → P n h) :
    Except.Ensures outcome (fun result ↦ ∀ n h, Labelled result n h → P n h) E := by
  refine (explore_invariant (I := fun work table ↦ (∀ q ∈ work, P q.1 q.2) ∧
    ∀ n h, Labelled table n h → P n h) ?_ ?_ ?_ hrun ⟨hwork, htable⟩).mono fun _ h ↦ h.2
  · exact fun ⟨hwork, htable⟩ _ ↦ ⟨(forall_mem_cons.mp hwork).2, htable⟩
  · exact fun ⟨hwork, htable⟩ hold ↦ hclash _ _ _ (htable _ _ hold) (forall_mem_cons.mp hwork).1
  · rintro n h work table ⟨hwork, htable⟩ hnone
    obtain ⟨hhead, hrest⟩ := forall_mem_cons.mp hwork
    refine (hvisit n h hhead).mono fun pushed hpushed ↦ ⟨fun q hq ↦ ?_, fun m k hm ↦ ?_⟩
    · rcases mem_append.mp hq with hq | hq
      · exact hpushed q (mem_reverse.mp hq)
      · exact hrest q hq
    · by_cases hnm : n = m
      · subst hnm
        obtain rfl := hm.unique (labelled_set_self (List.getElem?_eq_some_iff.mp hnone).1)
        exact hhead
      · exact htable m k ((labelled_set_of_ne hnm).mp hm)

/-! ## When an exploration succeeds -/

/-- The number of cells without a label. -/
def unlabelled (table : List (Option η)) : ℕ := table.countP Option.isNone

theorem unlabelled_set (h : η) (hn : table[n]? = some none) :
    unlabelled table = unlabelled (table.set n (some h)) + 1 := by
  induction table generalizing n with
  | nil => simp at hn
  | cons a table ih =>
    cases n with
    | zero =>
      obtain rfl : a = none := by simpa using hn
      simp [unlabelled]
    | succ n =>
      have htail := ih (n := n) (by simpa using hn)
      simp only [unlabelled, set_cons_succ, countP_cons] at htail ⊢
      omega

/-- **The budget.** If a visit produces at most `B` pairs, all within the table, the exploration
ends with a result or an error. -/
theorem explore_isSome [DecidableEq η] {size B : ℕ}
    (hvisit : ∀ n h pushed, n < size → visit n h = .ok pushed →
      pushed.length ≤ B ∧ ∀ q ∈ pushed, q.1 < size) (hsize : table.length = size)
    (hfuel : work.length + B * unlabelled table ≤ fuel) (hwork : ∀ q ∈ work, q.1 < size) :
    (explore visit clash fuel work table).isSome := by
  induction fuel generalizing work table with
  | zero =>
    obtain rfl : work = [] := by
      rw [← length_eq_zero_iff]
      omega
    simp [explore]
  | succ fuel ih =>
    cases work with
    | nil => simp [explore]
    | cons q work =>
      obtain ⟨n, h⟩ := q
      have hn : n < size := hwork (n, h) (by simp)
      have hrest : ∀ q ∈ work, q.1 < size := fun q hq ↦ hwork q (by simp [hq])
      simp only [length_cons] at hfuel
      rw [explore]
      split
      next hnone => exact absurd (List.getElem?_eq_none_iff.mp hnone) (by omega)
      · split
        · exact ih hsize (by omega) hrest
        · rfl
      next hnone =>
        split
        · rfl
        next pushed hpushed =>
          obtain ⟨hB, hlt⟩ := hvisit n h pushed hn hpushed
          refine ih (by simpa using hsize) ?_ fun q hq ↦ ?_
          · have hcount := unlabelled_set h hnone
            rw [hcount, Nat.mul_add] at hfuel
            simp only [length_append, length_reverse]
            omega
          · rcases mem_append.mp hq with hq | hq
            · exact hlt q (by simpa using hq)
            · exact hrest q hq

/-- The labelling `A` of the cells below `size` is consistent: a visit fails with an error in `E` or
produces at most `B` pairs, and every pair names a cell below `size` with the label `A` gives it. -/
structure Consistent (visit : ℕ → η → Except ε (List (ℕ × η))) (E : ε → Prop) (A : ℕ → η)
    (size B : ℕ) : Prop where
  visit_ok : ∀ n < size, (∃ e, visit n (A n) = .error e ∧ E e) ∨
    ∃ pushed, visit n (A n) = .ok pushed ∧ pushed.length ≤ B ∧
      ∀ q ∈ pushed, q.1 < size ∧ q.2 = A q.1

/-- **Completeness.** With a consistent labelling the exploration succeeds or meets an error of a
visit, and every label it records is the one the labelling gives. -/
theorem explore_ok [DecidableEq η] {E : ε → Prop} {A : ℕ → η} {size B : ℕ}
    (hA : Consistent visit E A size B)
    (hrun : explore visit clash fuel work table = some outcome)
    (hwork : ∀ q ∈ work, q.1 < size ∧ q.2 = A q.1)
    (htable : ∀ n h, Labelled table n h → n < size ∧ h = A n) :
    Except.Ensures outcome (fun result ↦ ∀ n h, Labelled result n h → n < size ∧ h = A n) E := by
  refine explore_forall (fun n old h hold hh hne ↦ ?_) ?_ hrun hwork htable
  · exact absurd (hold.2.trans hh.2.symm) hne
  · rintro n _ ⟨hn, rfl⟩
    rcases hA.visit_ok n hn with ⟨e, hvisit, he⟩ | ⟨pushed, hvisit, -, hpushed⟩
    · rwa [hvisit]
    · rwa [hvisit]

end Worklist
