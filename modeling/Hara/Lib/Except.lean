import Hara.Lib.Matched

/-!
# Reading back successful computations

Checks are written in the `Except` monad. These lemmas read the success of a check as the
conjunction of the successes of its parts, so that no proof unfolds the monad.

`Ensures x post err` says how a computation ends, whether it succeeds or not; its rules follow the
shape of the computation.
-/

namespace Except

variable {ε α β : Type}

/-- The check that `p` holds, with the error reported otherwise. -/
def ensure (p : Prop) [Decidable p] (e : ε) : Except ε Unit := if p then .ok () else .error e

variable {e : ε}

@[simp] theorem ensure_eq_ok {p : Prop} [Decidable p] {u : Unit} : ensure p e = .ok u ↔ p := by
  by_cases hp : p <;> simp [ensure, hp]

variable {f : α → Except ε β}

theorem bind_eq_ok {x : Except ε α} {b : β} : x >>= f = .ok b ↔ ∃ a, x = .ok a ∧ f a = .ok b := by
  cases x <;> simp [bind, Except.bind]

variable {a : α}

theorem pure_eq_ok {b : α} : (pure a : Except ε α) = .ok b ↔ a = b := by
  simp [pure, Except.pure]

theorem mapError_eq_ok {ε' : Type} {g : ε → ε'} {x : Except ε α} :
    x.mapError g = .ok a ↔ x = .ok a := by
  cases x <;> simp [Except.mapError]

variable {l : List α}

theorem forM_eq_ok {f : α → Except ε Unit} : l.forM f = .ok () ↔ ∀ a ∈ l, f a = .ok () := by
  induction l with
  | nil => simp [List.forM, pure, Except.pure]
  | cons a l ih =>
    have hcons : (a :: l).forM f = f a >>= fun _ ↦ l.forM f := rfl
    rw [hcons, bind_eq_ok, List.forall_mem_cons, ← ih]
    exact ⟨fun ⟨⟨⟩, ha, hl⟩ ↦ ⟨ha, hl⟩, fun ⟨ha, hl⟩ ↦ ⟨(), ha, hl⟩⟩

variable {r : List β}

theorem mapM_eq_ok : l.mapM f = .ok r ↔ List.Forall₂ (fun a b ↦ f a = .ok b) l r := by
  induction l generalizing r with
  | nil => simp [pure, Except.pure, eq_comm]
  | cons a l ih =>
    rw [List.mapM_cons, bind_eq_ok, List.forall₂_cons_left_iff]
    refine exists_congr fun b ↦ ?_
    simp only [bind_eq_ok, pure_eq_ok]
    grind

theorem exists_of_mapM_eq_ok (h : l.mapM f = .ok r) (ha : a ∈ l) : ∃ b ∈ r, f a = .ok b :=
  Hara.Lib.exists_of_mem_left (mapM_eq_ok.mp h) ha

theorem exists_mapM_eq_ok (h : ∀ a ∈ l, ∃ b, f a = .ok b) : ∃ r, l.mapM f = .ok r := by
  simp only [mapM_eq_ok]
  exact Hara.Lib.exists_forall₂ h

/-- A map whose steps succeed under a condition, each with a known result. -/
theorem mapM_eq_ok_iff {p : α → Prop} {g : α → β} (h : ∀ a b, f a = .ok b ↔ p a ∧ b = g a) :
    l.mapM f = .ok r ↔ (∀ a ∈ l, p a) ∧ r = l.map g := by
  rw [mapM_eq_ok]
  simp only [h]
  induction l generalizing r with
  | nil => simp
  | cons a l ih =>
    simp only [List.forall₂_cons_left_iff, ih, List.forall_mem_cons, List.map_cons]
    grind

/-- A fold whose steps succeed and stay related to a model. -/
theorem exists_foldlM {σ τ : Type} {step : σ → α → Except ε σ} {model : τ → α → τ}
    {R : σ → τ → Prop} (hstep : ∀ {s t} a, R s t → ∃ s', step s a = .ok s' ∧ R s' (model t a))
    {s : σ} {t : τ} (h : R s t) (l : List α) :
    ∃ s', l.foldlM step s = .ok s' ∧ R s' (l.foldl model t) := by
  induction l generalizing s t with
  | nil => exact ⟨s, rfl, h⟩
  | cons a l ih =>
    obtain ⟨s₁, hs₁, h₁⟩ := hstep a h
    obtain ⟨s₂, hs₂, h₂⟩ := ih h₁
    refine ⟨s₂, ?_, h₂⟩
    rw [List.foldlM_cons, hs₁]
    exact hs₂

/-! ## Postconditions -/

/-- The computation succeeds with `post` or stops with `err`. -/
def Ensures (x : Except ε α) (post : α → Prop) (err : ε → Prop) : Prop :=
  match x with
  | .ok a => post a
  | .error e => err e

variable {post post' : α → Prop} {err : ε → Prop} {x : Except ε α}

@[simp] theorem ensures_pure : Ensures (pure a) post err ↔ post a := Iff.rfl

@[simp] theorem ensures_ok : Ensures (.ok a) post err ↔ post a := Iff.rfl

@[simp] theorem ensures_error : Ensures (.error e) post err ↔ err e := Iff.rfl

@[simp] theorem ensures_bind {post : β → Prop} :
    Ensures (x >>= f) post err ↔ Ensures x (fun a ↦ Ensures (f a) post err) err := by
  cases x <;> rfl

@[simp] theorem ensures_map {f : α → β} {post : β → Prop} :
    Ensures (f <$> x) post err ↔ Ensures x (fun a ↦ post (f a)) err := by
  cases x <;> rfl

theorem ensures_mapError {ε' : Type} {g : ε → ε'} {err : ε' → Prop} :
    Ensures (x.mapError g) post err ↔ Ensures x post fun e ↦ err (g e) := by
  cases x <;> rfl

theorem ensures_ensure {p : Prop} [Decidable p] {post : Unit → Prop} :
    Ensures (ensure p e) post err ↔ (p → post ()) ∧ (¬p → err e) := by
  by_cases hp : p <;> simp [ensure, hp]

section

variable (h : Ensures x post err)

include h

theorem Ensures.mono (hpost : ∀ a, post a → post' a) : Ensures x post' err := by
  cases x with
  | ok a => exact hpost a h
  | error e => exact h

theorem Ensures.imp {err' : ε → Prop} (herr : ∀ e, err e → err' e) : Ensures x post err' := by
  cases x with
  | ok a => exact h
  | error e => exact herr e h

theorem Ensures.bind {post' : β → Prop} (hf : ∀ a, post a → Ensures (f a) post' err) :
    Ensures (x >>= f) post' err :=
  ensures_bind.mpr (h.mono hf)

omit h in
/-- Checks one after the other. -/
theorem Ensures.forM {l : List α} {f : α → Except ε Unit}
    (h : ∀ a ∈ l, Ensures (f a) (fun _ ↦ True) err) : Ensures (l.forM f) (fun _ ↦ True) err := by
  induction l with
  | nil => trivial
  | cons a l ih =>
    obtain ⟨ha, hl⟩ := List.forall_mem_cons.mp h
    exact ha.bind fun _ _ ↦ ih hl

omit h in
/-- Steps one after the other, with their results. -/
theorem Ensures.mapM {l : List α} {post : α → β → Prop} {err : α → Prop}
    (h : ∀ a ∈ l, Ensures (f a) (post a) fun _ ↦ err a) :
    Ensures (l.mapM f) (List.Forall₂ post l) fun _ ↦ ∃ a ∈ l, err a := by
  induction l with
  | nil => exact .nil
  | cons a l ih =>
    obtain ⟨ha, hl⟩ := List.forall_mem_cons.mp h
    simp only [List.mapM_cons, List.exists_mem_cons_iff]
    refine (ha.imp fun _ ↦ .inl).bind fun b hb ↦ ?_
    exact ((ih hl).imp fun _ ↦ .inr).bind fun r hr ↦ .cons hb hr

theorem Ensures.error_or_ok : (∃ e, x = .error e ∧ err e) ∨ ∃ a, x = .ok a ∧ post a := by
  cases x with
  | ok a => exact .inr ⟨a, rfl, h⟩
  | error e => exact .inl ⟨e, rfl, h⟩

theorem Ensures.of_ok (hx : x = .ok a) : post a := by
  subst hx
  exact h

theorem Ensures.of_error (hx : x = .error e) : err e := by
  subst hx
  exact h

/-- What a computation answers, along with what is known of its result. -/
theorem Ensures.with_eq : Ensures x (fun a ↦ x = .ok a ∧ post a) err := by
  cases x with
  | ok a => exact ⟨rfl, h⟩
  | error e => exact h

end

end Except
