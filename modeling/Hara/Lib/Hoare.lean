import Mathlib.Algebra.Order.Ring.Int
import Mathlib.Data.List.Basic

/-!
# Pre- and postconditions for state with errors

A program over `EStateM` threads a state and may stop with an error, keeping the state it had
reached. `Ensures x s post err` says how `x` ends when it is started in `s`. The rules below follow
the shape of the program: one per monad operation, and weakening.
-/

namespace EStateM

variable {ε σ α β : Type}

/-- Started in `s`, the program returns with `post` or stops with `err`. -/
def Ensures (x : EStateM ε σ α) (s : σ) (post : α → σ → Prop) (err : ε → σ → Prop) : Prop :=
  match x s with
  | .ok a s' => post a s'
  | .error e s' => err e s'

variable {s : σ} {post post' : α → σ → Prop} {err err' : ε → σ → Prop} {a : α}

@[simp] theorem ensures_pure : Ensures (pure a) s post err ↔ post a s := Iff.rfl

variable {e : ε}

@[simp] theorem ensures_throw : Ensures (throw e : EStateM ε σ α) s post err ↔ err e s := Iff.rfl

@[simp] theorem ensures_get {post : σ → σ → Prop} : Ensures get s post err ↔ post s s := Iff.rfl

variable {s' : σ}

@[simp] theorem ensures_set {post : PUnit → σ → Prop} :
    Ensures (set s') s post err ↔ post ⟨⟩ s' := Iff.rfl

@[simp] theorem ensures_modify {f : σ → σ} {post : PUnit → σ → Prop} :
    Ensures (modify f) s post err ↔ post ⟨⟩ (f s) := Iff.rfl

@[simp] theorem ensures_modifyGet {f : σ → α × σ} :
    Ensures (modifyGet f) s post err ↔ post (f s).1 (f s).2 := Iff.rfl

variable {x : EStateM ε σ α} {f : α → EStateM ε σ β}

@[simp] theorem ensures_bind {post : β → σ → Prop} :
    Ensures (x >>= f) s post err ↔ Ensures x s (fun a s' ↦ Ensures (f a) s' post err) err := by
  simp only [Ensures, bind, EStateM.bind]
  cases x s <;> rfl

@[simp] theorem ensures_map {f : α → β} {post : β → σ → Prop} :
    Ensures (f <$> x) s post err ↔ Ensures x s (fun a ↦ post (f a)) err := by
  simp only [Ensures, Functor.map, EStateM.map]
  cases x s <;> rfl

section

variable (h : Ensures x s post err)

include h

theorem Ensures.mono (hpost : ∀ a s', post a s' → post' a s')
    (herr : ∀ e s', err e s' → err' e s') : Ensures x s post' err' := by
  simp only [Ensures] at *
  split at h
  · exact hpost _ _ h
  · exact herr _ _ h

/-- Weakening of what is returned only. -/
theorem Ensures.imp (hpost : ∀ a s', post a s' → post' a s') :
    Ensures x s post' err :=
  h.mono hpost fun _ _ ↦ id

theorem Ensures.bind {post' : β → σ → Prop}
    (hf : ∀ a s', post a s' → Ensures (f a) s' post' err) : Ensures (x >>= f) s post' err :=
  ensures_bind.mpr (h.imp hf)

theorem Ensures.of_ok (hx : x s = .ok a s') : post a s' := by
  simpa only [Ensures, hx] using h

theorem Ensures.of_error (hx : x s = .error e s') : err e s' := by
  simpa only [Ensures, hx] using h

end

/-! ## Runs -/

/-- A computation that ensures one result. -/
theorem Ensures.eq_ok (h : Ensures x s (fun a' t ↦ a' = a ∧ t = s') fun _ _ ↦ False) :
    x s = .ok a s' := by
  cases hx : x s with
  | ok a' t =>
    obtain ⟨rfl, rfl⟩ := h.of_ok hx
    rfl
  | error e t => exact (h.of_error hx).elim

/-- The run of a sequence whose first part returns. -/
theorem bind_of_ok (h : x s = .ok a s') : (x >>= f) s = f a s' := by
  simp only [bind, EStateM.bind, h]

/-- The run of a sequence whose first part stops. -/
theorem bind_of_error (h : x s = .error e s') : (x >>= f) s = .error e s' := by
  simp only [bind, EStateM.bind, h]

/-- A sequence that returns, from its parts. -/
theorem bind_eq_ok {b : β} :
    (x >>= f) s = .ok b s' ↔ ∃ a s₁, x s = .ok a s₁ ∧ f a s₁ = .ok b s' := by
  constructor
  · intro h
    rcases hx : x s with ⟨a, s₁⟩ | ⟨e, s₁⟩
    · exact ⟨a, s₁, rfl, by rwa [bind_of_ok hx] at h⟩
    · rw [bind_of_error hx] at h
      cases h
  · rintro ⟨a, s₁, hx, hf⟩
    rw [bind_of_ok hx, hf]

end EStateM
