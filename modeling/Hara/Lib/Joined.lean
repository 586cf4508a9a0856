import Hara.Lib.Matched

/-!
# Reading joined texts

Things are written one after the other with a separator between them and a stop at the end. If each
of them can be read in front of everything that ends it, so can all of them.
-/

namespace Hara.Lib.Joined

open List

variable {α σ : Type}

/-- The texts of the items with separators between them. -/
def joined (sep : σ) (texts : List (List σ)) : List σ := (texts.intersperse [sep]).flatten

/-- Nothing follows, or something that ends an item. -/
def Ends (closing : σ → Prop) (rest : List σ) : Prop := ∀ c ∈ rest.head?, closing c

/-- Where the one and the other are written, in front of an end, they are related, and the same
follows. -/
def Reads (closing : σ → Prop) (text : α → List σ) (R : α → α → Prop) (x y : α) : Prop :=
  ∀ r r', Ends closing r → Ends closing r' → text x ++ r = text y ++ r' → R x y ∧ r = r'

/-- The text starts with something that ends nothing. -/
def Starts (closing : σ → Prop) (text : List σ) : Prop := ∃ c rest, text = c :: rest ∧ ¬closing c

variable {closing : σ → Prop} {sep stop : σ} {text : α → List σ} {R : α → α → Prop}

theorem Ends.cons {c : σ} (h : closing c) (rest : List σ) : Ends closing (c :: rest) := by
  rintro d ⟨⟩
  exact h

/-- Words of items that end nothing are read up to the end. -/
theorem append_inj_of_ends {u u' r r' : List σ} (hu : ∀ c ∈ u, ¬closing c)
    (hu' : ∀ c ∈ u', ¬closing c) (hr : Ends closing r) (hr' : Ends closing r')
    (h : u ++ r = u' ++ r') : u = u' ∧ r = r' := by
  induction u generalizing u' with
  | nil =>
    cases u' with
    | nil => exact ⟨rfl, h⟩
    | cons c u' =>
      rw [nil_append] at h
      subst h
      exact absurd (hr c rfl) (hu' c mem_cons_self)
  | cons c u ih =>
    cases u' with
    | nil =>
      rw [nil_append] at h
      subst h
      exact absurd (hr' c rfl) (hu c mem_cons_self)
    | cons c' u' =>
      obtain ⟨rfl, htail⟩ := cons.inj h
      obtain ⟨rfl, rfl⟩ := ih (fun d hd ↦ hu d (mem_cons_of_mem _ hd))
        (fun d hd ↦ hu' d (mem_cons_of_mem _ hd)) htail
      exact ⟨rfl, rfl⟩

/-- What follows the first item. -/
theorem joined_cons_append (x : List σ) (xs : List (List σ)) (rest : List σ) :
    joined sep (x :: xs) ++ rest =
      x ++ match xs with
        | [] => rest
        | y :: ys => sep :: (joined sep (y :: ys) ++ rest) := by
  cases xs <;> simp [joined]

/-- **Joined texts** in front of a stop. -/
theorem forall₂_of_joined (hsep : closing sep) (hstop : closing stop) (hne : sep ≠ stop)
    {xs ys : List α} (hxs : ∀ x ∈ xs, Starts closing (text x))
    (hys : ∀ y ∈ ys, Starts closing (text y))
    (hreads : ∀ x ∈ xs, ∀ y ∈ ys, Reads closing text R x y) {r r' : List σ}
    (h : joined sep (xs.map text) ++ stop :: r = joined sep (ys.map text) ++ stop :: r') :
    List.Forall₂ R xs ys ∧ r = r' := by
  have hfirst : ∀ {t : List σ} {ts : List (List σ)} {r r' : List σ}, Starts closing t →
      stop :: r ≠ joined sep (t :: ts) ++ r' := by
    rintro t ts r r' ⟨c, rest, rfl, hc⟩ h
    rw [joined_cons_append, cons_append] at h
    exact hc ((cons.inj h).1 ▸ hstop)
  induction xs generalizing ys with
  | nil =>
    cases ys with
    | nil => exact ⟨.nil, (cons.inj h).2⟩
    | cons y ys => exact absurd h (hfirst (hys y mem_cons_self))
  | cons x xs ih =>
    cases ys with
    | nil => exact absurd h.symm (hfirst (hxs x mem_cons_self))
    | cons y ys =>
      rw [map_cons, map_cons, joined_cons_append, joined_cons_append] at h
      have hends : ∀ (zs : List α) (r : List σ), Ends closing (match zs.map text with
          | [] => stop :: r
          | t :: ts => sep :: (joined sep (t :: ts) ++ stop :: r)) := by
        intro zs r
        cases zs with
        | nil => exact .cons hstop _
        | cons z zs => exact .cons hsep _
      obtain ⟨hxy, hrest⟩ := hreads x mem_cons_self y mem_cons_self _ _ (hends xs r) (hends ys r') h
      have hnext : joined sep (xs.map text) ++ stop :: r =
          joined sep (ys.map text) ++ stop :: r' := by
        cases xs with
        | nil =>
          cases ys with
          | nil => exact hrest
          | cons y' ys => exact absurd (cons.inj hrest).1.symm hne
        | cons x' xs =>
          cases ys with
          | nil => exact absurd (cons.inj hrest).1 hne
          | cons y' ys => exact (cons.inj hrest).2
      obtain ⟨hall, rfl⟩ := ih (fun z hz ↦ hxs z (mem_cons_of_mem _ hz))
        (fun z hz ↦ hys z (mem_cons_of_mem _ hz))
        (fun z hz w hw ↦ hreads z (mem_cons_of_mem _ hz) w (mem_cons_of_mem _ hw)) hnext
      exact ⟨.cons hxy hall, rfl⟩

/-- Two things with a separator between them. -/
theorem Reads.pair {p q : α × α} (hsep : closing sep) (hfst : Reads closing text R p.1 q.1)
    (hsnd : Reads closing text R p.2 q.2) :
    Reads closing (fun e ↦ text e.1 ++ sep :: text e.2)
      (fun e e' ↦ R e.1 e'.1 ∧ R e.2 e'.2) p q := by
  intro r r' hr hr' h
  simp only [append_assoc, cons_append] at h
  obtain ⟨hkey, hrest⟩ := hfst _ _ (.cons hsep _) (.cons hsep _) h
  obtain ⟨hvalue, rfl⟩ := hsnd r r' hr hr' (cons.inj hrest).2
  exact ⟨⟨hkey, hvalue⟩, rfl⟩

end Hara.Lib.Joined
