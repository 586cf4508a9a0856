import Hara.Lib.Hoare

/-!
# Binary formats

A reader takes bytes from the front of its input. `Decodes r data a` says that it takes exactly
`data`, whatever follows, and gives `a`. Readers are composed and so are the bytes they take, which
is all that a round trip over a format made of fields, counts and optional parts needs.
-/

namespace Codec

variable {ε α β : Type} {datas : List (List UInt8)} {a : α}

/-! ## Numbers of a fixed width -/

/-- The bytes of a number, the lowest first. -/
def le : ℕ → ℕ → List UInt8
  | 0, _ => []
  | width + 1, n => UInt8.ofNat n :: le width (n / 256)

/-- The number with these bytes, the lowest first. -/
def ofLe : List UInt8 → ℕ
  | [] => 0
  | b :: data => b.toNat + 256 * ofLe data

@[simp] theorem length_le {width n : ℕ} : (le width n).length = width := by
  induction width generalizing n with
  | zero => rfl
  | succ width ih => rw [le, List.length_cons, ih]

theorem ofLe_le {width n : ℕ} (h : n < 256 ^ width) : ofLe (le width n) = n := by
  induction width generalizing n with
  | zero => exact (Nat.lt_one_iff.mp h).symm
  | succ width ih =>
    have hrest : n / 256 < 256 ^ width := by
      rw [Nat.div_lt_iff_lt_mul (by decide)]
      exact h
    rw [le, ofLe, ih hrest]
    exact Nat.mod_add_div n 256

/-! ## Readers -/

/-- A reader over the bytes that are left. -/
abbrev Reader (ε : Type) := EStateM ε (List UInt8)

/-- The value and the bytes that are left. -/
def read (r : Reader ε α) (data : List UInt8) : Except ε (α × List UInt8) :=
  match r data with
  | .ok a rest => .ok (a, rest)
  | .error e _ => .error e

/-- The reader takes these bytes and gives this value. -/
def Decodes (r : Reader ε α) (data : List UInt8) (a : α) : Prop :=
  ∀ rest, r (data ++ rest) = .ok a rest

namespace Decodes

variable {r : Reader ε α} {data data' : List UInt8}

theorem read (h : Decodes r data a) : Codec.read r data = .ok (a, []) := by
  have hrun := h []
  rw [List.append_nil] at hrun
  rw [Codec.read, hrun]

theorem pure (a : α) : Decodes (Pure.pure a : Reader ε α) [] a := fun _ ↦ rfl

theorem bind {f : α → Reader ε β} {b : β} (h : Decodes r data a) (hf : Decodes (f a) data' b) :
    Decodes (r >>= f) (data ++ data') b := by
  intro rest
  rw [List.append_assoc, EStateM.bind_of_ok (h (data' ++ rest))]
  exact hf rest

/-- The last reader of a sequence. -/
theorem bind_pure {f : α → Reader ε β} {b : β} (h : Decodes r data a)
    (hf : Decodes (f a) [] b) : Decodes (r >>= f) data b := by
  have hbind := h.bind hf
  rwa [List.append_nil] at hbind

end Decodes

/-- The bytes that a reader takes. -/
def spanned (r : Reader ε α) : Reader ε (List UInt8) := fun data ↦
  match r data with
  | .ok _ rest => .ok (data.take (data.length - rest.length)) rest
  | .error e rest => .error e rest

theorem Decodes.spanned {r : Reader ε α} {data : List UInt8} (h : Decodes r data a) :
    Decodes (spanned r) data data := by
  intro rest
  rw [Codec.spanned, h rest]
  dsimp only
  rw [List.length_append, Nat.add_sub_cancel, List.take_left]

/-- The reader fails on these bytes, whatever follows. -/
def Rejects (r : Reader ε α) (data : List UInt8) : Prop :=
  ∀ rest, ∃ e rest', r (data ++ rest) = .error e rest'

namespace Rejects

variable {r : Reader ε α} {data : List UInt8}

theorem bind (h : Rejects r data) (f : α → Reader ε β) (data' : List UInt8) :
    Rejects (r >>= f) (data ++ data') := by
  intro rest
  obtain ⟨e, rest', hrun⟩ := h (data' ++ rest)
  rw [← List.append_assoc] at hrun
  exact ⟨e, rest', EStateM.bind_of_error hrun⟩

/-- A reader whose last part fails. -/
theorem bind_nil (h : Rejects r data) (f : α → Reader ε β) : Rejects (r >>= f) data := by
  have hbind := h.bind f []
  rwa [List.append_nil] at hbind

theorem throw {e : ε} (data : List UInt8) : Rejects (throw e : Reader ε α) data :=
  fun rest ↦ ⟨e, data ++ rest, rfl⟩

/-- A reader that fails after bytes that could be read. -/
theorem of_bind {data' : List UInt8} {f : α → Reader ε β} (h : Decodes r data a)
    (hf : Rejects (f a) data') : Rejects (r >>= f) (data ++ data') := by
  intro rest
  obtain ⟨e, rest', hrun⟩ := hf rest
  rw [List.append_assoc, EStateM.bind_of_ok (h (data' ++ rest))]
  exact ⟨e, rest', hrun⟩

/-- A reader that fails after a part that takes nothing. -/
theorem of_bind_left {f : α → Reader ε β} (h : Decodes r [] a) (hf : Rejects (f a) data) :
    Rejects (r >>= f) data := of_bind h hf

theorem of_bind_nil {f : α → Reader ε β} (h : Decodes r data a) (hf : Rejects (f a) []) :
    Rejects (r >>= f) data := by
  have hbind := of_bind h hf
  rwa [List.append_nil] at hbind

theorem not_read (h : Rejects r data) (p : α × List UInt8) : Codec.read r data ≠ .ok p := by
  obtain ⟨e, rest', hrun⟩ := h []
  rw [List.append_nil] at hrun
  rw [Codec.read, hrun]
  intro h
  cases h

end Rejects

/-- The same reader again and again. -/
def many (r : Reader ε α) : ℕ → Reader ε (List α)
  | 0 => pure []
  | n + 1 => do
    let a ← r
    let l ← many r n
    return a :: l

theorem Decodes.many {r : Reader ε α} {l : List α}
    (h : List.Forall₂ (fun a data ↦ Decodes r data a) l datas) :
    Decodes (many r l.length) datas.flatten l := by
  induction h with
  | nil => exact .pure []
  | cons ha _ ih => exact ha.bind (ih.bind_pure (.pure _))

/-- Reading many values fails at the first that cannot be read. -/
theorem Rejects.many {r : Reader ε α} (h : ∀ data ∈ datas, (∃ a, Decodes r data a) ∨ Rejects r data)
    (hrejects : ∃ data ∈ datas, Rejects r data) : Rejects (many r datas.length) datas.flatten := by
  induction datas with
  | nil =>
    obtain ⟨data, hdata, -⟩ := hrejects
    exact absurd hdata List.not_mem_nil
  | cons data datas ih =>
    obtain ⟨hdata, hdatas⟩ := List.forall_mem_cons.mp h
    rcases hdata with ⟨a, hdecodes⟩ | hdata
    · -- this one can be read, so that the failure is in the rest or here as well
      rcases (List.exists_mem_cons_iff _ _ _).mp hrejects with hdata | hrest
      · exact hdata.bind _ _
      · exact of_bind hdecodes ((ih hdatas hrest).bind_nil _)
    · exact hdata.bind _ _

end Codec
