import Hara.Lib.Codec

/-!
# Writers with a limit

A writer appends to the bytes that were written before, and fails when they would become more than
a limit allows. `Emits limit w data` says that the writer appends exactly `data`, if there is room.
A writer that succeeds once then succeeds wherever there is room, with the same bytes.
-/

namespace Codec

variable {ε α β : Type} {limit : ℕ}

/-! ## Big-endian numbers -/

/-- The bytes of a number, the highest first. -/
def be (width n : ℕ) : List UInt8 := (le width n).reverse

/-- The number with these bytes, the highest first. -/
def ofBe (data : List UInt8) : ℕ := ofLe data.reverse

@[simp] theorem length_be {width n : ℕ} : (be width n).length = width := by
  rw [be, List.length_reverse, length_le]

theorem ofBe_be {width n : ℕ} (h : n < 256 ^ width) : ofBe (be width n) = n := by
  rw [ofBe, be, List.reverse_reverse, ofLe_le h]

/-! ## Writers -/

/-- A writer, over the bytes that are written. -/
abbrev ByteWriter (ε : Type) := EStateM ε (List UInt8)

/-- Append bytes, if there is room. -/
def put (limit : ℕ) (full : ε) (data : List UInt8) : ByteWriter ε Unit := fun out ↦
  if out.length + data.length ≤ limit then .ok () (out ++ data) else .error full out

/-- What a writer puts into a buffer of its own. -/
def encoded (w : ByteWriter ε Unit) : Except ε (List UInt8) :=
  match w [] with
  | .ok _ data => .ok data
  | .error e _ => .error e

/-- A computation that does not write. -/
def lift (x : Except ε α) : ByteWriter ε α := fun out ↦
  match x with
  | .ok a => .ok a out
  | .error e => .error e out

/-- The writer returns, on some buffer. -/
def Succeeds (w : ByteWriter ε α) : Prop := ∃ out a out', w out = .ok a out'

/-- The writer appends these bytes, if there is room. -/
structure Emits (limit : ℕ) (w : ByteWriter ε Unit) (data : List UInt8) : Prop where
  ok : ∀ out, out.length + data.length ≤ limit → w out = .ok () (out ++ data)
  eq : ∀ out out', w out = .ok () out' → out' = out ++ data
  le : ∀ out out', w out = .ok () out' → data ≠ [] → out'.length ≤ limit

theorem encoded_eq_ok {w : ByteWriter ε Unit} {data : List UInt8} :
    encoded w = .ok data ↔ w [] = .ok () data := by
  rw [encoded]
  split
  · next hw => simp [hw]
  · next hw => simp [hw]

theorem lift_ok_bind {a : α} (f : α → ByteWriter ε β) : (lift (.ok a) >>= f) = f a := rfl

theorem Succeeds.bind {w : ByteWriter ε α} {f : α → ByteWriter ε β} (h : Succeeds (w >>= f)) :
    Succeeds w ∧ ∃ a, Succeeds (f a) := by
  obtain ⟨out, b, out', h⟩ := h
  obtain ⟨a, out₁, hw, hf⟩ := EStateM.bind_eq_ok.mp h
  exact ⟨⟨out, a, out₁, hw⟩, a, out₁, b, out', hf⟩

theorem Succeeds.seq {w : ByteWriter ε Unit} {f : Unit → ByteWriter ε β} (h : Succeeds (w >>= f)) :
    Succeeds w ∧ Succeeds (f ()) := by
  obtain ⟨hw, ⟨⟩, hf⟩ := h.bind
  exact ⟨hw, hf⟩

theorem Succeeds.lift {x : Except ε α} {f : α → ByteWriter ε β}
    (h : Succeeds (Codec.lift x >>= f)) :
    ∃ a, x = .ok a ∧ Succeeds (f a) := by
  cases x with
  | ok a => exact ⟨a, rfl, h⟩
  | error e =>
    obtain ⟨out, b, out', h⟩ := h
    cases h

theorem not_succeeds_throw {e : ε} : ¬Succeeds (throw e : ByteWriter ε α) := by
  rintro ⟨out, a, out', h⟩
  cases h

theorem Succeeds.forM {f : α → ByteWriter ε Unit} {l : List α} (h : Succeeds (l.forM f)) :
    ∀ a ∈ l, Succeeds (f a) := by
  induction l with
  | nil => nofun
  | cons a l ih =>
    obtain ⟨ha, hl⟩ := h.seq
    exact List.forall_mem_cons.mpr ⟨ha, ih hl⟩

namespace Emits

variable {w w' : ByteWriter ε Unit} {data data' : List UInt8}

protected theorem pure : Emits limit (pure () : ByteWriter ε Unit) [] where
  ok out _ := by
    rw [List.append_nil]
    rfl
  eq out out' h := by
    cases h
    rw [List.append_nil]
  le _ _ _ hne := absurd rfl hne

protected theorem put (full : ε) (data : List UInt8) : Emits limit (put limit full data) data where
  ok out hroom := if_pos hroom
  eq out out' h := by
    rw [Codec.put] at h
    split at h
    · cases h
      rfl
    · cases h
  le out out' h _ := by
    rw [Codec.put] at h
    split at h
    · cases h
      rwa [List.length_append]
    · cases h

protected theorem seq (h : Emits limit w data) (h' : Emits limit w' data') :
    Emits limit (w >>= fun _ ↦ w') (data ++ data') where
  ok out hroom := by
    rw [List.length_append, ← Nat.add_assoc] at hroom
    rw [EStateM.bind_of_ok (h.ok out (Nat.le_of_add_right_le hroom)), h'.ok, List.append_assoc]
    rwa [List.length_append]
  eq out out' hrun := by
    obtain ⟨_, out₁, hw, hw'⟩ := EStateM.bind_eq_ok.mp hrun
    rw [h'.eq out₁ out' hw', h.eq out out₁ hw, List.append_assoc]
  le out out' hrun hne := by
    obtain ⟨_, out₁, hw, hw'⟩ := EStateM.bind_eq_ok.mp hrun
    by_cases hnil : data' = []
    · -- the second writer appends nothing
      rw [h'.eq out₁ out' hw', hnil, List.append_nil]
      rw [hnil, List.append_nil] at hne
      exact h.le out out₁ hw hne
    · exact h'.le out₁ out' hw' hnil

protected theorem forM {f : α → ByteWriter ε Unit} {l : List α} {datas : List (List UInt8)}
    (h : List.Forall₂ (fun a data ↦ Emits limit (f a) data) l datas) :
    Emits limit (l.forM f) datas.flatten := by
  induction h with
  | nil => exact .pure
  | cons ha _ ih => exact ha.seq ih

theorem encoded (h : Emits limit w data) (hroom : data.length ≤ limit) :
    Codec.encoded w = .ok data := by
  have hrun := h.ok [] (by rwa [List.length_nil, Nat.zero_add])
  exact encoded_eq_ok.mpr hrun

/-- The bytes of a writer that returned are below the limit. -/
theorem length_le (h : Emits limit w data) (hw : Succeeds w) (hne : data ≠ []) :
    data.length ≤ limit := by
  obtain ⟨out, ⟨⟩, out', hrun⟩ := hw
  have hle := h.le out out' hrun hne
  rw [h.eq out out' hrun, List.length_append] at hle
  exact Nat.le_of_add_left_le hle

/-- The bytes of a writer that returned are determined. -/
theorem unique (h : Emits limit w data) (h' : Emits limit w data') (hw : Succeeds w) :
    data = data' := by
  obtain ⟨out, ⟨⟩, out', hrun⟩ := hw
  have heq := (h.eq out out' hrun).symm.trans (h'.eq out out' hrun)
  exact List.append_cancel_left heq

end Emits

end Codec
