import Hara.Resp.Wire

/-!
# Framing

What a sequence of writes leaves on the wire, and what is read back from it. A line with a line
break in it is refused before anything is written. Inside an array it is refused after the line
that announces the array, and the values that follow are then read as the elements of that array.
-/

namespace Hara.Resp

open EStateM
open List hiding length modify toString

/-- Within the limits of the reader, with so many levels left; lines may have line breaks. -/
def Within : ℕ → RespValue → Prop
  | 0, _ => False
  | _ + 1, .simple text | _ + 1, .error text => (Utf8.bytes text).length + 2 ≤ maxLine
  | _ + 1, .integer n => InI64 n
  | _ + 1, .bulk none | _ + 1, .nullArray => True
  | _ + 1, .bulk (some data) => data.length ≤ maxBulk
  | levels + 1, .array values => values.length ≤ maxLine ∧ ∀ value ∈ values, Within levels value

/-- One `write` after the other: the output, and the values whose writes succeeded. -/
def writeEach : List RespValue → List UInt8 → List UInt8 × List RespValue
  | [], output => (output, [])
  | value :: values, output =>
    match writeValue value output with
    | .ok _ output =>
      let (output, written) := writeEach values output
      (output, value :: written)
    | .error _ output => writeEach values output

/-- The values that `read` returns, up to the end of the stream. -/
inductive Reads : List UInt8 → List RespValue → Prop
  | stop {input : List UInt8} (h : read input = .ok none []) : Reads input []
  | next {input rest : List UInt8} {value : RespValue} {values : List RespValue}
    (h : read input = .ok (some value) rest) (hrest : Reads rest values) :
    Reads input (value :: values)

/-- A write appends the whole value, or it fails and appends nothing. -/
def AllOrNothing (value : RespValue) : Prop :=
  ∀ output, writeValue value output = .ok () (output ++ encode value) ∨
    ∃ e, writeValue value output = .error e output

/-- The writes are all or nothing, and what was written is read back, to the last byte. -/
structure Framed (values : List RespValue) : Prop where
  writes : ∀ value ∈ values, AllOrNothing value
  reads : Reads (writeEach values []).1 (writeEach values []).2

/-- No line inside an array has a line break in it. -/
def Unbroken : RespValue → Prop
  | .array values => (RespValue.array values).Printable
  | _ => True

variable {value : RespValue} {values : List RespValue} {levels : ℕ}

theorem fits_of_within (h : Within levels value) (hprintable : value.Printable) :
    Fits levels value := by
  induction levels generalizing value with
  | zero => exact h
  | succ levels ih =>
    cases hprintable with
    | simple hline | error hline => exact ⟨(singleLine_iff.mp hline).2, h⟩
    | integer n => exact h
    | bulk data =>
      cases data with
      | none => trivial
      | some data => exact h
    | nullArray => trivial
    | array hvalues => exact ⟨h.1, fun value hvalue ↦ ih (h.2 value hvalue) (hvalues value hvalue)⟩

/-! ## Writing -/

theorem lineValue_broken {text : String} (h : ¬singleLine text) (tag : Char) (output : List UInt8) :
    lineValue tag text output = .error "RESP line values cannot contain CR or LF" output := by
  rw [Bool.not_eq_true] at h
  rw [lineValue, h]
  rfl

theorem writeValues_broken (hbroken : ∃ value ∈ values, ¬value.Printable)
    (h : ∀ value ∈ values, ¬value.Printable → ∀ output,
      ∃ e rest, writeValue value output = .error e (output ++ rest)) (output : List UInt8) :
    ∃ e rest, writeValues values output = .error e (output ++ rest) := by
  induction values generalizing output with
  | nil =>
    obtain ⟨_, hmem, _⟩ := hbroken
    cases hmem
  | cons value values ih =>
    rw [forall_mem_cons] at h
    rw [writeValues]
    by_cases hvalue : value.Printable
    · rw [exists_mem_cons_iff, or_iff_right (not_not.mpr hvalue)] at hbroken
      obtain ⟨e, rest, hrest⟩ := ih hbroken h.2 (output ++ encode value)
      refine ⟨e, encode value ++ rest, ?_⟩
      rw [bind_of_ok (writeValue_printable hvalue output), hrest, append_assoc]
    · obtain ⟨e, rest, hrest⟩ := h.1 hvalue output
      exact ⟨e, rest, bind_of_error hrest⟩

/-- A value with a line break in one of its lines is not written; what an array leaves behind is
not empty. -/
theorem writeValue_broken (h : Within levels value) (hbroken : ¬value.Printable)
    (output : List UInt8) :
    ∃ e rest, writeValue value output = .error e (output ++ rest) ∧
      (rest = [] ↔ Unbroken value) := by
  induction levels generalizing value output with
  | zero => exact h.elim
  | succ levels ih =>
    cases value with
    | simple text | error text =>
      refine ⟨"RESP line values cannot contain CR or LF", [], ?_, iff_of_true rfl trivial⟩
      rw [append_nil]
      exact lineValue_broken (fun hline ↦ hbroken (by constructor; exact hline)) _ _
    | integer n => exact absurd (.integer n) hbroken
    | bulk data => exact absurd (.bulk data) hbroken
    | nullArray => exact absurd .nullArray hbroken
    | array values =>
      have hvalue : ∃ value ∈ values, ¬value.Printable := by
        by_contra! hall
        exact hbroken (.array hall)
      obtain ⟨e, rest, hrest⟩ := writeValues_broken hvalue
        (fun value hmem hvalue output ↦ by
          obtain ⟨e, rest, hrest, -⟩ := ih (h.2 value hmem) hvalue output
          exact ⟨e, rest, hrest⟩) (output ++ encodeLine '*' (toString values.length))
      refine ⟨e, encodeLine '*' (toString values.length) ++ rest, ?_, iff_of_false nofun hbroken⟩
      rw [writeValue, bind_of_ok (writeHeader "*" '*' (by decide) values.length output), hrest,
        append_assoc]

theorem writeValue_refused (h : Within levels value) (hbroken : ¬value.Printable)
    (hunbroken : Unbroken value) (output : List UInt8) :
    ∃ e, writeValue value output = .error e output := by
  obtain ⟨e, rest, hrest, hnil⟩ := writeValue_broken h hbroken output
  rw [hnil.mpr hunbroken, append_nil] at hrest
  exact ⟨e, hrest⟩

theorem allOrNothing_iff (h : Within levels value) : AllOrNothing value ↔ Unbroken value := by
  by_cases hprintable : value.Printable
  · refine iff_of_true (fun output ↦ .inl (writeValue_printable hprintable output)) ?_
    cases value with
    | array values => exact hprintable
    | _ => trivial
  · constructor
    · intro hwrites
      obtain ⟨e, rest, hrest, hunbroken⟩ := writeValue_broken h hprintable []
      rcases hwrites [] with hok | ⟨e', herror⟩
      · rw [hrest] at hok
        cases hok
      · rw [hrest] at herror
        exact hunbroken.mp (Result.error.inj herror).2
    · exact fun hunbroken output ↦ .inr (writeValue_refused h hprintable hunbroken output)

/-! ## Reading back -/

theorem reads_encodeAll (h : ∀ value ∈ values, Fits (maxNesting + 1) value) :
    Reads (encodeAll values) values := by
  induction values with
  | nil => exact .stop rfl
  | cons value values ih =>
    rw [forall_mem_cons] at h
    exact .next (read_encode h.1 _) (ih h.2)

/-- The output holds the values whose writes succeeded. -/
theorem exists_written (h : ∀ value ∈ values, Within levels value ∧ Unbroken value)
    (output : List UInt8) :
    ∃ written, writeEach values output = (output ++ encodeAll written, written) ∧
      ∀ value ∈ written, Fits levels value := by
  induction values generalizing output with
  | nil => exact ⟨[], by rw [encodeAll, append_nil]; rfl, forall_mem_nil _⟩
  | cons value values ih =>
    obtain ⟨⟨hwithin, hunbroken⟩, hrest⟩ := forall_mem_cons.mp h
    rw [writeEach]
    by_cases hprintable : value.Printable
    · obtain ⟨written, hwritten, hfits⟩ := ih hrest (output ++ encode value)
      refine ⟨value :: written, ?_, forall_mem_cons.mpr ⟨fits_of_within hwithin hprintable, hfits⟩⟩
      simp only [writeValue_printable hprintable, hwritten, encodeAll, append_assoc]
    · obtain ⟨written, hwritten, hfits⟩ := ih hrest output
      obtain ⟨e, hwrite⟩ := writeValue_refused hwithin hprintable hunbroken output
      exact ⟨written, by simp only [hwrite, hwritten], hfits⟩

/-- Within the limits, the writes are all or nothing and are read back exactly when no line inside
an array has a line break in it. -/
theorem framed_iff (h : ∀ value ∈ values, Within (maxNesting + 1) value) :
    Framed values ↔ ∀ value ∈ values, Unbroken value := by
  constructor
  · intro hframed value hvalue
    exact (allOrNothing_iff (h value hvalue)).mp (hframed.writes value hvalue)
  · intro hunbroken
    refine ⟨fun value hvalue ↦ (allOrNothing_iff (h value hvalue)).mpr (hunbroken value hvalue), ?_⟩
    obtain ⟨written, hwritten, hfits⟩ :=
      exists_written (fun value hvalue ↦ ⟨h value hvalue, hunbroken value hvalue⟩) []
    rw [hwritten]
    exact reads_encodeAll hfits

/-- A refused line, and an array after it. -/
theorem framed_refused : Framed [.error "a\r\nb", .array [.nullArray]] := by
  refine (framed_iff ?_).mpr ?_
  · have hline : (Utf8.bytes "a\r\nb").length + 2 ≤ maxLine := by decide
    exact forall_mem_cons.mpr ⟨hline, forall_mem_singleton.mpr
      ⟨by decide, forall_mem_singleton.mpr trivial⟩⟩
  · exact forall_mem_cons.mpr ⟨trivial, forall_mem_singleton.mpr
      (.array (forall_mem_singleton.mpr .nullArray))⟩

/-- The line that announces the array stays on the wire, and the next value is read as its
element. -/
theorem writeEach_broken :
    writeEach [.array [.simple "a\nb"], .simple "OK"] [] =
      (encode (.array [.simple "OK"]), [.simple "OK"]) ∧
    read (encode (.array [.simple "OK"])) = .ok (some (.array [.simple "OK"])) [] := by
  have hok : (RespValue.simple "OK").Printable := .simple (by decide)
  have hline : LineFits "OK" := ⟨by decide, by decide⟩
  have hfits : Fits (maxNesting + 1) (.array [.simple "OK"]) :=
    ⟨by decide, forall_mem_singleton.mpr hline⟩
  have hbroken : writeValue (.array [.simple "a\nb"]) [] =
      .error "RESP line values cannot contain CR or LF" ([] ++ encodeLine '*' (toString 1)) := by
    have hline : ¬singleLine "a\nb" := by decide
    exact (bind_of_ok (writeHeader "*" '*' (by decide) 1 [])).trans
      (bind_of_error (lineValue_broken hline '+' _))
  constructor
  · simp only [writeEach, hbroken, writeValue_printable hok]
    rfl
  · have hread := read_encode hfits []
    rwa [append_nil] at hread

end Hara.Resp
