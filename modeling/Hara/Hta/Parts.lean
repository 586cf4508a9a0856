import Hara.Hta.Provenance

/-!
# Frames of values with a fixed number of parts

Tagged literals, exceptions, structs, pointers and references to vars are written as their tag and
then as other values, one after the other. Some of these values are not parts of the value itself,
such as the text of a tag or the record that stands for the provenance of an exception.
-/

namespace Hara.Hta

open Codec Hara.Lib List

variable {left : ℕ} {v : ImmutableValue}

/-- The frame of a value that is encoded as its tag and then as the given values. -/
theorem exists_frame_parts {tag : Tag} {parts : List ImmutableValue} (ih : AllFramed left)
    (hsucceeds : Succeeds (encodeValue (left + 1) v))
    (hencode : ∀ k, encodeValue (left + k + 1) v =
      push tag >>= fun _ ↦ parts.forM (encodeValue (left + k)))
    (hagain : ∀ k, encodeValue (left + k + 1) (normalForm v) =
      push tag >>= fun _ ↦ (parts.map normalForm).forM (encodeValue (left + k)))
    (hadmissible : v.Admissible → ∀ part ∈ parts, part.Admissible)
    (hread : v.Admissible → ∀ datas,
      List.Forall₂ (fun part data ↦ Decodes (value left) data part) (parts.map normalForm) datas →
      Decodes (readTagged (value left) tag) datas.flatten (normalForm v)) :
    ∃ data, Frame (left + 1) v data := by
  have hparts := hsucceeds
  rw [hencode 0] at hparts
  obtain ⟨datas, hframes⟩ := exists_frames ih hparts.seq.2.forM
  refine ⟨_, .of_tagged tag datas.flatten hsucceeds ?_ ?_ ?_⟩
  · intro k
    rw [hencode]
    exact (emits_push tag).seq (emits_frames hframes k)
  · intro k
    rw [hagain]
    exact (emits_push tag).seq (emits_frames_again hframes)
  · intro hv
    exact hread hv datas (decodes_frames hframes (hadmissible hv))

/-! ## Leaves as parts -/

theorem normalForm_string (text : String) : normalForm (.string text) = .string text := by
  simp

theorem normalForm_symbol (text : String) : normalForm (.symbol text) = .symbol text := by
  simp

theorem admissible_string (text : String) : (ImmutableValue.string text).Admissible :=
  .of_leaf trivial rfl

theorem admissible_symbol {text : String} : (ImmutableValue.symbol text).Admissible :=
  .of_leaf trivial rfl

/-! ## Tagged literals and references to vars -/

theorem encodeValue_tagged (left : ℕ) (tag : String) (form : ImmutableValue) :
    encodeValue (left + 1) (.tagged tag form) =
      push .tagged >>= fun _ ↦ [.symbol tag, form].forM (encodeValue left) := by
  simp [encodeValue]

theorem exists_frame_tagged {tag : String} {form : ImmutableValue} (ih : AllFramed left) :
    Framable (left + 1) (.tagged tag form) := by
  intro hsucceeds
  have hnormal : normalForm (.tagged tag form) = .tagged tag (normalForm form) := by
    rw [normalForm]
  refine exists_frame_parts ih hsucceeds (fun k ↦ encodeValue_tagged _ tag form) ?_ ?_ ?_
  · intro k
    rw [hnormal, encodeValue_tagged, map_cons, map_cons, map_nil, normalForm_symbol]
  · intro hv part hpart
    rcases mem_pair.mp hpart with rfl | rfl
    · exact admissible_symbol
    · exact hv.of_mem_parts (mem_singleton_self _)
  · intro _ datas hdatas
    rw [map_cons, normalForm_symbol] at hdatas
    obtain _ | ⟨htag, _ | ⟨hform, _ | _⟩⟩ := hdatas
    rw [hnormal]
    exact htag.bind (hform.bind (.pure _))

theorem encodeValue_varRef {symbol : String} : encodeValue (left + 1) (.varRef symbol) =
    push .varRef >>= fun _ ↦ [.symbol symbol].forM (encodeValue left) := by
  simp [encodeValue]

theorem exists_frame_varRef {symbol : String} (ih : AllFramed left) :
    Framable (left + 1) (.varRef symbol) := by
  intro hsucceeds
  have hnormal : normalForm (.varRef symbol) = .varRef symbol := by
    simp
  refine exists_frame_parts ih hsucceeds (fun k ↦ encodeValue_varRef) ?_ ?_ ?_
  · intro k
    rw [hnormal, encodeValue_varRef, map_singleton, normalForm_symbol]
  · intro _ part hpart
    obtain rfl := mem_singleton.mp hpart
    exact admissible_symbol
  · intro _ datas hdatas
    rw [map_singleton, normalForm_symbol] at hdatas
    obtain _ | ⟨hsymbol, _ | _⟩ := hdatas
    rw [hnormal]
    exact hsymbol.bind (.pure _)

/-! ## Pointers -/

variable {context : String} {fields : Fields}

theorem exists_eq_add_one_of_pointer
    (hsucceeds : Succeeds (encodeValue (left + 1) (.pointer context fields))) :
    ∃ lower, left = lower + 1 := by
  cases left with
  | zero => exact absurd hsucceeds.seq.2.seq.1 not_succeeds_throw
  | succ lower => exact ⟨lower, rfl⟩

/-- The record of a pointer is written like a record that is a value. -/
theorem encodeValue_pointer
    (hsucceeds : Succeeds (encodeValue (left + 1) (.pointer context fields))) :
    encodeValue (left + 1) (.pointer context fields) = push .pointer >>= fun _ ↦
      [.keyword context, .record fields].forM (encodeValue left) := by
  obtain ⟨left, rfl⟩ := exists_eq_add_one_of_pointer hsucceeds
  simp [encodeValue]

theorem exists_frame_pointer (ih : AllFramed left) :
    Framable (left + 1) (.pointer context fields) := by
  intro hsucceeds
  obtain ⟨left, rfl⟩ := exists_eq_add_one_of_pointer hsucceeds
  have hencode (k : ℕ) (fields : Fields) :
      encodeValue (left + 1 + k + 1) (.pointer context fields) =
        push .pointer >>= fun _ ↦
          [.keyword context, .record fields].forM (encodeValue (left + 1 + k)) := by
    rw [Nat.add_right_comm left 1 k]
    simp [encodeValue]
  have hnormal : normalForm (.pointer context fields) = .pointer context (normalFields fields) := by
    rw [normalForm, normalFields]
  have hrecord : normalForm (.record fields) = .record (normalFields fields) := by
    rw [normalForm, normalFields]
  refine exists_frame_parts ih hsucceeds (fun k ↦ hencode k fields) ?_ ?_ ?_
  · intro k
    rw [hnormal, hencode, map_cons, map_cons, map_nil, normalForm_keyword, hrecord]
  · intro hv part hpart
    rcases mem_pair.mp hpart with rfl | rfl
    · exact admissible_keyword
    · exact ⟨hv.own, fun part hpart ↦ hv.of_mem_parts hpart⟩
  · intro _ datas hdatas
    rw [map_cons, map_singleton, normalForm_keyword, hrecord] at hdatas
    obtain _ | ⟨hcontext, _ | ⟨hfields, _ | _⟩⟩ := hdatas
    rw [hnormal]
    exact hcontext.bind (hfields.bind (.pure _))

/-! ## Structs -/

theorem mapM_structField (fields : List String) :
    (fields.map ImmutableValue.string).mapM structField = .ok fields := by
  rw [Except.mapM_eq_ok, forall₂_map_left_iff, forall₂_same]
  intro _ _
  rfl

variable {values : List ImmutableValue} {fields : List String}

theorem length_of_succeeds_struct {name : String}
    (hsucceeds : Succeeds (encodeValue (left + 1) (.struct name fields values))) :
    fields.length = values.length := by
  by_contra hne
  rw [encodeValue, if_pos hne] at hsucceeds
  exact not_succeeds_throw hsucceeds

theorem encodeValue_struct (h : fields.length = values.length) (name : String) (left : ℕ) :
    encodeValue (left + 1) (.struct name fields values) = push .struct >>= fun _ ↦
      [.string name, .vector (fields.map .string), .vector values].forM (encodeValue left) := by
  simp [encodeValue, h]

theorem admissible_strings {fields : List String} :
    (ImmutableValue.vector (fields.map .string)).Admissible := by
  refine ⟨trivial, ?_⟩
  intro part hpart
  obtain ⟨text, -, rfl⟩ := mem_map.mp hpart
  exact admissible_string text

theorem exists_frame_struct {name : String} (ih : AllFramed left) :
    Framable (left + 1) (.struct name fields values) := by
  intro hsucceeds
  have harity := length_of_succeeds_struct hsucceeds
  have hfields : normalForm (.vector (fields.map .string)) = .vector (fields.map .string) := by
    simp
  have hvalues : normalForm (.vector values) = .vector (values.map normalForm) := by
    rw [normalForm]
  have hnormal : normalForm (.struct name fields values) =
      .struct name fields (values.map normalForm) := by
    rw [normalForm]
  have harity' : fields.length = (values.map normalForm).length := by
    rw [harity, length_map]
  refine exists_frame_parts ih hsucceeds (fun k ↦ encodeValue_struct harity name _) ?_ ?_ ?_
  · intro k
    rw [hnormal, encodeValue_struct harity', map_cons, map_cons, map_singleton, normalForm_string,
      hfields, hvalues]
  · intro hv part hpart
    simp only [mem_cons, not_mem_nil, or_false] at hpart
    rcases hpart with rfl | rfl | rfl
    · exact admissible_string name
    · exact admissible_strings
    · exact ⟨trivial, fun part hpart ↦ hv.of_mem_parts hpart⟩
  · intro _ datas hdatas
    rw [map_cons, map_cons, map_singleton, normalForm_string, hfields, hvalues] at hdatas
    obtain _ | ⟨hname, _ | ⟨hnames, _ | ⟨hitems, _ | _⟩⟩⟩ := hdatas
    rw [hnormal]
    refine hname.bind (hnames.bind ?_)
    dsimp only
    rw [mapM_structField]
    refine hitems.bind ?_
    dsimp only
    rw [if_neg (not_not_intro harity')]
    exact .pure _

/-! ## Exceptions -/

theorem isMap_normalForm (h : v.isMap = true) : (normalForm v).isMap = true := by
  cases v with
  | map values =>
    rw [normalForm, mapOrRecord]
    split
    · rfl
    · rfl
  | record fields =>
    rw [normalForm]
    rfl
  | _ => cases h

theorem isException_normalForm (h : v.isException = true) : (normalForm v).isException = true := by
  cases v with
  | exceptionInfo message data cause provenance =>
    cases cause <;> (rw [normalForm]; rfl)
  | _ => cases h

theorem normalForm_exceptionInfo (message : String) (data : ImmutableValue)
    (cause : Option ImmutableValue) (provenance : ExceptionProvenance) :
    normalForm (.exceptionInfo message data cause provenance) =
      .exceptionInfo message (normalForm data) (cause.map normalForm) provenance := by
  cases cause <;> (rw [normalForm]; rfl)

theorem normalForm_getD_nil (cause : Option ImmutableValue) :
    normalForm (cause.getD .nil) = (cause.map normalForm).getD .nil := by
  cases cause with
  | none => simp
  | some cause => rfl

/-- Every cause is an exception. -/
def CauseValid (cause : Option ImmutableValue) : Prop := ∀ v ∈ cause, v.isException = true

variable {cause : Option ImmutableValue}

theorem CauseValid.any (h : CauseValid cause) : (cause.any fun v ↦ ¬v.isException) = false := by
  cases cause with
  | none => rfl
  | some v => simp [h v rfl]

theorem CauseValid.normalForm (h : CauseValid cause) : CauseValid (cause.map Hta.normalForm) := by
  intro v hv
  obtain ⟨cause, hcause, rfl⟩ := Option.mem_map.mp hv
  exact isException_normalForm (h cause hcause)

theorem decodes_readCause (h : CauseValid cause) :
    Decodes (readCause (cause.getD .nil)) [] cause := by
  cases cause with
  | none => exact .pure none
  | some v =>
    have hv := h v rfl
    cases v with
    | exceptionInfo message data cause provenance => exact .pure _
    | _ => cases hv

/-- The values that an exception is written as. -/
def exceptionParts (message : String) (data : ImmutableValue) (cause : Option ImmutableValue)
    (provenance : ExceptionProvenance) : List ImmutableValue :=
  [.string message, data, cause.getD .nil, provenanceValue provenance]

variable {message : String} {data : ImmutableValue} {provenance : ExceptionProvenance}

theorem encodeValue_exceptionInfo (hdata : data.isMap = true) (hcause : CauseValid cause)
    (left : ℕ) :
    encodeValue (left + 1) (.exceptionInfo message data cause provenance) =
      push .exceptionInfo >>= fun _ ↦
        (exceptionParts message data cause provenance).forM (encodeValue left) := by
  have hany := hcause.any
  rw [encodeValue, if_neg (not_not_intro hdata), hany]
  simp [exceptionParts]

/-- What the encoder checked about an exception that it wrote. -/
theorem isMap_and_causeValid
    (hsucceeds : Succeeds (encodeValue (left + 1) (.exceptionInfo message data cause provenance))) :
    data.isMap = true ∧ CauseValid cause := by
  have hdata : data.isMap = true := by
    by_contra hne
    rw [encodeValue, if_pos hne] at hsucceeds
    exact not_succeeds_throw hsucceeds
  refine ⟨hdata, ?_⟩
  intro v hv
  by_contra hne
  have hany : (cause.any fun v ↦ ¬v.isException) = true := by
    rw [hv]
    simpa using hne
  rw [encodeValue, if_neg (not_not_intro hdata), if_pos hany] at hsucceeds
  exact not_succeeds_throw hsucceeds

theorem exists_frame_exceptionInfo
    (ih : AllFramed left) : Framable (left + 1) (.exceptionInfo message data cause provenance) := by
  intro hsucceeds
  obtain ⟨hdata, hcause⟩ := isMap_and_causeValid hsucceeds
  have hnormal := normalForm_exceptionInfo message data cause provenance
  have hparts : (exceptionParts message data cause provenance).map normalForm =
      exceptionParts message (normalForm data) (cause.map normalForm) provenance := by
    simp [exceptionParts, normalForm_getD_nil, normalForm_provenanceValue]
  refine exists_frame_parts ih hsucceeds (fun k ↦ encodeValue_exceptionInfo hdata hcause _) ?_ ?_ ?_
  · intro k
    rw [hnormal, hparts]
    exact encodeValue_exceptionInfo (isMap_normalForm hdata) hcause.normalForm _
  · intro hv part hpart
    simp only [exceptionParts, mem_cons, not_mem_nil, or_false] at hpart
    rcases hpart with rfl | rfl | rfl | rfl
    · exact admissible_string message
    · exact hv.of_mem_parts mem_cons_self
    · cases cause with
      | none => exact .of_leaf trivial rfl
      | some v => exact hv.of_mem_parts (mem_cons_of_mem _ (mem_singleton_self v))
    · exact admissible_provenanceValue
  · intro hv datas hdatas
    rw [hparts] at hdatas
    obtain _ | ⟨hmessage, _ | ⟨hfields, _ | ⟨hgetD, _ | ⟨hprovenance, _ | _⟩⟩⟩⟩ := hdatas
    rw [hnormal]
    refine hmessage.bind (hfields.bind (hgetD.bind ?_))
    refine (decodes_readCause hcause.normalForm).bind ?_
    rw [if_neg (not_not_intro (isMap_normalForm hdata))]
    refine hprovenance.bind ?_
    rw [decodeProvenance_provenanceValue hv.own]
    exact .pure _

end Hara.Hta
