import Hara.Hta.Written

/-!
# Frames that the decoder rejects

The encoder writes an empty cons, and it writes a line or a column that does not fit into a signed
number as a negative one. The decoder reads neither. A frame can be read if and only if there is no
such value in it, at any depth.

## Two kinds of conditions

That the fields of records are sorted is a fact about the type of the source, a `BTreeMap`, and not
a condition on its values. It is kept apart here as `Sorted` from what the type does allow.
-/

namespace Hara.Hta

open Codec Hara.Lib
open List hiding cons map set

/-! ## Conditions on every part -/

namespace ImmutableValue

/-- The condition holds for the value and for everything in it. -/
inductive Everywhere (P : ImmutableValue → Prop) : ImmutableValue → Prop
  | mk {value : ImmutableValue} (own : P value)
      (parts : ∀ part ∈ value.parts, Everywhere P part) : Everywhere P value

section Everywhere

variable {P : ImmutableValue → Prop} {value : ImmutableValue}

theorem Everywhere.own (h : Everywhere P value) : P value := by
  cases h with
  | mk own _ => exact own

theorem Everywhere.of_mem_parts (h : Everywhere P value) {part : ImmutableValue}
    (hpart : part ∈ value.parts) : Everywhere P part := by
  cases h with
  | mk _ parts => exact parts part hpart

/-- Where a condition fails. -/
theorem exists_of_not_everywhere (h : ¬Everywhere P value) (hown : P value) :
    ∃ part ∈ value.parts, ¬Everywhere P part := by
  by_contra hparts
  push Not at hparts
  exact h ⟨hown, hparts⟩

end Everywhere

/-- The fields of a record are sorted by name. -/
def OwnSorted : ImmutableValue → Prop
  | .record values => Ascending fieldRank values
  | .pointer _ fields => Ascending fieldRank fields
  | _ => True

/-- A cons has an item, and the lines and columns of an exception fit into a signed number. -/
def OwnReadable : ImmutableValue → Prop
  | .cons values => values ≠ []
  | .exceptionInfo _ _ _ provenance =>
    ∀ site ∈ provenance.createdAt.toList ++ provenance.throws, site.Signed
  | _ => True

/-- What the type of the source guarantees. -/
def Sorted : ImmutableValue → Prop := Everywhere OwnSorted

/-- What the decoder asks for. -/
def Readable : ImmutableValue → Prop := Everywhere OwnReadable

theorem ownAdmissible_iff {value : ImmutableValue} :
    value.OwnAdmissible ↔ value.OwnSorted ∧ value.OwnReadable := by
  cases value <;> simp [OwnAdmissible, OwnSorted, OwnReadable]

variable {value : ImmutableValue}

theorem admissible_of (hsorted : value.Sorted) (hreadable : value.Readable) : value.Admissible := by
  induction hsorted with
  | mk own _ ih =>
    refine ⟨ownAdmissible_iff.mpr ⟨own, hreadable.own⟩, ?_⟩
    intro part hpart
    exact ih part hpart (hreadable.of_mem_parts hpart)

theorem Admissible.readable (h : value.Admissible) : value.Readable := by
  induction h with
  | mk own _ ih => exact ⟨(ownAdmissible_iff.mp own).2, ih⟩

theorem Admissible.sorted (h : value.Admissible) : value.Sorted := by
  induction h with
  | mk own _ ih => exact ⟨(ownAdmissible_iff.mp own).1, ih⟩

end ImmutableValue

/-! ## Provenance -/

variable {fields : Fields}

theorem signed_of_decodeNonnegative {name : String} {n m : UInt64}
    (hfield : field fields name = some (.integer n.toInt64))
    (h : decodeNonnegative fields name = .ok m) : n.toNat < 2 ^ 63 := by
  rw [decodeNonnegative, hfield] at h
  dsimp only at h
  split at h
  · next hnonneg =>
    have htoInt : n.toInt64.toInt = n.toBitVec.toInt := rfl
    rw [htoInt, BitVec.toInt_eq_toNat_cond, UInt64.toNat_toBitVec] at hnonneg
    have hlt := n.toNat_lt
    split at hnonneg
    · omega
    · omega
  · cases h

theorem signed_of_decodeSite {site site' : ExceptionSite}
    (h : decodeSite (siteValue site) = .ok site') : site.Signed := by
  simp only [siteValue, decodeSite, Except.bind_eq_ok] at h
  obtain ⟨_, -, _, -, _, -, line, hline, column, hcolumn, -⟩ := h
  constructor
  · exact signed_of_decodeNonnegative rfl hline
  · exact signed_of_decodeNonnegative rfl hcolumn

theorem signed_of_decodeCreatedAt {createdAt createdAt' : Option ExceptionSite}
    (h : decodeCreatedAt (some ((createdAt.map siteValue).getD .nil)) = .ok createdAt') :
    ∀ site ∈ createdAt.toList, site.Signed := by
  intro site hsite
  obtain rfl : createdAt = some site := Option.mem_toList.mp hsite
  have hmap : (decodeSite (siteValue site)).map some = .ok createdAt' := h
  cases hdecode : decodeSite (siteValue site) with
  | ok site' => exact signed_of_decodeSite hdecode
  | error e =>
    rw [hdecode] at hmap
    cases hmap

variable {provenance : ExceptionProvenance}

/-- A provenance that is read back has lines and columns that fit into a signed number. -/
theorem signed_of_decodeProvenance {provenance' : ExceptionProvenance}
    (h : decodeProvenance (provenanceValue provenance) = .ok provenance') :
    ∀ site ∈ provenance.createdAt.toList ++ provenance.throws, site.Signed := by
  obtain ⟨_, -, h⟩ := Except.bind_eq_ok.mp h
  obtain ⟨createdAt, hcreatedAt, h⟩ := Except.bind_eq_ok.mp h
  obtain ⟨throws, hthrows, -⟩ := Except.bind_eq_ok.mp h
  refine forall_mem_append.mpr ⟨signed_of_decodeCreatedAt hcreatedAt, ?_⟩
  intro site hsite
  obtain ⟨site', -, hdecode⟩ := Except.exists_of_mapM_eq_ok hthrows (mem_map_of_mem hsite)
  exact signed_of_decodeSite hdecode

/-! ## Containers with a part that cannot be read -/

variable {left : ℕ} {data : List UInt8}

/-- The bytes are read, or they are rejected whatever follows. -/
def Decided {α : Type} (r : Reader String α) (data : List UInt8) : Prop :=
  (∃ a, Decodes r data a) ∨ Rejects r data

theorem rejects_value {tag : Tag} (h : Rejects (readTagged (value left) tag) data) :
    Rejects (value (left + 1)) ([tag.code] ++ data) := by
  refine .of_bind decodes_readByte ?_
  rw [Tag.ofCode?_code]
  exact h

theorem rejects_value_bind {α : Type} {tag : Tag} {r : Reader String α}
    (hread : ∃ f : α → Reader String ImmutableValue, readTagged (value left) tag = r >>= f)
    (h : Rejects r data) : Rejects (value (left + 1)) ([tag.code] ++ data) := by
  obtain ⟨f, hread⟩ := hread
  apply rejects_value
  rw [hread]
  exact h.bind_nil f

variable {read : Reader String ImmutableValue} {cause : Option ImmutableValue}

theorem rejects_sequence {datas : List (List UInt8)} (h : ∀ data ∈ datas, Decided read data)
    (hrejects : ∃ data ∈ datas, Rejects read data) (hne : ∀ data ∈ datas, data ≠ [])
    (hlen : datas.length < 2 ^ 32) :
    Rejects (sequence read) (be 4 datas.length ++ datas.flatten) := by
  refine .of_bind (decodes_readLen hlen) ?_
  intro rest
  rw [remaining_flatten hne]
  exact Rejects.many h hrejects rest

theorem rejects_readEntry {key value : List UInt8} (hkey : Decided read key)
    (h : Rejects read key ∨ Rejects read value) : Rejects (readEntry read) (key ++ value) := by
  rcases h with h | h
  · exact h.bind _ _
  · rcases hkey with ⟨a, hkey⟩ | hkey
    · exact .of_bind hkey (h.bind_nil _)
    · exact hkey.bind _ _

theorem decided_readEntry {key value : List UInt8} (hkey : Decided read key)
    (hvalue : Decided read value) : Decided (readEntry read) (key ++ value) := by
  rcases hkey with ⟨a, hkey⟩ | hkey
  · rcases hvalue with ⟨b, hvalue⟩ | hvalue
    · exact .inl ⟨(a, b), hkey.bind (hvalue.bind_pure (.pure _))⟩
    · exact .inr (rejects_readEntry (.inl ⟨a, hkey⟩) (.inr hvalue))
  · exact .inr (rejects_readEntry (.inr hkey) (.inl hkey))

theorem rejects_entries {datas : EntryDatas}
    (h : ∀ data ∈ datas, Decided read data.1 ∧ Decided read data.2)
    (hrejects : ∃ data ∈ datas, Rejects read data.1 ∨ Rejects read data.2)
    (hne : ∀ data ∈ datas, data.1 ≠ [] ∧ data.2 ≠ []) (hlen : datas.length < 2 ^ 32) :
    Rejects (entries read) (be 4 datas.length ++ entryBytes datas) := by
  refine .of_bind (decodes_readLen hlen) ?_
  intro rest
  rw [remaining_entryBytes hne, ← datas.length_map fun data ↦ data.1 ++ data.2]
  refine Rejects.many ?_ ?_ rest
  · intro data hdata
    obtain ⟨entry, hentry, rfl⟩ := mem_map.mp hdata
    exact decided_readEntry (h entry hentry).1 (h entry hentry).2
  · obtain ⟨entry, hentry, hentryRejects⟩ := hrejects
    exact ⟨_, mem_map_of_mem hentry, rejects_readEntry (h entry hentry).1 hentryRejects⟩

/-! ## One level

The level below is given by `ih`: what cannot be read is rejected there. -/

/-- The level rejects every frame of a value that cannot be read. -/
def RejectsUnreadable (left : ℕ) : Prop :=
  ∀ v data, Frame left v data → v.Sorted → ¬v.Readable → Rejects (value left) data

section Level

variable {v : ImmutableValue}

theorem Frame.decided (ih : RejectsUnreadable left) (h : Frame left v data) (hv : v.Sorted) :
    Decided (value left) data := by
  by_cases hreadable : v.Readable
  · exact .inl ⟨_, h.decodes (ImmutableValue.admissible_of hv hreadable)⟩
  · exact .inr (ih v data h hv hreadable)

variable {values : List ImmutableValue} {datas : List (List UInt8)} {tag : Tag}

/-- What is read from the frame of a value that can be read. -/
theorem Frame.decodes_of (h : Frame left v data) (hsorted : v.Sorted) (hreadable : v.Readable) :
    Decodes (value left) data (normalForm v) :=
  h.decodes (ImmutableValue.admissible_of hsorted hreadable)

theorem sorted_getD_nil {message : String} {fields : ImmutableValue}
    (hsorted : (ImmutableValue.exceptionInfo message fields cause provenance).Sorted) :
    (cause.getD .nil).Sorted := by
  cases cause with
  | none =>
    have hnil : ImmutableValue.nil.Admissible := .of_leaf trivial rfl
    exact hnil.sorted
  | some v => exact hsorted.of_mem_parts (mem_cons_of_mem _ (mem_singleton_self v))

theorem sorted_stringEntries {values : Fields} (h : ∀ part ∈ values.map Prod.snd, part.Sorted) :
    ∀ entry ∈ values.map stringEntry, entry.1.Sorted ∧ entry.2.Sorted := by
  intro entry hentry
  obtain ⟨field, hfield, rfl⟩ := mem_map.mp hentry
  exact ⟨(admissible_string field.1).sorted, h _ (mem_map_of_mem hfield)⟩

theorem sorted_keywordEntries (h : (ImmutableValue.record fields).Sorted) :
    ∀ entry ∈ fields.map keywordEntry, entry.1.Sorted ∧ entry.2.Sorted := by
  intro entry hentry
  obtain ⟨field, hfield, rfl⟩ := mem_map.mp hentry
  exact ⟨admissible_keyword.sorted, h.of_mem_parts (mem_map_of_mem hfield)⟩

section

variable (hleft : left ≤ maxNestingDepth + 1) (ih : RejectsUnreadable left)

include hleft ih

omit hleft in
/-- A sequence or a set with an item that cannot be read. -/
theorem ItemFrames.rejects (h : ItemFrames left values datas) (hsorted : ∀ v ∈ values, v.Sorted)
    (hunreadable : ∃ v ∈ values, ¬v.Readable)
    (hread : ∃ f : List ImmutableValue → Reader String ImmutableValue,
      readTagged (value left) tag = sequence (value left) >>= f) :
    Rejects (value (left + 1)) (itemBytes tag datas) := by
  refine rejects_value_bind hread (rejects_sequence (fun d hd ↦ ?_) ?_ h.ne_nil h.length_lt)
  · obtain ⟨v, hv, hframe⟩ := h.exists_value d hd
    exact hframe.decided ih (hsorted v hv)
  · obtain ⟨v, hv, hunreadable⟩ := hunreadable
    obtain ⟨d, hd, hframe⟩ := h.exists_data v hv
    exact ⟨d, hd, ih v d hframe (hsorted v hv) hunreadable⟩

omit hleft in
/-- A map or a record with a key or a value that cannot be read. -/
theorem MapFrame.rejects {values : Entries} {canonicalOrder : Bool}
    (h : MapFrame left tag canonicalOrder values data)
    (hsorted : ∀ entry ∈ values, entry.1.Sorted ∧ entry.2.Sorted)
    (hunreadable : ∃ entry ∈ values, ¬entry.1.Readable ∨ ¬entry.2.Readable)
    (hread : ∃ f : Entries → Reader String ImmutableValue,
      readTagged (value left) tag = entries (value left) >>= f) :
    Rejects (value (left + 1)) data := by
  rw [h.data_eq]
  refine rejects_value_bind hread (rejects_entries (h.forall_datas ?_) ?_ h.ne_nil h.length_lt)
  · rintro entry hentry d ⟨hkey, hvalue⟩
    exact ⟨hkey.decided ih (hsorted entry hentry).1, hvalue.decided ih (hsorted entry hentry).2⟩
  · obtain ⟨entry, hentry, hunreadable⟩ := hunreadable
    obtain ⟨hkey, hvalue⟩ := h.frames entry hentry
    obtain ⟨hsortedKey, hsortedValue⟩ := hsorted entry hentry
    refine ⟨_, (mem_entryDatas _).mpr ⟨entry, hentry, rfl⟩, ?_⟩
    exact hunreadable.imp (ih _ _ hkey hsortedKey) (ih _ _ hvalue hsortedValue)

theorem Frame.rejects_tagged {tag : String} {form : ImmutableValue}
    (h : Frame (left + 1) (.tagged tag form) data) (hsorted : form.Sorted)
    (hunreadable : ¬form.Readable) :
    Rejects (value (left + 1)) data := by
  obtain ⟨datas, hframes, rfl⟩ := h.exists_parts hleft (encodeValue_tagged left tag form)
  obtain _ | ⟨htag, _ | ⟨hform, hrest₂⟩⟩ := hframes
  have hdecodes := htag.decodes admissible_symbol
  rw [normalForm_symbol] at hdecodes
  apply rejects_value
  exact .of_bind hdecodes (.bind (ih _ _ hform hsorted hunreadable) _ _)

theorem Frame.rejects_pointer {context : String}
    (h : Frame (left + 1) (.pointer context fields) data)
    (hsorted : (ImmutableValue.record fields).Sorted)
    (hunreadable : ¬(ImmutableValue.record fields).Readable) : Rejects (value (left + 1)) data := by
  obtain ⟨datas, hframes, rfl⟩ := h.exists_parts hleft (encodeValue_pointer h.succeeds)
  obtain _ | ⟨hcontext, _ | ⟨hfields, hrest₂⟩⟩ := hframes
  have hdecodes := hcontext.decodes admissible_keyword
  rw [normalForm_keyword] at hdecodes
  apply rejects_value
  exact .of_bind hdecodes (.bind (ih _ _ hfields hsorted hunreadable) _ _)

theorem Frame.rejects_struct {name : String} {fields : List String}
    (h : Frame (left + 1) (.struct name fields values) data)
    (hsorted : (ImmutableValue.vector values).Sorted)
    (hunreadable : ¬(ImmutableValue.vector values).Readable) :
    Rejects (value (left + 1)) data := by
  have hencode := encodeValue_struct (length_of_succeeds_struct h.succeeds) name left
  obtain ⟨datas, hframes, rfl⟩ := h.exists_parts hleft hencode
  obtain _ | ⟨hname, _ | ⟨hfields, _ | ⟨hvalues, hrest₃⟩⟩⟩ := hframes
  have hdecodes := hname.decodes (admissible_string name)
  rw [normalForm_string] at hdecodes
  have hdecodes' := hfields.decodes admissible_strings
  have hnormal : normalForm (.vector (fields.map .string)) = .vector (fields.map .string) := by
    simp
  rw [hnormal] at hdecodes'
  apply rejects_value
  refine .of_bind hdecodes (.of_bind hdecodes' ?_)
  dsimp only
  rw [mapM_structField]
  exact .bind (ih _ _ hvalues hsorted hunreadable) _ _

/-- An exception of which the data, the cause or the provenance cannot be read. -/
theorem Frame.rejects_exceptionInfo {message : String} {fields : ImmutableValue}
    (h : Frame (left + 1) (.exceptionInfo message fields cause provenance) data)
    (hsorted : (ImmutableValue.exceptionInfo message fields cause provenance).Sorted)
    (hunreadable : ¬(ImmutableValue.exceptionInfo message fields cause provenance).Readable) :
    Rejects (value (left + 1)) data := by
  obtain ⟨hfieldsMap, hcause⟩ := isMap_and_causeValid h.succeeds
  obtain ⟨datas, hframes, rfl⟩ :=
    h.exists_parts hleft (encodeValue_exceptionInfo hfieldsMap hcause left)
  obtain _ | ⟨hmessage, _ | ⟨hfields, _ | ⟨hgetD, _ | ⟨hprovenance, hrest₄⟩⟩⟩⟩ := hframes
  have hmessage := hmessage.decodes (admissible_string message)
  rw [normalForm_string] at hmessage
  have hsortedFields : fields.Sorted := hsorted.of_mem_parts mem_cons_self
  have hsortedCause := sorted_getD_nil hsorted
  apply rejects_value
  refine .of_bind hmessage ?_
  by_cases hreadFields : fields.Readable
  · refine .of_bind (hfields.decodes_of hsortedFields hreadFields) ?_
    by_cases hreadCause : (cause.getD .nil).Readable
    · -- the data and the cause can be read, so that the provenance is the reason
      refine .of_bind (hgetD.decodes_of hsortedCause hreadCause) ?_
      rw [normalForm_getD_nil]
      have hunsigned : ¬∀ site ∈ provenance.createdAt.toList ++ provenance.throws,
          site.Signed := by
        intro hsigned
        refine hunreadable ⟨hsigned, ?_⟩
        intro part hpart
        rcases mem_cons.mp hpart with rfl | hpart
        · exact hreadFields
        · obtain rfl : cause = some part := Option.mem_toList.mp hpart
          exact hreadCause
      refine .of_bind_left (decodes_readCause hcause.normalForm) ?_
      rw [if_neg (not_not_intro (isMap_normalForm hfieldsMap))]
      have hdecodes := hprovenance.decodes admissible_provenanceValue
      rw [normalForm_provenanceValue] at hdecodes
      refine .of_bind hdecodes ?_
      cases hresult : decodeProvenance (provenanceValue provenance) with
      | ok provenance' => exact absurd (signed_of_decodeProvenance hresult) hunsigned
      | error e => exact fun rest ↦ ⟨e, _, rfl⟩
    · exact .bind (ih _ _ hgetD hsortedCause hreadCause) _ _
  · exact .bind (ih _ _ hfields hsortedFields hreadFields) _ _

end

end Level

/-! ## Every value -/

theorem exists_entry_of_part {P : ImmutableValue → Prop} {values : Entries}
    (h : ∃ part ∈ values.flatMap fun entry ↦ [entry.1, entry.2], P part) :
    ∃ entry ∈ values, P entry.1 ∨ P entry.2 := by
  obtain ⟨part, hpart, hP⟩ := h
  obtain ⟨entry, hentry, hpart⟩ := mem_flatMap.mp hpart
  rcases mem_pair.mp hpart with rfl | rfl
  · exact ⟨entry, hentry, .inl hP⟩
  · exact ⟨entry, hentry, .inr hP⟩

theorem sorted_entries {values : Entries}
    (h : ∀ part ∈ values.flatMap fun entry ↦ [entry.1, entry.2], part.Sorted) :
    ∀ entry ∈ values, entry.1.Sorted ∧ entry.2.Sorted := by
  intro entry hentry
  constructor
  · exact h _ (mem_flatMap.mpr ⟨entry, hentry, mem_cons_self⟩)
  · exact h _ (mem_flatMap.mpr ⟨entry, hentry, mem_pair.mpr (.inr rfl)⟩)

/-- A value that cannot be read is rejected, at every level. -/
theorem rejectsUnreadable (hleft : left ≤ maxNestingDepth + 1) : RejectsUnreadable left := by
  induction left with
  | zero =>
    intro v data h _ _
    exact absurd h.succeeds not_succeeds_throw
  | succ left ih =>
    have hleft := Nat.le_of_succ_le hleft
    have ih := ih hleft
    intro v data h hsorted hunreadable
    have hparts : ∀ part ∈ v.parts, part.Sorted := fun part ↦ hsorted.of_mem_parts
    -- a value of most kinds cannot be read only because of one of its parts
    have hpart (hown : v.OwnReadable) : ∃ part ∈ v.parts, ¬part.Readable :=
      ImmutableValue.exists_of_not_everywhere hunreadable hown
    cases v with
    | list values | vector values | tuple values | queue values | orderedSet values =>
      obtain ⟨hitems, rfl⟩ := h.items_sequence hleft rfl
      exact hitems.rejects ih hparts (hpart trivial) ⟨_, rfl⟩
    | mapEntry values =>
      have hencode := encodeValue_mapEntry (length_of_succeeds_mapEntry h.succeeds) left
      obtain ⟨hitems, rfl⟩ := h.items_sequence hleft hencode
      exact hitems.rejects ih hparts (hpart trivial) ⟨_, rfl⟩
    | cons values =>
      obtain ⟨hitems, rfl⟩ := h.items_sequence hleft rfl
      by_cases hempty : values = []
      · subst hempty
        apply rejects_value
        have hnone : Decodes (sequence (value left)) _ [] :=
          decodes_sequence .nil (forall_mem_nil _) hitems.length_lt
        exact .of_bind_nil hnone (.throw _)
      · exact hitems.rejects ih hparts (hpart hempty) ⟨_, rfl⟩
    | set values | sortedSet values =>
      obtain ⟨hitems, rfl⟩ := h.items_unordered hleft rfl
      exact hitems.rejects ih hparts (hpart trivial) ⟨_, rfl⟩
    | map values | orderedMap values | sortedMap values =>
      exact (h.mapFrame hleft rfl).rejects ih (sorted_entries hparts)
        (exists_entry_of_part (hpart trivial)) ⟨_, rfl⟩
    | trie values =>
      refine (h.mapFrame hleft (encodeValue_trie ..)).rejects ih (sorted_stringEntries hparts) ?_
        ⟨_, rfl⟩
      obtain ⟨part, hmem, hpartUnreadable⟩ := hpart trivial
      obtain ⟨field, hfield, rfl⟩ := mem_map.mp hmem
      exact ⟨_, mem_map_of_mem hfield, .inr hpartUnreadable⟩
    | record fields =>
      refine (h.mapFrame_record hleft hsorted.own).rejects ih (sorted_keywordEntries hsorted) ?_
        ⟨_, rfl⟩
      obtain ⟨part, hmem, hpartUnreadable⟩ := hpart trivial
      obtain ⟨field, hfield, rfl⟩ := mem_map.mp hmem
      exact ⟨_, mem_map_of_mem hfield, .inr hpartUnreadable⟩
    | tagged tag form =>
      obtain ⟨part, hmem, hpartUnreadable⟩ := hpart trivial
      obtain rfl := mem_singleton.mp hmem
      exact h.rejects_tagged hleft ih (hparts _ hmem) hpartUnreadable
    | exceptionInfo message fields cause provenance =>
      exact h.rejects_exceptionInfo hleft ih hsorted hunreadable
    | struct name fields values =>
      refine h.rejects_struct hleft ih ⟨trivial, hparts⟩ ?_
      intro hvector
      exact hunreadable ⟨trivial, fun part ↦ hvector.of_mem_parts⟩
    | pointer context fields =>
      refine h.rejects_pointer hleft ih ⟨hsorted.own, hparts⟩ ?_
      intro hrecord
      exact hunreadable ⟨trivial, fun part ↦ hrecord.of_mem_parts⟩
    | _ =>
      -- the remaining kinds have no parts
      obtain ⟨part, hmem, -⟩ := hpart trivial
      exact absurd hmem not_mem_nil

/-- A value whose frame is read can be read. -/
theorem Frame.readable_of_decode {v v' : ImmutableValue} {data : List UInt8}
    (h : Frame (maxNestingDepth + 1) v data) (hsorted : v.Sorted)
    (hdecode : decodeImmutable (magic ++ data) = .ok v') : v.Readable := by
  by_contra hunreadable
  have hrejects := rejectsUnreadable le_rfl v data h hsorted hunreadable
  simp only [decodeImmutable, Except.bind_eq_ok, drop_left] at hdecode
  obtain ⟨_, -, _, -, p, hread, -⟩ := hdecode
  exact hrejects.not_read p hread

/-- A frame of the encoder is read by the decoder if and only if every cons in the value has an
item, and the lines and columns of the exceptions in it fit into a signed number. -/
theorem decodes_encoded_iff (v : ImmutableValue) (hsorted : v.Sorted) (b : List UInt8)
    (h : encodeImmutable v = .ok b) : (∃ v', decodeImmutable b = .ok v') ↔ v.Readable := by
  obtain ⟨data, rfl, hfits, hframe⟩ := exists_frame_of_encodeImmutable h
  constructor
  · rintro ⟨v', hdecode⟩
    exact hframe.readable_of_decode hsorted hdecode
  · intro hreadable
    exact ⟨_, decodeImmutable_frame (ImmutableValue.admissible_of hsorted hreadable) hframe hfits⟩

/-- The frame of an empty cons. -/
def emptyConsBytes : List UInt8 := magic ++ [24, 0, 0, 0, 0]

/-- An exception with a position and a cons in its data. -/
def positionedError : ImmutableValue :=
  .exceptionInfo "no" (.map [(.keyword "k", .cons [.integer 1, .nil])]) none
    ⟨some ⟨some "a", none, 3, 7⟩, [⟨none, none, 4, 1⟩]⟩

theorem admissible_positionedError : positionedError.Admissible := by
  have hcons : (ImmutableValue.cons [.integer 1, .nil]).Admissible := by
    refine ⟨cons_ne_nil _ _, ?_⟩
    simp only [ImmutableValue.parts, forall_mem_cons]
    exact ⟨.of_leaf trivial rfl, .of_leaf trivial rfl, forall_mem_nil _⟩
  have hmap : (ImmutableValue.map [(.keyword "k", .cons [.integer 1, .nil])]).Admissible := by
    refine ⟨trivial, ?_⟩
    simp only [ImmutableValue.parts, flatMap_cons, cons_append, nil_append, forall_mem_cons]
    exact ⟨admissible_keyword, hcons, forall_mem_nil _⟩
  refine ⟨?_, ?_⟩
  · simp only [positionedError, ImmutableValue.OwnAdmissible, Option.toList_some, cons_append,
      nil_append, forall_mem_cons]
    exact ⟨⟨by decide, by decide⟩, ⟨by decide, by decide⟩, forall_mem_nil _⟩
  · simp only [positionedError, ImmutableValue.parts, Option.toList_none, forall_mem_cons]
    exact ⟨hmap, forall_mem_nil _⟩

theorem decodes_encoded_iff_positionedError :
    ∃ b, encodeImmutable positionedError = .ok b ∧ ∃ v', decodeImmutable b = .ok v' := by
  have hok : (encodeImmutable positionedError).isOk = true := by decide +kernel
  cases hencode : encodeImmutable positionedError with
  | error e =>
    rw [hencode] at hok
    cases hok
  | ok b =>
    refine ⟨b, rfl, (decodes_encoded_iff _ ?_ b hencode).mpr ?_⟩
    · exact admissible_positionedError.sorted
    · exact admissible_positionedError.readable

/-- The encoder writes a cons without items, and the decoder rejects the frame. -/
theorem emptyCons_rejected :
    (ImmutableValue.cons []).Sorted ∧ encodeImmutable (.cons []) = .ok emptyConsBytes ∧
      decodeImmutable emptyConsBytes = .error "hta/value-malformed: empty cons" := by
  refine ⟨⟨trivial, forall_mem_nil _⟩, by rfl, by rfl⟩

/-! ## Equal bytes -/

/-- A value that the decoder reads and any other value have the same bytes when they have the same
normal form, and only then. -/
theorem encodeImmutable_eq_iff (v w : ImmutableValue) (hv : v.Admissible) (hw : w.Sorted)
    (b c : List UInt8) (hb : encodeImmutable v = .ok b) (hc : encodeImmutable w = .ok c) :
    b = c ↔ normalForm v = normalForm w := by
  obtain ⟨data, rfl, hfits, hframe⟩ := exists_frame_of_encodeImmutable hb
  obtain ⟨data', rfl, hfits', hframe'⟩ := exists_frame_of_encodeImmutable hc
  constructor
  · intro heq
    have hread := decodeImmutable_frame hv hframe hfits
    rw [heq] at hread
    have hreadable : w.Readable := hframe'.readable_of_decode hw hread
    rw [decodeImmutable_frame (ImmutableValue.admissible_of hw hreadable) hframe' hfits'] at hread
    exact (Except.ok.inj hread).symm
  · exact fun heq ↦ congrArg (magic ++ ·) (hframe.eq_of_normalForm_eq hframe' heq)

theorem sorted_keywordRecord : keywordRecord.Sorted := by
  have hleaf (n : Int64) : (ImmutableValue.integer n).Sorted := ⟨trivial, forall_mem_nil _⟩
  refine ⟨?_, ?_⟩
  · simp [keywordRecord, ImmutableValue.OwnSorted, Ascending, fieldRank]
    decide
  · simp only [keywordRecord, ImmutableValue.parts, map_cons, map_nil, forall_mem_cons]
    refine ⟨⟨trivial, ?_⟩, ⟨trivial, ?_⟩, forall_mem_nil _⟩
    · simp only [ImmutableValue.parts, forall_mem_cons]
      exact ⟨hleaf _, forall_mem_nil _⟩
    · simp only [ImmutableValue.parts, forall_mem_cons]
      exact ⟨hleaf _, hleaf _, forall_mem_nil _⟩

/-- A map with keywords for keys and the record of the same entries have the same bytes. -/
theorem encodeImmutable_eq_iff_keywordMap : normalForm keywordMap = normalForm keywordRecord := by
  have hmap : encodeImmutable keywordMap = .ok keywordBytes := by rfl
  have hrecord : encodeImmutable keywordRecord = .ok keywordBytes := by rfl
  exact (encodeImmutable_eq_iff keywordMap keywordRecord admissible_keywordMap
    sorted_keywordRecord _ _ hmap hrecord).mp rfl

end Hara.Hta
