import Hara.Hta.Rejected
import Hara.Hta.View

/-!
# The scanner accepts what the encoder writes

The scanner is a second parser of the format. It asks for less than the decoder where values are
concerned, so that every frame of the encoder passes, and for more where the order of bytes is: the
items of a set and the keys of a map have to ascend, as those of the encoder do.
-/

namespace Hara.Hta

open Codec Hara.Lib
open List hiding not_le set

/-! ## Pieces -/

section Pieces

variable {scan : Reader String Unit} {data : List UInt8} {message : String} {tag : Tag}

theorem decodes_scanTagged (h : Decodes scan data ()) (htag : data.head? = some tag.code) :
    Decodes (scanTagged scan tag message) data () := by
  refine h.spanned.bind_pure ?_
  rw [if_pos htag]
  exact .pure ()

variable {canonicalOrder : Bool} {datas : List (List UInt8)}

theorem not_outOfOrder {previous : Option (List UInt8)}
    (h : canonicalOrder = true → Ascending rank (previous.toList ++ data :: datas)) :
    ¬(canonicalOrder = true ∧ (previous.any fun value ↦ rank data ≤ rank value) = true) := by
  rintro ⟨hcanonical, hany⟩
  cases previous with
  | none => cases hany
  | some p =>
    have hlt := (pairwise_cons.mp (h hcanonical)).1 data mem_cons_self
    exact absurd (of_decide_eq_true hany) (not_le.mpr hlt)

/-- The items of a sequence, after some that are smaller. -/
theorem decodes_scanItems (h : ∀ data ∈ datas, Decodes scan data ())
    (previous : Option (List UInt8))
    (hascending : canonicalOrder = true → Ascending rank (previous.toList ++ datas)) :
    Decodes (scanItems scan canonicalOrder datas.length previous) datas.flatten () := by
  induction datas generalizing previous with
  | nil => exact .pure ()
  | cons data datas ih =>
    obtain ⟨hdata, hdatas⟩ := forall_mem_cons.mp h
    refine hdata.spanned.bind ?_
    rw [if_neg (not_outOfOrder hascending)]
    refine ih hdatas _ ?_
    intro hcanonical
    rw [if_pos hcanonical]
    exact (hascending hcanonical).sublist (sublist_append_right _ _)

theorem decodes_scanSequence (h : ∀ data ∈ datas, Decodes scan data ())
    (hascending : canonicalOrder = true → Ascending rank datas) (hne : ∀ data ∈ datas, data ≠ [])
    (hlen : datas.length < 2 ^ 32) :
    Decodes (scanSequence scan canonicalOrder) (be 4 datas.length ++ datas.flatten) () := by
  refine (decodes_readLen hlen).bind ?_
  intro rest
  rw [remaining_flatten hne]
  exact decodes_scanItems h none hascending rest

theorem decodes_scanEntries {datas : EntryDatas}
    (h : ∀ data ∈ datas, Decodes scan data.1 () ∧ Decodes scan data.2 ())
    (previous : Option (List UInt8)) (hascending : canonicalOrder = true →
      Ascending rank (previous.toList ++ datas.map Prod.fst)) :
    Decodes (scanEntries scan canonicalOrder datas.length previous) (entryBytes datas) () := by
  induction datas generalizing previous with
  | nil => exact .pure ()
  | cons data datas ih =>
    obtain ⟨⟨hkey, hvalue⟩, hdatas⟩ := forall_mem_cons.mp h
    rw [entryBytes, map_cons, flatten_cons, append_assoc]
    refine hkey.spanned.bind ?_
    rw [if_neg (not_outOfOrder hascending)]
    refine hvalue.bind (ih hdatas _ ?_)
    intro hcanonical
    exact (hascending hcanonical).sublist (sublist_append_right _ _)

theorem decodes_scanMap {datas : EntryDatas}
    (h : ∀ data ∈ datas, Decodes scan data.1 () ∧ Decodes scan data.2 ())
    (hascending : canonicalOrder = true → Ascending keyRank datas)
    (hne : ∀ data ∈ datas, data.1 ≠ [] ∧ data.2 ≠ []) (hlen : datas.length < 2 ^ 32) :
    Decodes (scanMap scan canonicalOrder) (be 4 datas.length ++ entryBytes datas) () := by
  refine (decodes_readLen hlen).bind ?_
  intro rest
  rw [remaining_entryBytes hne]
  exact decodes_scanEntries h none (fun hcanonical ↦ pairwise_map.mpr (hascending hcanonical)) rest

theorem decodes_scanText {value : String} (h : (Utf8.bytes value).length < 2 ^ 32) :
    Decodes (scanText message) (be 4 (Utf8.bytes value).length ++ Utf8.bytes value) value := by
  refine (decodes_sized h).bind_pure ?_
  rw [Utf8.text?_bytes]
  exact .pure value

end Pieces

/-! ## The tag of a value -/

/-- The tag that the encoder writes for a value. -/
def wireTag : ImmutableValue → Tag
  | .nil => .nil
  | .boolean false => .falseTag
  | .boolean true => .trueTag
  | .string _ => .string
  | .integer _ => .i64
  | .float _ => .f64
  | .character _ => .character
  | .bigInteger text =>
    match canonicalBigInteger text with
    | .ok (.integer _) => .i64
    | _ => .bigInteger
  | .regex _ => .regex
  | .bytes _ => .bytes
  | .keyword _ => .keyword
  | .symbol _ => .symbol
  | .list _ => .list
  | .vector _ => .vector
  | .mapEntry _ => .mapEntry
  | .tuple _ => .vector
  | .cons _ => .cons
  | .queue _ => .queue
  | .set _ => .set
  | .orderedSet _ => .orderedSet
  | .sortedSet _ => .sortedSet
  | .map _ => .map
  | .orderedMap _ => .orderedMap
  | .sortedMap _ => .sortedMap
  | .trie _ => .trie
  | .record _ => .map
  | .tagged _ _ => .tagged
  | .exceptionInfo _ _ _ _ => .exceptionInfo
  | .struct _ _ _ => .struct
  | .pointer _ _ => .pointer
  | .varRef _ => .varRef

/-- The bytes are a tag and what the scanner accepts behind it. -/
def ScansAs (left : ℕ) (tag : Tag) (data : List UInt8) : Prop :=
  ∃ rest, data = [tag.code] ++ rest ∧ Decodes (scanBehind (scanValue left) tag) rest ()

/-- Frames of this level are accepted, and they begin with the tag of the value. -/
def ScansFrames (left : ℕ) : Prop :=
  ∀ v data, Frame left v data → v.Sorted →
    Decodes (scanValue left) data () ∧ data.head? = some (wireTag v).code

variable {left : ℕ} {v : ImmutableValue} {data : List UInt8}

theorem ScansAs.scans (h : ScansAs left tag data) :
    Decodes (scanValue (left + 1)) data () ∧ data.head? = some tag.code := by
  obtain ⟨rest, rfl, hrest⟩ := h
  refine ⟨decodes_readByte.bind ?_, rfl⟩
  rw [Tag.ofCode?_code]
  exact hrest

/-! ## One level -/

section Level

variable (hleft : left ≤ maxNestingDepth + 1) (ih : ScansFrames left)
  (h : Frame (left + 1) v data)

include hleft ih h

variable {tag : Tag} {values : List ImmutableValue}

omit hleft h in
theorem ItemFrames.scansAs {canonicalOrder : Bool} (hitems : ItemFrames left values datas)
    (hsorted : ∀ v ∈ values, v.Sorted)
    (hbehind : scanBehind (scanValue left) tag = scanSequence (scanValue left) canonicalOrder)
    (hascending : canonicalOrder = true → Ascending rank datas) :
    ScansAs left tag (itemBytes tag datas) := by
  refine ⟨_, rfl, ?_⟩
  rw [hbehind]
  refine decodes_scanSequence (fun d hd ↦ ?_) hascending hitems.ne_nil hitems.length_lt
  obtain ⟨v, hv, hframe⟩ := hitems.exists_value d hd
  exact (ih v d hframe (hsorted v hv)).1

omit hleft h in
theorem MapFrame.scansAs {values : Entries} {canonicalOrder : Bool}
    (h : MapFrame left tag canonicalOrder values data)
    (hsorted : ∀ entry ∈ values, entry.1.Sorted ∧ entry.2.Sorted)
    (hbehind : scanBehind (scanValue left) tag = scanMap (scanValue left) canonicalOrder) :
    ScansAs left tag data := by
  refine ⟨_, h.data_eq, ?_⟩
  rw [hbehind]
  refine decodes_scanMap (h.forall_datas ?_) h.ascending h.ne_nil h.length_lt
  rintro entry hentry d ⟨hkey, hvalue⟩
  obtain ⟨hsortedKey, hsortedValue⟩ := hsorted entry hentry
  exact ⟨(ih _ _ hkey hsortedKey).1, (ih _ _ hvalue hsortedValue).1⟩

/-- The values that a value is written as are scanned one after the other. -/
theorem exists_scanned_parts {parts : List ImmutableValue}
    (hencode : encodeValue (left + 1) v = push tag >>= fun _ ↦ parts.forM (encodeValue left))
    (hsorted : ∀ part ∈ parts, part.Sorted) :
    ∃ datas, data = [tag.code] ++ datas.flatten ∧
      List.Forall₂ (fun part data ↦
        Decodes (scanValue left) data () ∧ data.head? = some (wireTag part).code) parts datas := by
  obtain ⟨datas, hframes, rfl⟩ := h.exists_parts hleft hencode
  refine ⟨datas, rfl, (forall₂_and_mem hframes).imp ?_⟩
  rintro part data ⟨hpart, -, hframe⟩
  exact ih part data hframe (hsorted part hpart)

theorem scansAs_mapEntry (hv : v = .mapEntry values) (hsorted : ∀ v ∈ values, v.Sorted) :
    ScansAs left .mapEntry data := by
  subst hv
  have hpair := length_of_succeeds_mapEntry h.succeeds
  obtain ⟨hitems, rfl⟩ := h.items_sequence hleft (encodeValue_mapEntry hpair left)
  have hscans : ∀ v ∈ values, Decodes (scanValue left) (encodedBytes v) () := by
    intro v hv
    obtain ⟨d, -, hframe⟩ := hitems.exists_data v hv
    exact hframe.encodedBytes_eq hleft ▸ (ih v d hframe (hsorted v hv)).1
  obtain ⟨key, value, rfl⟩ := length_eq_two.mp hpair
  refine ⟨_, rfl, (decodes_readLen hitems.length_lt).bind ?_⟩
  rw [map_cons, map_singleton, flatten_cons, flatten_singleton]
  exact (hscans key mem_cons_self).bind (hscans value (by simp))

theorem scansAs_tagged {tag : String} {form : ImmutableValue} (hv : v = .tagged tag form)
    (hsorted : form.Sorted) : ScansAs left .tagged data := by
  subst hv
  obtain ⟨datas, rfl, hscanned⟩ := exists_scanned_parts hleft ih h (encodeValue_tagged ..) (by
    intro part hpart
    rcases mem_pair.mp hpart with rfl | rfl
    · exact admissible_symbol.sorted
    · exact hsorted)
  obtain _ | ⟨htag, _ | ⟨hform, _ | _⟩⟩ := hscanned
  refine ⟨_, rfl, ?_⟩
  rw [flatten_cons, flatten_singleton]
  exact (decodes_scanTagged htag.1 htag.2).bind hform.1

theorem scansAs_varRef {symbol : String} (hv : v = .varRef symbol) : ScansAs left .varRef data := by
  subst hv
  obtain ⟨datas, rfl, hscanned⟩ := exists_scanned_parts hleft ih h (encodeValue_varRef ..) (by
    intro part hpart
    obtain rfl := mem_singleton.mp hpart
    exact admissible_symbol.sorted)
  obtain _ | ⟨hsymbol, _ | _⟩ := hscanned
  refine ⟨_, rfl, ?_⟩
  rw [flatten_singleton]
  exact decodes_scanTagged hsymbol.1 hsymbol.2

theorem scansAs_pointer {context : String} {fields : Fields} (hv : v = .pointer context fields)
    (hsorted : v.Sorted) : ScansAs left .pointer data := by
  subst hv
  have hencode := encodeValue_pointer h.succeeds
  obtain ⟨datas, rfl, hscanned⟩ := exists_scanned_parts hleft ih h hencode (by
    intro part hpart
    rcases mem_pair.mp hpart with rfl | rfl
    · exact admissible_keyword.sorted
    · exact ⟨hsorted.own, fun part hpart ↦ hsorted.of_mem_parts hpart⟩)
  obtain _ | ⟨hcontext, _ | ⟨hfields, _ | _⟩⟩ := hscanned
  refine ⟨_, rfl, ?_⟩
  rw [flatten_cons, flatten_singleton]
  exact (decodes_scanTagged hcontext.1 hcontext.2).bind (decodes_scanTagged hfields.1 hfields.2)

theorem scansAs_struct {name : String} {fields : List String} (hv : v = .struct name fields values)
    (hsorted : ∀ part ∈ values, part.Sorted) :
    ScansAs left .struct data := by
  subst hv
  have hencode := encodeValue_struct (length_of_succeeds_struct h.succeeds) name left
  obtain ⟨datas, rfl, hscanned⟩ := exists_scanned_parts hleft ih h hencode (by
    simp only [forall_mem_cons]
    exact ⟨(admissible_string name).sorted, admissible_strings.sorted,
      ⟨trivial, hsorted⟩, forall_mem_nil _⟩)
  obtain _ | ⟨hname, _ | ⟨hfields, _ | ⟨hvalues, _ | _⟩⟩⟩ := hscanned
  refine ⟨_, rfl, ?_⟩
  rw [flatten_cons, flatten_cons, flatten_singleton]
  exact (decodes_scanTagged hname.1 hname.2).bind
    ((decodes_scanTagged hfields.1 hfields.2).bind (decodes_scanTagged hvalues.1 hvalues.2))

theorem scansAs_exceptionInfo {fields : ImmutableValue} {cause : Option ImmutableValue}
    {provenance : ExceptionProvenance} (hv : v = .exceptionInfo message fields cause provenance)
    (hsorted : v.Sorted) : ScansAs left .exceptionInfo data := by
  subst hv
  obtain ⟨hfieldsMap, hcause⟩ := isMap_and_causeValid h.succeeds
  obtain ⟨datas, rfl, hscanned⟩ := exists_scanned_parts hleft ih h
    (encodeValue_exceptionInfo hfieldsMap hcause left) (by
    simp only [exceptionParts, forall_mem_cons]
    exact ⟨(admissible_string message).sorted, hsorted.of_mem_parts mem_cons_self,
      sorted_getD_nil hsorted, admissible_provenanceValue.sorted,
      forall_mem_nil _⟩)
  obtain _ | ⟨hmessage, _ | ⟨hdata, _ | ⟨hgetD, _ | ⟨hprovenance, _ | _⟩⟩⟩⟩ := hscanned
  refine ⟨_, rfl, ?_⟩
  rw [flatten_cons, flatten_cons, flatten_cons, flatten_singleton]
  exact (decodes_scanTagged hmessage.1 hmessage.2).bind (hdata.1.bind (hgetD.1.bind hprovenance.1))

end Level

/-! ## Leaves -/

section Leaves

variable (h : Frame (left + 1) v data)

include h

theorem scansAs_text {text : String}
    (hencode : encodeValue (left + 1) v = writeSized tag (Utf8.bytes text))
    (hbehind : scanBehind (scanValue left) tag = do
      let _ ← scanText "hta/value-malformed: invalid UTF-8") : ScansAs left tag data := by
  have hsucceeds := h.succeeds
  rw [hencode] at hsucceeds
  have hlen := lt_of_succeeds_writeSized hsucceeds
  refine ⟨_, h.eq_of_emits (hencode ▸ emits_writeSized hlen), ?_⟩
  rw [hbehind]
  exact (decodes_scanText hlen).bind_pure (.pure ())

theorem scansAs_i64 {n : Int64} (hencode : encodeValue (left + 1) v = writeI64 n) :
    ScansAs left .i64 data := by
  refine ⟨_, h.eq_of_emits (hencode ▸ emits_writeI64), ?_⟩
  exact (decodes_take length_be).bind_pure (.pure ())

theorem scansAs_bigInteger {text : String} (hv : v = .bigInteger text) :
    ScansAs left (wireTag v) data := by
  subst hv
  have hsucceeds := h.succeeds
  obtain ⟨canonical, hcanonical, -⟩ := hsucceeds.lift
  have hencode := encodeValue_bigInteger hcanonical left
  rw [wireTag, hcanonical]
  cases canonical with
  | integer n => exact scansAs_i64 h hencode
  | bigInteger canonical =>
    rw [hencode] at hsucceeds
    have hlen := lt_of_succeeds_writeSized hsucceeds
    have hwrite : encodeValue (left + 1) (.bigInteger text) =
        writeSized .bigInteger (Utf8.bytes canonical) := hencode
    refine ⟨_, h.eq_of_emits (hwrite ▸ emits_writeSized hlen), ?_⟩
    refine (decodes_scanText hlen).bind_pure ?_
    -- the text that is written is canonical, so that it passes the check
    have hvalidate : validateCanonicalBigInteger canonical = .ok () := by
      rw [validateCanonicalBigInteger, canonicalBigInteger_bigInteger hcanonical]
      exact if_pos rfl
    rw [hvalidate]
    exact .pure ()
  | _ =>
    rw [hencode] at hsucceeds
    exact absurd hsucceeds not_succeeds_throw

end Leaves

/-! ## Every value -/

/-- The frames of the encoder are accepted, at every level. -/
theorem scansFrames (hleft : left ≤ maxNestingDepth + 1) : ScansFrames left := by
  induction left with
  | zero =>
    intro v data h _
    exact absurd h.succeeds not_succeeds_throw
  | succ left ih =>
    have hleft := Nat.le_of_succ_le hleft
    have ih := ih hleft
    intro v data h hsorted
    have hparts : ∀ part ∈ v.parts, part.Sorted := fun part ↦ hsorted.of_mem_parts
    apply ScansAs.scans
    cases v with
    | nil => exact ⟨[], h.eq_of_emits (emits_push .nil), .pure ()⟩
    | boolean b =>
      cases b with
      | false => exact ⟨[], h.eq_of_emits (emits_push .falseTag), .pure ()⟩
      | true => exact ⟨[], h.eq_of_emits (emits_push .trueTag), .pure ()⟩
    | string text | regex text | keyword text | symbol text => exact scansAs_text h rfl rfl
    | integer n => exact scansAs_i64 h rfl
    | float bits =>
      have hfinite := finite_of_succeeds h.succeeds
      refine ⟨_, h.eq_of_emits (emits_float hfinite left), ?_⟩
      exact (decodes_take length_be).bind_pure (.pure ())
    | character c =>
      have hread : ofBe (be 4 c.toNat) = c.toNat := ofBe_be c.val.toNat_lt
      have hvalid : c.toNat.isValidChar := c.valid
      refine ⟨_, h.eq_of_emits ((emits_push .character).seq (emits_write _)), ?_⟩
      refine (decodes_take length_be).bind_pure ?_
      rw [hread, if_pos hvalid]
      exact .pure ()
    | bigInteger text => exact scansAs_bigInteger h rfl
    | bytes bytes =>
      have hlen := lt_of_succeeds_writeSized h.succeeds
      refine ⟨_, h.eq_of_emits (emits_writeSized hlen), ?_⟩
      exact (decodes_sized hlen).bind_pure (.pure ())
    | list values | vector values | tuple values | cons values | queue values | orderedSet values =>
      obtain ⟨hitems, rfl⟩ := h.items_sequence hleft rfl
      exact hitems.scansAs ih hparts rfl nofun
    | mapEntry values => exact scansAs_mapEntry hleft ih h rfl hparts
    | set values | sortedSet values =>
      obtain ⟨hitems, rfl⟩ := h.items_unordered hleft rfl
      exact hitems.scansAs ih hparts rfl fun _ ↦ ascending_destutter rank_injective
    | map values | orderedMap values | sortedMap values =>
      exact (h.mapFrame hleft rfl).scansAs ih (sorted_entries hparts) rfl
    | trie values =>
      exact (h.mapFrame hleft (encodeValue_trie ..)).scansAs ih (sorted_stringEntries hparts) rfl
    | record fields =>
      exact (h.mapFrame_record hleft hsorted.own).scansAs ih (sorted_keywordEntries hsorted) rfl
    | tagged tag form =>
      exact scansAs_tagged hleft ih h rfl (hparts form (mem_singleton_self form))
    | exceptionInfo message fields cause provenance =>
      exact scansAs_exceptionInfo hleft ih h rfl hsorted
    | struct name fields values => exact scansAs_struct hleft ih h rfl hparts
    | pointer context fields => exact scansAs_pointer hleft ih h rfl hsorted
    | varRef symbol => exact scansAs_varRef hleft ih h rfl

end Hara.Hta
