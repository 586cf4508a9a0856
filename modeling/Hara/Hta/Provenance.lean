import Hara.Hta.Maps

/-!
# Where an exception comes from, on the wire

The record that stands for the provenance of an exception is its own normal form, and the
provenance is read back from it.
-/

namespace Hara.Hta

open Hara.Lib

theorem normalForm_optionalString (value : Option String) :
    normalForm (optionalString value) = optionalString value := by
  cases value <;> simp [optionalString]

variable {site : ExceptionSite} {provenance : ExceptionProvenance}

theorem normalForm_siteValue : normalForm (siteValue site) = siteValue site := by
  simp [siteValue, siteFields, normalForm_optionalString]

theorem normalForm_provenanceValue (provenance : ExceptionProvenance) :
    normalForm (provenanceValue provenance) = provenanceValue provenance := by
  have hcreated : normalForm ((provenance.createdAt.map siteValue).getD .nil) =
      (provenance.createdAt.map siteValue).getD .nil := by
    cases provenance.createdAt with
    | none => simp
    | some site => exact normalForm_siteValue
  simp [provenanceValue, provenanceFields, hcreated, normalForm_siteValue]

theorem admissible_optionalString {value : Option String} : (optionalString value).Admissible := by
  cases value <;> exact .of_leaf trivial rfl

theorem admissible_siteValue : (siteValue site).Admissible := by
  refine ⟨?_, ?_⟩
  · have h₁ : rank (Utf8.bytes "column") < rank (Utf8.bytes "line") := by decide
    have h₂ : rank (Utf8.bytes "line") < rank (Utf8.bytes "namespace") := by decide
    have h₃ : rank (Utf8.bytes "namespace") < rank (Utf8.bytes "resource") := by decide
    simp [ImmutableValue.OwnAdmissible, siteValue, siteFields, Ascending, fieldRank, h₁, h₂, h₃,
      h₁.trans h₂, h₂.trans h₃, (h₁.trans h₂).trans h₃]
  · intro part hpart
    simp only [siteValue, siteFields, ImmutableValue.parts, List.map_cons, List.map_nil,
      List.mem_cons, List.not_mem_nil, or_false] at hpart
    rcases hpart with rfl | rfl | rfl | rfl
    · exact .of_leaf trivial rfl
    · exact .of_leaf trivial rfl
    · exact admissible_optionalString
    · exact admissible_optionalString

theorem admissible_provenanceValue : (provenanceValue provenance).Admissible := by
  refine ⟨?_, ?_⟩
  · have hlt : rank (Utf8.bytes "ex/created-at") < rank (Utf8.bytes "ex/throws") := by decide
    simp [ImmutableValue.OwnAdmissible, provenanceValue, provenanceFields, Ascending, fieldRank,
      hlt]
  · intro part hpart
    simp only [provenanceValue, provenanceFields, ImmutableValue.parts, List.map_cons, List.map_nil,
      List.mem_cons, List.not_mem_nil, or_false] at hpart
    rcases hpart with rfl | rfl
    · cases provenance.createdAt with
      | none => exact .of_leaf trivial rfl
      | some site => exact admissible_siteValue
    · refine ⟨trivial, ?_⟩
      intro part hpart
      obtain ⟨site, -, rfl⟩ := List.mem_map.mp hpart
      exact admissible_siteValue

/-! ## Reading it back -/

theorem toInt64_nonneg {n : UInt64} (h : n.toNat < 2 ^ 63) : 0 ≤ n.toInt64.toInt := by
  have htoInt : n.toInt64.toInt = n.toBitVec.toInt := rfl
  have hlt : 2 * n.toBitVec.toNat < 2 ^ 64 := by
    rw [UInt64.toNat_toBitVec]
    omega
  rw [htoInt, BitVec.toInt_eq_toNat_of_lt hlt]
  exact Int.natCast_nonneg _

section Fields

variable {fields : Fields} {name : String}

theorem decodeOptionalString_eq {value : Option String}
    (h : field fields name = some (optionalString value)) :
    decodeOptionalString fields name = .ok value := by
  rw [decodeOptionalString, h]
  cases value <;> rfl

theorem decodeNonnegative_eq {n : UInt64} (hn : n.toNat < 2 ^ 63)
    (h : field fields name = some (.integer n.toInt64)) :
    decodeNonnegative fields name = .ok n := by
  rw [decodeNonnegative, h]
  dsimp only
  rw [if_pos (toInt64_nonneg hn)]
  rfl

end Fields

theorem decodeSite_siteValue (h : site.Signed) : decodeSite (siteValue site) = .ok site := by
  have hnamespace : field (siteFields site) "namespace" =
      some (optionalString site.sourceNamespace) := rfl
  have hresource : field (siteFields site) "resource" = some (optionalString site.resource) := rfl
  have hline : field (siteFields site) "line" = some (.integer site.line.toInt64) := rfl
  have hcolumn : field (siteFields site) "column" = some (.integer site.column.toInt64) := rfl
  rw [siteValue, decodeSite, decodeOptionalString_eq hnamespace, decodeOptionalString_eq hresource,
    decodeNonnegative_eq h.1 hline, decodeNonnegative_eq h.2 hcolumn]
  rfl

theorem decodeCreatedAt_eq {createdAt : Option ExceptionSite}
    (h : ∀ site ∈ createdAt.toList, site.Signed) :
    decodeCreatedAt (some ((createdAt.map siteValue).getD .nil)) = .ok createdAt := by
  cases createdAt with
  | none => rfl
  | some site =>
    have hsite := decodeSite_siteValue (h site (List.mem_singleton_self site))
    exact congrArg (Except.map some) hsite

theorem decodeProvenance_provenanceValue
    (h : ∀ site ∈ provenance.createdAt.toList ++ provenance.throws, site.Signed) :
    decodeProvenance (provenanceValue provenance) = .ok provenance := by
  obtain ⟨hcreated, hthrows⟩ := List.forall_mem_append.mp h
  have hcreatedAt : field (provenanceFields provenance) "ex/created-at" =
      some ((provenance.createdAt.map siteValue).getD .nil) := rfl
  have hthrowsField : field (provenanceFields provenance) "ex/throws" =
      some (.vector (provenance.throws.map siteValue)) := rfl
  have hsites : (provenance.throws.map siteValue).mapM decodeSite = .ok provenance.throws := by
    rw [Except.mapM_eq_ok, List.forall₂_map_left_iff, List.forall₂_same]
    intro site hsite
    exact decodeSite_siteValue (hthrows site hsite)
  rw [provenanceValue, decodeProvenance, hcreatedAt, hthrowsField, decodeCreatedAt_eq hcreated]
  dsimp only
  rw [hsites]
  rfl

end Hara.Hta
