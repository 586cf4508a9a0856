import Hara.Hta.Codec

/-!
# Normal forms

What a value becomes on the wire. A tuple is a vector there, a big integer that fits is an integer,
a map whose keys are keywords is a record, and sets and maps have the order of their bytes.

A value is admissible if every cons has an item, the lines and columns of exceptions fit into a
signed number, and its records are sorted, as a `BTreeMap` is.
-/

namespace Hara.Hta

open Codec Hara.Lib

/-! ## Admissible values -/

/-- Lines and columns that fit into a signed number. -/
def ExceptionSite.Signed (site : ExceptionSite) : Prop :=
  site.line.toNat < 2 ^ 63 ∧ site.column.toNat < 2 ^ 63

/-- The conditions on a value that are not about its parts. -/
def ImmutableValue.OwnAdmissible : ImmutableValue → Prop
  | .cons values => values ≠ []
  | .record values => Ascending fieldRank values
  | .pointer _ fields => Ascending fieldRank fields
  | .exceptionInfo _ _ _ provenance =>
    ∀ site ∈ provenance.createdAt.toList ++ provenance.throws, site.Signed
  | _ => True

inductive ImmutableValue.Admissible : ImmutableValue → Prop
  | mk {value : ImmutableValue} (own : value.OwnAdmissible)
      (parts : ∀ part ∈ value.parts, Admissible part) : Admissible value

namespace ImmutableValue

variable {value : ImmutableValue}

theorem Admissible.own (h : value.Admissible) : value.OwnAdmissible := by
  cases h with
  | mk own _ => exact own

theorem Admissible.of_mem_parts (h : value.Admissible) {part : ImmutableValue}
    (hpart : part ∈ value.parts) : part.Admissible := by
  cases h with
  | mk _ parts => exact parts part hpart

/-- A value without parts. -/
theorem Admissible.of_leaf (own : value.OwnAdmissible) (hparts : value.parts = []) :
    value.Admissible := by
  refine ⟨own, ?_⟩
  rw [hparts]
  exact List.forall_mem_nil _

end ImmutableValue

/-! ## The normal form -/

/-- The bytes of a value behind the magic of a frame. -/
def encodedBytes (value : ImmutableValue) : List UInt8 :=
  (encoded (encodeValue (maxNestingDepth + 1) value)).toOption.getD []

/-- The items of a set with their bytes, in the order of the bytes and each of them once. -/
def mergedItems (items : List (List UInt8 × ImmutableValue)) : List ImmutableValue :=
  ((sortBy (fun item ↦ rank item.1) items).destutter fun a b ↦ a.1 ≠ b.1).map Prod.snd

/-- The entries of a map with the bytes of their keys, in the order of the bytes. -/
def sortedEntries (entries : List (List UInt8 × ImmutableValue × ImmutableValue)) :
    List (ImmutableValue × ImmutableValue) :=
  (sortBy (fun entry ↦ rank entry.1) entries).map Prod.snd

/-- The field that an entry with a keyword is. -/
def fieldOf? : ImmutableValue × ImmutableValue → Option (String × ImmutableValue)
  | (.keyword key, value) => some (key, value)
  | _ => none

/-- A map with these entries, as a record if it is one. -/
def mapOrRecord (entries : List (ImmutableValue × ImmutableValue)) : ImmutableValue :=
  if entries.all fun entry ↦ entry.1.isKeyword then
    .record (sortBy fieldRank (entries.filterMap fieldOf?))
  else .map entries

theorem sizeOf_entry_lt {α β : Type} [SizeOf α] [SizeOf β] {entry : α × β} {l : List (α × β)}
    (h : entry ∈ l) : sizeOf entry.1 < sizeOf l ∧ sizeOf entry.2 < sizeOf l := by
  have hlt := List.sizeOf_lt_of_mem h
  have hentry : sizeOf entry = 1 + sizeOf entry.1 + sizeOf entry.2 := rfl
  omega

def normalForm : ImmutableValue → ImmutableValue
  | .bigInteger value => (canonicalBigInteger value).toOption.getD (.bigInteger value)
  | .list values => .list (values.map normalForm)
  | .vector values => .vector (values.map normalForm)
  | .mapEntry values => .mapEntry (values.map normalForm)
  | .tuple values => .vector (values.map normalForm)
  | .cons values => .cons (values.map normalForm)
  | .queue values => .queue (values.map normalForm)
  | .set values =>
    .set (mergedItems (values.map fun value ↦ (encodedBytes value, normalForm value)))
  | .orderedSet values => .orderedSet (values.map normalForm)
  | .sortedSet values =>
    .sortedSet (mergedItems (values.map fun value ↦ (encodedBytes value, normalForm value)))
  | .map values =>
    mapOrRecord (sortedEntries (values.map fun entry ↦
      (encodedBytes entry.1, normalForm entry.1, normalForm entry.2)))
  | .orderedMap values =>
    .orderedMap (values.map fun entry ↦ (normalForm entry.1, normalForm entry.2))
  | .sortedMap values =>
    .sortedMap (values.map fun entry ↦ (normalForm entry.1, normalForm entry.2))
  | .trie values => .trie (values.map fun entry ↦ (entry.1, normalForm entry.2))
  | .record values => .record (values.map fun entry ↦ (entry.1, normalForm entry.2))
  | .tagged tag form => .tagged tag (normalForm form)
  | .exceptionInfo message data none provenance =>
    .exceptionInfo message (normalForm data) none provenance
  | .exceptionInfo message data (some cause) provenance =>
    .exceptionInfo message (normalForm data) (some (normalForm cause)) provenance
  | .struct name fields values => .struct name fields (values.map normalForm)
  | .pointer context fields =>
    .pointer context (fields.map fun entry ↦ (entry.1, normalForm entry.2))
  | value => value
decreasing_by
  all_goals first
    | decreasing_tactic
    | (simp only [ImmutableValue.map.sizeOf_spec, ImmutableValue.orderedMap.sizeOf_spec,
        ImmutableValue.sortedMap.sizeOf_spec, ImmutableValue.trie.sizeOf_spec,
        ImmutableValue.record.sizeOf_spec, ImmutableValue.pointer.sizeOf_spec]
       have hlt := sizeOf_entry_lt ‹_ ∈ _›
       omega)

attribute [simp] normalForm

end Hara.Hta
