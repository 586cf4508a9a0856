import Hara.Lib.Codec
import Hara.Lib.Except
import Hara.Lib.LeastFirst
import Hara.Lib.Utf8

/-!
# The HBX0 container

The bundle codec of `vm/bundle.rs`: modules are put into an order that does not depend on how they
were given, written field by field behind a checksum, and checked again when they are read. The
checksum is SHA-256, of which the codec only uses that it has 32 bytes; the artifact of a module is
checked by decoding it, which is a parameter here.

Strings are compared by their bytes.
-/

namespace Hara.Bundle

open Codec Except

/-- What strings are compared by. -/
def Key := List ℕ

instance : LinearOrder Key := inferInstanceAs (LinearOrder (List ℕ))

/-- The bytes of a string. -/
def key (text : String) : Key := (Utf8.bytes text).map UInt8.toNat

theorem key_injective : Function.Injective key := by
  intro text text' h
  exact Utf8.bytes_injective (List.map_injective_iff.mpr (fun _ _ h ↦ UInt8.toNat_inj.mp h) h)

/-- A digest. -/
abbrev Digest := { data : List UInt8 // data.length = 32 }

theorem length_zeros : (List.replicate 32 (0 : UInt8)).length = 32 := List.length_replicate

/-- `BytecodeBundleModule` of the source. -/
structure BytecodeBundleModule where
  resource : String
  namespaceForm : String
  sourceDigest : Digest
  dependencies : List String
  eager : Bool
  artifact : List UInt8
  deriving DecidableEq

/-! ## Order -/

/-- `windows(2).any(..)`. -/
def anyAdjacent {α : Type} (p : α → α → Bool) : List α → Bool
  | a :: b :: rest => p a b || anyAdjacent p (b :: rest)
  | _ => false

/-- `sort` on strings. -/
def sortStrings (texts : List String) : List String :=
  texts.insertionSort fun a b ↦ key a ≤ key b

/-- A module with its dependencies sorted. -/
def BytecodeBundleModule.sorted (m : BytecodeBundleModule) : BytecodeBundleModule :=
  { m with dependencies := sortStrings m.dependencies }

/-- The first loop of `canonical_modules`. The map is a list sorted by name. -/
def collectModules : List BytecodeBundleModule → List BytecodeBundleModule →
    Except String (List BytecodeBundleModule)
  | [], byResource => .ok byResource
  | m :: modules, byResource => do
    ensure (m.resource ∉ byResource.map (·.resource)) ("duplicate HBX0 module: " ++ m.resource)
    ensure (anyAdjacent (· == ·) (sortStrings m.dependencies) = false)
      (m.resource ++ ": duplicate HBX0 dependency")
    collectModules modules
      (byResource.orderedInsert (fun a b ↦ key a.resource ≤ key b.resource) m)

/-- The second loop of `canonical_modules`. -/
def orderModules (byResource : List BytecodeBundleModule) :
    Except String (List BytecodeBundleModule) :=
  match LeastFirst.order (fun m ↦ key m.resource) (fun m ↦ m.dependencies.map key)
      byResource.length byResource with
  | none => .error "HBX0 module dependencies contain a cycle"
  | some modules => .ok (modules.map (·.sorted))

/-- The first loop of `validate_bundle_modules`, after the modules named `seen`. -/
def validateModules : List String → List BytecodeBundleModule → Except String Unit
  | _, [] => .ok ()
  | seen, m :: modules => do
    ensure (m.resource ≠ "") "HBX0 module resource must not be empty"
    ensure (m.namespaceForm ≠ "") (m.resource ++ ": HBX0 namespace form must not be empty")
    ensure (m.resource ∉ seen) ("duplicate HBX0 module: " ++ m.resource)
    ensure (anyAdjacent (fun a b ↦ decide (key b ≤ key a)) m.dependencies = false)
      (m.resource ++ ": HBX0 dependencies must be unique and sorted")
    validateModules (m.resource :: seen) modules

/-- The second loop of `validate_bundle_modules`. A dependency in the bundle has a position. -/
def validateDependencies (names : List String) (index : ℕ) (m : BytecodeBundleModule) :
    Except String Unit :=
  m.dependencies.forM fun dependency ↦
    ensure ((names.idxOf? dependency).any (index ≤ ·) = false)
      (m.resource ++ ": HBX0 dependency must appear first: " ++ dependency)

/-- `validate_bundle_modules`. -/
def validateBundleModules (modules : List BytecodeBundleModule) : Except String Unit := do
  validateModules [] modules
  modules.zipIdx.forM fun (m, index) ↦
    validateDependencies (modules.map (·.resource)) index m

/-- `canonical_modules`. -/
def canonicalModules (modules : List BytecodeBundleModule) :
    Except String (List BytecodeBundleModule) := do
  let byResource ← collectModules modules []
  let ordered ← orderModules byResource
  validateBundleModules ordered
  return ordered

/-! ## Encoding -/

def putU32 (value : ℕ) : Except String (List UInt8) :=
  if value < 2 ^ 32 then .ok (le 4 value) else .error "foundation bundle exceeds u32 limits"

def putBytes (value : List UInt8) : Except String (List UInt8) := do
  let length ← putU32 value.length
  return length ++ value

/-- The part of the payload for one module. -/
def encodeModule (m : BytecodeBundleModule) : Except String (List UInt8) := do
  let resource ← putBytes (Utf8.bytes m.resource)
  let namespaceForm ← putBytes (Utf8.bytes m.namespaceForm)
  let count ← putU32 m.dependencies.length
  let dependencies ← m.dependencies.mapM fun dependency ↦ putBytes (Utf8.bytes dependency)
  let artifact ← putBytes m.artifact
  return resource ++ (namespaceForm ++ (m.sourceDigest.1 ++ (count ++ (dependencies.flatten ++
    ((if m.eager then [1] else [0]) ++ artifact)))))

def magic : List UInt8 := [72, 66, 88, 48]

/-- `encode_bytecode_bundle`. -/
def encodeBytecodeBundle (sha256 : List UInt8 → Digest) (modules : List BytecodeBundleModule) :
    Except String (List UInt8) := do
  let modules ← canonicalModules modules
  let count ← putU32 modules.length
  let chunks ← modules.mapM encodeModule
  let payload := count ++ chunks.flatten
  return magic ++ ((sha256 payload).1 ++ payload)

/-! ## Decoding -/

/-- `take`, with the length of what was taken. -/
def takeArray (length : ℕ) : Reader String { data : List UInt8 // data.length = length } :=
  fun input ↦
    if h : input.length < length then .error "truncated HBX0 bytecode bundle" input
    else
      .ok ⟨input.take length, List.length_take_of_le (Nat.le_of_not_lt h)⟩ (input.drop length)

def takeU32 : Reader String ℕ := do
  let data ← takeArray 4
  return ofLe data.1

def takeBytes : Reader String (List UInt8) := do
  let length ← takeU32
  let data ← takeArray length
  return data.1

def takeString : Reader String String := do
  let data ← takeBytes
  match Utf8.text? data with
  | some text => return text
  | none => throw "foundation bundle contains invalid UTF-8"

/-- The eager flag of a module. -/
def takeFlag : Reader String Bool := do
  let data ← takeArray 1
  match data.1 with
  | [0] => return false
  | [1] => return true
  | _ => throw "HBX0 bytecode bundle contains invalid eager flag"

/-- The body of the loop of `decode_bytecode_bundle`. -/
def takeModule : Reader String BytecodeBundleModule := do
  let resource ← takeString
  let namespaceForm ← takeString
  let sourceDigest ← takeArray 32
  let count ← takeU32
  let dependencies ← many takeString count
  let eager ← takeFlag
  let artifact ← takeBytes
  return { resource, namespaceForm, sourceDigest, dependencies, eager, artifact }

/-- The payload of `decode_bytecode_bundle`. -/
def takeModules : Reader String (List BytecodeBundleModule) := do
  let count ← takeU32
  many takeModule count

/-- `decode_bytecode_bundle`. -/
def decodeBytecodeBundle {P : Type} (sha256 : List UInt8 → Digest)
    (decodeProgram : List UInt8 → Except String P) (bytes : List UInt8) :
    Except String (List BytecodeBundleModule) := do
  ensure (36 ≤ bytes.length ∧ bytes.take 4 = magic) "invalid HBX0 bytecode bundle header"
  let payload := bytes.drop 36
  ensure ((sha256 payload).1 = (bytes.drop 4).take 32) "HBX0 bytecode bundle checksum mismatch"
  let (modules, input) ← read takeModules payload
  ensure (input = []) "trailing bytes in HBX0 bytecode bundle"
  validateBundleModules modules
  modules.forM fun m ↦ do
    let _ ← (decodeProgram m.artifact).mapError
      (m.resource ++ ": invalid HBC0 artifact: " ++ ·)
    return ()
  return modules

end Hara.Bundle
