import Hara.Bundle.Canonical

/-!
# Bundles are read back

Encoding succeeds for well-formed modules whose counts and lengths fit into 32 bits, and decoding
returns the canonical modules.
-/

namespace Hara.Bundle

open Codec Except List

variable {modules modules' ordered : List BytecodeBundleModule} {m : BytecodeBundleModule}
  {data : List UInt8}

/-! ## What is written -/

theorem putU32_eq_ok {value : ℕ} :
    putU32 value = .ok data ↔ value < 2 ^ 32 ∧ data = le 4 value := by
  rw [putU32]
  by_cases h : value < 2 ^ 32
  · rw [if_pos h, Except.ok.injEq, eq_comm]
    exact (and_iff_right h).symm
  · rw [if_neg h]
    exact ⟨nofun, fun hvalue ↦ absurd hvalue.1 h⟩

theorem putBytes_eq_ok {value : List UInt8} :
    putBytes value = .ok data ↔
      value.length < 2 ^ 32 ∧ data = le 4 value.length ++ value := by
  rw [putBytes, bind_eq_ok]
  constructor
  · rintro ⟨length, hlength, hdata⟩
    obtain ⟨hfits, rfl⟩ := putU32_eq_ok.mp hlength
    exact ⟨hfits, (pure_eq_ok.mp hdata).symm⟩
  · rintro ⟨hfits, rfl⟩
    exact ⟨_, putU32_eq_ok.mpr ⟨hfits, rfl⟩, rfl⟩

/-- The counts and lengths of a module fit into 32 bits. -/
structure BytecodeBundleModule.Fits (m : BytecodeBundleModule) : Prop where
  resource : (Utf8.bytes m.resource).length < 2 ^ 32
  namespaceForm : (Utf8.bytes m.namespaceForm).length < 2 ^ 32
  count : m.dependencies.length < 2 ^ 32
  dependencies : ∀ dependency ∈ m.dependencies, (Utf8.bytes dependency).length < 2 ^ 32
  artifact : m.artifact.length < 2 ^ 32

/-- The counts and lengths of a bundle fit into 32 bits. -/
structure Fits (modules : List BytecodeBundleModule) : Prop where
  count : modules.length < 2 ^ 32
  modules : ∀ m ∈ modules, m.Fits

/-! ## What is read -/

theorem decodes_takeArray {length : ℕ} (h : data.length = length) :
    Decodes (takeArray length) data ⟨data, h⟩ := by
  intro rest
  have hlong : ¬ (data ++ rest).length < length := by
    rw [length_append, h]
    exact Nat.not_lt_of_le (Nat.le_add_right length rest.length)
  rw [takeArray, dif_neg hlong]
  congr 1
  · exact Subtype.ext (take_left' h)
  · exact drop_left' h

theorem decodes_takeU32 {value : ℕ} (h : value < 2 ^ 32) : Decodes takeU32 (le 4 value) value := by
  refine (decodes_takeArray length_le).bind_pure ?_
  rw [ofLe_le h]
  exact .pure value

theorem decodes_takeBytes {value : List UInt8} (h : putBytes value = .ok data) :
    Decodes takeBytes data value := by
  obtain ⟨hfits, rfl⟩ := putBytes_eq_ok.mp h
  exact (decodes_takeU32 hfits).bind ((decodes_takeArray rfl).bind_pure (.pure value))

theorem decodes_takeString {text : String} (h : putBytes (Utf8.bytes text) = .ok data) :
    Decodes takeString data text := by
  refine (decodes_takeBytes h).bind_pure ?_
  rw [Utf8.text?_bytes]
  exact .pure text

theorem decodes_takeFlag {eager : Bool} : Decodes takeFlag (if eager then [1] else [0]) eager := by
  have harray (byte : UInt8) : Decodes (takeArray 1) [byte] ⟨[byte], rfl⟩ := decodes_takeArray rfl
  cases eager with
  | false => exact (harray 0).bind_pure (.pure false)
  | true => exact (harray 1).bind_pure (.pure true)

/-! ## Modules -/

theorem exists_encodeModule (h : m.Fits) : ∃ data, encodeModule m = .ok data := by
  have hput {value : List UInt8} (hvalue : value.length < 2 ^ 32) :
      ∃ data, putBytes value = .ok data := ⟨_, putBytes_eq_ok.mpr ⟨hvalue, rfl⟩⟩
  obtain ⟨resource, hresource⟩ := hput h.resource
  obtain ⟨form, hform⟩ := hput h.namespaceForm
  obtain ⟨artifact, hartifact⟩ := hput h.artifact
  obtain ⟨dependencies, hdependencies⟩ := exists_mapM_eq_ok
    fun dependency hmem ↦ hput (h.dependencies dependency hmem)
  simp only [encodeModule, bind_eq_ok]
  exact ⟨_, resource, hresource, form, hform, _, putU32_eq_ok.mpr ⟨h.count, rfl⟩, dependencies,
    hdependencies, artifact, hartifact, rfl⟩

/-- What is written for a module fits, and is read back. -/
theorem encodeModule_eq_ok (h : encodeModule m = .ok data) :
    m.Fits ∧ Decodes takeModule data m := by
  simp only [encodeModule, bind_eq_ok] at h
  obtain ⟨resource, hresource, form, hform, count, hcount, dependencies, hdependencies, artifact,
    hartifact, h⟩ := h
  cases h
  have hfits : ∀ dependency ∈ m.dependencies, (Utf8.bytes dependency).length < 2 ^ 32 := by
    intro dependency hmem
    obtain ⟨_, -, hdependency⟩ := exists_of_mapM_eq_ok hdependencies hmem
    exact (putBytes_eq_ok.mp hdependency).1
  obtain ⟨hlength, rfl⟩ := putU32_eq_ok.mp hcount
  refine ⟨⟨(putBytes_eq_ok.mp hresource).1, (putBytes_eq_ok.mp hform).1, hlength, hfits,
    (putBytes_eq_ok.mp hartifact).1⟩, ?_⟩
  have hmany : Decodes (many takeString m.dependencies.length) dependencies.flatten
      m.dependencies :=
    .many ((mapM_eq_ok.mp hdependencies).imp fun _ _ ↦ decodes_takeString)
  exact (decodes_takeString hresource).bind <| (decodes_takeString hform).bind <|
    (decodes_takeArray m.sourceDigest.2).bind <| (decodes_takeU32 hlength).bind <|
    hmany.bind <| decodes_takeFlag.bind <|
    (decodes_takeBytes hartifact).bind_pure (.pure m)

theorem BytecodeBundleModule.Fits.perm (h : m.Fits) {dependencies : List String}
    (hperm : dependencies.Perm m.dependencies) : Fits { m with dependencies } :=
  { h with
    count := hperm.length_eq.trans_lt h.count
    dependencies := fun dependency hmem ↦ h.dependencies dependency (hperm.mem_iff.mp hmem) }

theorem Fits.congr (h : Fits modules)
    (hperm : ordered.Perm (modules.map (·.sorted))) : Fits ordered := by
  refine ⟨?_, fun m' hm' ↦ ?_⟩
  · rw [hperm.length_eq, length_map]
    exact h.count
  · obtain ⟨m, hm, rfl⟩ := mem_map.mp (hperm.mem_iff.mp hm')
    exact (h.modules m hm).perm perm_sortStrings

theorem Fits.of_perm (h : Fits ordered)
    (hperm : ordered.Perm (modules.map (·.sorted))) : Fits modules := by
  refine ⟨?_, fun m hm ↦ ?_⟩
  · have hlength := h.count
    rwa [hperm.length_eq, length_map] at hlength
  · exact (h.modules m.sorted (hperm.mem_iff.mpr (mem_map_of_mem hm))).perm perm_sortStrings.symm

/-! ## Bundles -/

variable {sha256 : List UInt8 → Digest}

/-- The parts of an encoded bundle. -/
theorem encodeBytecodeBundle_eq_ok {bytes : List UInt8}
    (h : encodeBytecodeBundle sha256 modules = .ok bytes) :
    ∃ ordered payload, canonicalModules modules = .ok ordered ∧ Fits ordered ∧
      Decodes takeModules payload ordered ∧ bytes = magic ++ ((sha256 payload).1 ++ payload) := by
  simp only [encodeBytecodeBundle, bind_eq_ok] at h
  obtain ⟨ordered, hordered, count, hcount, chunks, hchunks, h⟩ := h
  cases h
  obtain ⟨hlength, rfl⟩ := putU32_eq_ok.mp hcount
  have hmodule : ∀ m ∈ ordered, m.Fits := by
    intro m hm
    obtain ⟨_, -, hdata⟩ := exists_of_mapM_eq_ok hchunks hm
    exact (encodeModule_eq_ok hdata).1
  refine ⟨ordered, _, hordered, ⟨hlength, hmodule⟩, ?_, rfl⟩
  exact (decodes_takeU32 hlength).bind
    (.many ((mapM_eq_ok.mp hchunks).imp fun _ _ hdata ↦ (encodeModule_eq_ok hdata).2))

theorem exists_encodeBytecodeBundle (h : WellFormed modules) (hfits : Fits modules) :
    ∃ bytes, encodeBytecodeBundle sha256 modules = .ok bytes := by
  obtain ⟨ordered, hordered⟩ := h.exists_canonicalModules
  have hfits' := hfits.congr (canonicalModules_eq_ok hordered).2.1.perm
  obtain ⟨chunks, hchunks⟩ := exists_mapM_eq_ok fun m hm ↦ exists_encodeModule (hfits'.modules m hm)
  simp only [encodeBytecodeBundle, bind_eq_ok]
  exact ⟨_, ordered, hordered, _, putU32_eq_ok.mpr ⟨hfits'.count, rfl⟩, chunks, hchunks, rfl⟩

/-- Decoding returns the canonical modules, if their artifacts are valid. -/
theorem decode_encode {P : Type} {decodeProgram : List UInt8 → Except String P}
    (hvalid : ∀ m ∈ modules, ∃ program, decodeProgram m.artifact = .ok program) {bytes : List UInt8}
    (h : encodeBytecodeBundle sha256 modules = .ok bytes) :
    ∃ ordered, LeastOrder modules ordered ∧
      decodeBytecodeBundle sha256 decodeProgram bytes = .ok ordered := by
  obtain ⟨ordered, payload, hordered, -, hdecodes, rfl⟩ := encodeBytecodeBundle_eq_ok h
  obtain ⟨-, hleast, hvalidate⟩ := canonicalModules_eq_ok hordered
  refine ⟨ordered, hleast, ?_⟩
  have hdigest := (sha256 payload).2
  have hpayload : (magic ++ ((sha256 payload).1 ++ payload)).drop 36 = payload := by
    rw [← append_assoc]
    exact drop_left' (by rw [length_append, hdigest]; rfl)
  have hchecksum : ((magic ++ ((sha256 payload).1 ++ payload)).drop 4).take 32 =
      (sha256 payload).1 := by
    have hmagic : magic.length = 4 := rfl
    rw [drop_left' hmagic, take_left' hdigest]
  have hheader : 36 ≤ (magic ++ ((sha256 payload).1 ++ payload)).length := by
    rw [length_append, length_append, hdigest, ← Nat.add_assoc]
    exact Nat.le_add_right _ _
  have hartifacts : ∀ m ∈ ordered, ∃ program, decodeProgram m.artifact = .ok program := by
    intro m' hm'
    obtain ⟨m, hm, rfl⟩ := mem_map.mp (hleast.perm.mem_iff.mp hm')
    exact hvalid m hm
  simp only [decodeBytecodeBundle, bind_eq_ok, ensure_eq_ok, hpayload, hchecksum, hdecodes.read]
  refine ⟨(), ⟨hheader, take_left' rfl⟩, (), trivial, _, rfl, (), rfl, (), hvalidate, (), ?_, rfl⟩
  rw [forM_eq_ok]
  intro m hm
  obtain ⟨program, hprogram⟩ := hartifacts m hm
  rw [hprogram]
  rfl

/-- **The container is canonical.** Modules with valid artifacts are encoded exactly if they are
well-formed and fit; the bytes do not depend on the order in which modules and dependencies are
given; and they are decoded to the modules in the least order in which each comes after its
dependencies, with sorted dependencies. -/
theorem bundle_canonical {P : Type} (sha256 : List UInt8 → Digest)
    (decodeProgram : List UInt8 → Except String P) (modules : List BytecodeBundleModule)
    (hvalid : ∀ m ∈ modules, ∃ program, decodeProgram m.artifact = .ok program) :
    ((∃ bytes, encodeBytecodeBundle sha256 modules = .ok bytes) ↔
      WellFormed modules ∧ Fits modules) ∧
    (∀ modules' bytes, SameUpToOrder modules modules' →
      encodeBytecodeBundle sha256 modules = .ok bytes →
      encodeBytecodeBundle sha256 modules' = .ok bytes) ∧
    ∀ bytes, encodeBytecodeBundle sha256 modules = .ok bytes →
      ∃ ordered, LeastOrder modules ordered ∧
        decodeBytecodeBundle sha256 decodeProgram bytes = .ok ordered := by
  refine ⟨⟨?_, fun ⟨hwf, hfits⟩ ↦ exists_encodeBytecodeBundle hwf hfits⟩, ?_,
    fun bytes h ↦ decode_encode hvalid h⟩
  · rintro ⟨bytes, h⟩
    obtain ⟨ordered, payload, hordered, hfits, -⟩ := encodeBytecodeBundle_eq_ok h
    obtain ⟨hwf, hleast, -⟩ := canonicalModules_eq_ok hordered
    exact ⟨hwf, hfits.of_perm hleast.perm⟩
  · intro modules' bytes hsame h
    obtain ⟨ordered, hordered, h⟩ := bind_eq_ok.mp h
    exact bind_eq_ok.mpr ⟨ordered, canonicalModules_congr hsame hordered, h⟩

/-- A digest of zeros, for every input. -/
def zeroHash (_ : List UInt8) : Digest := ⟨List.replicate 32 0, length_zeros⟩

/-- The envelope that `decode_program` checks before it reads the payload of an artifact. -/
def decodeEnvelope (sha256 : List UInt8 → Digest) (bytes : List UInt8) :
    Except String (List UInt8) := do
  ensure (bytes.take 4 = [72, 66, 67, 48]) "bytecode artifact has invalid magic"
  ensure (40 ≤ bytes.length) "bytecode artifact is truncated"
  let stop := 8 + ofLe ((bytes.drop 4).take 4).reverse
  ensure (stop + 32 = bytes.length) "bytecode artifact length mismatch"
  let payload := (bytes.take stop).drop 8
  ensure ((sha256 payload).1 = bytes.drop stop) "bytecode artifact checksum mismatch"
  return payload

/-- An artifact around a payload. -/
def envelope (payload : List UInt8) : List UInt8 :=
  [72, 66, 67, 48] ++ (le 4 payload.length).reverse ++ payload ++ (zeroHash payload).1

/-- The module `b` depends on the module `a` and on one that is not in the bundle. -/
def twoModules : List BytecodeBundleModule :=
  [⟨"b", "(ns b)", zeroHash [], ["z", "a"], true, envelope [0, 0, 1]⟩,
    ⟨"a", "(ns a)", zeroHash [], [], false, envelope [0, 0]⟩]

theorem decode_twoModules : ∃ bytes ordered, encodeBytecodeBundle zeroHash twoModules = .ok bytes ∧
    decodeBytecodeBundle zeroHash (decodeEnvelope zeroHash) bytes = .ok ordered ∧
    ordered.map (·.resource) = ["a", "b"] := by
  have hnames : ((encodeBytecodeBundle zeroHash twoModules >>=
      decodeBytecodeBundle zeroHash (decodeEnvelope zeroHash)).toOption.map
        (List.map (·.resource))) = some ["a", "b"] := by decide +kernel
  cases h : encodeBytecodeBundle zeroHash twoModules >>=
      decodeBytecodeBundle zeroHash (decodeEnvelope zeroHash) with
  | error e =>
    rw [h] at hnames
    cases hnames
  | ok ordered =>
    rw [h] at hnames
    obtain ⟨bytes, hbytes, hordered⟩ := bind_eq_ok.mp h
    exact ⟨bytes, ordered, hbytes, hordered, Option.some.inj hnames⟩

/-- Two modules are encoded, in either order, and come back in the order of their dependencies. -/
theorem bundle_canonical_twoModules :
    (∀ m ∈ twoModules, ∃ payload, decodeEnvelope zeroHash m.artifact = .ok payload) ∧
    ∃ bytes ordered, encodeBytecodeBundle zeroHash twoModules = .ok bytes ∧
      encodeBytecodeBundle zeroHash twoModules.reverse = .ok bytes ∧
      decodeBytecodeBundle zeroHash (decodeEnvelope zeroHash) bytes = .ok ordered ∧
      ordered.map (·.resource) = ["a", "b"] ∧ LeastOrder twoModules ordered := by
  have hvalid : ∀ m ∈ twoModules, ∃ payload, decodeEnvelope zeroHash m.artifact = .ok payload := by
    simp only [twoModules, forall_mem_cons]
    exact ⟨⟨_, rfl⟩, ⟨_, rfl⟩, forall_mem_nil _⟩
  refine ⟨hvalid, ?_⟩
  obtain ⟨-, hsame, hdecode⟩ :=
    bundle_canonical zeroHash (decodeEnvelope zeroHash) twoModules hvalid
  have hreverse : SameUpToOrder twoModules twoModules.reverse :=
    ⟨twoModules.reverse, (reverse_perm _).symm, forall₂_same.mpr fun _ _ ↦ ⟨.refl _, rfl⟩⟩
  obtain ⟨bytes, ordered, hbytes, hordered, hnames⟩ := decode_twoModules
  obtain ⟨ordered', hleast, hordered'⟩ := hdecode bytes hbytes
  obtain rfl : ordered = ordered' := Except.ok.inj (hordered.symm.trans hordered')
  exact ⟨bytes, ordered, hbytes, hsame _ bytes hreverse hbytes, hordered, hnames, hleast⟩

/-- A module whose namespace form has `size` bytes. -/
def longModule (size : ℕ) : BytecodeBundleModule :=
  ⟨"a", String.ofList (List.replicate size 'x'), zeroHash [], [], false, envelope [0, 0]⟩

theorem length_longModule (size : ℕ) :
    (Utf8.bytes (longModule size).namespaceForm).length = size := by
  have hascii : ∀ c ∈ List.replicate size 'x', c.toNat < 128 := by
    intro c hc
    rw [eq_of_mem_replicate hc]
    decide
  rw [longModule, Utf8.bytes_ascii hascii, length_map, length_replicate]

theorem wellFormed_longModule {size : ℕ} (h : 0 < size) : WellFormed [longModule size] where
  named := by
    intro m hm
    rw [mem_singleton.mp hm]
    refine ⟨(by decide : "a" ≠ ""), fun hform ↦ ?_⟩
    have hlength := length_longModule size
    rw [hform] at hlength
    exact absurd hlength (ne_of_lt h)
  distinct := nodup_singleton _
  dependencies := by
    intro m hm
    rw [mem_singleton.mp hm]
    exact nodup_nil
  acyclic := by
    have htopological : Topological [longModule size] := ⟨fun _ _ ↦ nofun, trivial⟩
    exact htopological.acyclic

/-- **A bundle that is well-formed but too long.** The codec writes lengths in 32 bits and refuses
a longer namespace form. -/
theorem encode_refuses_longModule :
    WellFormed [longModule (2 ^ 32)] ∧
      (∃ payload, decodeEnvelope zeroHash (longModule (2 ^ 32)).artifact = .ok payload) ∧
      ∀ bytes, encodeBytecodeBundle zeroHash [longModule (2 ^ 32)] ≠ .ok bytes := by
  refine ⟨wellFormed_longModule (Nat.two_pow_pos 32), ⟨[0, 0], rfl⟩, fun bytes h ↦ ?_⟩
  obtain ⟨ordered, payload, hordered, hfits, -⟩ := encodeBytecodeBundle_eq_ok h
  have hfits' := hfits.of_perm (canonicalModules_eq_ok hordered).2.1.perm
  have hlength := (hfits'.modules _ mem_cons_self).namespaceForm
  rw [length_longModule] at hlength
  exact absurd hlength (Nat.lt_irrefl _)

/-! ## What is accepted -/

/-- The two loops accept exactly the modules of which none comes before one that it depends on, and
what a bundle is decoded to is accepted. -/
theorem validateBundleModules_iff (modules : List BytecodeBundleModule) :
    (validateBundleModules modules = .ok () ↔ Accepted modules) ∧
      ∀ {P : Type} (sha256 : List UInt8 → Digest) (decodeProgram : List UInt8 → Except String P)
        (bytes : List UInt8), decodeBytecodeBundle sha256 decodeProgram bytes = .ok modules →
          Accepted modules := by
  refine ⟨⟨accepted_of_validate, fun h ↦ validateBundleModules_of_topological h.1 h.2.1 h.2.2⟩, ?_⟩
  intro P sha256 decodeProgram bytes h
  simp only [decodeBytecodeBundle, bind_eq_ok] at h
  obtain ⟨_, -, _, -, _, -, _, -, _, hvalidate, _, -, hmodules⟩ := h
  cases hmodules
  exact accepted_of_validate hvalidate

theorem validateBundleModules_iff_twoModules : ∃ bytes ordered,
    decodeBytecodeBundle zeroHash (decodeEnvelope zeroHash) bytes = .ok ordered ∧
      ordered.map (·.resource) = ["a", "b"] ∧ Accepted ordered := by
  obtain ⟨bytes, ordered, -, hordered, hnames⟩ := decode_twoModules
  exact ⟨bytes, ordered, hordered, hnames,
    (validateBundleModules_iff ordered).2 zeroHash (decodeEnvelope zeroHash) bytes hordered⟩

end Hara.Bundle
