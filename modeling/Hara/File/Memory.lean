import Hara.Lib.AssocMap
import Hara.Lib.Hoare

/-!
# The memory file provider

The provider keeps a flat map from normalised logical paths to nodes; the tree is implicit in the
paths. A path is kept here as the list of its segments, so that the root is the empty list and
"starts with `path/`" is a proper list prefix. Every operation normalises its paths, checks, and
then changes the map. `ensureParent` stands in the middle: with `parents` it makes the missing
directories above its path one by one, before the caller has made its remaining checks, and
nothing takes them back.
-/

namespace Hara.File

open Lib

/-- `FileError`, without the errors of the host providers. -/
inductive FileError
  | notFound
  | alreadyExists
  | invalidPath (message : String)
  | outsideRoot
  | denied
  | notDirectory
  | isDirectory
  | directoryNotEmpty

/-- A normalised logical path, by its segments. -/
abbrev Path := List String

/-- One turn of the loop of `logical_normalise`. -/
def pushSegment (segments : Path) (segment : String) : Except FileError Path :=
  if segment = "" ∨ segment = "." then .ok segments
  else if segment = ".." then
    if segments = [] then .error .outsideRoot else .ok segments.dropLast
  else
    match segment.toList with
    | c :: ':' :: _ =>
      if c.isAlpha then
        .error (.invalidPath "logical paths do not accept host drive prefixes")
      else .ok (segments ++ [segment])
    | _ => .ok (segments ++ [segment])

def logicalNormalise (path : String) : Except FileError Path :=
  if '\x00' ∈ path.toList then .error (.invalidPath "logical path contains NUL")
  else if '\\' ∈ path.toList then
    .error (.invalidPath "logical paths use '/' rather than host separators")
  else ((path.toList.splitOn '/').map String.ofList).foldlM pushSegment []

/-- `MemoryNode` -/
inductive Node
  | directory (modifiedAt : ℤ)
  | file (bytes : List UInt8) (modifiedAt : ℤ)

abbrev Nodes := AssocMap Path Node

/-- `MemoryFileProvider::new` -/
def Nodes.new (now : ℤ) : Nodes := (∅ : Nodes).insert [] (.directory now)

inductive WriteMode
  | create
  | replace
  | append

structure WriteOptions where
  mode : WriteMode
  parents : Bool

structure MkdirOptions where
  parents : Bool
  existsOk : Bool

structure DeleteOptions where
  missingOk : Bool

structure CopyOptions where
  replace : Bool
  parents : Bool
  preserveModified : Bool

/-- `MoveOptions`; the memory provider does not read `atomic`. -/
structure MoveOptions where
  replace : Bool
  parents : Bool

/-- An operation on the nodes; an error keeps the nodes that the operation has left so far. -/
abbrev FileM := EStateM FileError Nodes

def normalise (path : String) : FileM Path :=
  match logicalNormalise path with
  | .ok path => pure path
  | .error e => throw e

/-- The candidate starts with `path/`. -/
def isBelow (path candidate : Path) : Bool := path.isPrefixOf candidate && path != candidate

/-- Whether a node is kept below the path. -/
def hasBelow (nodes : Nodes) (path : Path) : Bool := nodes.keys.any (isBelow path)

/-- The entries at and below `source`, taken out and put back under `target`. -/
def relocate (nodes : Nodes) (source target : Path) : Nodes :=
  let moving := nodes.entries.filter fun e ↦ source.isPrefixOf e.1
  moving.foldl (fun nodes e ↦ nodes.insert (target ++ e.1.drop source.length) e.2)
    (moving.foldl (fun nodes e ↦ nodes.erase e.1) nodes)

section Operations

-- what `now_millis` answers when the node of a path is stamped
variable (now : Path → ℤ)

/-- The loop of `ensure_parent` over the segments of the parent. -/
def makeDirectories (current : Path) : List String → FileM Unit
  | [] => pure ()
  | segment :: segments => do
    let current := current ++ [segment]
    match (← get).lookup current with
    | some (.directory _) => pure ()
    | some (.file ..) => throw .notDirectory
    | none => modify (·.insert current (.directory (now current)))
    makeDirectories current segments

def ensureParent (path : Path) (parents : Bool) : FileM Unit := do
  if path = [] then throw .denied
  else if parents then makeDirectories now [] path.dropLast
  else
    match (← get).lookup path.dropLast with
    | some (.directory _) => pure ()
    | some (.file ..) => throw .notDirectory
    | none => throw .notFound

/-- The part of `write_bytes` after its path is normalised. -/
def writeAt (path : Path) (bytes : List UInt8) (options : WriteOptions) : FileM Path := do
  if path = [] then throw .isDirectory
  else
    ensureParent now path options.parents
    let bytes ← match (← get).lookup path, options.mode with
      | some (.directory _), _ => throw .isDirectory
      | some _, .create => throw .alreadyExists
      | some (.file existing _), .append => pure (existing ++ bytes)
      | _, _ => pure bytes
    modify (·.insert path (.file bytes (now path)))
    pure path

def writeBytes (path : String) (bytes : List UInt8) (options : WriteOptions) : FileM Path := do
  writeAt now (← normalise path) bytes options

def mkdirPath (path : String) (options : MkdirOptions) : FileM Path := do
  let path ← normalise path
  match (← get).lookup path with
  | some node =>
    if node matches .directory _ ∧ options.existsOk then pure path else throw .alreadyExists
  | none =>
    ensureParent now path options.parents
    modify (·.insert path (.directory (now path)))
    pure path

def deletePath (path : String) (options : DeleteOptions) : FileM Path := do
  let path ← normalise path
  let nodes ← get
  if path = [] then throw .denied
  else if path ∉ nodes then
    if options.missingOk then pure path else throw .notFound
  else if nodes.lookup path matches some (.directory _) ∧ hasBelow nodes path then
    throw .directoryNotEmpty
  else
    set (nodes.erase path)
    pure path

def copyPath (source target : String) (options : CopyOptions) : FileM Path := do
  let source ← normalise source
  let target ← normalise target
  if source = target then throw .alreadyExists
  else
    match (← get).lookup source with
    | some (.directory _) => throw .isDirectory
    | none => throw .notFound
    | some (.file bytes modifiedAt) =>
      let mode := if options.replace then WriteMode.replace else .create
      let result ← writeAt now target bytes ⟨mode, options.parents⟩
      -- the node under the target is the file that was just written
      if options.preserveModified then modify (·.insert target (.file bytes modifiedAt))
      pure result

/-- The part of `move_path` after `ensure_parent`. -/
def moveOnto (source target : Path) (replace : Bool) : FileM Path := do
  let nodes ← get
  if source ∉ nodes then throw .notFound
  else if target ∈ nodes ∧ ¬replace then throw .alreadyExists
  else if replace ∧ nodes.lookup target matches some (.directory _) ∧ hasBelow nodes target then
    throw .directoryNotEmpty
  else
    set (relocate (if replace then nodes.erase target else nodes) source target)
    pure target

def movePath (source target : String) (options : MoveOptions) : FileM Path := do
  let source ← normalise source
  let target ← normalise target
  if source = [] ∨ target = [] then throw .denied
  else if source = target then
    if source ∈ (← get) then pure target else throw .notFound
  else if isBelow source target then
    throw (.invalidPath "cannot move a directory beneath itself")
  else
    ensureParent now target options.parents
    moveOnto source target options.replace

/-- A request to change the provider. Appending is a write in mode `append`. -/
inductive Op
  | write (path : String) (bytes : List UInt8) (options : WriteOptions)
  | mkdir (path : String) (options : MkdirOptions)
  | delete (path : String) (options : DeleteOptions)
  | copy (source target : String) (options : CopyOptions)
  | move (source target : String) (options : MoveOptions)

def Op.run : Op → FileM Path
  | write path bytes options => writeBytes now path bytes options
  | mkdir path options => mkdirPath now path options
  | delete path options => deletePath path options
  | copy source target options => copyPath now source target options
  | move source target options => movePath now source target options

end Operations

/-! ## What a failed operation leaves behind -/

/-- Whether the loop of `ensure_parent` makes a directory: the first node on its way that is not a
directory is missing. -/
def makes (nodes : Nodes) (current : Path) : List String → Bool
  | [] => false
  | segment :: segments =>
    match nodes.lookup (current ++ [segment]) with
    | some (.directory _) => makes nodes (current ++ [segment]) segments
    | some (.file ..) => false
    | none => true

/-- Whether `ensure_parent` makes a directory above the path. -/
def makesAbove (nodes : Nodes) (path : Path) (parents : Bool) : Bool :=
  parents && makes nodes [] path.dropLast

@[simp] theorem makesAbove_root {nodes : Nodes} {parents : Bool} :
    makesAbove nodes [] parents = false := by
  simp [makesAbove, makes]

/-- The test of a path that can be normalised. -/
def onNormal (path : String) (test : Path → Bool) : Bool :=
  (logicalNormalise path).toOption.any test

/-- The operation makes a directory above its target: it passes the checks that come before
`ensure_parent`, asks for parents, and one is missing. -/
def Op.makes (nodes : Nodes) : Op → Bool
  | write path _ options => onNormal path fun path ↦ makesAbove nodes path options.parents
  | mkdir path options =>
    onNormal path fun path ↦ if path ∈ nodes then false else makesAbove nodes path options.parents
  | delete path _ => onNormal path fun _ ↦ false
  | copy source target options =>
    onNormal source fun source ↦ onNormal target fun target ↦
      if source = target then false
      else
        match nodes.lookup source with
        | some (.file ..) => makesAbove nodes target options.parents
        | _ => false
  | move source target options =>
    onNormal source fun source ↦ onNormal target fun target ↦
      if source = [] ∨ source = target ∨ isBelow source target then false
      else makesAbove nodes target options.parents

/-- The later nodes hold what the earlier ones hold, and are the same unless some were made. -/
structure Leaves (nodes : Nodes) (made : Bool) (nodes' : Nodes) : Prop where
  keeps : ∀ path node, nodes.lookup path = some node → nodes'.lookup path = some node
  same_iff : (∀ path, nodes'.lookup path = nodes.lookup path) ↔ made = false

theorem Leaves.refl {nodes : Nodes} : Leaves nodes false nodes := ⟨fun _ _ ↦ id, by simp⟩

open EStateM

/-- If the operation fails, it has made directories exactly if `made`. -/
def FailsWith {α : Type} (x : FileM α) (nodes : Nodes) (made : Bool) : Prop :=
  Ensures x nodes (fun _ _ ↦ True) fun _ ↦ Leaves nodes made

section Failures

variable {now : Path → ℤ} {nodes : Nodes} {path : Path} {parents : Bool}

/-- A directory that was made stays, so the nodes are not the same again. -/
theorem Leaves.insert {node : Node} {made : Bool} {nodes' : Nodes} (hnew : nodes.lookup path = none)
    (h : Leaves (nodes.insert path node) made nodes') : Leaves nodes true nodes' := by
  have hkept : nodes'.lookup path = some node := h.keeps path node (AList.lookup_insert nodes)
  refine ⟨fun other kept hother ↦ h.keeps _ _ ?_, ?_⟩
  · rw [AList.lookup_insert_ne (by rintro rfl; simp [hnew] at hother), hother]
  · constructor
    · intro hsame
      rw [hsame, hnew] at hkept
      cases hkept
    · intro hmade
      cases hmade

theorem makeDirectories_leaves (current : Path) (segments : List String) :
    Ensures (makeDirectories now current segments) nodes
      (fun _ ↦ Leaves nodes (makes nodes current segments))
      fun _ ↦ Leaves nodes (makes nodes current segments) := by
  induction segments generalizing current nodes with
  | nil => exact .refl
  | cons segment segments ih =>
    simp only [makeDirectories, ensures_bind, ensures_get]
    rcases hnode : nodes.lookup (current ++ [segment]) with _ | node
    · simp only [makes, hnode]
      exact (ih _).mono (fun _ _ h ↦ h.insert hnode) fun _ _ h ↦ h.insert hnode
    · cases node with
      | directory => simpa only [ensures_pure, makes, hnode] using ih (current ++ [segment])
      | file => simpa only [ensures_bind, ensures_throw, makes, hnode] using Leaves.refl

theorem ensureParent_leaves :
    Ensures (ensureParent now path parents) nodes
      (fun _ ↦ Leaves nodes (makesAbove nodes path parents))
      fun _ ↦ Leaves nodes (makesAbove nodes path parents) := by
  by_cases hroot : path = []
  · simpa [ensureParent, hroot] using Leaves.refl
  cases parents with
  | true => simpa [ensureParent, hroot, makesAbove] using makeDirectories_leaves [] path.dropLast
  | false =>
    simp only [ensureParent, hroot, ↓reduceIte, Bool.false_eq_true, ensures_bind, ensures_get]
    split <;> exact .refl

/-- A failure after `ensure_parent` leaves what that has left. -/
theorem failsWith_ensureParent {α : Type} {rest : FileM α}
    (hrest : ∀ nodes', Ensures rest nodes' (fun _ _ ↦ True) fun _ nodes'' ↦ nodes'' = nodes') :
    FailsWith (do ensureParent now path parents; rest) nodes (makesAbove nodes path parents) :=
  ensureParent_leaves.bind fun _ nodes' h ↦
    (hrest nodes').mono (fun _ _ ↦ id) fun _ _ hsame ↦ hsame ▸ h

/-- A bad path fails before anything is done. -/
theorem failsWith_normalise {α : Type} {path : String} {f : Path → FileM α} {made : Path → Bool}
    (hf : ∀ path, FailsWith (f path) nodes (made path)) :
    FailsWith (normalise path >>= f) nodes (onNormal path made) := by
  simp only [FailsWith, normalise, onNormal, ensures_bind]
  rcases logicalNormalise path with _ | path
  · exact .refl
  · exact hf path

theorem writeAt_failsWith {bytes : List UInt8} {options : WriteOptions} :
    FailsWith (writeAt now path bytes options) nodes
      (makesAbove nodes path options.parents) := by
  by_cases hroot : path = []
  · simpa [FailsWith, writeAt, hroot] using Leaves.refl
  simp only [writeAt, hroot, ↓reduceIte]
  refine failsWith_ensureParent fun nodes' ↦ ?_
  simp only [ensures_bind, ensures_get]
  split <;> simp

theorem mkdirPath_failsWith {path : String} {options : MkdirOptions} :
    FailsWith (mkdirPath now path options) nodes ((Op.mkdir path options).makes nodes) := by
  refine failsWith_normalise fun path ↦ ?_
  simp only [FailsWith, ensures_bind, ensures_get, ← AList.lookup_isSome]
  rcases nodes.lookup path with _ | node
  · exact failsWith_ensureParent fun _ ↦ trivial
  · simp only [Option.isSome_some, ↓reduceIte]
    split_ifs <;> simp [Leaves.refl]

theorem deletePath_failsWith {path : String} {options : DeleteOptions} :
    FailsWith (deletePath path options) nodes ((Op.delete path options).makes nodes) := by
  refine failsWith_normalise fun path ↦ ?_
  simp only [FailsWith, ensures_bind, ensures_get]
  split_ifs <;> simp [Leaves.refl]

theorem copyPath_failsWith {source target : String} {options : CopyOptions} :
    FailsWith (copyPath now source target options) nodes
      ((Op.copy source target options).makes nodes) := by
  refine failsWith_normalise fun source ↦ failsWith_normalise fun target ↦ ?_
  by_cases hsame : source = target
  · simpa [FailsWith, hsame] using Leaves.refl
  simp only [FailsWith, hsame, ↓reduceIte, ensures_bind, ensures_get]
  rcases nodes.lookup source with _ | (_ | _)
  · exact .refl
  · exact .refl
  · refine Ensures.bind writeAt_failsWith fun _ _ _ ↦ ?_
    split_ifs <;> trivial

theorem movePath_failsWith {source target : String} {options : MoveOptions} :
    FailsWith (movePath now source target options) nodes
      ((Op.move source target options).makes nodes) := by
  refine failsWith_normalise fun source ↦ failsWith_normalise fun target ↦ ?_
  by_cases hroot : source = [] ∨ target = []
  · rcases hroot with rfl | rfl <;> simp [FailsWith, Leaves.refl]
  obtain ⟨hsource, htarget⟩ := not_or.mp hroot
  by_cases hsame : source = target
  · by_cases hmem : target ∈ nodes <;> simp [FailsWith, htarget, hsame, hmem, Leaves.refl]
  · simp only [hsource, htarget, hsame, false_or, ↓reduceIte]
    split_ifs
    · exact .refl
    refine failsWith_ensureParent fun nodes' ↦ ?_
    simp only [moveOnto, ensures_bind, ensures_get]
    split_ifs <;> simp

theorem Op.run_failsWith (op : Op) : FailsWith (op.run now) nodes (op.makes nodes) := by
  cases op with
  | write => exact failsWith_normalise fun _ ↦ writeAt_failsWith
  | mkdir => exact mkdirPath_failsWith
  | delete => exact deletePath_failsWith
  | copy => exact copyPath_failsWith
  | move => exact movePath_failsWith

/-- A failed operation leaves the nodes as they were exactly if it had no directory to make. -/
theorem Op.failed_unchanged_iff (op : Op) {e : FileError} {nodes' : Nodes}
    (h : op.run now nodes = .error e nodes') :
    (∀ path, nodes'.lookup path = nodes.lookup path) ↔ op.makes nodes = false :=
  (Ensures.of_error op.run_failsWith h).same_iff

/-- A provider with the file `/docs/guide`. -/
def filled : Nodes :=
  ((Nodes.new 0).insert ["docs"] (.directory 0)).insert ["docs", "guide"] (.file [104, 105] 0)

/-- A missing file moved into a directory that is there changes nothing; moved into one that is not,
it does. -/
theorem Op.move_missing_filled :
    (Op.move "/docs/missing" "/docs/copy" ⟨false, true⟩).run (fun _ ↦ 0) filled =
        .error .notFound filled ∧
      (Op.move "/docs/missing" "/docs/copy" ⟨false, true⟩).makes filled = false ∧
      (Op.move "/docs/missing" "/new/copy" ⟨false, true⟩).run (fun _ ↦ 0) filled =
        .error .notFound (filled.insert ["new"] (.directory 0)) ∧
      ¬ ∀ path, (filled.insert ["new"] (.directory 0)).lookup path = filled.lookup path := by
  have hkept : (Op.move "/docs/missing" "/docs/copy" ⟨false, true⟩).run (fun _ ↦ 0) filled =
    .error .notFound filled := rfl
  have hmade : (Op.move "/docs/missing" "/new/copy" ⟨false, true⟩).run (fun _ ↦ 0) filled =
    .error .notFound (filled.insert ["new"] (.directory 0)) := rfl
  refine ⟨hkept, (Op.failed_unchanged_iff _ hkept).mp fun _ ↦ rfl, hmade, ?_⟩
  exact mt (Op.failed_unchanged_iff _ hmade).mp (by decide)

/-- A missing source is found out only after the directory above the target is made. -/
theorem Op.move_missing_makes_parent :
    (Op.move "/missing" "/a/b" ⟨false, true⟩).run (fun _ ↦ 0) (.new 0) =
        .error .notFound ((Nodes.new 0).insert ["a"] (.directory 0)) ∧
      (Nodes.new 0).lookup ["a"] = none :=
  ⟨rfl, rfl⟩

end Failures

end Hara.File
