import Hara.Core.Value

/-!
# Thrown values

`core/environment.rs`: errors travel as display strings, and the value behind the most recent
`throw` sits in one thread-local slot next to the string it was rendered as. `caughtError` finds
the value again by comparing prefixes and empties the slot.

Everything else the runtime keeps (heap cells, namespaces, promises) is the opaque `heap` of a
`World`.
-/

namespace Hara

/-- The process state shared by all evaluators: the `ACTIVE_THROWN_VALUE` slot and the rest. -/
structure World (H : Type) where
  activeThrown : Option (String × Value)
  heap : H

/-- The two facts about the heap that throwing needs: how a value is displayed, and recording the
throw site in an exception's provenance. -/
structure Throwing (H : Type) where
  display : Value → H → String
  recordThrow : Value → Option ExceptionSite → H → H

variable {H : Type}

/-- `str::starts_with`. -/
def startsWith (text start : String) : Bool := start.toList.isPrefixOf text.toList

/-- `core::thrown_error_at`. -/
def thrownErrorAt (rt : Throwing H) (value : Value) (site : Option ExceptionSite)
    (world : World H) : String × World H :=
  let heap := rt.recordThrow value site world.heap
  let error := "thrown: " ++ rt.display value heap
  (error, { activeThrown := some (error, value), heap })

/-- `core::caught_error`. -/
def caughtError (error : String) (world : World H) : Value × World H :=
  match world.activeThrown with
  | some (thrown, value) =>
    if startsWith error thrown then (value, { world with activeThrown := none })
    else (.string error, world)
  | none => (.string error, world)

/-- Whether `code` is the `:ex/code` of an exception value. -/
def hasCode (code : String) : Value → Bool
  | .exceptionInfo _ data _ =>
    match data.mapEntries with
    | some entries => entries.any fun entry ↦
        match entry with
        | (.keyword "ex/code", .keyword name) => name == code
        | _ => false
    | none => false
  | _ => false

/-- Whether a struct or mutable instance has type `cls`, with or without its namespace. -/
def hasType (cls : String) : Value → Bool
  | .record typeName _ _ =>
    typeName == cls || ("/" ++ cls).toList.isSuffixOf typeName.toList
  | _ => false

/-- The text between a leading `[` and a trailing `]`. -/
def stripBrackets : List Char → Option (List Char)
  | '[' :: rest => if rest.getLast? = some ']' then some rest.dropLast else none
  | _ => none

/-- `core::catch_matches`; every bracket pair stripped uses one unit of the budget, which the
length of the class covers. -/
def catchMatchesWithin (error : String) (world : World H) : ℕ → List Char → Bool
  | 0, _ => false
  | fuel + 1, cls =>
    if String.ofList cls = "Exception" ∨ String.ofList cls = "Throwable" then true
    else
      match stripBrackets cls with
      | some selectors => (selectors.splitOn ',').any (catchMatchesWithin error world fuel)
      | none =>
        match world.activeThrown with
        | none => false
        | some (thrown, value) =>
          startsWith error thrown &&
            match cls with
            | ':' :: selector => hasCode (String.ofList selector) value
            | _ => hasType (String.ofList cls) value

def catchMatches (error cls : String) (world : World H) : Bool :=
  catchMatchesWithin error world (cls.length + 1) cls.toList

end Hara
