import Hara.Resp.Wire

/-!
# Structured payloads

What the server of `resp.rs` answers beyond plain texts: documentation and evaluation diagnostics.
Positions are `usize`; where the source adds two of them the sum may not fit, which stops the
thread in a build with overflow checks and wraps around in any other. `Checked` computations are
`none` in the first case.
-/

namespace Hara.Resp

/-! ## Arithmetic on `usize` -/

/-- `none` when the thread panics. -/
abbrev Checked (α : Type) := Option α

def usizeSize : ℕ := 2 ^ 64

variable (checks : Bool) {site : Option ExceptionSite}

/-- `a + b`; `checks` tells whether the build has overflow checks. -/
def usizeAdd (a b : ℕ) : Checked ℕ :=
  if a + b < usizeSize then some (a + b)
  else if checks then none
  else some ((a + b) % usizeSize)

/-- `a - b`. -/
def usizeSub (a b : ℕ) : Checked ℕ :=
  if b ≤ a then some (a - b)
  else if checks then none
  else some (a + usizeSize - b)

/-- `value as i64`. -/
def asI64 (value : ℕ) : ℤ :=
  if value % usizeSize < 2 ^ 63 then (value % usizeSize : ℕ)
  else (value % usizeSize : ℕ) - usizeSize

/-! ## Texts -/

def maxDiagnosticDataBytes : ℕ := 16 * 1024

/-- The longest beginning of a text that takes at most `n` bytes. -/
def takeBytes : ℕ → List Char → List Char
  | _, [] => []
  | n, c :: text => if c.utf8Size ≤ n then c :: takeBytes (n - c.utf8Size) text else []

/-- `truncated_text`: cut at a character boundary. -/
def truncatedText (value : String) : String :=
  if (Utf8.bytes value).length ≤ maxDiagnosticDataBytes then value
  else String.ofList (takeBytes (maxDiagnosticDataBytes - 3) value.toList) ++ "..."

/-- The lines of a text, with the current line so far in reverse. -/
def splitLines : List Char → List Char → List String
  | [], [] => []
  | [], current => [String.ofList current.reverse]
  | '\n' :: text, '\r' :: current => String.ofList current.reverse :: splitLines text []
  | '\n' :: text, current => String.ofList current.reverse :: splitLines text []
  | c :: text, current => splitLines text (c :: current)

/-- `str::lines`. -/
def lines (text : String) : List String := splitLines text.toList []

def optionalBulk : Option String → RespValue
  | some value => .ofText value
  | none => .bulk none

def optionalInteger : Option ℕ → RespValue
  | some value => .integer (asI64 value)
  | none => .bulk none

/-! ## Documentation -/

/-- `DocumentationValue`. -/
inductive DocumentationValue where
  | nil
  | boolean (value : Bool)
  | integer (value : ℤ)
  | string (value : String)
  | array (values : List DocumentationValue)

structure Documentation where
  symbol : String
  doc : Option String
  arglists : DocumentationValue
  file : Option String
  line : Option ℤ
  column : Option ℤ

mutual

/-- `documentation_part`. -/
def documentationPart : DocumentationValue → RespValue
  | .nil => .bulk none
  | .boolean value => .ofText (toString value)
  | .integer value => .integer value
  | .string value => .ofText value
  | .array values => .array (documentationParts values)

def documentationParts : List DocumentationValue → List RespValue
  | [] => []
  | value :: values => documentationPart value :: documentationParts values

end

/-- An optional integer that is already an `i64`. -/
def optionalI64 : Option ℤ → RespValue
  | some value => .integer value
  | none => .bulk none

/-- `documentation_value`. -/
def documentationValue (documentation : Documentation) : RespValue :=
  .array [.ofText "SYMBOL", .ofText documentation.symbol,
    .ofText "DOC", optionalBulk documentation.doc,
    .ofText "ARGLISTS", documentationPart documentation.arglists,
    .ofText "FILE", optionalBulk documentation.file,
    .ofText "LINE", optionalI64 documentation.line,
    .ofText "COLUMN", optionalI64 documentation.column]

/-! ## Diagnostics -/

/-- Where the source of an evaluation stands, as its client says. -/
structure SourceOrigin where
  file : String
  line : ℕ
  column : ℕ
  source : String

structure ExceptionSite where
  resource : Option String
  line : ℕ
  column : ℕ

structure TraceFrame where
  name : String
  ns : Option String
  site : Option ExceptionSite

/-- `RuntimeException`. -/
inductive RuntimeException where
  | mk (message : String) (class_ code : Option String) (data : String)
    (cause : Option RuntimeException) (throws : List ExceptionSite)

def RuntimeException.throws : RuntimeException → List ExceptionSite
  | mk _ _ _ _ _ throws => throws

structure RuntimeDiagnostic where
  message : String
  exception : Option RuntimeException
  frames : List TraceFrame

/-- File, line and column of a place. -/
abbrev Location := Option String × Option ℕ × Option ℕ

/-- `(value > 0).then_some(value)`. -/
def positive (value : ℕ) : Option ℕ := if 0 < value then some value else none

/-- `(offset > 0).then(|| start + offset - 1)`. -/
def shifted (start offset : ℕ) : Checked (Option ℕ) :=
  if 0 < offset then do
    let sum ← usizeAdd checks start offset
    let value ← usizeSub checks sum 1
    some (some value)
  else some none

/-- The column of a site behind `origin`: only its first line is shifted. -/
def siteColumn (origin : SourceOrigin) (site : ExceptionSite) : Checked (Option ℕ) :=
  if site.line ≤ 1 then shifted checks origin.column site.column
  else some (positive site.column)

/-- `site_location`. -/
def siteLocation (site : Option ExceptionSite) (origin : Option SourceOrigin) (useOrigin : Bool) :
    Checked Location :=
  match site with
  | none =>
    match origin with
    | some origin =>
      some (if useOrigin then (some origin.file, some origin.line, some origin.column)
        else (none, none, none))
    | none => some (none, none, none)
  | some site =>
    match site.resource with
    | some resource => some (some resource, positive site.line, positive site.column)
    | none =>
      match useOrigin, origin with
      | true, some origin => do
        let line ← shifted checks origin.line site.line
        let column ← siteColumn checks origin site
        some (some origin.file, line, column)
      | _, _ => some (none, positive site.line, positive site.column)

/-- Whether a site leaves the resource open. -/
def unlocated : Option ExceptionSite → Bool
  | some site => site.resource.isNone
  | none => true

/-- The fields of a location. -/
def locationFields (location : Location) : List RespValue :=
  [.ofText "FILE", optionalBulk location.1, .ofText "LINE", optionalInteger location.2.1,
    .ofText "COLUMN", optionalInteger location.2.2]

/-- `location_payload`. -/
def locationPayload (site : Option ExceptionSite) (origin : Option SourceOrigin) :
    Checked RespValue := do
  let location ← siteLocation checks site origin (unlocated site)
  some (.array (locationFields location))

mutual

/-- `exception_payload`. -/
def exceptionPayload (checks : Bool) : RuntimeException → Checked RespValue
  | .mk message class_ code data cause throws => do
    let cause ← causePayload checks cause
    let throws ← throws.mapM fun site ↦ locationPayload checks (some site) none
    some (.array [.ofText "MESSAGE", .ofText (truncatedText message),
      .ofText "CLASS", optionalBulk (class_.map truncatedText),
      .ofText "CODE", optionalBulk (code.map truncatedText),
      .ofText "DATA", .ofText (truncatedText data),
      .ofText "CAUSE", cause,
      .ofText "THROWS", .array throws])

def causePayload (checks : Bool) : Option RuntimeException → Checked RespValue
  | none => some (.bulk none)
  | some cause => exceptionPayload checks cause

end

/-- `frame_payload`. -/
def framePayload (frame : TraceFrame) (origin : Option SourceOrigin) : Checked RespValue := do
  let location ← siteLocation checks frame.site origin (frame.ns.isNone && unlocated frame.site)
  some (.array ([.ofText "FUNCTION", .ofText frame.name,
    .ofText "NAMESPACE", optionalBulk frame.ns] ++ locationFields location))

/-- `evaluation_frame_payload`. -/
def evaluationFramePayload (origin : SourceOrigin) : RespValue :=
  .array [.ofText "FUNCTION", .ofText "<eval>", .ofText "NAMESPACE", .bulk none,
    .ofText "FILE", .ofText origin.file,
    .ofText "LINE", .integer (asI64 origin.line),
    .ofText "COLUMN", .integer (asI64 origin.column)]

/-- The line of the evaluated source that a reported line is, counted from one; zero when it lies
before the source. -/
def localLine (origin : SourceOrigin) (line : ℕ) : ℕ :=
  if origin.line ≤ line then line - origin.line + 1 else 0

/-- `source_excerpt`: two lines around the place. -/
def sourceExcerpt (origin : Option SourceOrigin) (line : Option ℕ) : Checked RespValue :=
  match origin, line with
  | some origin, some line =>
    let place := localLine origin line
    let all := lines origin.source
    if place = 0 ∨ all.length < place then some (.bulk none)
    else do
      let start := place - 3
      let stop := min all.length (place + 2)
      let startLine ← usizeAdd checks origin.line start
      some (.array [.ofText "START-LINE", .integer (asI64 startLine),
        .ofText "TEXT",
        .ofText (truncatedText (String.intercalate "\n" ((all.take stop).drop start)))])
  | _, _ => some (.bulk none)

/-- The place an error is reported at: where the exception was thrown last, or the innermost frame
with a site. -/
def primarySite (diagnostic : RuntimeDiagnostic) : Option ExceptionSite :=
  (diagnostic.exception.bind fun exception ↦ exception.throws.getLast?).or
    (diagnostic.frames.reverse.findSome? TraceFrame.site)

/-- The frames to report; an evaluation without frames is a frame itself. -/
def reportedFrames (origin : Option SourceOrigin) (frames : List RespValue) : List RespValue :=
  if frames.isEmpty then (origin.map evaluationFramePayload).toList else frames

/-- `diagnostic_payload`. -/
def diagnosticPayload (diagnostic : RuntimeDiagnostic) (origin : Option SourceOrigin) :
    Checked RespValue := do
  let site := primarySite diagnostic
  let primary ← siteLocation checks site origin true
  let frames ← diagnostic.frames.reverse.mapM fun frame ↦ framePayload checks frame origin
  let exception ← causePayload checks diagnostic.exception
  let location ← locationPayload checks site origin
  let excerpt ← sourceExcerpt checks origin primary.2.1
  some (.array [.ofText "VERSION", .integer 1,
    .ofText "MESSAGE", .ofText (truncatedText diagnostic.message),
    .ofText "EXCEPTION", exception,
    .ofText "PRIMARY", location,
    .ofText "EXCERPT", excerpt,
    .ofText "FRAMES", .array (reportedFrames origin frames)])

/-! ## Payloads can be printed -/

section Printable

open RespValue

@[simp] theorem printable_ofText (value : String) : (ofText value).Printable := .bulk _

@[simp] theorem printable_bulk (data : Option (List UInt8)) : (RespValue.bulk data).Printable :=
  .bulk data

@[simp] theorem printable_integer (value : ℤ) : (RespValue.integer value).Printable :=
  .integer value

theorem printable_ofTexts (values : List String) : (ofTexts values).Printable := by
  refine .array fun value hvalue ↦ ?_
  obtain ⟨text, -, rfl⟩ := List.mem_map.mp hvalue
  exact printable_ofText text

@[simp] theorem printable_optionalBulk (value : Option String) :
    (optionalBulk value).Printable := by
  cases value <;> exact .bulk _

@[simp] theorem printable_optionalInteger (value : Option ℕ) :
    (optionalInteger value).Printable := by
  cases value with
  | none => exact .bulk _
  | some value => exact .integer _

@[simp] theorem printable_optionalI64 (value : Option ℤ) : (optionalI64 value).Printable := by
  cases value with
  | none => exact .bulk _
  | some value => exact .integer _

mutual

theorem printable_documentationPart : ∀ value, (documentationPart value).Printable
  | .nil => .bulk _
  | .boolean _ => .bulk _
  | .integer value => .integer value
  | .string _ => .bulk _
  | .array values => .array (printable_documentationParts values)

theorem printable_documentationParts :
    ∀ values, ∀ value ∈ documentationParts values, value.Printable
  | [], _, h => nomatch h
  | value :: values, part, h => by
    rcases List.mem_cons.mp h with rfl | h
    · exact printable_documentationPart value
    · exact printable_documentationParts values part h

end

theorem printable_documentationValue (documentation : Documentation) :
    (documentationValue documentation).Printable := by
  refine .array ?_
  simp [printable_documentationPart]

theorem printable_locationFields {location : Location} :
    ∀ value ∈ locationFields location, value.Printable := by
  simp [locationFields]

end Printable

/-! ## Payloads without overflow -/

/-- The lines and columns behind `origin` that a site leads to are in range. -/
def SiteFits (origin : SourceOrigin) (site : ExceptionSite) : Prop :=
  origin.line + site.line < usizeSize ∧ origin.column + site.column < usizeSize

/-- All positions that are computed for a diagnostic are in range. -/
structure DiagnosticFits (origin : SourceOrigin) (diagnostic : RuntimeDiagnostic) : Prop where
  source : origin.line + (lines origin.source).length < usizeSize
  primary : ∀ site, primarySite diagnostic = some site → SiteFits origin site
  frames : ∀ frame ∈ diagnostic.frames, ∀ site, frame.site = some site → SiteFits origin site

/-- Either the build does not check for overflows, or there is none. -/
def NoOverflow (origin : Option SourceOrigin) (diagnostic : RuntimeDiagnostic) : Prop :=
  checks = true → ∀ origin', origin = some origin' → DiagnosticFits origin' diagnostic

/-- A computation that ends, with a value of which `P` holds. -/
def Gives {α : Type} (x : Checked α) (P : α → Prop) : Prop :=
  ∃ a, x = some a ∧ P a

section Gives

variable {α β : Type} {P : α → Prop} {Q : β → Prop}

theorem Gives.pure {a : α} (h : P a) : Gives (some a) P := ⟨a, rfl, h⟩

theorem Gives.bind {x : Checked α} {f : α → Checked β} (hx : Gives x P)
    (hf : ∀ a, P a → Gives (f a) Q) : Gives (x >>= f) Q := by
  obtain ⟨a, rfl, ha⟩ := hx
  exact hf a ha

theorem Gives.mapM {f : α → Checked β} {l : List α} (h : ∀ a ∈ l, Gives (f a) Q) :
    Gives (l.mapM f) fun values ↦ ∀ value ∈ values, Q value := by
  induction l with
  | nil => exact .pure nofun
  | cons a l ih =>
    obtain ⟨ha, hl⟩ := List.forall_mem_cons.mp h
    rw [List.mapM_cons]
    refine ha.bind fun b hb ↦ (ih hl).bind fun bs hbs ↦ .pure ?_
    exact List.forall_mem_cons.mpr ⟨hb, hbs⟩

end Gives

section NoOverflow

open RespValue

variable {checks : Bool}

theorem gives_usizeAdd {a b : ℕ} (h : checks = true → a + b < usizeSize) :
    Gives (usizeAdd checks a b) fun sum ↦ checks = true → sum = a + b := by
  rw [usizeAdd]
  split
  · exact .pure fun _ ↦ rfl
  · next hlt =>
    cases checks with
    | false => exact .pure nofun
    | true => exact absurd (h rfl) hlt

theorem gives_usizeSub {a b : ℕ} (h : checks = true → b ≤ a) :
    Gives (usizeSub checks a b) fun _ ↦ True := by
  rw [usizeSub]
  split
  · exact .pure trivial
  · next hle =>
    cases checks with
    | false => exact .pure trivial
    | true => exact absurd (h rfl) hle

theorem gives_shifted {start offset : ℕ} (h : checks = true → start + offset < usizeSize) :
    Gives (shifted checks start offset) fun _ ↦ True := by
  rw [shifted]
  split
  · next hoffset =>
    refine (gives_usizeAdd h).bind fun sum hsum ↦ ?_
    refine (gives_usizeSub fun hchecks ↦ ?_).bind fun _ _ ↦ .pure trivial
    have := hsum hchecks
    omega
  · exact .pure trivial

variable {origin : Option SourceOrigin}

section

variable (h : checks = true → ∀ origin', origin = some origin' → ∀ site', site = some site' →
  SiteFits origin' site')

include h

theorem gives_siteLocation {useOrigin : Bool} :
    Gives (siteLocation checks site origin useOrigin) fun _ ↦ True := by
  rw [siteLocation.eq_def]
  split
  · split <;> exact .pure trivial
  · next site =>
    split
    · exact .pure trivial
    · split
      · next origin =>
        have hfits := fun hchecks ↦ h hchecks origin rfl site rfl
        refine (gives_shifted fun hchecks ↦ (hfits hchecks).1).bind fun line _ ↦ ?_
        refine Gives.bind (P := fun _ ↦ True) ?_ fun column _ ↦ .pure trivial
        rw [siteColumn]
        split
        · exact gives_shifted fun hchecks ↦ (hfits hchecks).2
        · exact .pure trivial
      · exact .pure trivial

theorem gives_locationPayload : Gives (locationPayload checks site origin) Printable :=
  (gives_siteLocation h).bind fun _ _ ↦
    .pure (.array printable_locationFields)

end

mutual

theorem gives_exceptionPayload :
    ∀ exception, Gives (exceptionPayload checks exception) Printable
  | .mk message class_ code data cause throws => by
    refine (gives_causePayload cause).bind fun cause' hcause ↦ ?_
    have hsite (site) : Gives (locationPayload checks (some site) none) Printable :=
      gives_locationPayload nofun
    refine (Gives.mapM fun site _ ↦ hsite site).bind fun throws' hthrows ↦ ?_
    have hthrows : (RespValue.array throws').Printable := .array hthrows
    refine .pure (.array ?_)
    simp [hcause, hthrows]

theorem gives_causePayload : ∀ cause, Gives (causePayload checks cause) Printable
  | none => .pure (.bulk _)
  | some cause => gives_exceptionPayload cause

end

theorem gives_framePayload {frame : TraceFrame}
    (h : checks = true → ∀ origin', origin = some origin' → ∀ site', frame.site = some site' →
      SiteFits origin' site') : Gives (framePayload checks frame origin) Printable := by
  refine (gives_siteLocation h).bind fun location _ ↦ .pure (.array ?_)
  simp [locationFields]

theorem gives_sourceExcerpt {line : Option ℕ}
    (h : checks = true → ∀ origin', origin = some origin' →
      origin'.line + (lines origin'.source).length < usizeSize) :
    Gives (sourceExcerpt checks origin line) Printable := by
  rw [sourceExcerpt.eq_def]
  split
  · next origin line =>
    dsimp only
    split
    · exact .pure (.bulk _)
    · next hline =>
      refine (gives_usizeAdd fun hchecks ↦ ?_).bind fun start _ ↦ .pure (.array ?_)
      · have := h hchecks origin rfl
        omega
      · simp
  · exact .pure (.bulk _)

theorem printable_reportedFrames {frames : List RespValue} (h : ∀ value ∈ frames, value.Printable) :
    ∀ value ∈ reportedFrames origin frames, value.Printable := by
  intro value hvalue
  rw [reportedFrames] at hvalue
  split at hvalue
  · obtain ⟨origin, -, rfl⟩ := Option.map_eq_some_iff.mp (Option.mem_toList.mp hvalue)
    refine .array ?_
    simp
  · exact h value hvalue

/-- Without overflows a diagnostic has a payload, which can be printed. -/
theorem gives_diagnosticPayload {diagnostic : RuntimeDiagnostic}
    (h : NoOverflow checks origin diagnostic) :
    Gives (diagnosticPayload checks diagnostic origin) Printable := by
  have hsite := fun hchecks origin' horigin ↦ (h hchecks origin' horigin).primary
  refine (gives_siteLocation hsite).bind fun primary _ ↦ ?_
  refine (Gives.mapM (Q := Printable) fun frame hframe ↦ ?_).bind fun frames hframes ↦ ?_
  · refine gives_framePayload fun hchecks origin' horigin ↦ ?_
    exact (h hchecks origin' horigin).frames frame (List.mem_reverse.mp hframe)
  · refine (gives_causePayload _).bind fun exception hexception ↦ ?_
    refine (gives_locationPayload hsite).bind fun location hlocation ↦ ?_
    refine (gives_sourceExcerpt fun hchecks origin' horigin ↦ ?_).bind fun excerpt hexcerpt ↦ ?_
    · exact (h hchecks origin' horigin).source
    · have hframes : (RespValue.array (reportedFrames origin frames)).Printable :=
        .array (printable_reportedFrames hframes)
      refine .pure (.array ?_)
      simp [hexception, hlocation, hexcerpt, hframes]

end NoOverflow

end Hara.Resp
