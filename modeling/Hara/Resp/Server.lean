import Hara.Resp.Payload

/-!
# The server

The loop of `resp.rs` that serves one connection. The runtime broker and the evaluation hook are
parameters: arbitrary functions on a world of type `W`, which stands for everything they share. A
request changes the session, and what it answers is a list of values that the loop then writes,
ignoring whether writing succeeds as the source does.
-/

namespace Hara.Resp

variable {W : Type}

/-- `RuntimeBroker`, as far as the server uses it. -/
structure Broker (W : Type) where
  eval : String → String → W → Except String String × W
  evalDiagnostic : String → String → W → Except RuntimeDiagnostic String × W
  complete : String → String → W → Except String (List String) × W
  documentation : String → String → W → Except String Documentation × W
  create : String → W → Except String String × W
  list : W → Except String (List String) × W
  info : String → W → Except String String × W
  close : String → W → Except String String × W

/-- `RespEvaluationHook`. -/
structure Hook (W : Type) where
  beforeEval : String → String → W → Except String Unit × W
  afterEval : String → String → W → W

/-- What `serve` is started with. -/
structure Environment (W : Type) where
  broker : Broker W
  hook : Option (Hook W)
  instanceName : String
  root : String
  /-- Whether the build has overflow checks. -/
  checks : Bool

/-- The state of a connection besides its streams. -/
structure Session (W : Type) where
  protocol : ℕ
  attached : String
  world : W

/-- `RespFailure`. -/
structure RespFailure where
  code : String
  message : String
  diagnostic : Option RespValue

/-- `RespFailure::new`. -/
def RespFailure.new (code message : String) : RespFailure := ⟨code, message, none⟩

/-- The result of an operation and the session after it. -/
abbrev Outcome (W : Type) := Except RespFailure RespValue × Session W

def toAsciiUppercase (text : String) : String := .ofList (text.toList.map Char.toUpper)

/-! ## Operations -/

def badRequest (s : Session W) (message : String) : Outcome W :=
  (.error (.new "BAD_REQUEST" message), s)

/-- A call of the broker whose failure is reported with `code`. -/
def brokerCall {α : Type} (s : Session W) (call : W → Except String α × W) (code : String → String)
    (wrap : α → RespValue) : Outcome W :=
  match call s.world with
  | (.ok a, world) => (.ok (wrap a), { s with world })
  | (.error message, world) => (.error (.new (code message) message), { s with world })

def Environment.beforeEval (env : Environment W) (session source : String) (world : W) :
    Except String Unit × W :=
  match env.hook with
  | some hook => hook.beforeEval session source world
  | none => (.ok (), world)

def Environment.afterEval (env : Environment W) (session source : String) (world : W) : W :=
  match env.hook with
  | some hook => hook.afterEval session source world
  | none => world

/-- `str::parse::<usize>` of a positive number. -/
def parsePosition (text : String) : Option ℕ :=
  (Decimal.nat? text.toList).filter fun n ↦ n < usizeSize ∧ 0 < n

/-- The options of an `EVAL` request. -/
structure OriginOptions where
  file : Option String
  line : Option ℕ
  column : Option ℕ

/-- Options come in pairs; a later one replaces an earlier one. -/
def originOptions : List String → OriginOptions → OriginOptions
  | key :: value :: rest, options =>
    originOptions rest <|
      match toAsciiUppercase key with
      | "FILE" => { options with file := some value }
      | "LINE" => { options with line := parsePosition value }
      | "COLUMN" => { options with column := parsePosition value }
      | _ => options
  | _, options => options

/-- `eval_origin`. -/
def evalOrigin : List String → Option SourceOrigin
  | [] => none
  | source :: arguments => do
    let options := originOptions arguments ⟨none, none, none⟩
    let file ← options.file
    let line ← options.line
    some ⟨file, line, options.column.getD 1, source⟩

variable (env : Environment W) (s : Session W)

/-- The `EVAL` operation. -/
def evalOperation (source : String) (arguments : List String) : Checked (Outcome W) :=
  match env.beforeEval s.attached source s.world with
  | (.error message, world) => some (.error (.new "EVAL_ERROR" message), { s with world })
  | (.ok (), world) =>
    match env.broker.evalDiagnostic s.attached source world with
    | (.ok value, world) =>
      some (.ok (.ofText value), { s with world := env.afterEval s.attached source world })
    | (.error diagnostic, world) => do
      let payload ← diagnosticPayload env.checks diagnostic (evalOrigin arguments)
      some (.error ⟨"EVAL_ERROR", diagnostic.message, some payload⟩, { s with world })

/-- `session_operation`. -/
def sessionOperation (arguments : List String) : Outcome W :=
  match arguments with
  | [] => badRequest s "SESSION requires an action"
  | action :: arguments =>
    match toAsciiUppercase action, arguments with
    | "NEW", name :: _ =>
      brokerCall s (env.broker.create name) (fun _ ↦ "BAD_REQUEST") .ofText
    | "NEW", [] => badRequest s "SESSION NEW requires name"
    | "LIST", _ => brokerCall s env.broker.list (fun _ ↦ "INTERNAL_ERROR") .ofTexts
    | "ATTACH", name :: _ =>
      match env.broker.info name s.world with
      | (.ok _, world) => (.ok (.ofText name), { s with world, attached := name })
      | (.error message, world) => (.error (.new "NO_SESSION" message), { s with world })
    | "ATTACH", [] => badRequest s "SESSION ATTACH requires name"
    | "DETACH", _ => (.ok (.ofText "ROOT"), { s with attached := "ROOT" })
    | "INFO", _ => brokerCall s (env.broker.info s.attached) (fun _ ↦ "NO_SESSION") .ofText
    | "CLOSE", name :: _ =>
      brokerCall s (env.broker.close name) (fun _ ↦ "BAD_REQUEST") .ofText
    | "CLOSE", [] => badRequest s "SESSION CLOSE requires name"
    | action, _ => badRequest s s!"Unknown SESSION action: {action}"

/-- The code of a failed `DOC`. -/
def documentationCode (message : String) : String :=
  if "No session:".toList.isPrefixOf message.toList then "NO_SESSION" else "DOC_NOT_FOUND"

/-- `operation_result`. -/
def operationResult (operation : String) (arguments : List String) : Checked (Outcome W) :=
  match operation, arguments with
  | "EVAL", source :: _ => evalOperation env s source arguments
  | "EVAL", [] => some (badRequest s "EVAL requires source")
  | "COMPLETE", _ =>
    some (brokerCall s (env.broker.complete s.attached (arguments.headD ""))
      (fun _ ↦ "NO_SESSION") .ofTexts)
  | "DOC", symbol :: _ =>
    some (brokerCall s (env.broker.documentation s.attached symbol) documentationCode
      documentationValue)
  | "DOC", [] => some (badRequest s "DOC requires symbol")
  | "SESSION", _ => some (sessionOperation env s arguments)
  | "COMMANDS", _ =>
    some (.ok (.ofText "HELLO EVAL COMPLETE DOC SESSION COMMANDS INFO QUIT"), s)
  | "INFO", _ =>
    some (brokerCall s (env.broker.info s.attached) (fun _ ↦ "NO_SESSION") .ofText)
  | operation, _ =>
    some (.error (.new "UNKNOWN_OP" s!"Unknown operation: {operation}"), s)

/-! ## Dialects -/

/-- The answer of `handle_v4` to a result. -/
def framesV4 (id : String) : Except RespFailure RespValue → List RespValue
  | .ok value => [.array [.ofText "RESULT", .ofText id, value], .ofTexts ["DONE", id, "OK"]]
  | .error failure =>
    [.array ([.ofText "ERROR", .ofText id, .ofText failure.code, .ofText failure.message] ++
        failure.diagnostic.toList),
      .ofTexts ["DONE", id, "ERROR"]]

/-- `legacy_value`: an array becomes the lines of its texts. -/
def legacyValue : RespValue → RespValue
  | .array values => .ofText (String.intercalate "\n" (values.filterMap RespValue.text))
  | value => value

/-- The answer of `handle_legacy` to a result. -/
def frameLegacy : Except RespFailure RespValue → RespValue
  | .ok value => legacyValue value
  | .error failure =>
    let code := failure.code
    let message := failure.message
    .error s!"{code} {message}"

/-- The `EVAL` of the legacy dialect names its session. -/
def legacyEval (session source : String) : Outcome W :=
  match env.beforeEval session source s.world with
  | (.error message, world) => (.error (.new "EVAL_ERROR" message), { s with world })
  | (.ok (), world) =>
    match env.broker.eval session source world with
    | (.ok value, world) =>
      (.ok (.ofText value), { s with world := env.afterEval session source world })
    | (.error message, world) => (.error (.new "EVAL_ERROR" message), { s with world })

/-- The result that `handle_legacy` answers with. -/
def legacyResult (operation : String) (arguments : List String) : Checked (Outcome W) :=
  match operation, arguments with
  | "EVAL", session :: source :: _ => some (legacyEval env s session source)
  | _, _ => operationResult env s operation arguments

/-! ## The loop -/

/-- What a request leads to. -/
inductive Turn (W : Type) where
  | panic
  | quit (answer : List RespValue)
  | next (session : Session W) (answer : List RespValue)

/-- The protocol a `HELLO` asks for. -/
def helloProtocol (words : List String) : ℕ :=
  ((words[1]?.bind fun value ↦ Decimal.nat? value.toList).filter (· < 256)).getD 3

/-- The answer to `HELLO`. -/
def helloValue (protocol : ℕ) : RespValue :=
  .ofTexts ["SERVER", "HARA", "INSTANCE", env.instanceName, "PROTOCOL", toString protocol,
    "ROOT", env.root]

/-- The body of the loop for a request of textual arguments. -/
def answer (words : List String) : Turn W :=
  match words with
  | [] => .next s []
  | word :: arguments =>
    let operation := toAsciiUppercase word
    if operation = "QUIT" then .quit [.simple "OK"]
    else if operation = "HELLO" then
      let protocol := helloProtocol words
      .next { s with protocol } [helloValue env protocol]
    else if 4 ≤ s.protocol then
      match arguments with
      -- `&words[2..]` of a single word is out of range
      | [] => .panic
      | id :: arguments =>
        match operationResult env s operation arguments with
        | none => .panic
        | some (result, s') => .next s' (framesV4 id result)
    else
      match legacyResult env s operation arguments with
      | none => .panic
      | some (result, s') => .next s' [frameLegacy result]

theorem answer_hello {word : String} (h : toAsciiUppercase word = "HELLO")
    (arguments : List String) : answer env s (word :: arguments) =
      .next { s with protocol := helloProtocol (word :: arguments) }
        [helloValue env (helloProtocol (word :: arguments))] := by
  have hquit : toAsciiUppercase word ≠ "QUIT" := by
    rw [h]
    decide
  rw [answer.eq_def]
  dsimp only
  rw [if_neg hquit, if_pos h]

/-- How the thread of a connection ends. -/
inductive Exit where
  | closed
  | quit
  | panicked
  /-- The budget of the model ran out. -/
  | exhausted
  deriving DecidableEq, Repr

/-- Writes the values of an answer one after the other. -/
def writeAnswer (values : List RespValue) (output : List UInt8) : List UInt8 :=
  values.foldl (fun output value ↦ write value output) output

/-- What the loop of `serve` does with the next value of the input. -/
def turn (value : RespValue) : Turn W :=
  match value with
  | .array values =>
    match values.mapM RespValue.text with
    | some words => answer env s words
    | none => .next s [.error "BAD_REQUEST textual arguments required"]
  | _ => .next s [.error "BAD_REQUEST expected array"]

/-- The loop of `serve`: how it ends and what it has written. Every turn consumes input. -/
def serveLoop (env : Environment W) : ℕ → Session W → List UInt8 → List UInt8 →
    Exit × List UInt8
  | 0, _, _, output => (.exhausted, output)
  | fuel + 1, s, input, output =>
    match read input with
    | .ok none _ => (.closed, output)
    | .ok (some value) rest =>
      match turn env s value with
      | .panic => (.panicked, output)
      | .quit values => (.quit, writeAnswer values output)
      | .next s' values => serveLoop env fuel s' rest (writeAnswer values output)
    | .error e rest =>
      serveLoop env fuel s rest (writeAnswer [.error s!"BAD_REQUEST {e}"] output)

/-- `serve` on everything that a client sends before it closes the connection. -/
def serve (world : W) (input : List UInt8) : Exit × List UInt8 :=
  serveLoop env (input.length + 1) ⟨3, "ROOT", world⟩ input []

end Hara.Resp
