import Hara.Resp.Server

/-!
# The dialogue

What the server owes its clients: every non-empty request is answered, in order, with one complete
group of values, until `QUIT` or the end of the input. In the legacy dialect a group is one value,
in protocol 4 a `RESULT` or `ERROR` with the id of the request and a `DONE` with the same id.
`Dialogue` says this without the server. The server keeps it in every run whose requests are
`Answerable` in the session they arrive in.
-/

namespace Hara.Resp

open List

variable {W : Type} {env : Environment W} {s s' : Session W} {arguments : List String} {fuel : ℕ}
  {requests : List Request}

/-! ## Requests and groups -/

/-- A well-formed request array of textual arguments, within the limits of the reader. -/
structure Request where
  values : List RespValue
  words : List String
  textual : values.mapM RespValue.text = some words
  fits : Fits (maxNesting + 1) (.array values)

/-- What the client sends. -/
def sent (requests : List Request) : List UInt8 :=
  encodeAll (requests.map fun request ↦ .array request.values)

theorem sent_cons (request : Request) (requests : List Request) :
    sent (request :: requests) = encode (.array request.values) ++ sent requests := rfl

/-- One complete answer to a request, with the protocol it arrives under. -/
inductive Group (protocol : ℕ) : List String → List RespValue → Prop
  | hello {word : String} {arguments : List String} (texts : List String) :
    toAsciiUppercase word = "HELLO" → Group protocol (word :: arguments) [.ofTexts texts]
  | legacy {word : String} {arguments : List String} (value : RespValue) :
    protocol < 4 → Group protocol (word :: arguments) [value]
  | result {word id : String} {arguments : List String} (value : RespValue) :
    4 ≤ protocol → Group protocol (word :: id :: arguments)
      [.array [.ofText "RESULT", .ofText id, value], .ofTexts ["DONE", id, "OK"]]
  | failure {word id : String} {arguments : List String} (details : List RespValue) :
    4 ≤ protocol → Group protocol (word :: id :: arguments)
      [.array (.ofText "ERROR" :: .ofText id :: details), .ofTexts ["DONE", id, "ERROR"]]

/-- The protocol after a request: only `HELLO` changes it. -/
def protocolAfter (protocol : ℕ) (words : List String) : ℕ :=
  if toAsciiUppercase (words.headD "") = "HELLO" then helloProtocol words else protocol

theorem protocolAfter_nil {protocol : ℕ} : protocolAfter protocol [] = protocol :=
  if_neg (by decide)

/-- The groups that answer the requests. -/
inductive Dialogue : ℕ → List (List String) → List (List RespValue) → Prop
  | done (protocol : ℕ) : Dialogue protocol [] []
  | empty {protocol : ℕ} {requests : List (List String)} {groups : List (List RespValue)} :
    Dialogue protocol requests groups → Dialogue protocol ([] :: requests) groups
  | quit {protocol : ℕ} {word : String} (arguments : List String)
    (requests : List (List String)) : toAsciiUppercase word = "QUIT" →
    Dialogue protocol ((word :: arguments) :: requests) [[.simple "OK"]]
  | next {protocol : ℕ} {word : String} {arguments : List String}
    {requests : List (List String)} {group : List RespValue} {groups : List (List RespValue)} :
    toAsciiUppercase word ≠ "QUIT" → Group protocol (word :: arguments) group →
    Dialogue (protocolAfter protocol (word :: arguments)) requests groups →
    Dialogue protocol ((word :: arguments) :: requests) (group :: groups)

/-! ## The condition -/

/-- The positions of the diagnostic that the broker answers an evaluation with are in range. -/
def EvalFits (env : Environment W) (s : Session W) (arguments : List String) : Prop :=
  ∀ source world diagnostic world', arguments.head? = some source →
    env.beforeEval s.attached source s.world = (.ok (), world) →
    env.broker.evalDiagnostic s.attached source world = (.error diagnostic, world') →
    NoOverflow env.checks (evalOrigin arguments) diagnostic

/-- The texts that an error of the legacy dialect repeats: the operation or the action it does not
know, and what the hook and the broker say, in the world the request arrives in. -/
inductive Repeats (env : Environment W) (s : Session W) (operation : String) :
    List String → String → Prop
  | operation (arguments : List String) : Repeats env s operation arguments operation
  | action (action : String) (arguments : List String) :
    operation = "SESSION" →
    Repeats env s operation (action :: arguments) (toAsciiUppercase action)
  | beforeEval {session source message : String} {world : W} (rest : List String) :
    operation = "EVAL" → env.beforeEval session source s.world = (.error message, world) →
    Repeats env s operation (session :: source :: rest) message
  | eval {session source message : String} {world world' : W} (rest : List String) :
    operation = "EVAL" → env.beforeEval session source s.world = (.ok (), world) →
    env.broker.eval session source world = (.error message, world') →
    Repeats env s operation (session :: source :: rest) message
  | beforeDiagnostic {source message : String} {world : W} :
    operation = "EVAL" → env.beforeEval s.attached source s.world = (.error message, world) →
    Repeats env s operation [source] message
  | evalDiagnostic {source : String} {diagnostic : RuntimeDiagnostic} {world world' : W} :
    operation = "EVAL" → env.beforeEval s.attached source s.world = (.ok (), world) →
    env.broker.evalDiagnostic s.attached source world = (.error diagnostic, world') →
    Repeats env s operation [source] diagnostic.message
  | complete {arguments : List String} {message : String} {world : W} :
    operation = "COMPLETE" →
    env.broker.complete s.attached (arguments.headD "") s.world = (.error message, world) →
    Repeats env s operation arguments message
  | documentation {symbol message : String} {world : W} (rest : List String) :
    operation = "DOC" →
    env.broker.documentation s.attached symbol s.world = (.error message, world) →
    Repeats env s operation (symbol :: rest) message
  | info {message : String} {world : W} (arguments : List String) :
    operation = "INFO" → env.broker.info s.attached s.world = (.error message, world) →
    Repeats env s operation arguments message
  | create {action name message : String} {world : W} (rest : List String) :
    operation = "SESSION" → toAsciiUppercase action = "NEW" →
    env.broker.create name s.world = (.error message, world) →
    Repeats env s operation (action :: name :: rest) message
  | list {action message : String} {world : W} (rest : List String) :
    operation = "SESSION" → toAsciiUppercase action = "LIST" →
    env.broker.list s.world = (.error message, world) →
    Repeats env s operation (action :: rest) message
  | attach {action name message : String} {world : W} (rest : List String) :
    operation = "SESSION" → toAsciiUppercase action = "ATTACH" →
    env.broker.info name s.world = (.error message, world) →
    Repeats env s operation (action :: name :: rest) message
  | sessionInfo {action message : String} {world : W} (rest : List String) :
    operation = "SESSION" → toAsciiUppercase action = "INFO" →
    env.broker.info s.attached s.world = (.error message, world) →
    Repeats env s operation (action :: rest) message
  | close {action name message : String} {world : W} (rest : List String) :
    operation = "SESSION" → toAsciiUppercase action = "CLOSE" →
    env.broker.close name s.world = (.error message, world) →
    Repeats env s operation (action :: name :: rest) message

/-- The requests that the server can answer: in protocol 4 they carry an id, and in the legacy
dialect the texts that an error would repeat are single lines. -/
inductive Answerable (env : Environment W) (s : Session W) : List String → Prop
  | empty : Answerable env s []
  | control {word : String} (arguments : List String) :
    toAsciiUppercase word = "QUIT" ∨ toAsciiUppercase word = "HELLO" →
    Answerable env s (word :: arguments)
  | modern (word id : String) {arguments : List String} : 4 ≤ s.protocol →
    (toAsciiUppercase word = "EVAL" → EvalFits env s arguments) →
    Answerable env s (word :: id :: arguments)
  | legacy (word : String) {arguments : List String} : s.protocol < 4 →
    (∀ text, Repeats env s (toAsciiUppercase word) arguments text → singleLine text) →
    Answerable env s (word :: arguments)

/-- Every request of a run is answerable in the session it arrives in. -/
def AllAnswerable (env : Environment W) : Session W → List (List String) → Prop
  | _, [] => True
  | s, words :: requests => Answerable env s words ∧
    ∀ s' values, answer env s words = .next s' values → AllAnswerable env s' requests

/-! ## Operations -/

/-- An operation that keeps the protocol, with a value that can be printed. -/
def Sound (s : Session W) (outcome : Outcome W) : Prop :=
  outcome.2.protocol = s.protocol ∧
    (∀ value, outcome.1 = .ok value → value.Printable) ∧
    ∀ failure, outcome.1 = .error failure → ∀ value ∈ failure.diagnostic, value.Printable

theorem sound_ok {value : RespValue} (hprotocol : s'.protocol = s.protocol)
    (hvalue : value.Printable) : Sound s (.ok value, s') := by
  refine ⟨hprotocol, ?_, nofun⟩
  rintro _ ⟨⟩
  exact hvalue

theorem sound_new {code message : String} (hprotocol : s'.protocol = s.protocol) :
    Sound s (.error (.new code message), s') := by
  refine ⟨hprotocol, nofun, ?_⟩
  exact nofun

theorem sound_brokerCall {α : Type} {call : W → Except String α × W} {code : String → String}
    {wrap : α → RespValue} (hwrap : ∀ a, (wrap a).Printable) :
    Sound s (brokerCall s call code wrap) := by
  rw [brokerCall]
  split
  · exact sound_ok rfl (hwrap _)
  · exact sound_new rfl

theorem sound_sessionOperation : Sound s (sessionOperation env s arguments) := by
  rw [sessionOperation.eq_def]
  split
  · exact sound_new rfl
  · split
    · exact sound_brokerCall printable_ofText
    · exact sound_new rfl
    · exact sound_brokerCall printable_ofTexts
    · split
      · exact sound_ok rfl (printable_ofText _)
      · exact sound_new rfl
    · exact sound_new rfl
    · exact sound_ok rfl (printable_ofText _)
    · exact sound_brokerCall printable_ofText
    · exact sound_brokerCall printable_ofText
    · exact sound_new rfl
    · exact sound_new rfl

/-- An operation of protocol 4 ends, and soundly, unless a position overflows. -/
theorem operationResult_sound {operation : String}
    (h : operation = "EVAL" → EvalFits env s arguments) :
    ∃ outcome, operationResult env s operation arguments = some outcome ∧ Sound s outcome := by
  rw [operationResult.eq_def]
  split
  · next source rest =>
    rw [evalOperation]
    split
    · exact ⟨_, rfl, sound_new rfl⟩
    · next world hbefore =>
      split
      · exact ⟨_, rfl, sound_ok rfl (printable_ofText _)⟩
      · next diagnostic world' heval =>
        obtain ⟨payload, hpayload, hprintable⟩ := gives_diagnosticPayload
          (h rfl source world diagnostic world' rfl hbefore heval)
        rw [hpayload]
        refine ⟨_, rfl, rfl, nofun, ?_⟩
        rintro _ ⟨⟩ value ⟨⟩
        exact hprintable
  · exact ⟨_, rfl, sound_new rfl⟩
  · exact ⟨_, rfl, sound_brokerCall printable_ofTexts⟩
  · exact ⟨_, rfl, sound_brokerCall printable_documentationValue⟩
  · exact ⟨_, rfl, sound_new rfl⟩
  · exact ⟨_, rfl, sound_sessionOperation⟩
  · exact ⟨_, rfl, sound_ok rfl (printable_ofText _)⟩
  · exact ⟨_, rfl, sound_brokerCall printable_ofText⟩
  · exact ⟨_, rfl, sound_new rfl⟩

/-- Without a second argument an evaluation has no origin, so that nothing can overflow. -/
theorem legacyResult_sound {operation : String} :
    ∃ outcome, legacyResult env s operation arguments = some outcome ∧ Sound s outcome := by
  rw [legacyResult.eq_def]
  split
  · refine ⟨_, rfl, ?_⟩
    rw [legacyEval]
    split
    · exact sound_new rfl
    · split
      · exact sound_ok rfl (printable_ofText _)
      · exact sound_new rfl
  · next hshort =>
    refine operationResult_sound ?_
    rintro rfl source world diagnostic world' hhead - - - origin horigin
    match arguments, hhead, horigin, hshort with
    | [source], _, horigin, _ => cases horigin
    | _ :: _ :: _, _, _, hshort => exact absurd rfl (hshort _ _ _ rfl)

/-! ## Errors of the legacy dialect -/

/-- If the operation fails, its error is a single line. -/
def OneLine (outcome : Outcome W) : Prop :=
  ∀ failure, outcome.1 = .error failure → singleLine (failure.code ++ " " ++ failure.message)

theorem oneLine_ok {value : RespValue} : OneLine (.ok value, s') := nofun

theorem oneLine_error {code message : String} {diagnostic : Option RespValue}
    (hcode : singleLine code) (hmessage : singleLine message) :
    OneLine (.error ⟨code, message, diagnostic⟩, s') := by
  rintro _ ⟨⟩
  exact singleLine_append (singleLine_append hcode (by decide)) hmessage

theorem oneLine_brokerCall {α : Type} {call : W → Except String α × W} {code : String → String}
    {wrap : α → RespValue} (hcode : ∀ message, singleLine (code message))
    (h : ∀ message world, call s.world = (.error message, world) → singleLine message) :
    OneLine (brokerCall s call code wrap) := by
  rw [brokerCall]
  split
  · exact oneLine_ok
  next message world hcall => exact oneLine_error (hcode message) (h message world hcall)

theorem oneLine_sessionOperation
    (h : ∀ text, Repeats env s "SESSION" arguments text → singleLine text) :
    OneLine (sessionOperation env s arguments) := by
  rw [sessionOperation.eq_def]
  split
  · exact oneLine_error (by decide) (by decide)
  next action arguments =>
    split
    next haction =>
      exact oneLine_brokerCall (fun _ ↦ by decide) fun _ _ hcall ↦ h _ (.create _ rfl haction hcall)
    · exact oneLine_error (by decide) (by decide)
    next haction =>
      exact oneLine_brokerCall (fun _ ↦ by decide) fun _ _ hcall ↦ h _ (.list _ rfl haction hcall)
    next haction =>
      split
      · exact oneLine_ok
      next hcall => exact oneLine_error (by decide) (h _ (.attach _ rfl haction hcall))
    · exact oneLine_error (by decide) (by decide)
    · exact oneLine_ok
    next haction =>
      exact oneLine_brokerCall (fun _ ↦ by decide) fun _ _ hcall ↦
        h _ (.sessionInfo _ rfl haction hcall)
    next haction =>
      exact oneLine_brokerCall (fun _ ↦ by decide) fun _ _ hcall ↦ h _ (.close _ rfl haction hcall)
    · exact oneLine_error (by decide) (by decide)
    · exact oneLine_error (by decide) (singleLine_append (by decide) (h _ (.action _ _ rfl)))

theorem oneLine_legacyResult {operation : String} {outcome : Outcome W}
    (h : ∀ text, Repeats env s operation arguments text → singleLine text)
    (houtcome : legacyResult env s operation arguments = some outcome) : OneLine outcome := by
  rw [legacyResult.eq_def] at houtcome
  split at houtcome
  next session source rest =>
    cases houtcome
    rw [legacyEval]
    split
    next hbefore => exact oneLine_error (by decide) (h _ (.beforeEval _ rfl hbefore))
    next hbefore =>
      split
      · exact oneLine_ok
      next heval => exact oneLine_error (by decide) (h _ (.eval _ rfl hbefore heval))
  next hshort =>
    rw [operationResult.eq_def] at houtcome
    split at houtcome
    next source rest =>
      -- with a second argument the evaluation would have been the legacy one
      obtain rfl : rest = [] := by
        cases rest with
        | nil => rfl
        | cons _ _ => exact absurd rfl (hshort _ _ _ rfl)
      rw [evalOperation] at houtcome
      split at houtcome
      next hbefore =>
        cases houtcome
        exact oneLine_error (by decide) (h _ (.beforeDiagnostic rfl hbefore))
      next hbefore =>
        split at houtcome
        · cases houtcome
          exact oneLine_ok
        next heval =>
          obtain ⟨payload, _, houtcome⟩ := Option.bind_eq_some_iff.mp houtcome
          cases houtcome
          exact oneLine_error (by decide) (h _ (.evalDiagnostic rfl hbefore heval))
    all_goals cases houtcome
    · exact oneLine_error (by decide) (by decide)
    · exact oneLine_brokerCall (fun _ ↦ by decide) fun _ _ hcall ↦ h _ (.complete rfl hcall)
    · refine oneLine_brokerCall (fun message ↦ ?_) fun _ _ hcall ↦ h _ (.documentation _ rfl hcall)
      rw [documentationCode]
      split <;> decide
    · exact oneLine_error (by decide) (by decide)
    · exact oneLine_sessionOperation h
    · exact oneLine_ok
    · exact oneLine_brokerCall (fun _ ↦ by decide) fun _ _ hcall ↦ h _ (.info _ rfl hcall)
    · exact oneLine_error (by decide) (singleLine_append (by decide) (h _ (.operation _)))

/-! ## Answers -/

theorem printable_framesV4 {outcome : Outcome W} (h : Sound s outcome) {id : String} :
    ∀ value ∈ framesV4 id outcome.1, value.Printable := by
  obtain ⟨-, hok, herror⟩ := h
  cases houtcome : outcome.1 with
  | ok value =>
    have hresult : (RespValue.array [.ofText "RESULT", .ofText id, value]).Printable := by
      refine .array ?_
      simp [hok value houtcome]
    simp [framesV4, hresult, printable_ofTexts]
  | error failure =>
    have hframe : (RespValue.array ([.ofText "ERROR", .ofText id, .ofText failure.code,
        .ofText failure.message] ++ failure.diagnostic.toList)).Printable := by
      refine .array ?_
      simpa using herror failure houtcome
    simp only [framesV4, forall_mem_cons]
    exact ⟨hframe, printable_ofTexts _, nofun⟩

theorem group_framesV4 {protocol : ℕ} (hprotocol : 4 ≤ protocol) {word id : String}
    {result : Except RespFailure RespValue} :
    Group protocol (word :: id :: arguments) (framesV4 id result) := by
  cases result with
  | ok value => exact .result value hprotocol
  | error failure => exact .failure _ hprotocol

theorem printable_legacyValue {value : RespValue} (h : value.Printable) :
    (legacyValue value).Printable := by
  cases h with
  | array _ => exact printable_ofText _
  | simple h => exact .simple h
  | error h => exact .error h
  | integer value => exact .integer value
  | bulk data => exact .bulk data
  | nullArray => exact .nullArray

/-- **One turn.** An answerable request ends the dialogue or is answered by a group. -/
theorem answer_spec {words : List String} (h : Answerable env s words) :
    (∃ word arguments, words = word :: arguments ∧ toAsciiUppercase word = "QUIT" ∧
      answer env s words = .quit [.simple "OK"]) ∨
    ∃ s' values, answer env s words = .next s' values ∧
      s'.protocol = protocolAfter s.protocol words ∧ (∀ value ∈ values, value.Printable) ∧
      ((words = [] ∧ values = []) ∨ ∃ word arguments, words = word :: arguments ∧
        toAsciiUppercase word ≠ "QUIT" ∧ Group s.protocol words values) := by
  cases words with
  | nil => exact .inr ⟨s, [], rfl, protocolAfter_nil.symm, nofun, .inl ⟨rfl, rfl⟩⟩
  | cons word arguments =>
    by_cases hquit : toAsciiUppercase word = "QUIT"
    · exact .inl ⟨word, arguments, rfl, hquit, if_pos hquit⟩
    by_cases hhello : toAsciiUppercase word = "HELLO"
    · right
      refine ⟨_, _, answer_hello env s hhello arguments, ?_, ?_,
        .inr ⟨word, arguments, rfl, hquit, .hello _ hhello⟩⟩
      · exact (if_pos hhello).symm
      · exact forall_mem_singleton.mpr (printable_ofTexts _)
    right
    have hprotocol : protocolAfter s.protocol (word :: arguments) = s.protocol := if_neg hhello
    rw [hprotocol]
    cases h with
    | control _ hcontrol => exact absurd hcontrol (not_or.mpr ⟨hquit, hhello⟩)
    | modern _ id hmodern hfits =>
      obtain ⟨⟨result, s'⟩, hresult, hsound⟩ := operationResult_sound hfits
      refine ⟨s', framesV4 id result, ?_, hsound.1, printable_framesV4 hsound,
        .inr ⟨word, _, rfl, hquit, group_framesV4 hmodern⟩⟩
      rw [answer.eq_def]
      dsimp only
      rw [if_neg hquit, if_neg hhello, if_pos hmodern, hresult]
    | legacy _ hlegacy hline =>
      obtain ⟨⟨result, s'⟩, hresult, hsound⟩ := legacyResult_sound
      refine ⟨s', [frameLegacy result], ?_, hsound.1, ?_,
        .inr ⟨word, _, rfl, hquit, .legacy _ hlegacy⟩⟩
      · rw [answer.eq_def]
        dsimp only
        rw [if_neg hquit, if_neg hhello, if_neg (Nat.not_le.mpr hlegacy), hresult]
      · rw [forall_mem_singleton]
        cases result with
        | ok value => exact printable_legacyValue (hsound.2.1 value rfl)
        | error failure => exact .error (oneLine_legacyResult hline hresult failure rfl)

/-! ## Runs -/

theorem writeAnswer_printable {values : List RespValue} (h : ∀ value ∈ values, value.Printable)
    (output : List UInt8) :
    writeAnswer values output = output ++ encodeAll values := by
  induction values generalizing output with
  | nil => rw [encodeAll, append_nil]; rfl
  | cons value values ih =>
    obtain ⟨hvalue, hvalues⟩ := forall_mem_cons.mp h
    have hstep : writeAnswer (value :: values) output =
        writeAnswer values (write value output) := rfl
    rw [hstep, write_printable hvalue, ih hvalues, encodeAll, append_assoc]

/-- The loop takes the next request. -/
theorem serveLoop_request (request : Request) (fuel : ℕ) (rest output : List UInt8) :
    serveLoop env (fuel + 1) s (encode (.array request.values) ++ rest) output =
      match answer env s request.words with
      | .panic => (.panicked, output)
      | .quit values => (.quit, writeAnswer values output)
      | .next s' values => serveLoop env fuel s' rest (writeAnswer values output) := by
  have hturn : turn env s (.array request.values) = answer env s request.words := by
    rw [turn, request.textual]
  rw [serveLoop, read_encode request.fits]
  dsimp only
  rewrite [hturn]
  rfl

theorem serveLoop_end {output : List UInt8} :
    serveLoop env (fuel + 1) s [] output = (.closed, output) := rfl

/-- **A whole run.** -/
theorem serveLoop_dialogue (hfuel : requests.length < fuel)
    (h : AllAnswerable env s (requests.map Request.words)) (output : List UInt8) :
    ∃ groups exit, Dialogue s.protocol (requests.map Request.words) groups ∧
      (∀ group ∈ groups, ∀ value ∈ group, value.Printable) ∧
      serveLoop env fuel s (sent requests) output = (exit, output ++ encodeAll groups.flatten) ∧
      (exit = .closed ∨ exit = .quit) := by
  induction requests generalizing s fuel output with
  | nil =>
    obtain ⟨fuel, rfl⟩ := Nat.exists_eq_succ_of_ne_zero (Nat.ne_zero_of_lt hfuel)
    refine ⟨[], .closed, .done _, forall_mem_nil _, ?_, .inl rfl⟩
    rw [flatten_nil, encodeAll, append_nil]
    exact serveLoop_end
  | cons request requests ih =>
    obtain ⟨fuel, rfl⟩ := Nat.exists_eq_succ_of_ne_zero (Nat.ne_zero_of_lt hfuel)
    obtain ⟨hrequest, hrest⟩ := h
    rw [sent_cons, serveLoop_request, map_cons]
    rcases answer_spec hrequest with ⟨word, arguments, hwords, hquit, hanswer⟩ |
      ⟨s', values, hanswer, hprotocol, hprintable, hgroup⟩
    · have hprintable : ∀ value ∈ [RespValue.simple "OK"], value.Printable :=
        forall_mem_singleton.mpr (.simple (by decide))
      refine ⟨[[.simple "OK"]], .quit, ?_, forall_mem_singleton.mpr hprintable, ?_, .inr rfl⟩
      · rw [hwords]
        exact .quit arguments _ hquit
      · rw [hanswer]
        dsimp only
        rw [writeAnswer_printable hprintable]
        rfl
    · rw [hanswer]
      dsimp only
      rw [writeAnswer_printable hprintable]
      obtain ⟨groups, exit, hdialogue, hgroups, hrun, hexit⟩ := ih (Nat.lt_of_succ_lt_succ hfuel)
        (hrest s' values hanswer) (output ++ encodeAll values)
      rw [hprotocol] at hdialogue
      rcases hgroup with ⟨hwords, rfl⟩ | ⟨word, arguments, hwords, hquit, hgroup⟩
      · refine ⟨groups, exit, ?_, hgroups, ?_, hexit⟩
        · rw [hwords] at hdialogue
          rw [hwords]
          exact .empty hdialogue
        · rw [hrun, encodeAll, append_nil]
      · refine ⟨values :: groups, exit, ?_, forall_mem_cons.mpr ⟨hprintable, hgroups⟩, ?_, hexit⟩
        · rw [hwords] at hdialogue hgroup ⊢
          exact .next hquit hgroup hdialogue
        · rw [hrun, flatten_cons, encodeAll_append, append_assoc]

/-- The budget suffices for any input: every turn consumes some of it. -/
theorem serveLoop_ne_exhausted {input : List UInt8} (hfuel : input.length < fuel)
    (output : List UInt8) : (serveLoop env fuel s input output).1 ≠ .exhausted := by
  induction fuel generalizing s input output with
  | zero => exact absurd hfuel (Nat.not_lt_zero _)
  | succ fuel ih =>
    cases input with
    | nil => exact nofun
    | cons tag input =>
      have hread := read_consumes tag input
      rw [length_cons] at hfuel
      rw [serveLoop.eq_def]
      dsimp only
      split
      · exact nofun
      · next value rest hvalue =>
        have hrest := (hread.of_ok hvalue).2
        split
        · exact nofun
        · exact nofun
        · exact ih (by omega) _
      · next e rest herror =>
        have hrest := hread.of_error herror
        exact ih (by omega) _

theorem serve_ne_exhausted (env : Environment W) (world : W) (input : List UInt8) :
    (serve env world input).1 ≠ .exhausted :=
  serveLoop_ne_exhausted (Nat.lt_succ_self _) []

theorem length_le_sent : requests.length ≤ (sent requests).length := by
  induction requests with
  | nil => exact Nat.zero_le _
  | cons request requests ih =>
    have hencode : 0 < (encode (.array request.values)).length := by
      simp [encode, encodeLine]
    rw [sent_cons, length_append, length_cons]
    omega

/-- In every run whose requests are answerable the server never panics, and what it writes are the
complete groups of a dialogue, of values that all can be printed. -/
theorem serve_dialogue (env : Environment W) (world : W) (requests : List Request)
    (h : AllAnswerable env ⟨3, "ROOT", world⟩ (requests.map Request.words)) :
    ∃ groups, Dialogue 3 (requests.map Request.words) groups ∧
      (∀ group ∈ groups, ∀ value ∈ group, value.Printable) ∧
      (serve env world (sent requests)).2 = encodeAll groups.flatten ∧
      ((serve env world (sent requests)).1 = .closed ∨
        (serve env world (sent requests)).1 = .quit) := by
  have hfuel : requests.length < (sent requests).length + 1 := Nat.lt_succ_of_le length_le_sent
  obtain ⟨groups, exit, hdialogue, hgroups, hrun, hexit⟩ := serveLoop_dialogue hfuel h []
  refine ⟨groups, hdialogue, hgroups, ?_, ?_⟩
  · exact congrArg Prod.snd hrun
  · rw [serve, hrun]
    exact hexit

/-- A request of bulk texts. -/
def Request.ofWords (words : List String) (hlength : words.length ≤ maxLine)
    (hsize : ∀ word ∈ words, (Utf8.bytes word).length ≤ maxBulk) : Request where
  values := words.map RespValue.ofText
  words
  textual := by
    clear hlength hsize
    induction words with
    | nil => rfl
    | cons word words ih =>
      rw [map_cons, mapM_cons, RespValue.text_ofText, ih]
      rfl
  fits := by
    refine ⟨by simpa using hlength, fun value hvalue ↦ ?_⟩
    obtain ⟨word, hword, rfl⟩ := mem_map.mp hvalue
    exact hsize word hword

/-- A broker that knows nothing. -/
def emptyBroker : Broker Unit where
  eval _ _ world := (.error "no runtime", world)
  evalDiagnostic _ _ world := (.error ⟨"no runtime", none, []⟩, world)
  complete _ _ world := (.ok [], world)
  documentation _ _ world := (.error "no documentation", world)
  create _ world := (.error "no runtime", world)
  list world := (.ok [], world)
  info _ world := (.error "No session: ROOT", world)
  close _ world := (.error "no runtime", world)

def emptyEnvironment : Environment Unit := ⟨emptyBroker, none, "RUST-1-1", "/", true⟩

def helloFour : Request := .ofWords ["HELLO", "4"] (by decide) (by decide)

def singleWord : Request := .ofWords ["COMMANDS"] (by decide) (by decide)

def brokenWord : Request := .ofWords ["A\nB"] (by decide) (by decide)

def identified : Request := .ofWords ["COMMANDS", "7"] (by decide) (by decide)

theorem answer_helloFour {s : Session Unit} :
    answer emptyEnvironment s ["HELLO", "4"] =
      .next { s with protocol := 4 } [helloValue emptyEnvironment 4] := by
  have hprotocol : helloProtocol ["HELLO", "4"] = 4 := by decide
  rw [answer_hello emptyEnvironment s (by decide), hprotocol]

def documented : Request := .ofWords ["DOC", "car"] (by decide) (by decide)

/-- A legacy request that fails, then protocol 4 with an id. -/
theorem serve_dialogue_commands :
    ∃ groups, Dialogue 3 [["DOC", "car"], ["HELLO", "4"], ["COMMANDS", "7"]] groups ∧
      (∀ group ∈ groups, ∀ value ∈ group, value.Printable) ∧
      (serve emptyEnvironment () (sent [documented, helloFour, identified])).2 =
        encodeAll groups.flatten := by
  have hlines : ∀ text, Repeats emptyEnvironment ⟨3, "ROOT", ()⟩ (toAsciiUppercase "DOC") ["car"]
      text → singleLine text := by
    have hoperation : toAsciiUppercase "DOC" = "DOC" := by decide
    rw [hoperation]
    intro text htext
    cases htext with
    | operation => decide
    | documentation _ _ hcall =>
      cases hcall
      decide
    | action _ _ hname | beforeDiagnostic hname | evalDiagnostic hname | complete hname
    | info _ hname | list _ hname | sessionInfo _ hname => exact absurd hname (by decide)
  have h : AllAnswerable emptyEnvironment ⟨3, "ROOT", ()⟩
      [["DOC", "car"], ["HELLO", "4"], ["COMMANDS", "7"]] := by
    refine ⟨.legacy _ (by decide) hlines, fun _ _ _ ↦ ⟨.control _ (.inr (by decide)), ?_⟩⟩
    intro s' values hnext
    cases hnext
    exact ⟨.modern _ _ (Nat.le_refl 4) (fun heval ↦ absurd heval (by decide)), fun _ _ _ ↦ trivial⟩
  obtain ⟨groups, hdialogue, hprintable, houtput, -⟩ :=
    serve_dialogue emptyEnvironment () [documented, helloFour, identified] h
  exact ⟨groups, hdialogue, hprintable, houtput⟩

/-- In protocol 4 a request of one word stops the thread; in the legacy dialect an error whose text
has a line break in it is never answered. -/
theorem serve_unanswered :
    (serve emptyEnvironment () (sent [helloFour, singleWord])).1 = .panicked ∧
      serve emptyEnvironment () (sent [brokenWord]) = (.closed, []) := by
  constructor
  · rw [serve, sent_cons, serveLoop_request]
    have hhello : answer emptyEnvironment ⟨3, "ROOT", ()⟩ helloFour.words =
        .next ⟨4, "ROOT", ()⟩ [helloValue emptyEnvironment 4] := answer_helloFour
    rw [hhello]
    rfl
  · have hanswer : answer emptyEnvironment ⟨3, "ROOT", ()⟩ brokenWord.words =
        .next ⟨3, "ROOT", ()⟩ [.error "UNKNOWN_OP Unknown operation: A\nB"] := rfl
    rw [serve, sent_cons, serveLoop_request, hanswer]
    rfl

end Hara.Resp
