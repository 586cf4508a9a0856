import Hara.Vm.Compiler.State

/-!
# Sequences, bindings and exceptions

The forms to which a `binding` form is lowered: `compile_sequence`, `compile_bindings`,
`compile_let` and `compile_dynamic_binding` of `vm/compiler.rs` and `compile_try` of
`vm/compiler/exceptions.rs`. Each function compiles its parts with the `compile` it is given, and
`compileForm` ties the knot. A form that cannot complete leaves `fallthrough` down, and nothing is
emitted for what follows it.

What `compile_form` does with all other forms is a parameter: calls, literals, macros, branches,
loops and functions. The operators treated here are taken to be no macros.
-/

namespace Hara.Vm

/-- `compile_form` for the parts of a form; the flag tells tail position. -/
abbrev FormCompiler (W : Type) := Child → Bool → CompileM W Unit

variable {W : Type} (core : CompileCore W) (compile : FormCompiler W)

/-! ## Sequences -/

/-- The statements of a sequence: every result but the last is popped, and statements after one
that cannot complete are not looked at. -/
def compileStatements (top tail : Bool) : List Child → CompileM W Unit
  | [] => pure ()
  | [last] => whenFalls do
    setTopLevel top
    compile last tail
  | child :: children => whenFalls do
    setTopLevel top
    compile child false
    whenFalls (emit_ .pop (some child.span))
    compileStatements top tail children

variable (children : List Child) (span : Position) (tail : Bool)

/-- `Compiler::compile_sequence`. -/
def compileSequence : CompileM W Unit :=
  match children with
  | [] => emit_ .nil none
  | children => do
    let c ← get
    compileStatements compile (c.topLevel && c.outer.isEmpty) tail children

/-! ## Bindings -/

/-- Ordered bindings into fresh slots; stops at an initializer that cannot complete. -/
def compilePairs (formName : String) : List Child → CompileM W (List ℕ)
  | name :: initializer :: pairs =>
    match name.form with
    | .symbol symbol => do
      compile initializer false
      if ← falls then
        let slot ← declareName symbol (some name.span)
        emit_ (.storeLocal slot) (some name.span)
        let slots ← compilePairs formName pairs
        pure (slot :: slots)
      else pure []
    | _ => compileError .unsupportedForm s!"{formName} destructuring is not supported"
        (some name.span)
  | _ => pure []

/-- `Compiler::compile_bindings`. -/
def compileBindings (bindings : Child) (formName : String) : CompileM W (List ℕ) :=
  match bindings.form with
  | .list pairs | .vector pairs => do
    ensure (pairs.length % 2 == 0) .arity s!"{formName} bindings require name/value pairs"
      bindings.span
    compilePairs compile formName (listChildren pairs bindings.span bindings.children)
  | _ => compileError .arity s!"{formName} expects a binding list or vector" (some bindings.span)

/-- `Compiler::compile_let`. -/
def compileLet : CompileM W Unit :=
  match children with
  | _ :: bindings :: form :: body => do
    pushScope
    let _ ← compileBindings compile bindings "let"
    compileSequence compile (form :: body) tail
    popScope
  | _ => compileError .arity "let expects bindings and a body" (some span)

/-- The name operand of `compileDynamicBinding`. -/
def bindingTarget (target : Child) : CompileM W ℕ :=
  match target.form with
  | .symbol name => globalNameConstant core name target.span
  | _ => compileError .unsupportedForm "dynamic binding target must be a symbol" (some target.span)

/-- `Compiler::compile_dynamic_binding` with a value. -/
def compileDynamicBind : CompileM W Unit :=
  match children with
  | [_, target, value] => do
    let name ← bindingTarget core target
    compile value false
    whenFalls (emit_ (.dynamicBind name) (some span))
  | _ => compileError .arity "dynamic bind expects a Var and value" (some span)

/-- `Compiler::compile_dynamic_binding` without one. -/
def compileDynamicUnbind : CompileM W Unit :=
  match children with
  | [_, target] => do
    let name ← bindingTarget core target
    emit_ (.dynamicUnbind name) (some span)
  | _ => compileError .arity "dynamic unbind expects a Var" (some span)

/-! ## Exceptions -/

/-- Whether a form of `try` is a catch or finally clause. -/
def isClause (child : Child) : Bool :=
  match child.form with
  | .list (.symbol name :: _) => name == "catch" || name == "finally"
  | _ => false

/-- A parsed catch clause: its binding, the position of the binding, and the handler form. -/
structure CatchClause where
  name : String
  position : Position
  handler : Child

/-- The catch clauses, and the forms of all finally clauses in order. -/
def parseClauses : List Child → CompileM W (List CatchClause × List Child)
  | [] => pure ([], [])
  | clause :: clauses =>
    match clause.form with
    | .list (.symbol keyword :: elements) =>
      let parts := listChildren (.symbol keyword :: elements) clause.span clause.children
      if keyword = "finally" then do
        ensure (2 ≤ parts.length) .arity "finally expects a body" clause.span
        let (catches, finallyBody) ← parseClauses clauses
        pure (catches, parts.drop 1 ++ finallyBody)
      else
        match parts with
        | [_, binding, handler] =>
          match binding.form with
          | .symbol name => do
            let (catches, finallyBody) ← parseClauses clauses
            pure (⟨name, binding.span, handler⟩ :: catches, finallyBody)
          | _ => compileError .arity "catch binding must be symbol" (some binding.span)
        | _ => compileError .arity
            ("catch expects a binding symbol and one handler form; typed host catch clauses " ++
              "are not part of Hara") (some clause.span)
    | _ => pure ([], [])

/-- The hidden slots of a `try` with a finally: pending value and error flag. -/
def declarePending (hasFinally : Bool) : CompileM W (Option (ℕ × ℕ)) :=
  if hasFinally then do
    let value ← declareHidden
    let flag ← declareHidden
    pure (some (value, flag))
  else pure none

/-- Clears the error flag on entry. -/
def resetFlag (pending : Option (ℕ × ℕ)) (span : Position) : CompileM W Unit :=
  match pending with
  | some (_, flag) => do
    emit_ .false (some span)
    emit_ (.storeLocal flag) (some span)
  | none => pure ()

def updateHandler (index : ℕ) (f : TryEntry → TryEntry) : CompileM W Unit :=
  modifyContext fun ctx ↦ { ctx with handlers := ctx.handlers.modify index f }

/-- Opens the handler entry at the current instruction; returns its index. -/
def openHandler (pending : Option (ℕ × ℕ)) : CompileM W ℕ :=
  modifyGet fun c ↦ (c.context.handlers.length, { c with context := { c.context with
    handlers := c.context.handlers ++ [{
      start := c.here, stop := 0, depth := 0, catches := [], finally_ := none,
      pendingValue := pending.map (·.1), pendingError := pending.map (·.2) }]
    tries := ⟨pending.isSome, c.context.loops.length⟩ :: c.context.tries } })

/-- Keeps the value of a completed region where a finally region follows. -/
def storePending (pending : Option (ℕ × ℕ)) : CompileM W Unit :=
  match pending with
  | some (value, _) => emit_ (.storeLocal value) none
  | none => pure ()

/-- Leaves a region that completed: to the finally region, or behind the form. -/
def leaveRegion (pending : Option (ℕ × ℕ)) : CompileM W (List ℕ) := do
  if ← falls then
    storePending pending
    let jump ← emit (.jump 0) none
    pure [jump]
  else pure []

/-- The catch clauses, fresh entry points reached by unwinding; returns the jumps that leave
them. -/
def compileCatches (entry : ℕ) (pending : Option (ℕ × ℕ)) (tail : Bool) :
    List CatchClause → CompileM W (List ℕ)
  | [] => pure []
  | clause :: clauses => do
    let target ← codeLength
    pushScope
    let binding ← declareName clause.name (some clause.position)
    updateHandler entry fun e ↦
      { e with catches := e.catches ++ [⟨"Exception", binding, target⟩] }
    setFallthrough true
    compileSequence compile [clause.handler] tail
    let jump ← leaveRegion pending
    popScope
    let jumps ← compileCatches entry pending tail clauses
    pure (jump ++ jumps)

/-- Behind a finally region: rethrow the pending error or push the pending value. -/
def emitResume (value flag : ℕ) (span : Position) : CompileM W Unit := do
  emit_ .pop none
  emit_ (.loadLocal flag) none
  let jump ← emit (.jumpIfFalse 0) none
  emit_ (.loadLocal value) none
  emit_ .rethrow (some span)
  let normal ← codeLength
  patchJump jump normal
  emit_ (.loadLocal value) none

/-- The finally region, reached on every path. -/
def compileFinally (entry value flag : ℕ) (jumps : List ℕ) (body : List Child)
    (span : Position) : CompileM W Unit := do
  let target ← codeLength
  updateHandler entry fun e ↦ { e with finally_ := some target }
  patchJumps jumps target
  setFallthrough true
  compileSequence compile body false
  let fell ← falls
  whenFalls (emitResume value flag span)
  setFallthrough fell

/-- Where the regions of a `try` meet: in the finally region, or behind the form. -/
def joinRegions (entry : ℕ) (pending : Option (ℕ × ℕ)) (jumps : List ℕ)
    (finallyBody : List Child) (span : Position) : CompileM W Unit :=
  match pending with
  | some (value, flag) => compileFinally compile entry value flag jumps finallyBody span
  | none => do
    let after ← codeLength
    patchJumps jumps after
    setFallthrough !jumps.isEmpty

/-- `Compiler::compile_try` on its partitioned forms. -/
def compileRegions (body : List Child) (catches : List CatchClause) (finallyBody : List Child)
    (span : Position) (tail : Bool) : CompileM W Unit := do
  let pending ← declarePending !finallyBody.isEmpty
  resetFlag pending span
  let entry ← openHandler pending
  -- Tail position propagates into catch-only regions.
  let regionTail := tail && finallyBody.isEmpty
  compileSequence compile body regionTail
  let bodyJumps ← leaveRegion pending
  let stop ← codeLength
  updateHandler entry fun e ↦ { e with stop }
  let catchJumps ← compileCatches compile entry pending regionTail catches
  joinRegions compile entry pending (bodyJumps ++ catchJumps) finallyBody span
  modifyContext fun ctx ↦ { ctx with tries := ctx.tries.tail }

/-- `Compiler::compile_try`: once a clause appears, only clauses may follow. -/
def compileTry : CompileM W Unit := do
  let forms := children.drop 1
  let body := forms.takeWhile fun form ↦ !isClause form
  let clauses := forms.dropWhile fun form ↦ !isClause form
  match clauses.find? fun form ↦ !isClause form with
  | some form => compileError .arity "try clauses must follow body" (some form.span)
  | none => do
    let (catches, finallyBody) ← parseClauses clauses
    compileRegions compile body catches finallyBody span tail

/-! ## Forms -/

/-- The destructuring expansion of a form. -/
def destructure (form : Form) (span : Position) : CompileM W (Option Form) := do
  let c ← get
  match Destructure.expand form c.nextDestructureId with
  | .ok expanded next => do
    set { c with nextDestructureId := next }
    pure expanded
  | .error (.message text) _ => compileError .unsupportedForm text (some span)
  | .error .panic _ => throw .panic

variable (rest : FormCompiler W)

/-- The dispatch of `compile_form` on an expanded form. -/
def compileExpanded (child : Child) (tail top : Bool) : CompileM W Unit :=
  let others := do
    setTopLevel top
    rest child tail
  match child.form with
  | .symbol name => do
    let c ← get
    match c.context.scopes.resolve name with
    | some slot => emit_ (.loadLocal slot) (some child.span)
    | none => others
  | .list (.symbol operator :: elements) =>
    let children := listChildren (.symbol operator :: elements) child.span child.children
    match operator with
    | "do" => do
      -- A top-level `do` is transparent.
      setTopLevel top
      compileSequence compile (children.drop 1) tail
    | "let" => compileLet compile children child.span tail
    | "try" => compileTry compile children child.span tail
    | "__dynamic-bind" => compileDynamicBind core compile children child.span
    | "__dynamic-unbind" => compileDynamicUnbind core children child.span
    | _ => others
  | _ => others

/-- `Compiler::compile_form`. Dead code is not analyzed. -/
def compileForm : ℕ → FormCompiler W
  | 0 => fun _ _ ↦ throw .exhausted
  | fuel + 1 => fun child tail ↦ do
    let c ← get
    setTopLevel false
    whenFalls do
      match ← destructure child.form child.span with
      | some expanded => do
        setTopLevel c.topLevel
        compileForm fuel (.bare expanded child.span) tail
      | none => compileExpanded core (compileForm fuel) rest child tail c.topLevel

end Hara.Vm
