import Mathlib.Algebra.Order.Ring.Int
import Mathlib.Data.Finset.Card

/-!
# Representations of SSA values

`infer_representations` (`whole_wasm/ssa.rs`) assigns every value of an SSA function the way it is
represented in Wasm. All facts start as `unknown`; rounds over the blocks join what the edges bring
into the block parameters, until a round changes nothing.

`unknown` stands for two things, a fact that has not arrived and facts that disagree, so the join is
not one of a lattice. Where a third edge follows two that disagree, it starts afresh: the rounds may
then return a wrong fact, or go on forever. `Carries` says which representations reach a value. The
inference ends, with facts that are right, if no value is reached by two of them.
-/

namespace Hara.WholeWasm

inductive Rep
  | i64 | bool | nil | arrayRef | objectRef | keyRef | taggedRef | truthyHandle
  | functionRef (function : ℕ)
  | unknown
deriving DecidableEq

inductive IntrinsicOp
  | add | subtract | multiply | divide | remainder | modulo
  | equal | less | lessOrEqual | greater | greaterOrEqual

/-- What an operation does; operands that inference does not read are left out. -/
inductive OpKind
  | constant (rep : Rep)
  | constantHandle | boxI64 | unboxI64
  | move (source : ℕ)
  | binary (op : IntrinsicOp)
  | binaryConstant (op : IntrinsicOp)
  | arrayNew | arrayGetI64 | arrayGetI64Constant | arraySetI64
  | objectNew | objectGetI64 | objectSetI64
  | buildVector | nativeVector | buildMap | buildMapI64Pair | assoc | assocMapI64Pair
  | get | getI64 | getPathI64Constants | isNumber | taggedIsNumber | count | taggedCount
  | nth | taggedNth | taggedUnboxI64 | callStatic

structure SsaOp where
  destination : ℕ
  kind : OpKind

structure SsaEdge where
  target : ℕ
  arguments : List ℕ

inductive SsaTerminator
  | goto (edge : SsaEdge)
  | branchZero (zero nonzero : SsaEdge)
  | ret (value : ℕ)

structure SsaBlock where
  parameters : List ℕ
  operations : List SsaOp
  terminator : SsaTerminator

structure SsaFunction where
  valueCount : ℕ
  blocks : List SsaBlock

abbrev Reps := ℕ → Rep

/-! ## Inference -/

def operationRep (reps : Reps) : OpKind → Rep
  | .constant rep => rep
  | .constantHandle => .unknown
  | .boxI64 => .truthyHandle
  | .unboxI64 | .taggedUnboxI64 => .i64
  | .move source => reps source
  | .binary op | .binaryConstant op =>
    match op with
    | .add | .subtract | .multiply | .divide | .remainder | .modulo => .i64
    | _ => .bool
  | .arrayNew | .arraySetI64 => .arrayRef
  | .arrayGetI64 | .arrayGetI64Constant | .objectGetI64 | .getI64 | .getPathI64Constants
  | .count | .taggedCount => .i64
  | .objectNew | .objectSetI64 => .objectRef
  | .nativeVector | .taggedNth => .taggedRef
  | .buildVector | .buildMap | .buildMapI64Pair | .assoc | .assocMapI64Pair => .truthyHandle
  | .isNumber | .taggedIsNumber => .bool
  | .get | .nth | .callStatic => .unknown

def joinRep (current incoming : Rep) : Rep :=
  if current = .unknown then incoming
  else if incoming = .unknown ∨ current = incoming then current
  else .unknown

def SsaTerminator.edges : SsaTerminator → List SsaEdge
  | .goto edge => [edge]
  | .branchZero zero nonzero => [zero, nonzero]
  | .ret _ => []

/-- A fact from an operation; it reads the facts before the round. -/
def assign (previous reps : Reps) (operation : SsaOp) : Reps :=
  Function.update reps operation.destination (operationRep previous operation.kind)

/-- A fact that an edge brings from its argument into a parameter. -/
def bring (previous reps : Reps) (binding : ℕ × ℕ) : Reps :=
  Function.update reps binding.1 (joinRep (reps binding.1) (previous binding.2))

namespace SsaFunction

variable (f : SsaFunction)

/-- The parameters of the target of an edge, each with its argument. -/
def bindings (edge : SsaEdge) : List (ℕ × ℕ) :=
  ((f.blocks[edge.target]?).elim [] (·.parameters)).zip edge.arguments

def visit (previous reps : Reps) (block : SsaBlock) : Reps :=
  (block.terminator.edges.flatMap f.bindings).foldl (bring previous)
    (block.operations.foldl (assign previous) reps)

def round (previous : Reps) : Reps := f.blocks.foldl (f.visit previous) previous

/-- The loop of `infer_representations`, for a number of rounds. -/
def inferFrom : ℕ → Reps → Option Reps
  | 0, _ => none
  | rounds + 1, previous =>
    let reps := f.round previous
    if ∀ v < f.valueCount, reps v = previous v then some reps else inferFrom rounds reps

def inferRepresentations (rounds : ℕ) : Option Reps := f.inferFrom rounds fun _ ↦ .unknown

/-! ## Facts that reach a value -/

/-- A value may hold something of this representation: an argument of the function, the result of an
operation, or what a move or an edge brings. -/
inductive Carries : ℕ → Rep → Prop
  | argument {block v} : f.blocks.head? = some block → v ∈ block.parameters → Carries v .unknown
  | operation {block operation} : block ∈ f.blocks → operation ∈ block.operations →
      (∀ source, operation.kind ≠ .move source) →
      Carries operation.destination (operationRep (fun _ ↦ .unknown) operation.kind)
  | move {block operation source rep} : block ∈ f.blocks → operation ∈ block.operations →
      operation.kind = .move source → Carries source rep → Carries operation.destination rep
  | edge {block edge binding rep} : block ∈ f.blocks → edge ∈ block.terminator.edges →
      binding ∈ f.bindings edge → Carries binding.2 rep → Carries binding.1 rep

/-- No value is reached by two representations. -/
def Agreed : Prop := ∀ v rep rep', f.Carries v rep → f.Carries v rep' → rep = rep'

/-- What a parameter is taken for is what every edge brings; the parameters of the first block, into
which the arguments of the function flow, are not taken for anything. -/
structure Sound (reps : Reps) : Prop where
  edge : ∀ block ∈ f.blocks, ∀ edge ∈ block.terminator.edges, ∀ binding ∈ f.bindings edge,
    reps binding.1 ≠ .unknown → ∀ rep, f.Carries binding.2 rep → rep = reps binding.1
  entry : ∀ block, f.blocks.head? = some block → ∀ v ∈ block.parameters, reps v = .unknown

/-- Every fact is one that reaches the value. -/
def Justified (reps : Reps) : Prop := ∀ v, reps v = .unknown ∨ f.Carries v (reps v)

/-- More facts, all of them justified. -/
def Extends (reps reps' : Reps) : Prop :=
  f.Justified reps' ∧ ∀ v, reps v = .unknown ∨ reps' v = reps v

variable {f} {previous previous' reps reps' : Reps}

/-- Only a move reads the facts. -/
theorem operationRep_of_ne_move {kind : OpKind} (h : ∀ source, kind ≠ .move source) (reps : Reps) :
    operationRep reps kind = operationRep (fun _ ↦ .unknown) kind := by
  cases kind with
  | move source => exact absurd rfl (h source)
  | _ => rfl

theorem Extends.update {v : ℕ} {rep rep' : Rep} (h : f.Extends reps reps')
    (hjustified : rep' = .unknown ∨ f.Carries v rep') (hmore : rep = .unknown ∨ rep' = rep) :
    f.Extends (Function.update reps v rep) (Function.update reps' v rep') := by
  constructor
  · intro w
    by_cases hw : w = v
    · subst hw
      simpa using hjustified
    · simpa [hw] using h.1 w
  · intro w
    by_cases hw : w = v
    · subst hw
      simpa using hmore
    · simpa [hw] using h.2 w

theorem Extends.assign {block : SsaBlock} {operation : SsaOp} (hblock : block ∈ f.blocks)
    (hoperation : operation ∈ block.operations) (hprevious : f.Extends previous previous')
    (h : f.Extends reps reps') :
    f.Extends (assign previous reps operation) (WholeWasm.assign previous' reps' operation) := by
  by_cases hmove : ∃ source, operation.kind = .move source
  · obtain ⟨source, hsource⟩ := hmove
    rw [WholeWasm.assign, WholeWasm.assign, hsource]
    exact h.update ((hprevious.1 source).imp_right (.move hblock hoperation hsource))
      (hprevious.2 source)
  · rw [not_exists] at hmove
    rw [WholeWasm.assign, WholeWasm.assign, operationRep_of_ne_move hmove previous,
      operationRep_of_ne_move hmove previous']
    exact h.update (.inr (.operation hblock hoperation hmove)) (.inr rfl)

/-- Without disagreement the join is monotone. -/
theorem joinRep_more {current current' incoming incoming' : Rep}
    (hcurrent : current = .unknown ∨ current' = current)
    (hincoming : incoming = .unknown ∨ incoming' = incoming)
    (hagreed : current' = .unknown ∨ incoming' = .unknown ∨ current' = incoming') :
    joinRep current incoming = .unknown ∨
      joinRep current' incoming' = joinRep current incoming := by
  unfold joinRep
  grind

theorem Extends.bring (hagreed : f.Agreed) {block : SsaBlock} {edge : SsaEdge} {binding : ℕ × ℕ}
    (hblock : block ∈ f.blocks) (hedge : edge ∈ block.terminator.edges)
    (hbinding : binding ∈ f.bindings edge) (hprevious : f.Extends previous previous')
    (h : f.Extends reps reps') :
    f.Extends (bring previous reps binding) (WholeWasm.bring previous' reps' binding) := by
  have hincoming := (hprevious.1 binding.2).imp_right (Carries.edge hblock hedge hbinding)
  have hcurrent := h.1 binding.1
  refine h.update ?_ (joinRep_more (h.2 _) (hprevious.2 _) ?_)
  · unfold joinRep
    grind
  · rcases hcurrent with hcurrent | hcurrent
    · exact .inl hcurrent
    · exact .inr (hincoming.imp_right fun hincoming ↦ hagreed _ _ _ hcurrent hincoming)

theorem Extends.round (hagreed : f.Agreed) (h : f.Extends previous previous') :
    f.Extends (f.round previous) (f.round previous') := by
  refine List.foldl_rel h fun block hblock _ _ hreps ↦ ?_
  refine List.foldl_rel (List.foldl_rel hreps fun operation hoperation _ _ hreps ↦ ?_)
    fun binding hbinding _ _ hreps ↦ ?_
  · exact h.assign hblock hoperation hreps
  · obtain ⟨edge, hedge, hbinding⟩ := List.mem_flatMap.mp hbinding
    exact h.bring hagreed hblock hedge hbinding hreps

/-! ## The rounds end -/

/-- The number of values with a fact. -/
def known (f : SsaFunction) (reps : Reps) : ℕ :=
  ((Finset.range f.valueCount).filter fun v ↦ reps v ≠ .unknown).card

theorem known_lt_known {v : ℕ} (h : f.Extends reps reps') (hv : v < f.valueCount)
    (hchanged : reps' v ≠ reps v) : f.known reps < f.known reps' := by
  have hunknown := (h.2 v).resolve_right hchanged
  refine Finset.card_lt_card ⟨fun w hw ↦ ?_, fun hsub ↦ ?_⟩
  · rw [Finset.mem_filter] at hw ⊢
    rwa [(h.2 w).resolve_left hw.2]
  · have hmem := hsub (Finset.mem_filter.mpr ⟨Finset.mem_range.mpr hv, hunknown ▸ hchanged⟩)
    exact (Finset.mem_filter.mp hmem).2 hunknown

/-- Every round that is not the last one adds a fact. -/
theorem exists_inferFrom (hagreed : f.Agreed) (rounds : ℕ) (h : f.Extends reps (f.round reps))
    (hrounds : f.valueCount < f.known reps + rounds) :
    ∃ result, f.inferFrom rounds reps = some result ∧ f.Justified result := by
  have hle (reps : Reps) : f.known reps ≤ f.valueCount :=
    (Finset.card_filter_le ..).trans_eq (Finset.card_range _)
  induction rounds generalizing reps with
  | zero => exact absurd hrounds (hle reps).not_gt
  | succ rounds ih =>
    rw [inferFrom]
    split
    · exact ⟨_, rfl, h.1⟩
    next hunstable =>
      push Not at hunstable
      obtain ⟨v, hv, hchanged⟩ := hunstable
      have hmore := known_lt_known h hv hchanged
      exact ih (h.round hagreed) (by omega)

/-- Without disagreement the inference ends, and its facts are right. -/
theorem inferRepresentations_sound (f : SsaFunction) (hagreed : f.Agreed) :
    ∃ rounds reps, f.inferRepresentations rounds = some reps ∧ f.Sound reps := by
  have hstart : f.Extends (fun _ ↦ .unknown) fun _ ↦ .unknown :=
    ⟨fun _ ↦ .inl rfl, fun _ ↦ .inl rfl⟩
  obtain ⟨reps, hreps, hjustified⟩ := exists_inferFrom hagreed (f.valueCount + 1)
    ⟨(hstart.round hagreed).1, fun _ ↦ .inl rfl⟩ (by omega)
  refine ⟨_, reps, hreps, ?_, ?_⟩
  · intro block hblock edge hedge binding hbinding hknown rep hrep
    exact hagreed _ _ _ (.edge hblock hedge hbinding hrep) ((hjustified _).resolve_left hknown)
  · intro block hblock v hv
    rcases hjustified v with hunknown | hcarries
    · exact hunknown
    · exact (hagreed _ _ _ (.argument hblock hv) hcarries).symm

/-- Facts that every operation and every edge keeps show that there is no disagreement. -/
theorem agreed_of_stable {facts : Reps}
    (hentry : ∀ block, f.blocks.head? = some block → ∀ v ∈ block.parameters, facts v = .unknown)
    (hoperation : ∀ block ∈ f.blocks, ∀ operation ∈ block.operations,
      facts operation.destination = operationRep facts operation.kind)
    (hedge : ∀ block ∈ f.blocks, ∀ edge ∈ block.terminator.edges, ∀ binding ∈ f.bindings edge,
      facts binding.1 = facts binding.2) : f.Agreed := by
  have hcarries {v : ℕ} {rep : Rep} (h : f.Carries v rep) : rep = facts v := by
    induction h with
    | argument hblock hv => exact (hentry _ hblock _ hv).symm
    | operation hblock hmem hmove =>
      rw [hoperation _ hblock _ hmem, operationRep_of_ne_move hmove facts]
    | move hblock hmem hmove _ ih => rw [ih, hoperation _ hblock _ hmem, hmove, operationRep]
    | edge hblock hmem hbinding _ ih => rw [ih, hedge _ hblock _ hmem _ hbinding]
  exact fun v rep rep' h h' ↦ (hcarries h).trans (hcarries h').symm

/-- A loop that counts up to its argument `0`. The counter `2` comes from the first block and from
the body, and the result `5` from both sides of a branch after the loop. -/
def counting : SsaFunction where
  valueCount := 7
  blocks :=
    [⟨[0], [⟨1, .constant .i64⟩], .goto ⟨1, [1]⟩⟩,
      ⟨[2], [⟨3, .binary .less⟩], .branchZero ⟨3, []⟩ ⟨2, []⟩⟩,
      ⟨[], [⟨4, .binaryConstant .add⟩], .goto ⟨1, [4]⟩⟩,
      ⟨[], [⟨6, .move 2⟩], .branchZero ⟨4, [6]⟩ ⟨4, [1]⟩⟩,
      ⟨[5], [], .ret 5⟩]

theorem inferRepresentations_sound_counting :
    counting.Agreed ∧ ∃ rounds reps, counting.inferRepresentations rounds = some reps ∧
      counting.Sound reps := by
  let facts : Reps := fun v ↦ if v = 0 then .unknown else if v = 3 then .bool else .i64
  have hentry : ∀ block, counting.blocks.head? = some block → ∀ v ∈ block.parameters,
      facts v = .unknown := by
    intro block hblock
    obtain rfl := Option.some.inj hblock
    decide
  have hagreed : counting.Agreed := agreed_of_stable hentry (by decide) (by decide)
  exact ⟨hagreed, inferRepresentations_sound counting hagreed⟩

/-- Three edges bring a number, a truth value and an array into the parameter `3`. -/
def threeWays : SsaFunction where
  valueCount := 4
  blocks :=
    [⟨[], [⟨0, .constant .i64⟩], .branchZero ⟨3, [0]⟩ ⟨1, []⟩⟩,
      ⟨[], [⟨1, .constant .bool⟩], .branchZero ⟨3, [1]⟩ ⟨2, []⟩⟩,
      ⟨[], [⟨2, .arrayNew⟩], .goto ⟨3, [2]⟩⟩,
      ⟨[3], [], .ret 3⟩]

/-- The facts after the first round, with one for the parameter. -/
def threeFacts (rep : Rep) : Reps
  | 0 => .i64
  | 1 => .bool
  | 2 => .arrayRef
  | 3 => rep
  | _ => .unknown

/-- The parameter is taken for an array in every second round, so that no number of rounds is
enough. -/
theorem inferRepresentations_threeWays : threeWays.inferRepresentations = fun _ ↦ none := by
  have hround (reps : Reps) (rep : Rep) (h : ∀ v, threeWays.round reps v = threeFacts rep v)
      (hchanged : ¬∀ v < 4, threeFacts rep v = reps v) (rounds : ℕ) :
      threeWays.inferFrom (rounds + 1) reps = threeWays.inferFrom rounds (threeFacts rep) := by
    rw [inferFrom, funext h]
    exact if_neg hchanged
  have hunknown (v : ℕ) : threeWays.round (threeFacts .unknown) v = threeFacts .arrayRef v := by
    rcases v with _ | _ | _ | _ | v <;> rfl
  have harray (v : ℕ) : threeWays.round (threeFacts .arrayRef) v = threeFacts .unknown v := by
    rcases v with _ | _ | _ | _ | v <;> rfl
  have hturns (rounds : ℕ) : threeWays.inferFrom rounds (threeFacts .unknown) = none ∧
      threeWays.inferFrom rounds (threeFacts .arrayRef) = none := by
    induction rounds with
    | zero => exact ⟨rfl, rfl⟩
    | succ rounds ih =>
      rw [hround _ _ hunknown (by decide), hround _ _ harray (by decide)]
      exact ih.symm
  funext rounds
  cases rounds with
  | zero => rfl
  | succ rounds =>
    rw [inferRepresentations, hround _ .unknown ?_ (by decide)]
    · exact (hturns rounds).1
    · intro v
      rcases v with _ | _ | _ | _ | v <;> rfl

end SsaFunction

end Hara.WholeWasm
