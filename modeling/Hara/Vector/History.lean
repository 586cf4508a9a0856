import Hara.Vector.Layout

/-!
# Vectors refine lists

A run is any interleaving of persistent operations and transient sessions. The model does the same
on the list of the values. A transient refuses an index past its end by an assertion, and so does
the model; the persistent operations answer `None`, and the vector before goes on.

Vectors and transients can be cloned and kept, so between two operations the nodes of a tree can
gain and lose other owners. A run has steps for that, which give every node any number of them. The
token of a session is any, too: what `next_token` gives is never used again, but no operation rests
on that.
-/

namespace Hara.Vector

open Hara.Lib Represents

variable {E : Type} {values : List E}

/-! ## Other owners -/

/-- The handles of a tree when the node at each path, read from the node up, has so many owners
elsewhere. -/
def Node.shared (others : List ℕ → ℕ) : ℕ → List ℕ → Node E → Node E
  | level + 1, path, .branch _ token children =>
    .branch (others path + 1) token
      (children.mapIdx fun i ↦ Option.map (Node.shared others level (i :: path)))
  | _, path, node => node.withStrong (others path + 1)

def Standard.shared (others : List ℕ → ℕ) (vector : Standard E) : Standard E :=
  { vector with root := vector.root.shared others vector.levels [] }

theorem Holds.shared {level : ℕ} {node : Node E} {leaves : List (List E)}
    (h : Holds level node leaves) (others : List ℕ → ℕ) (path : List ℕ) :
    Holds level (node.shared others level path) leaves := by
  induction level generalizing node leaves path with
  | zero => exact h.withStrong _
  | succ level ih =>
    obtain ⟨_, _, children, rfl⟩ := h.exists_branch
    refine h.of_slots List.length_mapIdx (fun i slot hslot ↦ ?_) fun i _ _ hchild ↦
      ih hchild (i :: path)
    rw [List.getElem?_mapIdx, hslot]
    rfl

theorem Represents.shared {vector : Standard E} (h : Represents vector values)
    (others : List ℕ → ℕ) : Represents (vector.shared others) values := by
  obtain ⟨leaves, hlayout, rfl⟩ := h
  exact ⟨leaves, hlayout.withRoot (hlayout.tree.shared others []), rfl⟩

/-! ## Runs -/

/-- What is done in a session, between `to_mutable` and `to_persistent`. -/
inductive Edit (E : Type) where
  | pushLast (value : E)
  | assoc (index : ℕ) (value : E)
  | popLast
  | empty
  | shared (others : List ℕ → ℕ)

inductive Op (E : Type) where
  | pushLast (value : E)
  | pushLastOwned (value : E)
  | assocValue (index : ℕ) (value : E)
  | assocValueOwned (index : ℕ) (value : E)
  | popLastValue
  | session (token : ℕ) (edits : List (Edit E))
  | shared (others : List ℕ → ℕ)

def Edit.apply (mutable : Mutable E) : Edit E → Except Fault (Mutable E)
  | pushLast value => mutable.pushLast value
  | assoc index value => mutable.assoc index value
  | popLast => do
    let (_, mutable) ← mutable.popLast
    return mutable
  | empty => mutable.empty
  | shared others => .ok { mutable with vector := mutable.vector.shared others }

def Op.apply (vector : Standard E) : Op E → Except Fault (Standard E)
  | pushLast value => vector.pushLast value
  | pushLastOwned value => vector.pushLastOwned value
  | assocValue index value => return (← vector.assocValue index value).getD vector
  | assocValueOwned index value => return (← vector.assocValueOwned index value).getD vector
  | popLastValue => return (← vector.popLastValue).getD vector
  | session token edits => do
    let mutable ← edits.foldlM Edit.apply (.fromStandard token vector)
    let (vector, _) ← mutable.toPersistent
    return vector
  | shared others => .ok (vector.shared others)

def run (ops : List (Op E)) : Except Fault (Standard E) := ops.foldlM Op.apply .new

/-! ## The model -/

def Edit.model (values : List E) : Edit E → Except Fault (List E)
  | pushLast value => .ok (values ++ [value])
  | assoc index value =>
    match assocValues values index value with
    | some values => .ok values
    | none => .error (.assertion "vector index out of bounds")
  | popLast => .ok values.dropLast
  | empty => .ok []
  | shared _ => .ok values

def Op.model (values : List E) : Op E → Except Fault (List E)
  | pushLast value => .ok (values ++ [value])
  | pushLastOwned value => .ok (values ++ [value])
  | assocValue index value => .ok ((assocValues values index value).getD values)
  | assocValueOwned index value => .ok ((assocValues values index value).getD values)
  | popLastValue => .ok values.dropLast
  | session _ edits => edits.foldlM Edit.model values
  | shared _ => .ok values

def model (ops : List (Op E)) : Except Fault (List E) := ops.foldlM Op.model []

/-! ## One step -/

/-- Both stop alike, or both go on with related results. -/
inductive Agrees {σ τ : Type} (related : σ → τ → Prop) :
    Except Fault σ → Except Fault τ → Prop
  | ok {a : σ} {b : τ} (h : related a b) : Agrees related (.ok a) (.ok b)
  | error (fault : Fault) : Agrees related (.error fault) (.error fault)

namespace Agrees

variable {σ τ : Type} {related : σ → τ → Prop}

theorem of_exists {x : Except Fault σ} {b : τ} (h : ∃ a, x = .ok a ∧ related a b) :
    Agrees related x (.ok b) := by
  obtain ⟨a, rfl, hab⟩ := h
  exact .ok hab

theorem bind {σ' τ' : Type} {related' : σ' → τ' → Prop} {x : Except Fault σ} {y : Except Fault τ}
    {f : σ → Except Fault σ'} {g : τ → Except Fault τ'} (h : Agrees related x y)
    (hstep : ∀ a b, related a b → Agrees related' (f a) (g b)) :
    Agrees related' (x >>= f) (y >>= g) := by
  cases h with
  | ok hab => exact hstep _ _ hab
  | error fault => exact .error fault

/-- Steps that agree, one after the other. -/
theorem foldlM {ι : Type} {f : σ → ι → Except Fault σ} {g : τ → ι → Except Fault τ}
    (hstep : ∀ a b i, related a b → Agrees related (f a i) (g b i)) (steps : List ι) {a : σ} {b : τ}
    (h : related a b) : Agrees related (steps.foldlM f a) (steps.foldlM g b) := by
  induction steps generalizing a b with
  | nil => exact .ok h
  | cons i steps ih =>
    exact (hstep a b i h).bind fun a b hab ↦ ih hab

end Agrees

/-- An open transient with these values. -/
def RepresentsMutable (mutable : Mutable E) (values : List E) : Prop :=
  mutable.editable = true ∧ Represents mutable.vector values

theorem Edit.agrees {mutable : Mutable E} (h : RepresentsMutable mutable values) {edit : Edit E} :
    Agrees RepresentsMutable (edit.apply mutable) (edit.model values) := by
  obtain ⟨editable, token, vector⟩ := mutable
  obtain ⟨rfl, hrep⟩ := h
  cases edit with
  | pushLast value =>
    obtain ⟨vector', hpush, hrep'⟩ := hrep.pushLastWith (readies_editable token)
    refine .of_exists ⟨⟨true, token, vector'⟩, ?_, rfl, hrep'⟩
    exact congrArg (Except.map (Mutable.mk true token)) hpush
  | assoc index value =>
    obtain ⟨result, hassoc, hrel⟩ := hrep.assocValueWith (readies_editable token)
      (hrep.pushLastWith (readies_editable token))
    have hassign : assocValueWith (pushLastWith token (pushTailEditable token) vector)
      (assocEditable token) vector index value = .ok result := hassoc
    rw [Edit.apply, Edit.model, Mutable.assoc]
    generalize assocValues values index value = assigned at hrel
    simp only [hassign]
    cases hrel with
    | some hrep' => exact .ok ⟨rfl, hrep'⟩
    | none => exact .error _
  | popLast =>
    obtain ⟨vector', hpop, hrep'⟩ := hrep.mutable_popLast
    refine .of_exists ⟨⟨true, token, vector'⟩, ?_, rfl, hrep'⟩
    rw [Edit.apply, hpop]
    rfl
  | empty => exact .ok ⟨rfl, .empty token⟩
  | shared others => exact .ok ⟨rfl, hrep.shared others⟩

theorem getD_related {result : Option (Standard E)} {values? : Option (List E)}
    {vector : Standard E} (hrel : Option.Rel Represents result values?)
    (h : Represents vector values) : Represents (result.getD vector) (values?.getD values) := by
  cases hrel with
  | some hrep => exact hrep
  | none => exact h

theorem Op.agrees {vector : Standard E} (h : Represents vector values) (op : Op E) :
    Agrees Represents (op.apply vector) (op.model values) := by
  cases op with
  | pushLast value => exact .of_exists (h.pushLast value)
  | pushLastOwned value => exact .of_exists h.pushLastOwned
  | assocValue index value =>
    obtain ⟨result, hassoc, hrel⟩ := h.assocValue index
    rw [Op.apply, hassoc]
    exact .ok (getD_related hrel h)
  | assocValueOwned index value =>
    obtain ⟨result, hassoc, hrel⟩ := h.assocValueOwned
    rw [Op.apply, hassoc]
    exact .ok (getD_related hrel h)
  | popLastValue =>
    rw [Op.apply]
    by_cases hne : values = []
    · subst hne
      rw [h.popLastValue_nil]
      exact .ok h
    · obtain ⟨vector', hpop, hrep⟩ := h.popLastValue hne
      rw [hpop]
      exact .ok hrep
  | session token edits =>
    have hopen : RepresentsMutable (.fromStandard token vector) values := ⟨rfl, h.withToken token⟩
    have hedits := Agrees.foldlM (fun _ _ edit h ↦ Edit.agrees h) edits hopen
    rw [Op.apply, Op.model]
    generalize edits.foldlM Edit.apply (.fromStandard token vector) = session at hedits
    generalize edits.foldlM Edit.model values = values' at hedits
    cases hedits with
    | error fault => exact .error fault
    | @ok mutable _ hclosed =>
      obtain ⟨editable, _, vector'⟩ := mutable
      obtain ⟨rfl, hrep⟩ := hclosed
      exact .ok hrep.clone
  | shared others => exact .ok (h.shared others)

/-! ## Whole runs -/

/-- The vector reads as the list: its length, every index, its iterator, the indices it accepts, and
its views. -/
structure Refines (vector : Standard E) (values : List E) : Prop where
  len : vector.len = values.length
  get : ∀ index, vector.get index = .ok values[index]?
  iter : ∃ iter, vector.iter = .ok iter ∧
    Yields (fun iter r ↦ Iter.next vector iter = .ok r) iter values
  assoc : ∀ index value, ∃ result, vector.assocValue index value = .ok result ∧
    (result.isSome ↔ index ≤ values.length)
  subview : ∀ start stop, (start ≤ stop ∧ stop ≤ values.length →
      ∃ view iter, vector.subview start stop = some view ∧ view.iter = .ok iter ∧
        view.len = stop - start ∧
        (∀ index, view.get index = .ok ((values.drop start).take (stop - start))[index]?) ∧
        Yields (fun iter r ↦ Iter.next view.vector iter = .ok r) iter
          ((values.drop start).take (stop - start))) ∧
    (¬(start ≤ stop ∧ stop ≤ values.length) → vector.subview start stop = none)

namespace Represents

variable {vector : Standard E}

theorem subview_get (h : Represents vector values) {start stop : ℕ} (index : ℕ) :
    SubView.get ⟨vector, start, stop⟩ index =
      .ok ((values.drop start).take (stop - start))[index]? := by
  rw [SubView.get, SubView.len]
  by_cases hindex : index ≥ stop - start
  · rw [if_pos hindex, List.getElem?_eq_none]
    rw [List.length_take]
    omega
  · rw [if_neg hindex, h.get_eq, List.getElem?_take_of_lt (Nat.lt_of_not_le hindex),
      List.getElem?_drop]

theorem refines (h : Represents vector values) : Refines vector values where
  len := h.len_eq
  get := h.get_eq
  iter := h.yields_iter
  assoc := by
    intro index value
    obtain ⟨result, hassoc, hrel⟩ := h.assocValue index
    refine ⟨result, hassoc, ?_⟩
    have hsome : result.isSome = (assocValues values index value).isSome := by
      generalize assocValues values index value = assigned at hrel
      cases hrel with
      | some _ | none => rfl
    rw [hsome, assocValues]
    split
    · simp only [Option.isSome_some, true_iff]
      omega
    · split
      · simp only [Option.isSome_some, true_iff]
        omega
      · simp only [Option.isSome_none, Bool.false_eq_true, false_iff]
        omega
  subview := by
    intro start stop
    have hlen : vector.size = values.length := h.len_eq
    constructor
    · rintro ⟨hstart, hstop⟩
      obtain ⟨iter, hiter, hyields⟩ := h.clone.yields_new hstop
      refine ⟨⟨vector.clone, start, stop⟩, iter, ?_, hiter, rfl, h.clone.subview_get, hyields⟩
      exact if_neg (by omega)
    · intro hbad
      exact if_pos (by omega)

end Represents

/-- Every run agrees with the model: it stops only where a transient is given an index past its
end, by that assertion, and otherwise gives a vector that reads as the list of the model. -/
theorem vector_refines (ops : List (Op E)) : Agrees Refines (run ops) (model ops) := by
  have hrun : Agrees Represents (run ops) (model ops) :=
    Agrees.foldlM (fun _ _ op h ↦ Op.agrees h op) ops .new
  generalize run ops = vector at hrun
  generalize model ops = values at hrun
  cases hrun with
  | ok hrep => exact .ok hrep.refines
  | error fault => exact .error fault

end Hara.Vector
