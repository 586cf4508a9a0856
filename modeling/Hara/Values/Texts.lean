import Hara.Values.AtomText
import Hara.Values.Equality
import Hara.Values.ShapeHash

/-!
# The texts of values

A collection prints its parts in the order in which it lists them, in the brackets of its kind. Two
values of the same form, with the same brackets and the same parts in the same order, have the same
text and the same hash (`SameForm`). And a text has only one reading: values that can be read back
and print alike are alike (`alike_of_display_eq`).
-/

namespace Hara.Values

open Hara.Lib Joined
open List hiding nil map

/-! ## Shapes in order -/

/-- The same atom, up to the size of integers. -/
def Atom.SameText (x y : Atom) : Prop :=
  x = y ∨ x.eq y = true ∧ (∀ d, x ≠ .float d) ∧ ∀ d, y ≠ .float d

theorem Atom.SameText.display_eq (formatDouble : Double → Text) {x y : Atom} (h : x.SameText y) :
    x.display formatDouble = y.display formatDouble := by
  rcases h with rfl | ⟨heq, hx, hy⟩
  · rfl
  · rcases cases_of_eq hx hy heq with rfl | ⟨n, ⟨rfl, rfl⟩ | ⟨rfl, rfl⟩⟩ <;> rfl

theorem Atom.SameText.javaHash_eq (formatDouble : Double → Text) (hashType : HashType)
    {x y : Atom} (h : x.SameText y) :
    x.javaHash formatDouble hashType = y.javaHash formatDouble hashType := by
  rcases h with rfl | ⟨heq, hx, hy⟩
  · rfl
  · exact Atom.javaHash_eq hx hy heq

namespace Shape

variable {C : Type}

/-- The same data in the same order. -/
inductive InStep (R : C → C → Prop) : Shape C → Shape C → Prop
  | atom {x y : Atom} (h : x.SameText y) : InStep R (.atom x) (.atom y)
  | sequence {xs ys : List C} (h : List.Forall₂ R xs ys) : InStep R (.sequence xs) (.sequence ys)
  | bindings {l m : List (C × C)} (h : List.Forall₂ (PairRel R) l m) :
      InStep R (.bindings l) (.bindings m)
  | members {xs ys : List C} (h : List.Forall₂ R xs ys) : InStep R (.members xs) (.members ys)

/-- The texts between the brackets. -/
def texts (display : C → Text) : Shape C → List Text
  | atom _ => []
  | sequence items => items.map display
  | bindings entries => entries.map fun entry ↦ display entry.1 ++ ' ' :: display entry.2
  | members items => items.map display

variable {R : C → C → Prop} {s s' : Shape C}

theorem InStep.refl (hrefl : ∀ x, R x x) (s : Shape C) : s.InStep R s := by
  cases s with
  | atom x => exact .atom (.inl rfl)
  | sequence xs => exact .sequence (forall₂_same.mpr fun x _ ↦ hrefl x)
  | bindings l => exact .bindings (forall₂_same.mpr fun p _ ↦ ⟨hrefl p.1, hrefl p.2⟩)
  | members xs => exact .members (forall₂_same.mpr fun x _ ↦ hrefl x)

theorem map_eq_map_of_forall₂ {α β : Type} {S : α → α → Prop} {f : α → β} {xs ys : List α}
    (hf : ∀ x y, S x y → f x = f y) (h : List.Forall₂ S xs ys) : xs.map f = ys.map f := by
  rw [← forall₂_eq_eq_eq, forall₂_map_left_iff, forall₂_map_right_iff]
  exact h.imp hf

theorem InStep.texts_eq {display : C → Text} (hR : ∀ x y, R x y → display x = display y)
    (h : s.InStep R s') : s.texts display = s'.texts display := by
  cases h with
  | atom => rfl
  | sequence h => exact map_eq_map_of_forall₂ hR h
  | bindings h =>
    refine map_eq_map_of_forall₂ ?_ h
    rintro p q ⟨hkey, hvalue⟩
    rw [hR _ _ hkey, hR _ _ hvalue]
  | members h => exact map_eq_map_of_forall₂ hR h

theorem InStep.compose_eq {atomHash : Atom → BitVec 64} {h : C → BitVec 64}
    (hatom : ∀ x y, x.SameText y → atomHash x = atomHash y) (hR : ∀ x y, R x y → h x = h y)
    (hstep : s.InStep R s') : s.compose atomHash h = s'.compose atomHash h := by
  cases hstep with
  | atom hxy => exact hatom _ _ hxy
  | sequence hall => exact congrArg (composeOrdered _) (map_eq_map_of_forall₂ hR hall)
  | bindings hall =>
    refine congrArg (composeUnordered _) (map_eq_map_of_forall₂ ?_ hall)
    rintro p q ⟨hkey, hvalue⟩
    rw [hR _ _ hkey, hR _ _ hvalue]
  | members hall => exact congrArg (composeUnordered _) (map_eq_map_of_forall₂ hR hall)

end Shape

/-! ## One level -/

/-- How a collection prints. -/
inductive Brackets where
  | round
  | square
  | queue
  | deque
  | map
  | set
  deriving DecidableEq

namespace Brackets

def start : Brackets → Text
  | round => ['(']
  | square => ['[']
  | queue => ['#', 'q', 'u', 'e', 'u', 'e', '[']
  | deque => ['#', 'd', 'e', 'q', 'u', 'e', '[']
  | map => ['\x7b']
  | set => ['#', '\x7b']

def stop : Brackets → Char
  | round => ')'
  | square => ']'
  | queue => ']'
  | deque => ']'
  | map => '\x7d'
  | set => '\x7d'

theorem closing_stop (b : Brackets) : Closing b.stop ∧ ' ' ≠ b.stop := by
  cases b <;> decide

theorem exists_start (b : Brackets) : ∃ c rest, b.start = c :: rest ∧ c ∈ Atom.openers ∧
    c ≠ '"' ∧ c ≠ '\\' ∧ ¬Closing c := by
  cases b <;> exact ⟨_, _, rfl, by decide⟩

/-- No bracket is the beginning of another. -/
theorem start_append_inj {b b' : Brackets} {r r' : Text} (h : b.start ++ r = b'.start ++ r') :
    b = b' ∧ r = r' := by
  cases b <;> cases b' <;> simp [start] at h ⊢ <;> exact h

end Brackets

namespace Data

variable {L : Layer}

/-- The brackets of a collection. -/
def brackets : Data L → Option Brackets
  | atom _ => none
  | sequential .list _ => some .round
  | sequential .cons _ => some .round
  | sequential .queue _ => some .queue
  | sequential .deque _ => some .deque
  | sequential .tuple _ => some .square
  | sequential .vector _ => some .square
  | map _ => some .map
  | orderedMap _ => some .map
  | sortedMap _ => some .map
  | priorityMap _ => some .map
  | trie _ => some .map
  | setLike .. => some .set

def isTrie : Data L → Bool
  | trie _ => true
  | _ => false

/-- The same brackets and the same data in the same order, also where it is hashed. -/
structure SameForm (R : L.Carrier → L.Carrier → Prop) (a b : Data L) : Prop where
  brackets : a.brackets = b.brackets
  trie : a.isTrie = b.isTrie
  listed : a.shape.InStep R b.shape
  hashed : a.hashedShape.InStep R b.hashedShape

variable (formatDouble : Double → Text) {R : L.Carrier → L.Carrier → Prop} {a b : Data L}

theorem display_eq {β : Brackets} (h : a.brackets = some β) :
    a.display formatDouble = β.start ++ (joined ' ' (a.shape.texts L.display) ++ [β.stop]) := by
  rw [← append_assoc]
  cases a with
  | atom => cases h
  | sequential kind items => cases kind <;> cases h <;> rfl
  | map | orderedMap | sortedMap | priorityMap | trie | setLike => cases h; rfl

theorem eq_atom_of_brackets (h : a.brackets = none) : ∃ x, a = atom x := by
  cases a with
  | atom x => exact ⟨x, rfl⟩
  | sequential kind => cases kind <;> cases h
  | map | orderedMap | sortedMap | priorityMap | trie | setLike => cases h

theorem SameForm.display_eq (hR : ∀ x y, R x y → L.display x = L.display y)
    (h : a.SameForm R b) : a.display formatDouble = b.display formatDouble := by
  rcases hbrackets : a.brackets with _ | β
  · obtain ⟨x, rfl⟩ := eq_atom_of_brackets hbrackets
    obtain ⟨y, rfl⟩ := eq_atom_of_brackets (h.brackets ▸ hbrackets)
    obtain ⟨hxy⟩ := h.listed
    exact hxy.display_eq formatDouble
  · rw [Data.display_eq formatDouble hbrackets,
      Data.display_eq formatDouble (h.brackets ▸ hbrackets), h.listed.texts_eq hR]

/-- What is missing in the hash of a trie depends on its keys. -/
theorem SameForm.ownDeficit_eq {hashType : HashType}
    (hstring : ∀ s : Text,
      L.javaHash hashType (L.ofAtom (.string s)) = (javaStringHash s).signExtend 64)
    (hR : ∀ x y, R x y → L.javaHash hashType x = L.javaHash hashType y)
    (h : a.SameForm R b) : a.ownDeficit = b.ownDeficit := by
  have htrie := h.trie
  cases a with
  | trie l =>
    cases b with
    | trie m =>
      rcases h.listed with _ | _ | hall | _
      rw [forall₂_map_left_iff, forall₂_map_right_iff] at hall
      refine congrArg sum (Shape.map_eq_map_of_forall₂ ?_ hall)
      rintro p q ⟨hkey, -⟩
      rw [← hstring, ← hstring, hR _ _ hkey]
    | _ => cases htrie
  | _ =>
    cases b with
    | trie m => cases htrie
    | _ => rfl

theorem SameForm.javaHash_eq {hashType : HashType}
    (hstring : ∀ s : Text,
      L.javaHash hashType (L.ofAtom (.string s)) = (javaStringHash s).signExtend 64)
    (hR : ∀ x y, R x y → L.javaHash hashType x = L.javaHash hashType y)
    (h : a.SameForm R b) :
    a.javaHash formatDouble hashType = b.javaHash formatDouble hashType := by
  have ha := a.javaHash_add_ownDeficit formatDouble hstring
  have hb := b.javaHash_add_ownDeficit formatDouble hstring
  have hcompose := h.hashed.compose_eq (fun x y hxy ↦ hxy.javaHash_eq formatDouble hashType) hR
  rw [hcompose, ← hb, h.ownDeficit_eq hstring hR] at ha
  exact add_right_cancel ha

theorem rank_eq (a : Data L) :
    a.rank = match a.shape with
      | .atom x => x.rank
      | .sequence _ => 10
      | .bindings _ => 11
      | .members _ => 12 := by
  cases a <;> rfl

theorem SameForm.rank_eq (ha : a.asAtom = none) (h : a.SameForm R b) : a.rank = b.rank := by
  have hlisted := h.listed
  rw [asAtom_eq] at ha
  rw [Data.rank_eq, Data.rank_eq b]
  generalize a.shape = s at ha hlisted ⊢
  generalize b.shape = s' at hlisted ⊢
  cases hlisted with
  | atom => cases ha
  | sequence | bindings | members => rfl

/-! ## Reading -/

/-- A readable atom, or a collection of readable values. -/
structure Readable (W : L.Carrier → Prop) (a : Data L) : Prop where
  atom : ∀ x, a = .atom x → x.Readable
  parts : ∀ x ∈ a.shape.parts, W x

theorem Readable.starts_display {W : L.Carrier → Prop} (ha : a.Readable W) :
    Starts Closing (a.display formatDouble) := by
  rcases hbrackets : a.brackets with _ | β
  · obtain ⟨x, rfl⟩ := eq_atom_of_brackets hbrackets
    exact Atom.starts_display formatDouble (ha.atom x rfl)
  · obtain ⟨c, rest, hstart, -, -, -, hc⟩ := β.exists_start
    rw [Data.display_eq formatDouble hbrackets, hstart]
    exact ⟨c, _, rfl, hc⟩

/-- An atom is not read as a collection. -/
theorem display_atom_append_ne {x : Atom} (hx : x.Readable) {β : Brackets}
    (h : a.brackets = some β) (r r' : Text) :
    x.display formatDouble ++ r ≠ a.display formatDouble ++ r' := by
  intro heq
  obtain ⟨c, rest, hstart, hopen, hquote, hbackslash, -⟩ := β.exists_start
  rw [Data.display_eq formatDouble h, hstart] at heq
  rcases hx.display_cases formatDouble with
    ⟨s, -, htext⟩ | ⟨d, e, text, -, htext, -⟩ | ⟨d, text, htext, hword, -, -⟩ <;>
    rw [htext] at heq <;> obtain ⟨rfl, -⟩ := cons.inj heq
  · exact hquote rfl
  · exact hbackslash rfl
  · exact hword hopen

/-- The shape of a collection goes by its brackets. -/
theorem shape_of_brackets {β : Brackets} (h : a.brackets = some β) :
    (∃ xs, a.shape = .sequence xs) ∧ β ≠ .map ∧ β ≠ .set ∨
      (∃ l, a.shape = .bindings l) ∧ β = .map ∨ (∃ xs, a.shape = .members xs) ∧ β = .set := by
  cases a with
  | atom => cases h
  | sequential kind xs => cases kind <;> cases h <;> exact .inl ⟨⟨xs, rfl⟩, by decide, by decide⟩
  | setLike kind xs =>
    cases h
    exact .inr (.inr ⟨⟨xs, rfl⟩, rfl⟩)
  | map | orderedMap | sortedMap | priorityMap | trie =>
    cases h
    exact .inr (.inl ⟨⟨_, rfl⟩, rfl⟩)

section

variable {W : L.Carrier → Prop} (hstarts : ∀ x, W x → Starts Closing (L.display x))
  (hreads : ∀ x y, W x → W y → Reads Closing L.display R x y)

include hstarts hreads

/-- What two collections in the same brackets list. -/
theorem alike_of_texts {β : Brackets} (hβ : a.brackets = some β) (hβ' : b.brackets = some β)
    (ha : ∀ x ∈ a.shape.parts, W x) (hb : ∀ x ∈ b.shape.parts, W x) {r r' : Text}
    (h : joined ' ' (a.shape.texts L.display) ++ β.stop :: r =
      joined ' ' (b.shape.texts L.display) ++ β.stop :: r') :
    a.shape.Alike R b.shape ∧ r = r' := by
  have hspace : Closing ' ' := by decide
  obtain ⟨hstop, hne⟩ := β.closing_stop
  rcases shape_of_brackets hβ with ⟨⟨xs, hs⟩, hmap, hset⟩ | ⟨⟨l, hs⟩, rfl⟩ | ⟨⟨xs, hs⟩, rfl⟩ <;>
    rcases shape_of_brackets hβ' with
      ⟨⟨ys, hs'⟩, hmap', hset'⟩ | ⟨⟨m, hs'⟩, hβ⟩ | ⟨⟨ys, hs'⟩, hβ⟩ <;>
    rw [hs] at ha h ⊢ <;> rw [hs'] at hb h ⊢
  · obtain ⟨hall, rfl⟩ := forall₂_of_joined hspace hstop hne (fun x hx ↦ hstarts x (ha x hx))
      (fun y hy ↦ hstarts y (hb y hy)) (fun x hx y hy ↦ hreads x y (ha x hx) (hb y hy)) h
    exact ⟨.sequence hall, rfl⟩
  · exact absurd hβ hmap
  · exact absurd hβ hset
  · exact absurd rfl hmap'
  · have hentry (p : L.Carrier × L.Carrier) (hp : W p.1) :
        Starts Closing (L.display p.1 ++ ' ' :: L.display p.2) := by
      obtain ⟨c, rest, htext, hc⟩ := hstarts p.1 hp
      exact ⟨c, _, by rw [htext]; rfl, hc⟩
    have hkey {p} (hp : p ∈ l) : W p.1 ∧ W p.2 := Shape.forall_parts_bindings ha hp
    have hkey' {q} (hq : q ∈ m) : W q.1 ∧ W q.2 := Shape.forall_parts_bindings hb hq
    obtain ⟨hall, rfl⟩ := forall₂_of_joined hspace hstop hne
      (fun p hp ↦ hentry p (hkey hp).1) (fun q hq ↦ hentry q (hkey' hq).1)
      (fun p hp q hq ↦ Reads.pair hspace (hreads p.1 q.1 (hkey hp).1 (hkey' hq).1)
        (hreads p.2 q.2 (hkey hp).2 (hkey' hq).2)) h
    exact ⟨.bindings ⟨m, .refl m, hall⟩, rfl⟩
  · cases hβ
  · exact absurd rfl hset'
  · cases hβ
  · obtain ⟨hall, rfl⟩ := forall₂_of_joined hspace hstop hne (fun x hx ↦ hstarts x (ha x hx))
      (fun y hy ↦ hstarts y (hb y hy)) (fun x hx y hy ↦ hreads x y (ha x hx) (hb y hy)) h
    exact ⟨.members ⟨ys, .refl ys, hall⟩, rfl⟩

/-- **Collections are read back** up to their kinds. -/
theorem Readable.reads_display (ha : a.Readable W) (hb : b.Readable W) :
    Reads Closing (display formatDouble) (fun a b ↦ a.shape.Alike R b.shape) a b := by
  intro r r' hr hr' h
  rcases hβ : a.brackets with _ | β <;> rcases hβ' : b.brackets with _ | β'
  · obtain ⟨x, rfl⟩ := eq_atom_of_brackets hβ
    obtain ⟨y, rfl⟩ := eq_atom_of_brackets hβ'
    obtain ⟨heq, hrest⟩ :=
      Atom.reads_display formatDouble (ha.atom x rfl) (hb.atom y rfl) r r' hr hr' h
    exact ⟨.atom heq, hrest⟩
  · obtain ⟨x, rfl⟩ := eq_atom_of_brackets hβ
    exact absurd h (display_atom_append_ne formatDouble (ha.atom x rfl) hβ' r r')
  · obtain ⟨y, rfl⟩ := eq_atom_of_brackets hβ'
    exact absurd h.symm (display_atom_append_ne formatDouble (hb.atom y rfl) hβ r' r)
  · rw [Data.display_eq formatDouble hβ, Data.display_eq formatDouble hβ'] at h
    simp only [append_assoc, singleton_append] at h
    obtain ⟨rfl, hrest⟩ := Brackets.start_append_inj h
    exact alike_of_texts hstarts hreads hβ hβ' ha.parts hb.parts hrest

end

end Data

/-! ## All levels -/

section Levels

variable (formatDouble : Double → Text)

/-- The same data in the same order and in the same brackets, at every level. -/
def SameForm : (n : ℕ) → (layer formatDouble n).Carrier → (layer formatDouble n).Carrier → Prop
  | 0 => Atom.SameText
  | n + 1 => Data.SameForm (SameForm n)

/-- A value with no doubles and only readable names in it. -/
def Readable : (n : ℕ) → (layer formatDouble n).Carrier → Prop
  | 0 => Atom.Readable
  | n + 1 => Data.Readable (Readable n)

variable {formatDouble} {n : ℕ}

theorem SameForm.refl : ∀ a, SameForm formatDouble n a a := by
  induction n with
  | zero =>
    intro a
    exact .inl rfl
  | succ n ih =>
    intro a
    exact ⟨rfl, rfl, .refl ih _, .refl ih _⟩

theorem SameForm.display_eq : ∀ a b, SameForm formatDouble n a b →
    (layer formatDouble n).display a = (layer formatDouble n).display b := by
  induction n with
  | zero =>
    intro a b h
    exact Atom.SameText.display_eq formatDouble h
  | succ n ih =>
    intro a b h
    exact Data.SameForm.display_eq formatDouble ih h

theorem SameForm.javaHash_eq (hashType : HashType) : ∀ a b, SameForm formatDouble n a b →
    (layer formatDouble n).javaHash hashType a = (layer formatDouble n).javaHash hashType b := by
  induction n with
  | zero =>
    intro a b h
    exact Atom.SameText.javaHash_eq formatDouble hashType h
  | succ n ih =>
    intro a b h
    exact Data.SameForm.javaHash_eq formatDouble (javaHash_string hashType) ih h

theorem starts_display : ∀ a, Readable formatDouble n a →
    Starts Closing ((layer formatDouble n).display a) := by
  cases n with
  | zero =>
    intro a ha
    exact Atom.starts_display formatDouble ha
  | succ n =>
    intro a ha
    exact Data.Readable.starts_display formatDouble ha

theorem reads_display : ∀ a b, Readable formatDouble n a → Readable formatDouble n b →
    Reads Closing (layer formatDouble n).display (Alike formatDouble n) a b := by
  induction n with
  | zero =>
    intro a b ha hb
    exact Atom.reads_display formatDouble ha hb
  | succ n ih =>
    intro a b ha hb
    exact Data.Readable.reads_display formatDouble starts_display ih ha hb

/-- Readable values with one text are alike. -/
theorem alike_of_display_eq {a b : (layer formatDouble n).Carrier}
    (ha : Readable formatDouble n a) (hb : Readable formatDouble n b)
    (h : (layer formatDouble n).display a = (layer formatDouble n).display b) :
    Alike formatDouble n a b :=
  (reads_display a b ha hb [] [] nofun nofun (by rw [h])).1

end Levels

end Hara.Values
