import Hara.Lib.Decimal
import Hara.Lib.Joined
import Hara.Values.Atom

/-!
# The texts of atoms

The printed text of an atom can be read back in front of a space or a closing bracket, if symbols
and keywords have names that a reader would take as such. Doubles print like lists and are left out.
-/

namespace Hara.Values

open Hara.Lib Joined
open List hiding nil

/-- What can follow an item of a collection. -/
def Closing (c : Char) : Prop := c = ' ' ∨ c = ')' ∨ c = ']' ∨ c = '\x7d'

instance (c : Char) : Decidable (Closing c) := inferInstanceAs (Decidable (_ ∨ _))

namespace Atom

/-! ## Hexadecimal digits -/

def unhex (text : Text) : ℕ :=
  text.foldl (fun n c ↦ 16 * n + (c.toNat - if c.isDigit then 48 else 55)) 0

/-- Control characters are written with four digits. -/
theorem hex4_control : ∀ n < 0xa0, unhex (hex4 n) = n ∧ (hex4 n).length = 4 := by
  decide +kernel

theorem lt_of_isControl {c : Char} (h : isControl c = true) : c.toNat < 0xa0 := by
  simp only [isControl, Bool.or_eq_true, Bool.and_eq_true, decide_eq_true_eq] at h
  omega

/-! ## Characters -/

/-- The characters that are written by name. -/
def namedCharacters : List (Text × Char) :=
  [("\\newline".toList, '\n'), ("\\space".toList, ' '), ("\\tab".toList, '\t'),
    ("\\backspace".toList, '\x08'), ("\\formfeed".toList, '\x0c'), ("\\return".toList, '\r')]

/-- The character with this text. -/
def readCharacter (text : Text) : Char :=
  (namedCharacters.lookup text).getD
    (if text.length = 2 then text.getLastD ' ' else Char.ofNat (unhex (text.drop 2)))

/-- The text of a character starts with a backslash, and from its third character on it can only
end at what closes it. -/
def ReadsCharacter (c : Char) : Prop :=
  readCharacter (displayCharacter c) = c ∧ (displayCharacter c).head? = some '\\' ∧
    2 ≤ (displayCharacter c).length ∧ ∀ d ∈ (displayCharacter c).drop 2, ¬Closing d

instance (c : Char) : Decidable (ReadsCharacter c) :=
  have := List.decidableBAll (fun d ↦ ¬Closing d) ((displayCharacter c).drop 2)
  inferInstanceAs (Decidable (_ ∧ _))

theorem readsCharacter_ofNat : ∀ n < 0xa0, ReadsCharacter (Char.ofNat n) := by
  decide +kernel

theorem readsCharacter (c : Char) : ReadsCharacter c := by
  by_cases hc : c.toNat < 0xa0
  · exact Char.ofNat_toNat c ▸ readsCharacter_ofNat c.toNat hc
  · have hne {d : Char} (hd : d.toNat < 0xa0) : c ≠ d := by
      rintro rfl
      exact hc hd
    have hcontrol : ¬isControl c = true := fun h ↦ hc (lt_of_isControl h)
    have htext : displayCharacter c = ['\\', c] := by
      have hnewline : c ≠ '\n' := hne (by decide)
      have hspace : c ≠ ' ' := hne (by decide)
      have htab : c ≠ '\t' := hne (by decide)
      have hbackspace : c ≠ '\x08' := hne (by decide)
      have hformfeed : c ≠ '\x0c' := hne (by decide)
      have hreturn : c ≠ '\r' := hne (by decide)
      simp only [displayCharacter, if_neg hnewline, if_neg hspace, if_neg htab,
        if_neg hbackspace, if_neg hformfeed, if_neg hreturn, if_neg hcontrol]
    have hnamed : namedCharacters.lookup ['\\', c] = none := by
      have hlong : ∀ entry ∈ namedCharacters, entry.1.length ≠ 2 := by decide +kernel
      rw [lookup_eq_none_iff]
      intro entry hentry
      rw [bne_iff_ne]
      intro heq
      exact hlong entry hentry (heq ▸ rfl)
    have hread : readCharacter ['\\', c] = c := by
      rw [readCharacter, hnamed]
      rfl
    rw [ReadsCharacter, htext]
    exact ⟨hread, rfl, le_rfl, forall_mem_nil _⟩

/-! ## Strings -/

/-- Reads a character of a string. -/
def readEscaped : Text → Option (Char × Text)
  | '\\' :: 'n' :: rest => some ('\n', rest)
  | '\\' :: 'r' :: rest => some ('\r', rest)
  | '\\' :: 't' :: rest => some ('\t', rest)
  | '\\' :: 'b' :: rest => some ('\x08', rest)
  | '\\' :: 'f' :: rest => some ('\x0c', rest)
  | '\\' :: 'u' :: p :: q :: s :: t :: rest => some (Char.ofNat (unhex [p, q, s, t]), rest)
  | '\\' :: c :: rest => some (c, rest)
  | '"' :: _ => none
  | c :: rest => some (c, rest)
  | [] => none

theorem readEscaped_escape (c : Char) (rest : Text) :
    readEscaped (escape c ++ rest) = some (c, rest) := by
  rw [escape]
  split_ifs with hn hr ht hb hf hbackslash hquote hcontrol
  · rw [hn]; rfl
  · rw [hr]; rfl
  · rw [ht]; rfl
  · rw [hb]; rfl
  · rw [hf]; rfl
  · rw [hbackslash]; rfl
  · rw [hquote]; rfl
  · obtain ⟨hread, hlength⟩ := hex4_control _ (lt_of_isControl hcontrol)
    match hex : hex4 c.toNat, hlength with
    | [p, q, s, t], _ =>
      rw [hex] at hread
      have hread' := congrArg Char.ofNat hread
      rw [Char.ofNat_toNat] at hread'
      exact congrArg (fun d ↦ some (d, rest)) hread'
  · rw [singleton_append, readEscaped.eq_def]
    split <;> simp_all

/-- The text of a string is read up to its closing quote. -/
theorem displayString_append_inj {s t r r' : Text}
    (h : displayString s ++ r = displayString t ++ r') : s = t ∧ r = r' := by
  simp only [displayString, cons_append, append_assoc, nil_append, cons.injEq, true_and] at h
  induction s generalizing t with
  | nil =>
    cases t with
    | nil => exact ⟨rfl, (cons.inj h).2⟩
    | cons d t =>
      have hread := readEscaped_escape d (t.flatMap escape ++ '"' :: r')
      rw [← append_assoc, ← flatMap_cons, ← h] at hread
      cases hread
  | cons c s ih =>
    cases t with
    | nil =>
      have hread := readEscaped_escape c (s.flatMap escape ++ '"' :: r)
      rw [← append_assoc, ← flatMap_cons, h] at hread
      cases hread
    | cons d t =>
      have hread := readEscaped_escape c (s.flatMap escape ++ '"' :: r)
      rw [← append_assoc, ← flatMap_cons, h, flatMap_cons, append_assoc,
        readEscaped_escape] at hread
      obtain ⟨rfl, hrest⟩ := Prod.mk.inj (Option.some.inj hread)
      obtain ⟨rfl, rfl⟩ := ih hrest.symm
      exact ⟨rfl, rfl⟩

/-! ## Words -/

/-- The characters by which a text that is not a word starts. -/
def openers : Text := ['(', '[', '\x7b', '#', '"', '\\']

/-- The text of an atom that is neither a string nor a character. -/
def IsWord (text : Text) : Prop := (∀ c ∈ text, ¬Closing c) ∧ ∃ c ∈ text.head?, c ∉ openers

/-- The words that are no names. -/
def reservedWords : List (Text × Atom) :=
  [("nil".toList, nil), ("true".toList, bool true), ("false".toList, bool false)]

/-- A word that a reader takes as a name. -/
def IsName (name : Text) : Prop :=
  IsWord name ∧ name.head? ≠ some ':' ∧
    reservedWords.lookup name = none ∧ Decimal.int? name = none

/-- Not a double, and with a name that can be read. -/
def Readable : Atom → Prop
  | float _ => False
  | keyword name => ∀ c ∈ name, ¬Closing c
  | symbol name => IsName name
  | _ => True

/-- What a word that is no number stands for. -/
def readName (text : Text) : Atom :=
  (reservedWords.lookup text).getD <|
    if text.head? = some ':' then keyword text.tail else symbol text

/-- What a word stands for. -/
def readWord (text : Text) : ℚ ⊕ Atom :=
  (Decimal.int? text).elim (.inr (readName text)) fun n ↦ .inl n

theorem int?_integerText (n : ℤ) : Decimal.int? (integerText n) = some n := by
  rw [integerText]
  split_ifs with hn
  · rw [Decimal.int?, Decimal.digits?_toDigits, Option.map_some]
    congr 1
    omega
  · rw [Decimal.int?.eq_def]
    split
    · next heq => exact absurd heq (Decimal.toDigits_ne_cons rfl)
    · rw [Decimal.nat?_toDigits, Option.map_some, Int.ofNat_eq_natCast]
      congr 1
      omega

theorem isWord_integerText (n : ℤ) : IsWord (integerText n) := by
  have hdigit {c : Char} (hc : c.isDigit = true) : ¬Closing c ∧ c ∉ openers := by
    constructor
    · rintro (rfl | rfl | rfl | rfl) <;> cases hc
    · intro hmem
      have hall : openers.all (!·.isDigit) = true := by decide
      have hnot := all_eq_true.mp hall c hmem
      rw [hc] at hnot
      cases hnot
  rw [integerText]
  split_ifs with hn
  · refine ⟨forall_mem_cons.mpr ⟨by decide, fun c hc ↦ ?_⟩, '-', rfl, by decide⟩
    exact (hdigit (Decimal.isDigit_of_mem hc)).1
  · refine ⟨fun c hc ↦ (hdigit (Decimal.isDigit_of_mem hc)).1, ?_⟩
    cases htext : Nat.toDigits 10 n.natAbs with
    | nil => exact absurd htext Nat.toDigits_ne_nil
    | cons c text => exact ⟨c, rfl, (hdigit (Decimal.isDigit_of_mem (htext ▸ mem_cons_self))).2⟩

variable (formatDouble : Double → Text) {x y : Atom}

/-- An atom is a string, a character or a word. -/
theorem Readable.cases (h : x.Readable) :
    (∃ s, x = string s) ∨ (∃ c, x = character c) ∨
      IsWord (x.display formatDouble) ∧ readWord (x.display formatDouble) = x.canonical := by
  have hword {text : Text} {c : Char} (hc : ¬Closing c) (hopen : c ∉ openers)
      (htext : ∀ d ∈ text, ¬Closing d) : IsWord (c :: text) :=
    ⟨forall_mem_cons.mpr ⟨hc, htext⟩, c, rfl, hopen⟩
  have hall {text : Text} (htext : text.all (¬Closing ·) = true) : ∀ d ∈ text, ¬Closing d :=
    fun d hd ↦ of_decide_eq_true (all_eq_true.mp htext d hd)
  cases x with
  | string s => exact .inl ⟨s, rfl⟩
  | character c => exact .inr (.inl ⟨c, rfl⟩)
  | nil => exact .inr (.inr ⟨hword (by decide) (by decide) (hall (by decide)), rfl⟩)
  | bool b =>
    refine .inr (.inr ?_)
    cases b
    · exact ⟨hword (by decide) (by decide) (hall (by decide)), rfl⟩
    · exact ⟨hword (by decide) (by decide) (hall (by decide)), rfl⟩
  | number n =>
    have htext : display formatDouble (number n) = integerText n.toInt := rfl
    refine .inr (.inr ?_)
    rw [htext, readWord, int?_integerText]
    exact ⟨isWord_integerText n.toInt, rfl⟩
  | bigInteger n =>
    have htext : display formatDouble (bigInteger n) = integerText n := rfl
    refine .inr (.inr ?_)
    rw [htext, readWord, int?_integerText]
    exact ⟨isWord_integerText n, rfl⟩
  | float d => exact h.elim
  | keyword name =>
    refine .inr (.inr ⟨hword (by decide) (by decide) h, ?_⟩)
    have hint : Decimal.int? (':' :: name) = none := by
      simp [Decimal.int?, Decimal.nat?, Decimal.digits?]
    have hlookup : reservedWords.lookup (':' :: name) = none := by
      rw [lookup_eq_none_iff]
      have hcolon : ∀ entry ∈ reservedWords, entry.1.head? ≠ some ':' := by decide +kernel
      intro entry hentry
      rw [bne_iff_ne]
      intro heq
      exact hcolon entry hentry (heq ▸ rfl)
    have htext : display formatDouble (keyword name) = ':' :: name := rfl
    rw [htext, readWord, hint, readName, hlookup]
    rfl
  | symbol name =>
    obtain ⟨hisWord, hcolon, hlookup, hint⟩ := h
    refine .inr (.inr ⟨hisWord, ?_⟩)
    have htext : display formatDouble (symbol name) = name := rfl
    rw [htext, readWord, hint, readName, hlookup, if_neg hcolon]
    rfl

/-- The first character of a text, and how the rest of it goes on. -/
theorem Readable.display_cases (h : x.Readable) :
    (∃ s, x = string s ∧ x.display formatDouble = '"' :: (s.flatMap escape ++ ['"'])) ∨
    (∃ c d text, x = character c ∧ x.display formatDouble = '\\' :: d :: text ∧
      ∀ e ∈ text, ¬Closing e) ∨
    ∃ d text, x.display formatDouble = d :: text ∧ d ∉ openers ∧ (∀ e ∈ d :: text, ¬Closing e) ∧
      readWord (d :: text) = x.canonical := by
  rcases h.cases formatDouble with ⟨s, rfl⟩ | ⟨c, rfl⟩ | ⟨⟨hclosing, d, hd, hopen⟩, hread⟩
  · exact .inl ⟨s, rfl, rfl⟩
  · obtain ⟨-, hhead, hlength, hrest⟩ := readsCharacter c
    match hc : displayCharacter c, hlength with
    | b :: d :: text, _ =>
      rw [hc] at hhead hrest
      cases hhead
      exact .inr (.inl ⟨c, d, text, rfl, hc, hrest⟩)
  · match htext : x.display formatDouble with
    | [] =>
      rw [htext] at hd
      cases hd
    | e :: text =>
      rw [htext] at hd hclosing hread
      cases hd
      exact .inr (.inr ⟨_, text, rfl, hopen, hclosing, hread⟩)

theorem starts_display (h : x.Readable) : Starts Closing (x.display formatDouble) := by
  rcases h.display_cases formatDouble with
    ⟨s, -, htext⟩ | ⟨c, d, text, -, htext, -⟩ | ⟨d, text, htext, -, hclosing, -⟩
  · exact ⟨_, _, htext, by decide⟩
  · exact ⟨_, _, htext, by decide⟩
  · exact ⟨d, text, htext, hclosing d mem_cons_self⟩

/-- **Atoms are read back** up to equality. -/
theorem reads_display (hx : x.Readable) (hy : y.Readable) :
    Reads Closing (display formatDouble) (fun x y ↦ x.eq y = true) x y := by
  intro r r' hr hr' h
  have hquote : '"' ∈ openers := by decide
  have hbackslash : '\\' ∈ openers := by decide
  rcases hx.display_cases formatDouble with
    ⟨s, hs, htext⟩ | ⟨c, d, text, hc, htext, hclosing⟩ |
      ⟨d, text, htext, hopen, hclosing, hread⟩ <;>
  rcases hy.display_cases formatDouble with
    ⟨t, ht, htext'⟩ | ⟨c', d', text', hc', htext', hclosing'⟩ |
      ⟨d', text', htext', hopen', hclosing', hread'⟩
  · subst hs ht
    obtain ⟨rfl, rfl⟩ := displayString_append_inj h
    exact ⟨eq_iff.mpr rfl, rfl⟩
  · rw [htext, htext'] at h
    exact absurd (cons.inj h).1 (by decide)
  · rw [htext, htext'] at h
    exact absurd ((cons.inj h).1 ▸ hquote) hopen'
  · rw [htext, htext'] at h
    exact absurd (cons.inj h).1 (by decide)
  · -- the second character may be anything, and the others end where the text ends
    rw [htext, htext'] at h
    obtain ⟨-, hdrop⟩ := cons.inj h
    obtain ⟨rfl, hrest⟩ := cons.inj hdrop
    obtain ⟨rfl, rfl⟩ := append_inj_of_ends hclosing hclosing' hr hr' hrest
    subst hc hc'
    have hsame : displayCharacter c = displayCharacter c' := htext.trans htext'.symm
    have hcc : c = c' := by rw [← (readsCharacter c).1, hsame, (readsCharacter c').1]
    exact ⟨eq_iff.mpr (congrArg _ (congrArg _ hcc)), rfl⟩
  · rw [htext, htext'] at h
    exact absurd ((cons.inj h).1 ▸ hbackslash) hopen'
  · rw [htext, htext'] at h
    exact absurd ((cons.inj h).1 ▸ hquote) hopen
  · rw [htext, htext'] at h
    exact absurd ((cons.inj h).1 ▸ hbackslash) hopen
  · rw [htext, htext'] at h
    obtain ⟨hword, rfl⟩ := append_inj_of_ends hclosing hclosing' hr hr' h
    exact ⟨eq_iff.mpr (by rw [← hread, hword, hread']), rfl⟩

end Atom

end Hara.Values
