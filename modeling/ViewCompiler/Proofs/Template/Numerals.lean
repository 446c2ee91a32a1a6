/-
**Decimal numbers in literals.**

A number in a literal is read in two steps: a sign and the longest run of characters that numbers
are made of are taken as a whole, and only then the run is looked at.  The run holds the letter of
an exponent, but no sign behind it.  So a decimal number is taken as a whole exactly if its exponent
has no sign of its own; otherwise the run ends behind the letter, and what has been taken is no
number.

Main definitions:

* `ViewCompiler.Decimal` — the decimal numbers, made up of a sign, a mantissa and an exponent;
* `ViewCompiler.Numeral` — a text that is read as a number or refused, whatever follows it.

Main results:

* `ViewCompiler.Decimal.numeral`, `ViewCompiler.Decimal.isNumberText_chars` — a decimal number is
  such a text, and it is read if its exponent has no sign;
* `ViewCompiler.numeral_of_parse` — so is every text that is read as the number that it spells.
-/

import Mathlib.Data.List.TakeWhile
import ViewCompiler.Outcome
import ViewCompiler.Template.Literal
import ViewCompiler.Text.Cursor

set_option relaxedAutoImplicit false
set_option autoImplicit false

namespace ViewCompiler

open LiteralReader

/-! ### The parts of a decimal number -/

/-- One digit or more. -/
structure Digits where
  chars : List Char
  ne_nil : chars ≠ []
  isDigit : ∀ c ∈ chars, c.isDigit = true

/-- Digits written out. -/
def Digits.ofChars (chars : List Char) (h : (!chars.isEmpty && chars.all Char.isDigit) = true) :
    Digits where
  chars := chars
  ne_nil := by
    rintro rfl
    cases h
  isDigit c hc := by
    rw [Bool.and_eq_true] at h
    exact List.all_eq_true.1 h.2 c hc

/-- Digits, digits with a point and a fraction behind them, or a point with digits behind it. -/
inductive Mantissa where
  | whole (digits : Digits)
  | pointed (digits : Digits) (fraction : List Char) (isDigit : ∀ c ∈ fraction, c.isDigit = true)
  | point (digits : Digits)

def Mantissa.chars : Mantissa → List Char
  | whole digits => digits.chars
  | pointed digits fraction _ => digits.chars ++ '.' :: fraction
  | point digits => '.' :: digits.chars

/-- A sign, or none. -/
inductive Sign where
  | none
  | plus
  | minus
  deriving DecidableEq

def Sign.chars : Sign → List Char
  | none => []
  | plus => ['+']
  | minus => ['-']

/-- The letter `e` in either case, a sign or none, and digits. -/
structure Exponent where
  letter : Char
  letter_eq : letter = 'e' ∨ letter = 'E'
  sign : Sign
  digits : Digits

def Exponent.chars (e : Exponent) : List Char :=
  e.letter :: (e.sign.chars ++ e.digits.chars)

/-- A decimal number. -/
structure Decimal where
  sign : Sign
  mantissa : Mantissa
  exponent : Option Exponent

namespace Decimal

/-- The exponent, if there is one. -/
def exponentChars (d : Decimal) : List Char :=
  (d.exponent.map Exponent.chars).getD []

def chars (d : Decimal) : List Char :=
  d.sign.chars ++ (d.mantissa.chars ++ d.exponentChars)

def text (d : Decimal) : String :=
  .ofList d.chars

/-- The exponent has a sign of its own. -/
def signsExponent (d : Decimal) : Bool :=
  d.exponent.any (·.sign ≠ .none)

end Decimal

/-! ### Characters -/

/-- A number starts with the character. -/
def startsNumber (c : Char) : Bool :=
  c.isDigit || isSign c || c = '.'

theorem isNumberChar_of_isDigit {c : Char} (h : c.isDigit = true) : isNumberChar c = true := by
  simp [isNumberChar, h]

theorem isSign_of_isNumberChar {c : Char} (h : isNumberChar c = true) : isSign c = false := by
  rw [Bool.eq_false_iff]
  intro hsign
  simp only [isSign, Bool.or_eq_true, decide_eq_true_eq] at hsign
  rcases hsign with rfl | rfl <;> cases h

/-- What is taken in front of a number is a sign, or nothing. -/
theorem exists_sign (text : List Char) :
    ∃ (sign : Sign) (run : List Char), text = sign.chars ++ run ∧
      text.take (if text.head?.any isSign then 1 else 0) = sign.chars := by
  cases text with
  | nil => exact ⟨.none, [], rfl, rfl⟩
  | cons c more =>
      cases hc : isSign c with
      | false => exact ⟨.none, c :: more, rfl, by simp [hc, Sign.chars]⟩
      | true =>
          have hchar := hc
          simp only [isSign, Bool.or_eq_true, decide_eq_true_eq] at hchar
          rcases hchar with rfl | rfl
          · exact ⟨.minus, more, rfl, rfl⟩
          · exact ⟨.plus, more, rfl, rfl⟩

theorem Sign.exists_cons {sign : Sign} (h : sign ≠ .none) :
    ∃ c, sign.chars = [c] ∧ isSign c = true := by
  cases sign with
  | none => exact absurd rfl h
  | plus => exact ⟨'+', rfl, rfl⟩
  | minus => exact ⟨'-', rfl, rfl⟩

namespace Mantissa

theorem isNumberChar (m : Mantissa) : ∀ c ∈ m.chars, isNumberChar c = true ∧ c ≠ '_' := by
  have hdigit : ∀ {c : Char}, c.isDigit = true → LiteralReader.isNumberChar c = true ∧ c ≠ '_' :=
    fun h => ⟨isNumberChar_of_isDigit h, ne_of_class h rfl⟩
  intro c hc
  cases m with
  | whole digits => exact hdigit (digits.isDigit c hc)
  | pointed digits fraction hfraction =>
      rcases List.mem_append.1 hc with hc | hc
      · exact hdigit (digits.isDigit c hc)
      · rcases List.mem_cons.1 hc with rfl | hc
        · exact ⟨rfl, by decide⟩
        · exact hdigit (hfraction c hc)
  | point digits =>
      rcases List.mem_cons.1 hc with rfl | hc
      · exact ⟨rfl, by decide⟩
      · exact hdigit (digits.isDigit c hc)

theorem exists_cons (m : Mantissa) :
    ∃ c more, m.chars = c :: more ∧ (c.isDigit || c = '.') = true := by
  have hdigits : ∀ digits : Digits, ∃ c more, digits.chars = c :: more ∧ c.isDigit = true := by
    intro digits
    obtain ⟨c, more, hmore⟩ := List.exists_cons_of_ne_nil digits.ne_nil
    exact ⟨c, more, hmore, digits.isDigit c (by rw [hmore]; exact List.mem_cons_self)⟩
  cases m with
  | whole digits =>
      obtain ⟨c, more, hmore, hc⟩ := hdigits digits
      exact ⟨c, more, hmore, by simp [hc]⟩
  | pointed digits fraction hfraction =>
      obtain ⟨c, more, hmore, hc⟩ := hdigits digits
      exact ⟨c, more ++ '.' :: fraction, by simp [chars, hmore], by simp [hc]⟩
  | point digits => exact ⟨'.', digits.chars, rfl, rfl⟩

/-- Behind a mantissa, what stands there decides whether all is a number. -/
theorem isUnsigned_append (m : Mantissa) {tail : List Char}
    (htail : ∀ c ∈ tail.head?, c.isDigit = false ∧ c ≠ '.') :
    isUnsigned (m.chars ++ tail) = isExponent tail := by
  have hends : ∀ c ∈ tail.head?, c.isDigit = false := fun c hc => (htail c hc).1
  cases m with
  | whole digits =>
      have hne : digits.chars.isEmpty = false := by simpa using digits.ne_nil
      rw [isUnsigned, chars, takeWhile_append_of_head digits.isDigit hends,
        dropWhile_append_of_head digits.isDigit hends]
      cases tail with
      | nil => simp [hne]
      | cons c tail =>
          have hpoint : c ≠ '.' := (htail c rfl).2
          simp [hne, hpoint]
  | pointed digits fraction hfraction =>
      have hpoint : ∀ c ∈ ('.' :: (fraction ++ tail)).head?, c.isDigit = false := by
        intro c hc
        cases hc
        rfl
      have hne : digits.chars.isEmpty = false := by simpa using digits.ne_nil
      rw [isUnsigned, chars, List.append_assoc, List.cons_append,
        takeWhile_append_of_head digits.isDigit hpoint,
        dropWhile_append_of_head digits.isDigit hpoint]
      simp [hne, dropWhile_append_of_head hfraction hends]
  | point digits =>
      have hne : digits.chars.isEmpty = false := by simpa using digits.ne_nil
      have hpoint : ('.' : Char).isDigit = false := rfl
      simp [isUnsigned, chars, hpoint, takeWhile_append_of_head digits.isDigit hends,
        dropWhile_append_of_head digits.isDigit hends, hne]

end Mantissa

/-! ### Reading a number -/

/-- No number goes on with the text. -/
def NumberEnds (rest : List Char) : Prop :=
  ∀ c ∈ rest.head?, isNumberChar c = false

/-- A sign and the run behind it are taken as a whole, and looked at then. -/
theorem number_signed (sign : Sign) {run rest : List Char} (hne : run ≠ [])
    (hrun : ∀ c ∈ run, isNumberChar c = true) (hrest : NumberEnds rest) :
    number (sign.chars ++ (run ++ rest)) =
      if isNumberText (sign.chars ++ run) then .ok (.number (.ofList (sign.chars ++ run)), rest)
      else .error .invalidNumber := by
  have htake : (sign.chars ++ (run ++ rest)).take
      (if (sign.chars ++ (run ++ rest)).head?.any isSign then 1 else 0) = sign.chars := by
    cases sign with
    | none =>
        obtain ⟨c, more, rfl⟩ := List.exists_cons_of_ne_nil hne
        have hc : isSign c = false := isSign_of_isNumberChar (hrun c List.mem_cons_self)
        simp [Sign.chars, hc]
    | plus => rfl
    | minus => rfl
  simp only [number, htake, List.drop_left, takeWhile_append_of_head hrun hrest,
    dropWhile_append_of_head hrun hrest]

/-- What stands behind a sign decides whether all is a number, if it holds no underscore. -/
theorem isNumberText_signed (sign : Sign) {body : List Char} (hbody : '_' ∉ body)
    (hunsigned : ∀ c ∈ body.head?, isSign c = false) :
    isNumberText (sign.chars ++ body) = isUnsigned body := by
  have hfilter : body.filter (· ≠ '_') = body := by
    rw [List.filter_eq_self]
    intro c hc
    rw [decide_eq_true_iff]
    rintro rfl
    exact hbody hc
  rw [isNumberText, List.filter_append, hfilter]
  cases sign with
  | none =>
      cases body with
      | nil => rfl
      | cons c more =>
          have hc : isSign c = false := hunsigned c rfl
          simp [Sign.chars, hc]
  | plus => rfl
  | minus => rfl

/-- A text from which a number is read as a whole, or which is refused, whatever it is followed
by. -/
structure Numeral (s : String) : Prop where
  starts : ∃ c more, s.toList = c :: more ∧ startsNumber c = true
  number_eq : ∀ rest, NumberEnds rest → number (s.toList ++ rest) =
    if isNumberText s.toList then .ok (.number s, rest) else .error .invalidNumber

/-! ### Decimal numbers -/

namespace Decimal

variable (d : Decimal)

@[simp] theorem toList_text : d.text.toList = d.chars := String.toList_ofList

theorem exponent_head (c : Char) (hc : c ∈ d.exponentChars.head?) : c = 'e' ∨ c = 'E' := by
  rw [exponentChars] at hc
  cases hexponent : d.exponent with
  | none => simp [hexponent] at hc
  | some e =>
      rw [hexponent] at hc
      obtain rfl : e.letter = c := Option.some.inj hc
      exact e.letter_eq

theorem isExponent_chars : isExponent d.exponentChars = !d.signsExponent := by
  rw [exponentChars, signsExponent]
  cases d.exponent with
  | none => rfl
  | some e =>
      have hletter : (e.letter = 'e' || e.letter = 'E') = true := by simpa using e.letter_eq
      have hne : (e.sign.chars ++ e.digits.chars).isEmpty = false := by
        simp [e.digits.ne_nil]
      have hdigits : e.digits.chars.all Char.isDigit = true := List.all_eq_true.2 e.digits.isDigit
      have hsign : e.sign.chars.all Char.isDigit = !decide (e.sign ≠ .none) := by
        cases e.sign <;> rfl
      rw [Option.map_some, Option.getD_some, Exponent.chars, isExponent, hletter, hne,
        List.all_append, hdigits, hsign]
      simp

theorem underscore_not_mem : '_' ∉ d.mantissa.chars ++ d.exponentChars := by
  rw [List.mem_append]
  rintro (hmantissa | hexponent)
  · exact (d.mantissa.isNumberChar _ hmantissa).2 rfl
  · rw [exponentChars] at hexponent
    cases h : d.exponent with
    | none => simp [h] at hexponent
    | some e =>
        rw [h, Option.map_some, Option.getD_some, Exponent.chars, List.mem_cons,
          List.mem_append] at hexponent
        rcases hexponent with hletter | hsign | hdigits
        · rcases e.letter_eq with he | he <;> rw [he] at hletter <;> cases hletter
        · cases hs : e.sign <;> simp [hs, Sign.chars] at hsign
        · exact ne_of_class (e.digits.isDigit _ hdigits) rfl rfl

theorem isNumberText_append {tail : List Char} (htail : '_' ∉ d.mantissa.chars ++ tail)
    (hhead : ∀ c ∈ tail.head?, c = 'e' ∨ c = 'E') :
    isNumberText (d.sign.chars ++ (d.mantissa.chars ++ tail)) = isExponent tail := by
  have hunsigned : ∀ c ∈ (d.mantissa.chars ++ tail).head?, isSign c = false := by
    obtain ⟨c, more, hmore, -⟩ := d.mantissa.exists_cons
    intro x hx
    rw [hmore] at hx
    obtain rfl : c = x := Option.some.inj hx
    refine isSign_of_isNumberChar (d.mantissa.isNumberChar c ?_).1
    rw [hmore]
    exact List.mem_cons_self
  rw [isNumberText_signed _ htail hunsigned, Mantissa.isUnsigned_append]
  intro c hc
  rcases hhead c hc with rfl | rfl <;> decide

/-- A decimal number is a number if its exponent has no sign. -/
theorem isNumberText_chars : isNumberText d.chars = !d.signsExponent := by
  rw [chars, d.isNumberText_append d.underscore_not_mem d.exponent_head, d.isExponent_chars]

theorem mantissa_append_ne_nil (tail : List Char) : d.mantissa.chars ++ tail ≠ [] := by
  obtain ⟨c, more, hmore, -⟩ := d.mantissa.exists_cons
  simp [hmore]

/-- An exponent without a sign is made of characters of numbers. -/
theorem isNumberChar_of_unsigned (h : d.signsExponent = false) :
    ∀ c ∈ d.mantissa.chars ++ d.exponentChars, isNumberChar c = true := by
  intro c hc
  rcases List.mem_append.1 hc with hc | hc
  · exact (d.mantissa.isNumberChar c hc).1
  · rw [exponentChars] at hc
    rw [signsExponent] at h
    cases hexponent : d.exponent with
    | none => simp [hexponent] at hc
    | some e =>
        have hsign : e.sign = .none := by simpa [hexponent] using h
        rw [hexponent, Option.map_some, Option.getD_some, Exponent.chars, hsign, List.mem_cons]
          at hc
        rcases hc with rfl | hdigits
        · rcases e.letter_eq with he | he <;> rw [he] <;> rfl
        · exact isNumberChar_of_isDigit (e.digits.isDigit c hdigits)

/-- A decimal number is read as a whole if its exponent has no sign, and refused otherwise. -/
theorem numeral : Numeral d.text where
  starts := by
    obtain ⟨c, more, hmore, hc⟩ := d.mantissa.exists_cons
    rw [toList_text, chars, hmore]
    cases d.sign with
    | none =>
        have hstarts : startsNumber c = true := by
          rw [startsNumber, Bool.or_right_comm, hc]
          rfl
        exact ⟨c, more ++ d.exponentChars, rfl, hstarts⟩
    | plus => exact ⟨'+', c :: (more ++ d.exponentChars), rfl, rfl⟩
    | minus => exact ⟨'-', c :: (more ++ d.exponentChars), rfl, rfl⟩
  number_eq := by
    intro rest hrest
    rw [toList_text, text]
    cases hsigns : d.signsExponent with
    | false =>
        rw [chars, List.append_assoc]
        exact number_signed d.sign (d.mantissa_append_ne_nil _) (d.isNumberChar_of_unsigned hsigns)
          hrest
    | true =>
        -- The run ends in front of the sign of the exponent, behind its letter.
        rw [signsExponent, Option.any_eq_true] at hsigns
        obtain ⟨e, he, hsign⟩ := hsigns
        obtain ⟨c, hchars, hc⟩ := Sign.exists_cons (by simpa using hsign)
        have hletter : isNumberChar e.letter = true ∧ e.letter ≠ '_' := by
          rcases e.letter_eq with h | h <;> rw [h] <;> decide
        have hrun : ∀ x ∈ d.mantissa.chars ++ [e.letter], isNumberChar x = true ∧ x ≠ '_' := by
          intro x hx
          rcases List.mem_append.1 hx with hx | hx
          · exact d.mantissa.isNumberChar x hx
          · rw [List.mem_singleton.1 hx]
            exact hletter
        have hends : NumberEnds (c :: (e.digits.chars ++ rest)) := by
          intro x hx
          obtain rfl : c = x := Option.some.inj hx
          rw [Bool.eq_false_iff]
          intro hx
          rw [isSign_of_isNumberChar hx] at hc
          cases hc
        have hsplit : d.chars ++ rest = d.sign.chars ++
            (d.mantissa.chars ++ [e.letter] ++ c :: (e.digits.chars ++ rest)) := by
          simp [chars, exponentChars, he, Exponent.chars, hchars]
        have hshort : isNumberText (d.sign.chars ++ (d.mantissa.chars ++ [e.letter])) = false := by
          rw [d.isNumberText_append (fun h => (hrun _ h).2 rfl)]
          · simp [isExponent]
          · intro x hx
            obtain rfl : e.letter = x := Option.some.inj hx
            exact e.letter_eq
        have hlong : isNumberText d.chars = false := by
          rw [isNumberText_chars, signsExponent, he]
          simpa using hsign
        rw [hsplit, number_signed d.sign (d.mantissa_append_ne_nil _) (fun x hx => (hrun x hx).1)
          hends, hshort, hlong]
        rfl

end Decimal

/-! ### Texts that are read as numbers -/

/-- A number is read where a number starts. -/
theorem number_of_value {bound : Nat} {text rest : List Char} {s : String}
    (h : value bound text = .ok (.number s, rest)) :
    ∃ c more, token text = c :: more ∧ startsNumber c = true ∧
      number (c :: more) = .ok (.number s, rest) := by
  cases bound with
  | zero => cases h
  | succ bound =>
      rw [value] at h
      cases htoken : token text with
      | nil =>
          rw [htoken] at h
          cases h
      | cons c more =>
          rw [htoken] at h
          dsimp only at h
          split at h
          · obtain ⟨_, -, hstring⟩ := map_eq_ok_iff.1 h
            cases hstring
          split at h
          · obtain ⟨_, -, hlist⟩ := map_eq_ok_iff.1 h
            cases hlist
          split at h
          · obtain ⟨_, -, htuple⟩ := map_eq_ok_iff.1 h
            cases htuple
          split at h
          · obtain ⟨_, -, hmap⟩ := map_eq_ok_iff.1 h
            cases hmap
          split at h
          · next hstarts => exact ⟨c, more, rfl, hstarts, h⟩
          · rw [keyword] at h
            split at h
            · next entry hentry =>
                have hword := List.mem_of_find?_eq_some hentry
                obtain ⟨hnumber, -⟩ := Prod.mk.inj (Except.ok.inj h)
                simp only [keywords, List.mem_cons, List.not_mem_nil, or_false] at hword
                rcases hword with rfl | rfl | rfl | rfl | rfl | rfl <;> cases hnumber
            · cases h

theorem value_of_parse {s : String} {v : Literal} (h : Literal.parse s = .ok v) :
    ∃ rest, value (2 * s.toList.length + 2) s.toList = .ok (v, rest) := by
  rw [Literal.parse] at h
  split at h
  · cases h
  · next rest hvalue =>
      split at h
      · obtain rfl := Except.ok.inj h
        exact ⟨rest, hvalue⟩
      · cases h

/-- A text that is read as the number that it spells is read so in front of everything else. -/
theorem numeral_of_parse {s : String} (h : Literal.parse s = .ok (.number s)) :
    Numeral s ∧ isNumberText s.toList = true := by
  obtain ⟨rest, hvalue⟩ := value_of_parse h
  obtain ⟨c, more, htoken, hstarts, hnumber⟩ := number_of_value hvalue
  obtain ⟨sign, run, htext, htake⟩ := exists_sign (c :: more)
  rw [htext] at hnumber htake htoken
  simp only [number, htake, List.drop_left] at hnumber
  split at hnumber
  · next hread =>
      obtain ⟨hs, -⟩ := Prod.mk.inj (Except.ok.inj hnumber)
      obtain rfl := Literal.number.inj hs
      rw [String.toList_ofList] at htoken ⊢
      -- Nothing is left of the text, or it would be longer than what has been read of it.
      have hrest : run.dropWhile isNumberChar = [] := by
        have hlength := Cursor.length_dropWhile_le isAsciiBlank
          (sign.chars ++ run.takeWhile isNumberChar)
        have hrun := congrArg List.length (run.takeWhile_append_dropWhile (p := isNumberChar))
        rw [← token, htoken] at hlength
        simp only [List.length_append] at hlength hrun
        exact List.eq_nil_of_length_eq_zero (by omega)
      have hwhole : run.takeWhile isNumberChar = run := by
        simpa [hrest] using run.takeWhile_append_dropWhile (p := isNumberChar)
      have hchars : ∀ x ∈ run, isNumberChar x = true := List.takeWhile_eq_self_iff.1 hwhole
      rw [hwhole] at hread ⊢
      have hne : run ≠ [] := by
        rintro rfl
        cases sign <;> cases hread
      refine ⟨⟨⟨c, more, ?_, hstarts⟩, fun rest hrest => ?_⟩, hread⟩
      · rw [String.toList_ofList, htext]
      · rw [String.toList_ofList, List.append_assoc]
        exact number_signed sign hne hchars hrest
  · cases hnumber

end ViewCompiler
