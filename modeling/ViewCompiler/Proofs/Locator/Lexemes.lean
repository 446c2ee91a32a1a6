/-
**Lexemes of locators.**

An expression is a row of lexemes with blanks between them: fixed marks, names, numbers, strings and
operators.  An operator is written with a space behind it and takes that space with it, and a name
goes as far as its characters do.  Everything else about blanks is said here once, by a layout that
allows any number of them in front of every lexeme; the grammar of expressions need not speak of
them at all.

Main definitions:

* `ViewCompiler.Locator.Lexeme` — the lexemes, names and strings with what makes them such;
* `ViewCompiler.Locator.Lays` — a text is a row of lexemes, up to what is left of it.

Main results:

* `ViewCompiler.Locator.lays_append` — rows of lexemes are laid one behind the other;
* `ViewCompiler.Locator.Lays.eq_of_length_le` — a text no longer than its lexemes has no blanks.
-/

import Mathlib.Data.List.DropRight
import ViewCompiler.Locator.Grammar
import ViewCompiler.Proofs.Markup.Scanning
import ViewCompiler.Proofs.Template.Numerals

set_option relaxedAutoImplicit false
set_option autoImplicit false

namespace ViewCompiler.Locator

/-- The text without the blanks in front of it. -/
def afterBlanks (text : List Char) : List Char :=
  text.dropWhile isAsciiBlank

@[simp] theorem afterBlanks_nil : afterBlanks [] = [] := rfl

theorem afterBlanks_cons {c : Char} (h : isAsciiBlank c = false) (text : List Char) :
    afterBlanks (c :: text) = c :: text :=
  List.dropWhile_cons_of_neg (by rw [h]; exact Bool.false_ne_true)

@[simp] theorem afterBlanks_afterBlanks (text : List Char) :
    afterBlanks (afterBlanks text) = afterBlanks text :=
  List.dropWhile_idempotent isAsciiBlank text

theorem length_afterBlanks_le (text : List Char) : (afterBlanks text).length ≤ text.length :=
  Cursor.length_dropWhile_le isAsciiBlank text

/-- A text that begins with a character other than blank has no blanks in front of it. -/
theorem afterBlanks_of_head {text : List Char} {c : Char} (h : text.head? = some c)
    (hc : isAsciiBlank c = false) : afterBlanks text = text := by
  obtain ⟨more, rfl⟩ := List.head?_eq_some_iff.1 h
  exact afterBlanks_cons hc more

/-! ### Lexemes -/

/-- A name of an element or of an attribute. -/
structure NameText where
  text : String
  isName : IsName text

/-- A string with the quote that it is written in. -/
structure QuotedText where
  quote : Char
  text : String
  isQuote : quote = '\'' ∨ quote = '"'
  fresh : quote ∉ text.toList

def QuotedText.chars (v : QuotedText) : List Char :=
  v.quote :: (v.text.toList ++ [v.quote])

/-- The lexemes that are always written alike. -/
inductive Mark where
  | slash
  | slashes
  | dot
  | dots
  | star
  | openBracket
  | closeBracket
  | openParen
  | closeParen
  | atSign
  | equals
  | comma
  | textOf
  | contains
  | hasClass

def Mark.text : Mark → String
  | slash => "/"
  | slashes => "//"
  | dot => "."
  | dots => ".."
  | star => "*"
  | openBracket => "["
  | closeBracket => "]"
  | openParen => "("
  | closeParen => ")"
  | atSign => "@"
  | equals => "="
  | comma => ","
  | textOf => "text()"
  | contains => "contains("
  | hasClass => "hasclass("

/-- What conditions are combined with. -/
inductive Operator where
  | and
  | or

def Operator.text : Operator → String
  | and => "and"
  | or => "or"

inductive Lexeme where
  | mark (m : Mark)
  | name (n : NameText)
  | number (digits : Digits)
  | string (v : QuotedText)
  | operator (o : Operator)

namespace Lexeme

/-- The characters of a lexeme; the space behind an operator is one of them. -/
def chars : Lexeme → List Char
  | mark m => m.text.toList
  | name n => n.text.toList
  | number digits => digits.chars
  | string v => v.chars
  | operator o => o.text.toList ++ [' ']

/-- The lexeme ends in front of the text: a name ends where its characters do. -/
def Stops (rest : List Char) : Lexeme → Prop
  | name _ => ∀ c ∈ rest.head?, isNameChar c = false
  | mark _ | number _ | string _ | operator _ => True

/-- A lexeme begins with a character that is no blank. -/
theorem exists_cons (l : Lexeme) : ∃ c more, l.chars = c :: more ∧ isAsciiBlank c = false := by
  cases l with
  | mark m => cases m <;> exact ⟨_, _, rfl, rfl⟩
  | name n =>
      obtain ⟨c, more, hmore, hc⟩ := n.isName.exists_cons
      exact ⟨c, more, hmore, isAsciiBlank_of_isNameChar hc⟩
  | number digits =>
      obtain ⟨c, more, hmore⟩ := List.exists_cons_of_ne_nil digits.ne_nil
      have hc : c.isDigit = true := digits.isDigit c (by rw [hmore]; exact List.mem_cons_self)
      exact ⟨c, more, hmore, isAsciiBlank_of_class hc rfl⟩
  | string v =>
      refine ⟨v.quote, _, rfl, ?_⟩
      rcases v.isQuote with h | h <;> rw [h] <;> rfl
  | operator o => cases o <;> exact ⟨_, _, rfl, rfl⟩

theorem length_pos (l : Lexeme) : 0 < l.chars.length := by
  obtain ⟨c, more, h, -⟩ := l.exists_cons
  rw [h]
  exact Nat.succ_pos _

/-- There are no blanks in front of a lexeme itself. -/
theorem afterBlanks_chars (l : Lexeme) (rest : List Char) :
    afterBlanks (l.chars ++ rest) = l.chars ++ rest := by
  obtain ⟨c, more, h, hc⟩ := l.exists_cons
  rw [h]
  exact afterBlanks_cons hc _

end Lexeme

/-! ### Layouts -/

/-- The text is the row of lexemes, blanks in front of each, followed by the rest, up to blanks in
front of that. -/
inductive Lays : List Lexeme → List Char → List Char → Prop
  | nil {text rest : List Char} (h : afterBlanks text = afterBlanks rest) : Lays [] text rest
  | cons {l : Lexeme} {ls : List Lexeme} {text next rest : List Char}
      (h : afterBlanks text = l.chars ++ next) (hstops : l.Stops next) (hmore : Lays ls next rest) :
      Lays (l :: ls) text rest

variable {ls ls' : List Lexeme} {l : Lexeme} {text text' next rest rest' : List Char}

theorem Lays.refl (text : List Char) : Lays [] text text :=
  .nil rfl

/-- Blanks in front do not matter. -/
theorem Lays.of_front (hlays : Lays ls text rest) (h : afterBlanks text' = afterBlanks text) :
    Lays ls text' rest := by
  cases hlays with
  | nil h' => exact .nil (h.trans h')
  | cons h' hstops hmore => exact .cons (h.trans h') hstops hmore

/-- Neither do blanks in front of the rest. -/
theorem Lays.of_rest (hlays : Lays ls text rest) (h : afterBlanks rest = afterBlanks rest') :
    Lays ls text rest' := by
  induction hlays with
  | nil h' => exact .nil (h'.trans h)
  | cons h' hstops _ ih => exact .cons h' hstops (ih h)

/-- Rows of lexemes are laid one behind the other. -/
theorem lays_append : Lays (ls ++ ls') text rest' ↔ ∃ rest, Lays ls text rest ∧ Lays ls' rest rest' := by
  constructor
  · intro h
    induction ls generalizing text with
    | nil => exact ⟨text, .refl text, h⟩
    | cons l ls ih =>
        cases h with
        | cons h hstops hmore =>
            obtain ⟨rest, hls, hls'⟩ := ih hmore
            exact ⟨rest, .cons h hstops hls, hls'⟩
  · rintro ⟨rest, hls, hls'⟩
    induction hls with
    | nil h => exact hls'.of_front h
    | cons h hstops _ ih => exact .cons h hstops (ih hls')

theorem lays_cons : Lays (l :: ls) text rest ↔
    ∃ next, afterBlanks text = l.chars ++ next ∧ l.Stops next ∧ Lays ls next rest :=
  ⟨fun | .cons h hstops hmore => ⟨_, h, hstops, hmore⟩,
    fun ⟨_, h, hstops, hmore⟩ => .cons h hstops hmore⟩

theorem lays_nil : Lays [] text rest ↔ afterBlanks text = afterBlanks rest :=
  ⟨fun | .nil h => h, .nil⟩

/-- What a row of lexemes begins with. -/
theorem Lays.exists_head (h : Lays (l :: ls) text rest) :
    ∃ next, afterBlanks text = l.chars ++ next := by
  obtain ⟨next, hnext, -⟩ := lays_cons.1 h
  exact ⟨next, hnext⟩

/-- Every lexeme takes a character at least. -/
theorem Lays.length_le (h : Lays ls text rest) : ls.length ≤ text.length := by
  induction h with
  | nil => exact Nat.zero_le _
  | @cons l ls text next rest h _ _ ih =>
      have htext := length_afterBlanks_le text
      have hpos := l.length_pos
      rw [h, List.length_append] at htext
      rw [List.length_cons]
      omega

/-- The lexemes of a text are together no longer than it is. -/
theorem Lays.length_chars_le (h : Lays ls text rest) :
    (ls.flatMap Lexeme.chars).length ≤ text.length := by
  induction h with
  | nil => exact Nat.zero_le _
  | @cons l ls text next rest h _ _ ih =>
      have htext := length_afterBlanks_le text
      rw [h, List.length_append] at htext
      rw [List.flatMap_cons, List.length_append]
      omega

/-- A text that is no longer than its lexemes are together has no blanks. -/
theorem Lays.eq_of_length_le (h : Lays ls text [])
    (hle : text.length ≤ (ls.flatMap Lexeme.chars).length) : text = ls.flatMap Lexeme.chars := by
  induction ls generalizing text with
  | nil => exact List.eq_nil_of_length_eq_zero (Nat.le_zero.1 hle)
  | cons l ls ih =>
      obtain ⟨next, hnext, -, hmore⟩ := lays_cons.1 h
      have htext := length_afterBlanks_le text
      have hlower := hmore.length_chars_le
      rw [List.flatMap_cons, List.length_append] at hle
      rw [hnext, List.length_append] at htext
      have hwhole : l.chars ++ next = text := by
        rw [← hnext]
        refine (List.dropWhile_suffix isAsciiBlank).eq_of_length ?_
        rw [show text.dropWhile isAsciiBlank = l.chars ++ next from hnext, List.length_append]
        omega
      rw [List.flatMap_cons, ← ih hmore (by omega), hwhole]

end ViewCompiler.Locator
