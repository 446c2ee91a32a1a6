/-
**Expressions.**

The template language is not read, only spaced: an expression loses the blanks at its ends, and
every comma outside a string is followed by exactly one space, or by nothing at the end.  A format
text holds expressions between `#{` and the next `}`.

Main definitions:

* `ViewCompiler.Spacing` — where in an expression the reader is;
* `ViewCompiler.normalize` — an expression with its commas spaced;
* `ViewCompiler.formatString` — a format text with its expressions marked for output.
-/

import ViewCompiler.Markup.Escape
import ViewCompiler.Text.Blank

set_option autoImplicit false

namespace ViewCompiler

/-- Where in an expression the reader is: outside strings, just behind a comma outside strings, or
in a string that ends with the given quote. -/
inductive Spacing where
  | plain
  | comma
  | quoted (quote : Char)
  deriving DecidableEq, Repr

/-- Where a character outside strings leads. -/
def Spacing.after (c : Char) : Spacing :=
  if c = '"' || c = '\'' then .quoted c
  else if c = ',' then .comma
  else .plain

/-- The characters of an expression with its commas spaced.  In a string a backslash keeps the
character behind it from ending the string. -/
def spaceCommas : Spacing → List Char → List Char
  | _, [] => []
  | .plain, c :: cs => c :: spaceCommas (.after c) cs
  | .comma, c :: cs =>
      if isBlank c then spaceCommas .comma cs else ' ' :: c :: spaceCommas (.after c) cs
  | .quoted quote, '\\' :: c :: cs => '\\' :: c :: spaceCommas (.quoted quote) cs
  | .quoted quote, c :: cs =>
      c :: spaceCommas (if c = quote then .plain else .quoted quote) cs

/-- An expression without blanks at its ends and with its commas spaced. -/
def normalizeChars (expression : List Char) : List Char :=
  spaceCommas .plain (trim expression)

/-- An expression without blanks at its ends and with its commas spaced. -/
def normalize (expression : String) : String :=
  .ofList (normalizeChars expression.toList)

/-- An expression between the marks of an output, a space on each side. -/
def markedChars (expression : List Char) : List Char :=
  openMark ++ [' '] ++ expression ++ [' '] ++ closeMark

/-- What opens an expression of a format text. -/
def formatMark : List Char := ['#', '\x7b']

/-- A format text with its expressions normalized and marked for output. -/
def formatChars (format : List Char) : List Char :=
  match _ : cut formatMark format with
  | none => format
  | some (before, inner) =>
      match _ : cut ['\x7d'] inner with
      | none => format
      | some (expression, rest) =>
          before ++ markedChars (normalizeChars expression) ++ formatChars rest
termination_by format.length
decreasing_by
  have h₁ := cut_length_lt (by decide) ‹cut formatMark _ = _›
  have h₂ := cut_length_lt (by decide) ‹cut ['\x7d'] _ = _›
  omega

/-- A format text with its expressions normalized and marked for output. -/
def formatString (format : String) : String :=
  .ofList (formatChars format.toList)

end ViewCompiler
