/-
**Escaping.**

Written text and attribute values keep their meaning when read again: the characters with a
meaning of their own are written as references.  In attribute values what stands between `{{` and
the next `}}` is an expression of the template language and is written as it is.

Main definitions:

* `ViewCompiler.escapeText`, `ViewCompiler.escapePlain` — text, and attribute values without
  expressions;
* `ViewCompiler.escapeValue` — attribute values.
-/

import ViewCompiler.Text.Cursor

set_option autoImplicit false

namespace ViewCompiler

/-- What opens an expression: two opening braces. -/
def openMark : List Char := ['\x7b', '\x7b']

/-- What closes an expression: two closing braces. -/
def closeMark : List Char := ['\x7d', '\x7d']

/-- Text between tags: ampersand and both angle brackets are escaped. -/
def escapeText (text : List Char) : List Char :=
  text.flatMap fun
    | '&' => "&amp;".toList
    | '<' => "&lt;".toList
    | '>' => "&gt;".toList
    | c => [c]

/-- Attribute values without expressions: ampersand, opening angle bracket and double quote are
escaped. -/
def escapePlain (text : List Char) : List Char :=
  text.flatMap fun
    | '&' => "&amp;".toList
    | '<' => "&lt;".toList
    | '"' => "&quot;".toList
    | c => [c]

/-- Attribute values: expressions are kept, the text around them is escaped. -/
def escapeValue (text : List Char) : List Char :=
  match _ : cut openMark text with
  | none => escapePlain text
  | some (before, inner) =>
      match _ : cut closeMark inner with
      | none => escapePlain text
      | some (expression, rest) =>
          escapePlain before ++ openMark ++ expression ++ closeMark ++ escapeValue rest
termination_by text.length
decreasing_by
  have h₁ := cut_length_lt (by decide) ‹cut openMark _ = _›
  have h₂ := cut_length_lt (by decide) ‹cut closeMark _ = _›
  omega

end ViewCompiler
