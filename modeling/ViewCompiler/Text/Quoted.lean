/-
**Quoted text.**

A text is shown between double quotes.  Quote and backslash are written behind a backslash, the
four common controls as `\n`, `\t`, `\r` and `\0`, and every other character without a shape of
its own by its number in braces.

Main definitions:

* `ViewCompiler.quotedChar` — the form of one character between the quotes;
* `ViewCompiler.quoted` — the quoted form of a text.
-/

import ViewCompiler.Text.Unprintable

set_option autoImplicit false

namespace ViewCompiler

/-- The form of one character inside a quoted text. -/
def quotedChar (c : Char) : List Char :=
  match c with
  | '"' => ['\\', '"']
  | '\\' => ['\\', '\\']
  | '\n' => ['\\', 'n']
  | '\t' => ['\\', 't']
  | '\r' => ['\\', 'r']
  | '\x00' => ['\\', '0']
  | c =>
      if isUnprintable c then
        ['\\', 'u', '\x7b'] ++ Nat.toDigits 16 c.toNat ++ ['\x7d']
      else [c]

/-- The text between double quotes. -/
def quoted (text : String) : String :=
  .ofList ('"' :: text.toList.flatMap quotedChar ++ ['"'])

end ViewCompiler
