/-
**Literals.**

The values that can be written out in an attribute list: strings in either quote, decimal numbers,
truth values, nothing, lists, tuples and maps.  Blanks may stand between all tokens, and a comma
behind the last element.  A number keeps the text that it was written as.

Main definitions:

* `ViewCompiler.Literal` — the values;
* `ViewCompiler.LiteralFault` — why a text is no literal;
* `ViewCompiler.LiteralReader.isNumberText` — the texts that are decimal numbers;
* `ViewCompiler.Literal.parse` — the value that a text denotes.
-/

import ViewCompiler.Text.Blank

set_option autoImplicit false

namespace ViewCompiler

/-- The values that can be written out. -/
inductive Literal where
  | str (text : String)
  | number (source : String)
  | bool (value : Bool)
  | none
  | list (items : List Literal)
  | tuple (items : List Literal)
  | map (entries : List (Literal × Literal))
  deriving Repr, Inhabited

/-- Why a text is no literal. -/
inductive LiteralFault where
  | unexpectedEnd
  | unterminatedString
  | invalidNumber
  | notLiteral
  | missingSeparator
  | missingColon
  | missingMapSeparator
  | trailingCharacters
  deriving DecidableEq, Repr

def LiteralFault.reason : LiteralFault → String
  | unexpectedEnd => "unexpected end of literal"
  | unterminatedString => "unterminated string"
  | invalidNumber => "invalid number"
  | notLiteral => "not a literal"
  | missingSeparator => "expected `,` or closing bracket"
  | missingColon => "expected `:` in object"
  | missingMapSeparator => "expected `,` or `\x7d`"
  | trailingCharacters => "trailing characters after literal"

namespace LiteralReader

/-- What a part of a literal reads: a value and the text behind it. -/
abbrev Reads (α : Type) := Except LiteralFault (α × List Char)

/-- The text without its leading blanks. -/
def token (text : List Char) : List Char :=
  text.dropWhile isAsciiBlank

/-- The text behind a character, blanks in front of it passed over. -/
def eat? (c : Char) (text : List Char) : Option (List Char) :=
  match token text with
  | d :: rest => if d = c then some rest else Option.none
  | [] => Option.none

/-! ### Strings -/

/-- The character that a backslash and `c` stand for. -/
def unescaped (c : Char) : Char :=
  if c = 'n' then '\n' else if c = 't' then '\t' else c

/-- The content of a string up to its closing quote.  A backslash in front of an ASCII character
escapes it; in front of any other it stands for itself. -/
def string (quote : Char) : List Char → Reads (List Char)
  | [] => .error .unterminatedString
  | c :: rest =>
      if c = quote then .ok ([], rest)
      else if c = '\\' then
        match rest with
        | [] => .error .unterminatedString
        | e :: more =>
            if e.toNat < 128 then (string quote more).map fun r => (unescaped e :: r.1, r.2)
            else (string quote (e :: more)).map fun r => (c :: r.1, r.2)
      else (string quote rest).map fun r => (c :: r.1, r.2)

/-! ### Numbers -/

/-- An exponent, or nothing: the letter `e` in either case and at least one digit. -/
def isExponent : List Char → Bool
  | [] => true
  | e :: digits => (e = 'e' || e = 'E') && !digits.isEmpty && digits.all Char.isDigit

/-- An unsigned decimal number: digits, at most one point among or around them, an exponent. -/
def isUnsigned (text : List Char) : Bool :=
  let whole := text.takeWhile Char.isDigit
  match text.dropWhile Char.isDigit with
  | '.' :: rest =>
      let fraction := rest.takeWhile Char.isDigit
      !(whole.isEmpty && fraction.isEmpty) && isExponent (rest.dropWhile Char.isDigit)
  | rest => !whole.isEmpty && isExponent rest

/-- The sign of a number. -/
def isSign (c : Char) : Bool :=
  c = '-' || c = '+'

/-- A decimal number with an optional sign; underscores do not count. -/
def isNumberText (text : List Char) : Bool :=
  match text.filter (· ≠ '_') with
  | c :: rest => if isSign c then isUnsigned rest else isUnsigned (c :: rest)
  | [] => false

/-- The characters that a number can hold behind its sign. -/
def isNumberChar (c : Char) : Bool :=
  c.isDigit || c = '.' || c = 'e' || c = 'E' || c = '_'

/-- A number: a sign if there is one, and the longest run of characters of numbers. -/
def number (text : List Char) : Reads Literal :=
  let sign := text.take (if text.head?.any isSign then 1 else 0)
  let unsigned := text.drop sign.length
  let source := sign ++ unsigned.takeWhile isNumberChar
  if isNumberText source then
    .ok (.number (.ofList source), unsigned.dropWhile isNumberChar)
  else .error .invalidNumber

/-! ### Words -/

/-- The words with a value. -/
def keywords : List (String × Literal) :=
  [("True", .bool true), ("true", .bool true), ("False", .bool false), ("false", .bool false),
    ("None", .none), ("null", .none)]

/-- The characters of words. -/
def isWordChar (c : Char) : Bool :=
  c.isAlphanum || c = '_'

/-- A word with a value. -/
def keyword (text : List Char) : Reads Literal :=
  let word := String.ofList (text.takeWhile isWordChar)
  match keywords.find? (·.1 = word) with
  | some entry => .ok (entry.2, text.dropWhile isWordChar)
  | Option.none => .error .notLiteral

/-! ### Values -/

mutual

/-- A value.  The first argument bounds the depth of the recursion. -/
def value : Nat → List Char → Reads Literal
  | 0, _ => .error .unexpectedEnd
  | bound + 1, text =>
      match token text with
      | [] => .error .unexpectedEnd
      | c :: rest =>
          if c = '\'' || c = '"' then
            (string c rest).map fun r => (.str (.ofList r.1), r.2)
          else if c = '[' then (items bound ']' rest).map fun r => (.list r.1, r.2)
          else if c = '(' then (items bound ')' rest).map fun r => (.tuple r.1, r.2)
          else if c = '\x7b' then (entries bound rest).map fun r => (.map r.1, r.2)
          else if c.isDigit || isSign c || c = '.' then number (c :: rest)
          else keyword (c :: rest)

/-- The elements of a list or tuple, up to the closing bracket. -/
def items : Nat → Char → List Char → Reads (List Literal)
  | 0, _, _ => .error .unexpectedEnd
  | bound + 1, close, text =>
      match eat? close text with
      | some rest => .ok ([], rest)
      | Option.none =>
          match value bound text with
          | .error e => .error e
          | .ok (first, rest) =>
              match eat? ',' rest with
              | some rest => (items bound close rest).map fun r => (first :: r.1, r.2)
              | Option.none =>
                  match eat? close rest with
                  | some rest => .ok ([first], rest)
                  | Option.none => .error .missingSeparator

/-- The entries of a map, up to the closing brace. -/
def entries : Nat → List Char → Reads (List (Literal × Literal))
  | 0, _ => .error .unexpectedEnd
  | bound + 1, text =>
      match eat? '\x7d' text with
      | some rest => .ok ([], rest)
      | Option.none =>
          match value bound text with
          | .error e => .error e
          | .ok (key, rest) =>
              match eat? ':' rest with
              | Option.none => .error .missingColon
              | some rest =>
                  match value bound rest with
                  | .error e => .error e
                  | .ok (val, rest) =>
                      match eat? ',' rest with
                      | some rest =>
                          (entries bound rest).map fun r => ((key, val) :: r.1, r.2)
                      | Option.none =>
                          match eat? '\x7d' rest with
                          | some rest => .ok ([(key, val)], rest)
                          | Option.none => .error .missingMapSeparator

end

end LiteralReader

/-- The value that a text denotes.  Between a bracket or comma and the next at most two turns of
the recursion are taken, so twice the length of the text is depth enough. -/
def Literal.parse (source : String) : Except LiteralFault Literal :=
  let text := source.toList
  match LiteralReader.value (2 * text.length + 2) text with
  | .error e => .error e
  | .ok (value, rest) =>
      if (LiteralReader.token rest).isEmpty then .ok value else .error .trailingCharacters

end ViewCompiler
