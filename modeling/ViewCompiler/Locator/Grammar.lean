/-
**The grammar of locators.**

Steps are joined by `/` or `//`; blanks may stand between all tokens.  In a predicate `and` binds
tighter than `or`, both are written with a blank behind them, and parentheses group.  A condition
is read as alternatives of conjuncts, so that one recursion, into parentheses and behind operators,
covers both operators.  Each turn of a recursion passes a character; the number of characters that
are left therefore bounds it.

Main definitions:

* `ViewCompiler.PathReader.condition`, `ViewCompiler.PathReader.predicate`,
  `ViewCompiler.PathReader.steps` — the parts of an expression;
* `ViewCompiler.Path.parse` — the path that an expression denotes.
-/

import ViewCompiler.Locator.Path
import ViewCompiler.Markup.Token

set_option autoImplicit false

namespace ViewCompiler

namespace PathReader

/-- A fault with the byte offset where it shows. -/
abbrev Fault := Nat × PathFault

/-- What a part of the grammar reads: a value and the place behind it. -/
abbrev Reads (α : Type) := Except Fault (α × Cursor)

/-- The place behind the blanks at the cursor. -/
def token (c : Cursor) : Cursor :=
  c.skip isAsciiBlank

/-- The place behind a marker, blanks in front of it passed over. -/
def eat? (marker : String) (c : Cursor) : Option Cursor :=
  (token c).strip? marker.toList

/-- The place behind a marker that must be there. -/
def expect (marker : String) (fault : PathFault) (c : Cursor) : Except Fault Cursor :=
  match eat? marker c with
  | some d => .ok d
  | none => .error ((token c).offset, fault)

/-- A name. -/
def name (c : Cursor) : Reads String :=
  let here := token c
  let (run, behind) := here.span isNameChar
  if run.isEmpty then .error (here.offset, .missingName) else .ok (.ofList run, behind)

/-- A string in single or double quotes. -/
def string (c : Cursor) : Reads String :=
  let here := token c
  match here.rest with
  | [] => .error (here.offset, .missingString)
  | quote :: _ =>
      if quote = '\'' || quote = '"' then
        match here.strip? [quote] with
        | none => .error (here.offset, .missingString)
        | some inside =>
            match inside.cut? [quote] with
            | none => .error (here.offset, .unterminatedString)
            | some (text, behind) => .ok (.ofList text, behind)
      else .error (here.offset, .missingString)

/-! ### Conditions -/

/-- The strings of a class list from one of them on, up to the closing parenthesis. -/
def classes : Nat → Cursor → Reads (List String)
  | 0, c => .error (c.offset, .missingString)
  | bound + 1, c =>
      match string c with
      | .error e => .error e
      | .ok (first, behind) =>
          match eat? "," behind with
          | some next => (classes bound next).map fun r => (first :: r.1, r.2)
          | none => (expect ")" .missingParenthesis behind).map fun d => ([first], d)

/-- A question about an attribute, its `@` already read. -/
def attributeCondition (c : Cursor) : Reads Condition :=
  match name c with
  | .error e => .error e
  | .ok (attr, behind) =>
      match eat? "=" behind with
      | some next => (string next).map fun r => (.attrEquals attr r.1, r.2)
      | none => .ok (.attrExists attr, behind)

/-- The arguments of `contains`: an attribute and a string. -/
def contains (c : Cursor) : Reads Condition :=
  match expect "@" .missingContainsAttribute c with
  | .error e => .error e
  | .ok c =>
      match name c with
      | .error e => .error e
      | .ok (attr, c) =>
          match expect "," .missingComma c with
          | .error e => .error e
          | .ok c =>
              match string c with
              | .error e => .error e
              | .ok (value, c) =>
                  (expect ")" .missingParenthesis c).map fun d => (.attrContains attr value, d)

/-- A condition without operators and outer parentheses. -/
def simple (c : Cursor) : Reads Condition :=
  match eat? "@" c with
  | some inside => attributeCondition inside
  | none =>
  match eat? "text()" c with
  | some inside =>
      match expect "=" .missingTextEquals inside with
      | .error e => .error e
      | .ok behind => (string behind).map fun r => (.textEquals r.1, r.2)
  | none =>
  match eat? "contains(" c with
  | some inside => contains inside
  | none =>
  match eat? "hasclass(" c with
  | some inside => (classes (inside.rest.length + 1) inside).map fun r => (.hasClass r.1, r.2)
  | none => .error ((token c).offset, .unsupportedPredicate)

/-- One conjunct stands for itself, several for their conjunction. -/
def conjunction : List Condition → Condition
  | [part] => part
  | parts => .all parts

/-- One alternative stands for itself, several for their disjunction. -/
def disjunction : List Condition → Condition
  | [part] => part
  | parts => .any parts

/-- The condition of alternatives that are lists of conjuncts. -/
def combined (alternatives : List (List Condition)) : Condition :=
  disjunction (alternatives.map conjunction)

/-- A conjunct put in front of the first alternative. -/
def conjoin (part : Condition) : List (List Condition) → List (List Condition)
  | [] => [[part]]
  | first :: more => (part :: first) :: more

/-- The alternatives of a condition, each a list of conjuncts. -/
def alternatives : Nat → Cursor → Reads (List (List Condition))
  | 0, c => .error ((token c).offset, .unsupportedPredicate)
  | bound + 1, c =>
      let first : Reads Condition :=
        match eat? "(" c with
        | none => simple c
        | some inside =>
            match alternatives bound inside with
            | .error e => .error e
            | .ok (inner, behind) =>
                (expect ")" .missingParenthesis behind).map fun d => (combined inner, d)
      match first with
      | .error e => .error e
      | .ok (part, behind) =>
          match eat? "and " behind with
          | some next => (alternatives bound next).map fun r => (conjoin part r.1, r.2)
          | none =>
              match eat? "or " behind with
              | some next => (alternatives bound next).map fun r => ([part] :: r.1, r.2)
              | none => .ok ([[part]], behind)

/-- A condition with its operators. -/
def condition (c : Cursor) : Reads Condition :=
  (alternatives (c.rest.length + 1) c).map fun r => (combined r.1, r.2)

/-! ### Steps -/

/-- The largest position that can be asked for: the largest number of 64 bits. -/
def maxPosition : Nat := 18446744073709551615

/-- What stands between the brackets of a predicate: a position or a condition. -/
def predicate (c : Cursor) : Reads Predicate :=
  let here := token c
  let (digits, behind) := here.span Char.isDigit
  if digits.isEmpty then (condition here).map fun r => (.condition r.1, r.2)
  else
    let n := digitsValue 10 digits
    if maxPosition < n then .error (behind.offset, .invalidPosition)
    else if n = 0 then .error (behind.offset, .zeroPosition)
    else .ok (.position n, behind)

/-- All predicates that follow. -/
def predicates : Nat → Cursor → Reads (List Predicate)
  | 0, c => .ok ([], token c)
  | bound + 1, c =>
      match eat? "[" c with
      | none => .ok ([], token c)
      | some inside =>
          match predicate inside with
          | .error e => .error e
          | .ok (first, behind) =>
              match expect "]" .missingBracket behind with
              | .error e => .error e
              | .ok next => (predicates bound next).map fun r => (first :: r.1, r.2)

/-- One step; `axis` is what the slashes in front of it say. -/
def step (axis : Axis) (c : Cursor) : Reads Step :=
  match eat? ".." c with
  | some behind => .ok (⟨.parent, .any, []⟩, behind)
  | none =>
  match eat? "." c with
  | some behind => .ok (⟨if axis = .descendant then .descendant else .self, .any, []⟩, behind)
  | none =>
      let test : Reads NameTest :=
        match eat? "*" c with
        | some behind => .ok (.any, behind)
        | none => (name c).map fun r => (.named r.1, r.2)
      match test with
      | .error e => .error e
      | .ok (test, behind) =>
          (predicates (behind.rest.length + 1) behind).map fun r => (⟨axis, test, r.1⟩, r.2)

/-- The steps up to the end of the expression. -/
def steps : Nat → Axis → Cursor → Except Fault (List Step)
  | 0, _, c => .error ((token c).offset, .missingName)
  | bound + 1, axis, c =>
      match step axis c with
      | .error e => .error e
      | .ok (first, behind) =>
          if (token behind).rest.isEmpty then .ok [first]
          else match eat? "//" behind with
            | some next => (steps bound .descendant next).map (first :: ·)
            | none =>
                match eat? "/" behind with
                | some next => (steps bound .child next).map (first :: ·)
                | none => .error ((token behind).offset, .missingSlash)

/-- A whole expression: whether its path is absolute, and its steps. -/
def path (c : Cursor) : Except Fault (Bool × List Step) :=
  if (token c).rest.isEmpty then .error ((token c).offset, .emptyExpression)
  else
    let bound := c.rest.length + 1
    match eat? "//" c with
    | some inside => (steps bound .descendant inside).map (true, ·)
    | none =>
        match eat? "/" c with
        | some inside => (steps bound .child inside).map (true, ·)
        | none => (steps bound .child c).map (false, ·)

end PathReader

/-- The path that an expression denotes. -/
def Path.parse (expression : String) : Except PathError Path :=
  match PathReader.path (.ofString expression) with
  | .error (offset, fault) => .error ⟨expression, offset, fault⟩
  | .ok (absolute, steps) => .ok ⟨expression, absolute, steps⟩

end ViewCompiler
