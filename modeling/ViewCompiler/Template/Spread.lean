/-
**Attributes from a literal.**

A literal gives attributes as a map from names to values, as a list of names and values by turns,
or as one tuple of a name and a value.  A value that is false or nothing gives no attribute, a true
one the name of the attribute itself.

Main definitions:

* `ViewCompiler.Literal.pairs?` — the entries of the three forms;
* `ViewCompiler.Literal.attributeOf` — the attribute that one entry gives;
* `ViewCompiler.spreadAttributes`, `ViewCompiler.expandAttributes` — all attributes of a literal.
-/

import ViewCompiler.Markup.Forest
import ViewCompiler.Template.Error

set_option autoImplicit false

namespace ViewCompiler

/-- A list taken two by two, if its length is even. -/
def pairUp {α : Type} : List α → Option (List (α × α))
  | [] => some []
  | [_] => none
  | a :: b :: more => (pairUp more).map ((a, b) :: ·)

namespace Literal

/-- Names and values, from any of the three forms. -/
def pairs? : Literal → Except SpreadFault (List (Literal × Literal))
  | .map entries => .ok entries
  | .tuple [key, value] => .ok [(key, value)]
  | .tuple _ => .error .tupleSize
  | .list items =>
      match pairUp items with
      | some pairs => .ok pairs
      | Option.none => .error .oddPairs
  | _ => .error .notAttributes

/-- The attribute that a name and a value give, if any. -/
def attributeOf : Literal × Literal → Except SpreadFault (Option (String × String))
  | (.str name, .str text) => .ok (some (name, text))
  | (.str name, .number source) => .ok (some (name, source))
  | (.str name, .bool true) => .ok (some (name, name))
  | (.str _, .bool false) => .ok Option.none
  | (.str _, .none) => .ok Option.none
  | (.str _, _) => .error .valueNotScalar
  | _ => .error .nameNotString

/-- The attributes that entries give, in order. -/
def attributes : List (Literal × Literal) → Except SpreadFault Attributes
  | [] => .ok []
  | entry :: more =>
      match attributeOf entry with
      | .error fault => .error fault
      | .ok found => (attributes more).map (found.toList ++ ·)

end Literal

/-- The attributes that a literal gives. -/
def spreadAttributes (spec : String) : Except SpreadFault Attributes :=
  match Literal.parse spec with
  | .error fault => .error (.literal fault)
  | .ok value =>
      match value.pairs? with
      | .error fault => .error fault
      | .ok pairs => Literal.attributes pairs

/-- The attributes that a literal gives; a literal that gives none is a misuse. -/
def expandAttributes (spec : String) : Except CompileError Attributes :=
  (spreadAttributes spec).mapError (.badAttributeSpec spec)

end ViewCompiler
