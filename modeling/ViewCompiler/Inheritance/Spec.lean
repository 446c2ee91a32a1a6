/-
**Patch specifications.**

A patch specification says where something happens, what happens there, and with which content.
The place is given by a locator: either in full, on the tag `xpath`, or by the tag itself and the
one attribute besides `position`.  The children are the content.

Main definitions:

* `ViewCompiler.Position` — what happens at the place;
* `ViewCompiler.PatchSpec` — place, action and content;
* `ViewCompiler.PatchError` — why a specification cannot be read or applied;
* `ViewCompiler.PatchSpec.ofElement` — the specification that an element stands for.
-/

import ViewCompiler.Locator.Grammar
import ViewCompiler.Markup.Forest

set_option autoImplicit false

namespace ViewCompiler

/-- What is done at the place of a patch. -/
inductive Position where
  | before
  | after
  | replace
  | inside
  | attributes
  deriving DecidableEq, Repr

/-- Why a specification cannot be read or applied. -/
inductive PatchError where
  | missingPosition (tag : String)
  | ambiguousLocator (tag : String) (found : Nat)
  | missingExpression
  | unknownPosition (value : String)
  | badLocator (error : PathError)
  | nodeNotFound (locator : String)
  | detachedTarget (locator : String)
  | attributeWithoutName
  deriving DecidableEq, Repr

def PatchError.message : PatchError → String
  | missingPosition tag => "<" ++ tag ++ "> patch spec has no `position` attribute"
  | ambiguousLocator tag found =>
      "<" ++ tag ++ "> patch spec needs exactly one locator attribute besides `position`, found " ++
        toString found
  | missingExpression => "<xpath> patch spec has no `expr` attribute"
  | unknownPosition value => "unknown patch position `" ++ value ++ "`"
  | badLocator error => error.message
  | nodeNotFound locator => "locator `" ++ locator ++ "` matches no node"
  | detachedTarget locator =>
      "node matched by `" ++ locator ++ "` has no parent to splice around"
  | attributeWithoutName => "<attribute> element without a `name`"

namespace Position

/-- The word for a position. -/
def name : Position → String
  | before => "before"
  | after => "after"
  | replace => "replace"
  | inside => "inside"
  | attributes => "attributes"

/-- The position that a word stands for. -/
def parse (value : String) : Except PatchError Position :=
  match [before, after, replace, inside, attributes].find? (·.name = value) with
  | some position => .ok position
  | none => .error (.unknownPosition value)

/-- The positions that put something around the place and so need its parent. -/
def needsParent : Position → Bool
  | before | after | replace => true
  | inside | attributes => false

end Position

/-- Where, what and with which content. -/
structure PatchSpec where
  locator : Path
  position : Position
  body : Forest Unit
  deriving DecidableEq, Repr

namespace PatchSpec

variable {ι : Type}

/-- The tag of specifications that write their locator in full. -/
def pathTag : String := "xpath"

/-- The attribute that names the position. -/
def positionAttribute : String := "position"

/-- The position that an element asks for. -/
def positionOf (e : Element ι) : Except PatchError Position :=
  match e.attr? positionAttribute with
  | none => .error (.missingPosition e.name)
  | some value => Position.parse value

/-- The locator that an element gives. -/
def locatorOf (e : Element ι) : Except PatchError Path :=
  if e.name = pathTag then
    match e.attr? "expr" with
    | none => .error .missingExpression
    | some expression => (Path.parse expression).mapError .badLocator
  else
    match e.attributes.filter (·.1 ≠ positionAttribute) with
    | [(attr, value)] => .ok (.attributeEquals e.name attr value)
    | found => .error (.ambiguousLocator e.name found.length)

/-- The specification that an element stands for. -/
def ofElement (e : Element ι) : Except PatchError PatchSpec :=
  match positionOf e with
  | .error error => .error error
  | .ok position =>
      match locatorOf e with
      | .error error => .error error
      | .ok locator => .ok ⟨locator, position, e.children.plain⟩

/-- The specifications that elements stand for, up to the first that stands for none. -/
def ofElements : List (Element ι) → Except PatchError (List PatchSpec)
  | [] => .ok []
  | e :: more =>
      match ofElement e with
      | .error error => .error error
      | .ok spec => (ofElements more).map (spec :: ·)

end PatchSpec

end ViewCompiler
