/-
**Applying patches.**

A patch changes the first node that its locator selects.  Its content is copied into the tree and
put before, after, inside or in place of that node; one line feed at the very start of the content
is dropped.  The position `attributes` sets attributes instead, one for each `<attribute>` element
of the content, in order.  A list of patches is applied to a fresh copy of the base, each to what
the ones before it have left.

Main definitions:

* `ViewCompiler.trimFragment` — the content without a line feed at its start;
* `ViewCompiler.attributeSettings` — the attributes that a content sets;
* `ViewCompiler.PatchSpec.applyTo` — one patch: the error, if any, and the tree behind it;
* `ViewCompiler.applyPatches` — a list of patches on a base.
-/

import ViewCompiler.Inheritance.Spec
import ViewCompiler.Locator.Select
import ViewCompiler.Markup.Edit

set_option autoImplicit false

namespace ViewCompiler

variable {ι : Type}

/-- Siblings without a line feed at the start of an opening text; a text that becomes empty is
dropped and given beside the result. -/
def trimFragment : Forest ι → Forest ι × Forest ι
  | .leaf label .text content rest =>
      match content.toList with
      | ['\n'] => (rest, .leaf label .text "" .nil)
      | '\n' :: more => (.leaf label .text (.ofList more) rest, .nil)
      | _ => (.leaf label .text content rest, .nil)
  | f => (f, .nil)

/-- The top-level `<attribute>` elements of a content. -/
def attributeElements (body : Forest ι) : List (Element ι) :=
  body.topElements.filter (·.name = "attribute")

/-- Names and values set by `<attribute>` elements, up to the first that has no name. -/
def settingsOf : List (Element ι) → List (String × String)
  | [] => []
  | e :: more =>
      match e.attr? "name" with
      | some name => (name, e.children.textContent) :: settingsOf more
      | none => []

/-- The attributes that a content sets, in order. -/
def attributeSettings (body : Forest ι) : List (String × String) :=
  settingsOf (attributeElements body)

/-- Attributes after one setting: the first occurrence of the name is taken out before. -/
def Attributes.reset (attributes : Attributes) (setting : String × String) : Attributes :=
  (attributes.remove setting.1).set setting.1 setting.2

namespace Tree

/-- Copies a content into the tree: the copies that go into place, and the tree with what was
dropped from them. -/
def importFragment (t : Tree) (body : Forest ι) : Forest NodeId × Tree :=
  let (copies, next) := body.numberEach t.size
  let (fragment, dropped) := trimFragment copies
  (fragment, { t with loose := dropped ++ t.loose, size := next })

/-- A forest appended to the children of a node. -/
def extend (t : Tree) (id : NodeId) (piece : Forest NodeId) : Tree :=
  if id = root then { t with content := t.content ++ piece }
  else t.replace id (appendBelow piece)

/-- What a patch does to its target. -/
def patchAt (t : Tree) (target : NodeId) (position : Position) (body : Forest ι) : Tree :=
  match position with
  | .before =>
      let (piece, t) := t.importFragment body
      t.replace target fun node => piece ++ .single node
  | .after =>
      let (piece, t) := t.importFragment body
      t.replace target fun node => .single node ++ piece
  | .replace =>
      let (piece, t) := t.importFragment body
      let removed := ((t.find? target).map .single).getD .nil
      let t := t.replace target fun _ => piece
      { t with loose := removed ++ t.loose }
  | .inside =>
      let (piece, t) := t.importFragment body
      t.extend target piece
  | .attributes =>
      t.mapAttributes target fun attributes =>
        (attributeSettings body).foldl Attributes.reset attributes

end Tree

namespace PatchSpec

/-- What keeps a patch from its target, if anything does. -/
def targetIn (s : PatchSpec) (t : Tree) : Except PatchError NodeId :=
  match s.locator.first? t with
  | none => .error (.nodeNotFound s.locator.source)
  | some target =>
      if s.position.needsParent && (t.parent? target).isNone then
        .error (.detachedTarget s.locator.source)
      else .ok target

/-- The content of an attribute patch has an `<attribute>` element without a name. -/
def lacksName (s : PatchSpec) : Bool :=
  s.position = .attributes && (attributeElements s.body).any fun e => (e.attr? "name").isNone

/-- Applies one patch.  The tree comes with the error, because an `<attribute>` element without a
name is noticed only after the ones before it have been applied. -/
def applyTo (s : PatchSpec) (t : Tree) : Option PatchError × Tree :=
  match s.targetIn t with
  | .error error => (some error, t)
  | .ok target =>
      (if s.lacksName then some .attributeWithoutName else none,
        t.patchAt target s.position s.body)

/-- Applies patches one after the other, up to the first that fails. -/
def applyAll : List PatchSpec → Tree → Except PatchError Tree
  | [], t => .ok t
  | s :: more, t =>
      match s.applyTo t with
      | (some error, _) => .error error
      | (none, t) => applyAll more t

end PatchSpec

/-- The base with all patches applied; the base itself is not touched. -/
def applyPatches (base : Forest ι) (specs : List PatchSpec) : Except PatchError Tree :=
  PatchSpec.applyAll specs (.ofPlain base)

end ViewCompiler
