/-
**What a locator selects.**

A step is taken from every node of the current context.  Child and descendant steps collect, for
each parent by itself, its element children that pass the test of the name, and filter that list
by the predicates in turn; a position therefore counts among the children of one parent.  What the
steps from all nodes of the context find becomes the next context, in document order and without
repetition.

Main definitions:

* `ViewCompiler.Condition.holds` — a condition on an element;
* `ViewCompiler.Step.pick` — the children of one parent that a step keeps;
* `ViewCompiler.Path.select`, `ViewCompiler.Path.first?` — the selected nodes.
-/

import ViewCompiler.Locator.Path
import ViewCompiler.Markup.Tree
import ViewCompiler.Text.Cursor

set_option autoImplicit false

namespace ViewCompiler

variable {ι : Type}

/-- One of the siblings is a text leaf with exactly this content. -/
def Forest.hasText (value : String) : Forest ι → Bool
  | nil => false
  | element _ _ _ _ rest => rest.hasText value
  | leaf _ kind content rest => (kind = .text && content = value) || rest.hasText value

/-- `part` occurs in `text`. -/
def occursIn (part text : String) : Bool :=
  (cut part.toList text.toList).isSome

/-- Every class of the list is a word of the element's `class` attribute. -/
def Element.hasClasses (e : Element ι) (classes : List String) : Bool :=
  match e.attr? "class" with
  | none => false
  | some value => classes.all fun name => (words value.toList).contains name.toList

mutual

/-- The condition holds of the element. -/
def Condition.holds (e : Element ι) : Condition → Bool
  | .attrEquals name value => e.attr? name = some value
  | .attrExists name => (e.attr? name).isSome
  | .attrContains name value => (e.attr? name).any (occursIn value)
  | .hasClass classes => e.hasClasses classes
  | .textEquals value => e.children.hasText value
  | .all parts => Condition.allHold e parts
  | .any parts => Condition.anyHolds e parts

/-- Every condition of the list holds of the element. -/
def Condition.allHold (e : Element ι) : List Condition → Bool
  | [] => true
  | part :: more => Condition.holds e part && Condition.allHold e more

/-- Some condition of the list holds of the element. -/
def Condition.anyHolds (e : Element ι) : List Condition → Bool
  | [] => false
  | part :: more => Condition.holds e part || Condition.anyHolds e more

end

/-- The element has a name that passes the test. -/
def NameTest.admits (e : Element ι) : NameTest → Bool
  | .named name => e.name = name
  | .any => true

/-- The candidates that a predicate keeps. -/
def Predicate.keep (candidates : List (Element ι)) : Predicate → List (Element ι)
  | .position n => (candidates[n - 1]?).toList
  | .condition c => candidates.filter fun e => c.holds e

/-- Of the children of one parent, the elements that pass the test and every predicate in turn. -/
def Step.pick (s : Step) (children : Forest ι) : List (Element ι) :=
  s.predicates.foldl Predicate.keep (children.topElements.filter fun e => s.test.admits e)

/-- The nodes that one step finds from the node with the given number. -/
def Step.reach (s : Step) (t : Tree) (id : NodeId) : List NodeId :=
  match s.axis with
  | .self => [id]
  | .parent => (t.parent? id).toList
  | .child => (s.pick (t.children id)).map (·.label)
  | .descendant =>
      let children := t.children id
      (s.pick children ++ children.elements.flatMap fun e => s.pick e.children).map (·.label)

/-- The given nodes of the document, each once and in document order. -/
def Tree.inDocumentOrder (t : Tree) (ids : List NodeId) : List NodeId :=
  (Tree.root :: t.content.labels).filter ids.contains

/-- The next context: what a step finds from all nodes of the current one. -/
def Step.advance (s : Step) (t : Tree) (context : List NodeId) : List NodeId :=
  t.inDocumentOrder (context.flatMap (s.reach t))

namespace Path

/-- Where a path starts: at the document, or at its first element if it has one. -/
def start (p : Path) (t : Tree) : List NodeId :=
  if p.absolute then [Tree.root] else (t.rootElement?.map (·.label)).toList

/-- The nodes that a path selects, in document order. -/
def select (p : Path) (t : Tree) : List NodeId :=
  p.steps.foldl (fun context s => s.advance t context) (p.start t)

/-- The first node that a path selects. -/
def first? (p : Path) (t : Tree) : Option NodeId :=
  (p.select t).head?

end Path

end ViewCompiler
