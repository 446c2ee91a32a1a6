/-
**Taking directives off a tree.**

The elements of a document are visited in document order.  At each of them the attributes are gone
through first: what is a directive is filed, and the name of every attribute that is to go is noted.
Only then the attributes go, by name, each time the first of that name.

Main definitions:

* `ViewCompiler.CompilerOptions.findings` — what is found at the attributes of an element;
* `ViewCompiler.Tree.collect` — the tree without directives, and the directives by element.
-/

import ViewCompiler.Markup.Edit
import ViewCompiler.Template.Directive

set_option autoImplicit false

namespace ViewCompiler

/-- What is found at the attributes of an element: the directives, and the names of the attributes
that are to go. -/
structure Findings where
  directives : Directives := {}
  consumed : List String := []
  deriving DecidableEq, Repr

namespace CompilerOptions

/-- Looks at one more attribute. -/
def notice (o : CompilerOptions) (found : Findings) (a : String × String) : Findings :=
  if a.1 = translationDirective then { found with consumed := found.consumed ++ [a.1] }
  else
    match Directive.parse o.directivePrefix a.1 a.2 with
    | some d => ⟨found.directives.add d, found.consumed ++ [a.1]⟩
    | none => found

/-- What is found at the attributes of an element. -/
def findings (o : CompilerOptions) (attributes : Attributes) : Findings :=
  attributes.foldl o.notice {}

end CompilerOptions

/-- Removes attributes of an element one after the other. -/
def Tree.removeEach (t : Tree) (id : NodeId) (names : List String) : Tree :=
  names.foldl (fun t name => (t.removeAttribute id name).2) t

/-- A tree on the way, and what has been asked for by the elements visited so far.  An element is
visited once, so no entry takes the place of another. -/
structure Collecting where
  tree : Tree
  table : List (NodeId × Directives)
  deriving DecidableEq, Repr

/-- Takes the directives off one node, if it is an element. -/
def Collecting.visit (o : CompilerOptions) (c : Collecting) (id : NodeId) : Collecting :=
  match c.tree.name? id with
  | none => c
  | some _ =>
      let found := o.findings (c.tree.attributes id)
      { tree := c.tree.removeEach id found.consumed
        table := if found.directives.isEmpty then c.table else c.table ++ [(id, found.directives)] }

/-- Takes the directives off all elements of the document. -/
def Tree.collect (o : CompilerOptions) (t : Tree) : Collecting :=
  (t.descendants root).foldl (Collecting.visit o) ⟨t, []⟩

end ViewCompiler
