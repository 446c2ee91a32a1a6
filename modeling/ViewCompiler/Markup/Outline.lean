/-
**Outlines.**

An outline shows a tree line by line, each node indented by its depth.  Two documents are compared
by their outlines: they have the same structure when all lines agree.

Main definitions:

* `ViewCompiler.Forest.outline` — the lines of a forest at a given depth;
* `ViewCompiler.documentOutline` — the lines of a whole document;
* `ViewCompiler.mismatch?` — where two documents differ, and how that is reported;
* `ViewCompiler.Tree.outline`, `ViewCompiler.Tree.mismatch?` — the same for trees, their nodes
  visited one by one.
-/

import ViewCompiler.Markup.Tree
import ViewCompiler.Text.Quoted

set_option autoImplicit false

namespace ViewCompiler

/-- Two spaces for each level of depth. -/
def indentation (depth : Nat) : String :=
  .ofList (List.replicate (2 * depth) ' ')

/-- The line of an element. -/
def elementLine (name : String) (attributes : Attributes) : String :=
  "<" ++ name ++
    attributes.foldl (fun out a => out ++ " " ++ a.1 ++ "=" ++ quoted a.2) "" ++ ">"

/-- The line of a leaf. -/
def leafLine : LeafKind → String → String
  | .text, content => quoted content
  | .comment, content => "<!-- " ++ content ++ " -->"
  | .raw, content => "raw " ++ quoted content

/-- The lines of a forest whose top level is at the given depth. -/
def Forest.outline {ι : Type} (depth : Nat) : Forest ι → List String
  | nil => []
  | element _ name attributes children rest =>
      (indentation depth ++ elementLine name attributes) ::
        (children.outline (depth + 1) ++ rest.outline depth)
  | leaf _ kind content rest =>
      (indentation depth ++ leafLine kind content) :: rest.outline depth

/-- The lines of a document: its own, and those of its content one level deeper. -/
def documentOutline {ι : Type} (content : Forest ι) : List String :=
  "#document" :: content.outline 1

/-- The lines as one text. -/
def shownLines (lines : List String) : String :=
  "\n".intercalate lines

/-- The index of the first line in which two outlines differ; if one is the start of the other,
the length of the shorter. -/
def firstDifference : List String → List String → Nat
  | a :: as, b :: bs => if a = b then firstDifference as bs + 1 else 0
  | _, _ => 0

/-- The report on two outlines that differ. -/
def outlineMismatch? (expected actual : List String) : Option String :=
  if expected = actual then none
  else some ("tree mismatch at line " ++ toString (firstDifference expected actual) ++
    "\nexpected:\n" ++ shownLines expected ++ "\nactual:\n" ++ shownLines actual)

/-- The report on two documents that differ, with both outlines. -/
def mismatch? {ι κ : Type} (expected : Forest ι) (actual : Forest κ) : Option String :=
  outlineMismatch? (documentOutline expected) (documentOutline actual)

/-! ### Trees -/

namespace Tree

/-- The line of a node. -/
def nodeLine (t : Tree) (id : NodeId) : String :=
  if id = root then "#document"
  else match t.find? id with
    | some (.element e) => elementLine e.name e.attributes
    | some (.leaf _ kind content) => leafLine kind content
    | none => ""

/-- The lines of a node and of all below it.  On the stack every node has its depth beside it. -/
def outline (t : Tree) (id : NodeId) : List String :=
  depthFirst
    (fun lines (x : NodeId × Nat) =>
      (lines ++ [indentation x.2 ++ t.nodeLine x.1],
        (t.children x.1).roots.map fun child => (child, x.2 + 1)))
    t.size [(id, 0)] []

/-- The report on two documents that differ, with both outlines. -/
def mismatch? (expected actual : Tree) : Option String :=
  outlineMismatch? (expected.outline root) (actual.outline root)

end Tree

end ViewCompiler
