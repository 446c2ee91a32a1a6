/-
**Editable trees.**

A tree is a document with numbered nodes.  Besides the content of the document it keeps the
pieces that are not part of it: nodes that were created or copied and not yet inserted, and nodes
that were taken out.  Every node that ever was keeps its number, and numbers are never used twice.

Main definitions:

* `ViewCompiler.TreeError` — why a node cannot be put somewhere;
* `ViewCompiler.depthFirst` — visiting nodes with a stack;
* `ViewCompiler.Tree` — the content of a document, the loose pieces, and how many numbers are
  handed out;
* `ViewCompiler.Tree.find?`, `ViewCompiler.Tree.parent?`, `ViewCompiler.Tree.children` — looking
  around from a number;
* `ViewCompiler.Tree.descendants`, `ViewCompiler.Tree.isAncestorOrSelf` — what lies in the subtree
  of a node.
-/

import ViewCompiler.Markup.Numbering
import ViewCompiler.Text.Blank

set_option autoImplicit false

namespace ViewCompiler

/-- Why a node cannot be moved. -/
inductive TreeError where
  | alreadyAttached (node : NodeId)
  | cycle (parent child : NodeId)
  | invalidParent (node : NodeId)
  | detached (node : NodeId)
  deriving DecidableEq, Repr

/-- The number of a node as messages show it. -/
def shownId (id : NodeId) : String :=
  "NodeId(" ++ toString id ++ ")"

def TreeError.message : TreeError → String
  | .alreadyAttached node => "node " ++ shownId node ++ " already has a parent"
  | .cycle parent child =>
      "inserting " ++ shownId child ++ " under " ++ shownId parent ++ " would create a cycle"
  | .invalidParent node => "node " ++ shownId node ++ " cannot have children"
  | .detached node => "node " ++ shownId node ++ " has no parent"

/-! ### Visiting with a stack -/

/-- Visits what is on a stack, what was put there last first.  A visit leaves a new state and puts
what it has found on the stack.  There are at most `fuel` visits. -/
def depthFirst {σ α : Type} (visit : σ → α → σ × List α) : Nat → List α → σ → σ
  | 0, _, s => s
  | _ + 1, [], s => s
  | fuel + 1, x :: stack, s =>
      let (s, found) := visit s x
      depthFirst visit fuel (found ++ stack) s

/-! ### Trees -/

/-- A document with numbered nodes and the pieces that are not part of it.  `size` counts the
numbers handed out, the document's own included. -/
structure Tree where
  content : Forest NodeId
  loose : Forest NodeId
  size : Nat
  deriving DecidableEq, Repr

namespace Tree

/-- The document, which is no node of a forest and has number 0. -/
def root : NodeId := 0

/-- A document without content. -/
def empty : Tree := ⟨.nil, .nil, 1⟩

/-- The node with the given number, wherever it is. -/
def find? (t : Tree) (id : NodeId) : Option (Node NodeId) :=
  (t.content.find? id).or (t.loose.find? id)

/-- The children of a node. -/
def children (t : Tree) (id : NodeId) : Forest NodeId :=
  if id = root then t.content
  else match t.find? id with
    | some (.element e) => e.children
    | _ => .nil

/-- The number of the parent; neither the document nor a loose piece has one. -/
def parent? (t : Tree) (id : NodeId) : Option NodeId :=
  if id ∈ t.content.roots then some root
  else (t.content.holder? id).or (t.loose.holder? id)

/-- The document and elements may have children. -/
def allowsChildren (t : Tree) (id : NodeId) : Bool :=
  id = root || match t.find? id with
    | some (.element _) => true
    | _ => false

/-- All nodes below a node, visited one by one. -/
def descendants (t : Tree) (id : NodeId) : List NodeId :=
  (depthFirst (fun visited x => (x :: visited, (t.children x).roots))
    t.size (t.children id).roots []).reverse

/-- `node` is `ancestor` or lies below it. -/
def isAncestorOrSelf (t : Tree) (ancestor node : NodeId) : Bool :=
  node = ancestor || (t.children ancestor).labels.contains node

/-- The first element of the document. -/
def rootElement? (t : Tree) : Option (Element NodeId) :=
  t.content.topElements.head?

/-- The document has no content. -/
def isEmpty (t : Tree) : Bool :=
  t.content.isEmpty

/-- The structure of the document. -/
def plain (t : Tree) : Forest Unit :=
  t.content.plain

/-! ### Siblings -/

/-- The member of the list that follows the first occurrence of `id`. -/
def follower? (id : NodeId) : List NodeId → Option NodeId
  | [] => none
  | x :: xs => if x = id then xs.head? else follower? id xs

/-- The children of the node's parent, in order; nothing for a node without a parent. -/
def siblings (t : Tree) (id : NodeId) : List NodeId :=
  match t.parent? id with
  | some parent => (t.children parent).roots
  | none => []

def nextSibling? (t : Tree) (id : NodeId) : Option NodeId :=
  follower? id (t.siblings id)

def previousSibling? (t : Tree) (id : NodeId) : Option NodeId :=
  follower? id (t.siblings id).reverse

/-! ### What a node says -/

/-- The text of a text leaf. -/
def text? (t : Tree) (id : NodeId) : Option String :=
  match t.find? id with
  | some (.leaf _ .text content) => some content
  | _ => none

/-- The node is a text leaf of blanks only. -/
def isBlankText (t : Tree) (id : NodeId) : Bool :=
  (t.text? id).any allBlank

/-- The text of the node, if it is a text leaf, and of all text leaves below it. -/
def textContent (t : Tree) (id : NodeId) : String :=
  (id :: t.descendants id).foldl (fun out node => out ++ (t.text? node).getD "") ""

/-- The name of an element. -/
def name? (t : Tree) (id : NodeId) : Option String :=
  match t.find? id with
  | some (.element e) => some e.name
  | _ => none

/-- The attributes of an element; other nodes have none. -/
def attributes (t : Tree) (id : NodeId) : Attributes :=
  match t.find? id with
  | some (.element e) => e.attributes
  | _ => []

def attr? (t : Tree) (id : NodeId) (name : String) : Option String :=
  (t.attributes id).get? name

end Tree

end ViewCompiler
