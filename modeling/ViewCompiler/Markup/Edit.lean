/-
**Editing a tree.**

Nodes are created loose and put into place afterwards; a node that is taken out stays as a loose
piece with everything below it.  An edit that fails leaves the tree as it was, since it answers
with an error instead of a tree.

Main definitions:

* `ViewCompiler.Tree.createElement`, `ViewCompiler.Tree.createLeaf` — new loose nodes;
* `ViewCompiler.Tree.appendChild`, `ViewCompiler.Tree.insertBefore`,
  `ViewCompiler.Tree.insertAfter` — putting a loose piece into place;
* `ViewCompiler.Tree.detach`, `ViewCompiler.Tree.takeChildren`, `ViewCompiler.Tree.unwrap` —
  taking nodes out;
* `ViewCompiler.Tree.setAttribute`, `ViewCompiler.Tree.removeAttribute`,
  `ViewCompiler.Tree.setText` — changing one node;
* `ViewCompiler.Tree.importNode`, `ViewCompiler.Tree.importEach`,
  `ViewCompiler.Tree.compacted` — copying with fresh numbers;
* `ViewCompiler.Tree.importSubtree`, `ViewCompiler.Tree.importChildren`,
  `ViewCompiler.Tree.copyDocument` — copying from another tree, node by node.
-/

import ViewCompiler.Markup.Tree

set_option autoImplicit false

namespace ViewCompiler.Tree

/-! ### New nodes -/

/-- A new loose element. -/
def createElement (t : Tree) (name : String) (attributes : Attributes) : NodeId × Tree :=
  (t.size, { t with loose := .element t.size name attributes .nil t.loose, size := t.size + 1 })

/-- A new loose leaf. -/
def createLeaf (t : Tree) (kind : LeafKind) (content : String) : NodeId × Tree :=
  (t.size, { t with loose := .leaf t.size kind content t.loose, size := t.size + 1 })

/-! ### Moving nodes -/

/-- A forest takes the place of a node, in the document or in a loose piece. -/
def replace (t : Tree) (id : NodeId) (g : Node NodeId → Forest NodeId) : Tree :=
  { t with content := t.content.splice id g, loose := t.loose.splice id g }

/-- `child` may become a child of `parent`: the parent can have children, the child has no parent
yet, and the parent does not lie below the child. -/
def checkInsert (t : Tree) (parent child : NodeId) : Except TreeError Unit :=
  if !t.allowsChildren parent then .error (.invalidParent parent)
  else if (t.parent? child).isSome || child = root then .error (.alreadyAttached child)
  else if t.isAncestorOrSelf child parent then .error (.cycle parent child)
  else .ok ()

/-- The loose piece that starts with the given node, and the tree without it. -/
def takeLoose (t : Tree) (id : NodeId) : Forest NodeId × Tree :=
  (((t.loose.find? id).map .single).getD .nil, { t with loose := t.loose.remove id })

/-- The node with more children at the end; a leaf stays as it is. -/
def appendBelow (piece : Forest NodeId) : Node NodeId → Forest NodeId
  | .element e => .element e.label e.name e.attributes (e.children ++ piece) .nil
  | node => .single node

/-- Makes a loose piece the last child of `parent`. -/
def appendChild (t : Tree) (parent child : NodeId) : Except TreeError Tree :=
  match t.checkInsert parent child with
  | .error e => .error e
  | .ok () =>
      let (piece, t) := t.takeLoose child
      if parent = root then .ok { t with content := t.content ++ piece }
      else .ok (t.replace parent (appendBelow piece))

/-- Puts a loose piece beside `reference`, on the side that `g` says. -/
def insertBeside (t : Tree) (reference child : NodeId)
    (g : Forest NodeId → Forest NodeId → Forest NodeId) : Except TreeError Tree :=
  match t.parent? reference with
  | none => .error (.detached reference)
  | some parent =>
      match t.checkInsert parent child with
      | .error e => .error e
      | .ok () =>
          let (piece, t) := t.takeLoose child
          .ok (t.replace reference fun node => g piece (.single node))

/-- Makes a loose piece the sibling just before `reference`. -/
def insertBefore (t : Tree) (reference child : NodeId) : Except TreeError Tree :=
  t.insertBeside reference child fun piece node => piece ++ node

/-- Makes a loose piece the sibling just after `reference`. -/
def insertAfter (t : Tree) (reference child : NodeId) : Except TreeError Tree :=
  t.insertBeside reference child fun piece node => node ++ piece

/-- Takes a node out of its parent; it stays as a loose piece with everything below it. -/
def detach (t : Tree) (id : NodeId) : Tree :=
  match t.parent? id, t.find? id with
  | some _, some node =>
      let t := t.replace id fun _ => .nil
      { t with loose := .single node ++ t.loose }
  | _, _ => t

/-- The node without its children. -/
def childless : Node NodeId → Forest NodeId
  | .element e => .element e.label e.name e.attributes .nil .nil
  | node => .single node

/-- Takes all children of a node out; they stay as loose pieces. -/
def takeChildren (t : Tree) (id : NodeId) : List NodeId × Tree :=
  let children := t.children id
  if id = root then (children.roots, { t with content := .nil, loose := children ++ t.loose })
  else
    let t := t.replace id childless
    (children.roots, { t with loose := children ++ t.loose })

/-- The children of a node. -/
def childrenOf : Node NodeId → Forest NodeId
  | .element e => e.children
  | .leaf .. => .nil

/-- Puts the children of a node in its place; the node stays as a loose piece without children. -/
def unwrap (t : Tree) (id : NodeId) : Except TreeError Tree :=
  match t.parent? id, t.find? id with
  | some _, some node =>
      let t := t.replace id childrenOf
      .ok { t with loose := childless node ++ t.loose }
  | _, _ => .error (.detached id)

/-! ### Changing one node -/

/-- New attributes for an element; other nodes stay as they are. -/
def mapAttributes (t : Tree) (id : NodeId) (f : Attributes → Attributes) : Tree :=
  t.replace id fun
    | .element e => .element e.label e.name (f e.attributes) e.children .nil
    | node => .single node

/-- Sets an attribute of an element, in the place where it is already written, else last. -/
def setAttribute (t : Tree) (id : NodeId) (name value : String) : Tree :=
  t.mapAttributes id (·.set name value)

/-- Removes an attribute of an element and gives the value that it had. -/
def removeAttribute (t : Tree) (id : NodeId) (name : String) : Option String × Tree :=
  (t.attr? id name, t.mapAttributes id (·.remove name))

/-- Replaces the text of a leaf; other nodes stay as they are. -/
def setText (t : Tree) (id : NodeId) (content : String) : Tree :=
  t.replace id fun
    | .leaf label kind _ => .leaf label kind content .nil
    | node => .single node

/-! ### Copies -/

variable {ι : Type}

/-- Copies siblings one by one as loose pieces; the copies come with the tree. -/
def importEach (t : Tree) (siblings : Forest ι) : Forest NodeId × Tree :=
  let (copies, next) := siblings.numberEach t.size
  (copies, { t with loose := copies ++ t.loose, size := next })

/-- Copies one node with everything below it as a loose piece. -/
def importNode (t : Tree) (node : Node ι) : NodeId × Tree :=
  (t.size, (t.importEach (.single node)).2)

/-- The document as a node to copy: an element without a name. -/
def asNode (t : Tree) : Node NodeId :=
  .element ⟨root, "", [], t.content⟩

/-- A tree with the given content, numbered as a copy of it. -/
def ofPlain (content : Forest ι) : Tree :=
  let (copy, next) := content.numberEach 1
  ⟨copy, .nil, next⟩

/-- A copy of the document alone, numbered afresh. -/
def compacted (t : Tree) : Tree :=
  ofPlain t.content

/-! ### Copies made node by node -/

/-- A copy of one node without its children; the document becomes an element without a name. -/
def bareCopy (u : Tree) (id label : NodeId) : Forest NodeId :=
  match u.find? id with
  | some (.element e) => .element label e.name e.attributes .nil .nil
  | some (.leaf _ kind content) => .leaf label kind content .nil
  | none => .element label "" [] .nil .nil

/-- Copies one node as the last child of `target`.  It is put on a list with its copy. -/
def copyChild (u : Tree) (target : NodeId) (s : Tree × List (NodeId × NodeId)) (child : NodeId) :
    Tree × List (NodeId × NodeId) :=
  let t := s.1
  ({ t.replace target (appendBelow (u.bareCopy child t.size)) with size := t.size + 1 },
    (child, t.size) :: s.2)

/-- Visits a node with its copy: the children are copied below the copy, all of them before anything
below them.  The last of them is visited first. -/
def copyVisit (u t : Tree) (x : NodeId × NodeId) : Tree × List (NodeId × NodeId) :=
  (u.children x.1).roots.foldl (u.copyChild x.2) (t, [])

/-- Copies a node of another tree with everything below it as a loose piece. -/
def importSubtree (t u : Tree) (id : NodeId) : NodeId × Tree :=
  (t.size, depthFirst u.copyVisit u.size [(id, t.size)]
    { t with loose := u.bareCopy id t.size ++ t.loose, size := t.size + 1 })

/-- Copies the children of a node of another tree one by one as loose pieces. -/
def importChildren (t u : Tree) (id : NodeId) : List NodeId × Tree :=
  (u.children id).roots.foldl
    (fun s child =>
      let (copy, t) := s.2.importSubtree u child
      (s.1 ++ [copy], t)) ([], t)

/-- Makes a loose piece the last child of the document. -/
def addToContent (t : Tree) (id : NodeId) : Tree :=
  let (piece, t) := t.takeLoose id
  { t with content := t.content ++ piece }

/-- A copy of the document alone: its children are copied into an empty tree, and then put into its
content. -/
def copyDocument (t : Tree) : Tree :=
  let (copies, out) := empty.importChildren t root
  copies.foldl addToContent out

end ViewCompiler.Tree
