/-
**Trees as records.**

A tree is stored as a list of records, one for each number.  A record says what its node is, which
node is its parent and which are its children, so that every link between two nodes is stored twice,
and an edit changes both ends one after the other.  Nothing but the edits keeps the two ends
together.  An edit that fails half-way leaves what it has done so far, so every edit that can fail
answers with the records that it leaves besides its error.

Main definitions:

* `ViewCompiler.NodeRecord`, `ViewCompiler.Arena` — the record of a node, and all records;
* `ViewCompiler.Arena.isAncestorOrSelf`, `ViewCompiler.Arena.checkInsert` — going from parent to
  parent, and what is asked before a node is put somewhere;
* `ViewCompiler.Arena.appendChild`, `ViewCompiler.Arena.insertRelative`,
  `ViewCompiler.Arena.detach`, `ViewCompiler.Arena.takeChildren`, `ViewCompiler.Arena.unwrap` —
  moving nodes, link by link;
* `ViewCompiler.Arena.importSubtree`, `ViewCompiler.Arena.importChildren`,
  `ViewCompiler.Arena.compacted` — copies;
* `ViewCompiler.Arena.parse` — the records of a source.
-/

import ViewCompiler.Markup.Edit
import ViewCompiler.Markup.Reader

set_option autoImplicit false

namespace ViewCompiler

/-- What a node is. -/
inductive NodeKind where
  | document
  | element (name : String) (attributes : Attributes)
  | leaf (kind : LeafKind) (content : String)
  deriving DecidableEq, Repr

def NodeKind.allowsChildren : NodeKind → Bool
  | .document | .element .. => true
  | .leaf .. => false

/-- A node with its links: the parent that it has, and its children in order. -/
structure NodeRecord where
  kind : NodeKind
  parent? : Option NodeId
  children : List NodeId
  deriving DecidableEq, Repr

/-- The records of all nodes, each at the place of its number. -/
structure Arena where
  nodes : List NodeRecord
  deriving DecidableEq, Repr

namespace Arena

/-- The document alone. -/
def new : Arena := ⟨[⟨.document, none, []⟩]⟩

def size (a : Arena) : Nat := a.nodes.length

/-- The record of a node.  Numbers that were not handed out are never asked for. -/
def record (a : Arena) (id : NodeId) : NodeRecord :=
  a.nodes[id]?.getD ⟨.document, none, []⟩

def kind (a : Arena) (id : NodeId) : NodeKind := (a.record id).kind

def parent? (a : Arena) (id : NodeId) : Option NodeId := (a.record id).parent?

def children (a : Arena) (id : NodeId) : List NodeId := (a.record id).children

/-! ### Changing one record -/

def modify (a : Arena) (id : NodeId) (f : NodeRecord → NodeRecord) : Arena :=
  ⟨a.nodes.modify id f⟩

/-- Stores another parent for a node, or none. -/
def setParent (a : Arena) (id : NodeId) (parent? : Option NodeId) : Arena :=
  a.modify id fun r => { r with parent? }

/-- Stores one parent for several nodes, one after the other. -/
def setEachParent (a : Arena) (ids : List NodeId) (parent? : Option NodeId) : Arena :=
  ids.foldl (fun a id => a.setParent id parent?) a

/-- Stores other children for a node. -/
def setChildren (a : Arena) (id : NodeId) (children : List NodeId) : Arena :=
  a.modify id fun r => { r with children }

/-- Stores a node as the last child of another. -/
def pushChild (a : Arena) (id child : NodeId) : Arena :=
  a.modify id fun r => { r with children := r.children ++ [child] }

/-! ### New nodes -/

/-- A new record without links. -/
def push (a : Arena) (kind : NodeKind) : NodeId × Arena :=
  (a.size, ⟨a.nodes ++ [⟨kind, none, []⟩]⟩)

def createElement (a : Arena) (name : String) (attributes : Attributes) : NodeId × Arena :=
  a.push (.element name attributes)

def createLeaf (a : Arena) (kind : LeafKind) (content : String) : NodeId × Arena :=
  a.push (.leaf kind content)

/-! ### Moving nodes -/

/-- Goes from parent to parent until `ancestor` is found.  There are at most `fuel` steps. -/
def climbsTo (a : Arena) (ancestor : NodeId) : Nat → Option NodeId → Bool
  | _, none => false
  | 0, some _ => false
  | fuel + 1, some id => id == ancestor || a.climbsTo ancestor fuel (a.parent? id)

/-- `node` is `ancestor`, or going up from it leads there. -/
def isAncestorOrSelf (a : Arena) (ancestor node : NodeId) : Bool :=
  a.climbsTo ancestor a.size (some node)

def checkInsert (a : Arena) (parent child : NodeId) : Except TreeError Unit :=
  if !(a.kind parent).allowsChildren then .error (.invalidParent parent)
  else if (a.parent? child).isSome || child = Tree.root then .error (.alreadyAttached child)
  else if a.isAncestorOrSelf child parent then .error (.cycle parent child)
  else .ok ()

/-- Makes a node without a parent the last child of another. -/
def appendChild (a : Arena) (parent child : NodeId) : Option TreeError × Arena :=
  match a.checkInsert parent child with
  | .error e => (some e, a)
  | .ok () => (none, (a.pushChild parent child).setParent child (some parent))

/-- Puts a node without a parent `offset` places behind `reference`.  That `reference` stands in the
child list of its parent is found out after everything else. -/
def insertRelative (a : Arena) (reference child : NodeId) (offset : Nat) :
    Option TreeError × Arena :=
  match a.parent? reference with
  | none => (some (.detached reference), a)
  | some parent =>
      match a.checkInsert parent child with
      | .error e => (some e, a)
      | .ok () =>
          match (a.children parent).findIdx? (· = reference) with
          | none => (some (.detached reference), a)
          | some place =>
              (none, (a.setChildren parent
                ((a.children parent).insertIdx (place + offset) child)).setParent child
                  (some parent))

def insertBefore (a : Arena) (reference child : NodeId) : Option TreeError × Arena :=
  a.insertRelative reference child 0

def insertAfter (a : Arena) (reference child : NodeId) : Option TreeError × Arena :=
  a.insertRelative reference child 1

/-- Cuts the link to the parent, and then the link from there. -/
def detach (a : Arena) (id : NodeId) : Arena :=
  match a.parent? id with
  | none => a
  | some parent =>
      let a := a.setParent id none
      a.setChildren parent ((a.children parent).filter (· ≠ id))

/-- Cuts the links to all children, and then the links from there. -/
def takeChildren (a : Arena) (id : NodeId) : List NodeId × Arena :=
  let children := a.children id
  (children, (a.setChildren id []).setEachParent children none)

/-- Puts the children of a node in its place.  They are linked to the parent before the place of the
node is looked up there. -/
def unwrap (a : Arena) (id : NodeId) : Option TreeError × Arena :=
  match a.parent? id with
  | none => (some (.detached id), a)
  | some parent =>
      let (children, a) := a.takeChildren id
      let a := a.setEachParent children (some parent)
      let siblings := a.children parent
      match siblings.findIdx? (· = id) with
      | none => (some (.detached id), a)
      | some place =>
          let a := a.setChildren parent
            (siblings.take place ++ children ++ siblings.drop (place + 1))
          (none, a.setParent id none)

/-! ### Changing one node -/

/-- New attributes for an element; other nodes stay as they are. -/
def mapAttributes (a : Arena) (id : NodeId) (f : Attributes → Attributes) : Arena :=
  a.modify id fun r =>
    match r.kind with
    | .element name attributes => { r with kind := .element name (f attributes) }
    | _ => r

def setAttribute (a : Arena) (id : NodeId) (name value : String) : Arena :=
  a.mapAttributes id (·.set name value)

def removeAttribute (a : Arena) (id : NodeId) (name : String) : Option String × Arena :=
  match a.kind id with
  | .element _ attributes => (attributes.get? name, a.mapAttributes id (·.remove name))
  | _ => (none, a)

/-- Replaces the text of a leaf; other nodes stay as they are. -/
def setText (a : Arena) (id : NodeId) (content : String) : Arena :=
  a.modify id fun r =>
    match r.kind with
    | .leaf kind _ => { r with kind := .leaf kind content }
    | _ => r

/-! ### Copies -/

/-- The copy of a document is an element without a name. -/
def copiedKind : NodeKind → NodeKind
  | .document => .element "" []
  | kind => kind

/-- Copies one node as the last child of `target`.  It is put on a list with its copy. -/
def copyChild (other : Arena) (target : NodeId) (s : Arena × List (NodeId × NodeId))
    (child : NodeId) : Arena × List (NodeId × NodeId) :=
  let (copy, a) := s.1.push (other.kind child)
  ((a.pushChild target copy).setParent copy (some target), (child, copy) :: s.2)

/-- Copies the children of a node below its copy. -/
def copyVisit (other a : Arena) (x : NodeId × NodeId) : Arena × List (NodeId × NodeId) :=
  (other.children x.1).foldl (other.copyChild x.2) (a, [])

/-- Copies a node of other records with everything below it. -/
def importSubtree (a other : Arena) (id : NodeId) : NodeId × Arena :=
  let (copy, a) := a.push (copiedKind (other.kind id))
  (copy, depthFirst other.copyVisit other.size [(id, copy)] a)

/-- Copies the children of a node of other records one by one. -/
def importChildren (a other : Arena) (id : NodeId) : List NodeId × Arena :=
  (other.children id).foldl
    (fun s child =>
      let (copy, a) := s.2.importSubtree other child
      (s.1 ++ [copy], a)) ([], a)

/-- Links a node to the document, and the document to it. -/
def addToRoot (a : Arena) (id : NodeId) : Arena :=
  (a.setParent id (some Tree.root)).pushChild Tree.root id

/-- A copy of the document alone. -/
def compacted (a : Arena) : Arena :=
  let (copies, out) := new.importChildren a Tree.root
  copies.foldl addToRoot out

end Arena

/-! ### Reading -/

/-- The records that were made, and the elements that are still open, innermost first, with the
positions of their start tags. -/
structure ArenaReading where
  arena : Arena
  opened : List (NodeId × Nat)
  deriving DecidableEq, Repr

namespace ArenaReading

/-- Makes a node and puts it below the innermost open element, or below the document.  That it could
not be put there is passed over. -/
def attach (r : ArenaReading) (kind : NodeKind) : ArenaReading :=
  let parent := (r.opened.head?.map (·.1)).getD Tree.root
  let (node, arena) := r.arena.push kind
  { r with arena := (arena.appendChild parent node).2 }

/-- Takes in one token. -/
def step (r : ArenaReading) : Token → Except ParseError ArenaReading
  | .text content => .ok (r.attach (.leaf .text content))
  | .comment content => .ok (r.attach (.leaf .comment content))
  | .startTag name attributes closed position =>
      let node := r.arena.size
      let r := r.attach (.element name attributes)
      .ok (if closed then r else { r with opened := (node, position) :: r.opened })
  | .endTag name position =>
      match r.opened with
      | [] => .error ⟨.unexpectedEndTag, position⟩
      | (innermost, _) :: opened =>
          match r.arena.kind innermost with
          | .element opening _ =>
              if opening = name then .ok { r with opened }
              else .error ⟨.unexpectedEndTag, position⟩
          | _ => .error ⟨.unexpectedEndTag, position⟩

/-- Takes in tokens one after the other. -/
def steps (r : ArenaReading) : List Token → Except ParseError ArenaReading
  | [] => .ok r
  | token :: more => (r.step token).bind (·.steps more)

/-- The records, if no element is open any more. -/
def finish (r : ArenaReading) : Except ParseError Arena :=
  match r.opened with
  | [] => .ok r.arena
  | (_, position) :: _ => .error ⟨.unclosedElement, position⟩

end ArenaReading

/-- The records of a token list. -/
def Arena.ofTokens (tokens : List Token) : Except ParseError Arena :=
  (ArenaReading.steps ⟨.new, []⟩ tokens).bind ArenaReading.finish

/-- The records of a source. -/
def Arena.parse (source : String) : Except ParseError Arena :=
  (tokenize source).bind Arena.ofTokens

end ViewCompiler
