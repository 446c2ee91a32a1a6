/-
**Compiling in place.**

The passes on a tree with numbered nodes.  What the elements ask for is kept in a table beside the
tree.  A pass first lists the elements that it goes through and then edits the tree node by node, so
an element on the list may have been moved or taken out by the time its turn comes.  An edit that a
node does not admit ends the compilation with an error about the tree.

Main definitions:

* `ViewCompiler.DirectiveTable` — what is asked for, by element;
* `ViewCompiler.Tree.writeBefore`, `ViewCompiler.Tree.writeAfter`, `ViewCompiler.Tree.writeLast` —
  writing one statement;
* `ViewCompiler.Tree.lowerOutput`, `ViewCompiler.Tree.computeAttributes`,
  `ViewCompiler.Tree.lowerChains`, `ViewCompiler.Tree.lowerLoop`, `ViewCompiler.Tree.lowerSet`,
  `ViewCompiler.Tree.lowerCall` — what the passes do at one node;
* `ViewCompiler.TreeHook` — what a caller does at an element;
* `ViewCompiler.Tree.lower`, `ViewCompiler.Tree.compile` — all passes, and the text that they give.
-/

import ViewCompiler.Template.Collection
import ViewCompiler.Template.Compiler

set_option autoImplicit false

namespace ViewCompiler

/-- What the elements of a document ask for, by number.  Elements that ask for nothing have no
entry. -/
abbrev DirectiveTable := List (NodeId × Directives)

/-- The entry of an element. -/
def DirectiveTable.get? (table : DirectiveTable) (id : NodeId) : Option Directives :=
  (table.find? (·.1 = id)).map (·.2)

/-- What a caller does at an element of a compiled document. -/
abbrev TreeHook := Tree → NodeId → Except CompileError Tree

namespace Tree

/-! ### Looking around -/

/-- The elements of the document in document order. -/
def elementIds (t : Tree) : List NodeId :=
  (t.descendants root).filter fun id => (t.name? id).isSome

/-- The elements that ask for something. -/
def askingIds (table : DirectiveTable) (t : Tree) : List NodeId :=
  t.elementIds.filter fun id => (table.get? id).isSome

/-- The name of an element as messages show it. -/
def tag (t : Tree) (id : NodeId) : String :=
  (t.name? id).getD ""

/-- The element has the tag that only carries directives. -/
def isReserved (o : CompilerOptions) (t : Tree) (id : NodeId) : Bool :=
  t.name? id = some o.reservedTag

/-- The node is part of the document. -/
def isAttached (t : Tree) (id : NodeId) : Bool :=
  t.isAncestorOrSelf root id

/-- Among the children is something besides blank text. -/
def hasContent (t : Tree) (id : NodeId) : Bool :=
  (t.children id).roots.any fun child => !t.isBlankText child

/-! ### Writing statements -/

/-- Writes a statement as the sibling just before `reference`. -/
def writeBefore (t : Tree) (reference : NodeId) (s : Statement) : Except CompileError Tree :=
  let (token, t) := t.createLeaf .raw s.text
  (t.insertBefore reference token).mapError .tree

/-- Writes a statement as the sibling just after `reference`. -/
def writeAfter (t : Tree) (reference : NodeId) (s : Statement) : Except CompileError Tree :=
  let (token, t) := t.createLeaf .raw s.text
  (t.insertAfter reference token).mapError .tree

/-- Writes a text as it is behind the children of `parent`. -/
def writeTextLast (t : Tree) (parent : NodeId) (content : String) : Except CompileError Tree :=
  let (token, t) := t.createLeaf .raw content
  (t.appendChild parent token).mapError .tree

/-- Writes a statement behind the children of `parent`. -/
def writeLast (t : Tree) (parent : NodeId) (s : Statement) : Except CompileError Tree :=
  t.writeTextLast parent s.text

/-! ### Outputs and computed attributes -/

/-- Lowers the output of an element. -/
def lowerOutput (o : CompilerOptions) (table : DirectiveTable) (t : Tree) (id : NodeId) :
    Except CompileError Tree :=
  match table.get? id with
  | none => .ok t
  | some d =>
      match d.output with
      | none => .ok t
      | some output =>
          if !t.isReserved o id || d.hasControl then
            (t.takeChildren id).2.writeLast id (o.outputOf output)
          else (t.writeBefore id (o.outputOf output)).map (·.detach id)

/-- Sets the attributes of an element that one directive computes. -/
def setComputed (id : NodeId) (t : Tree) : DynamicAttribute → Except CompileError Tree
  | .expression name expr => .ok (t.setAttribute id name (outputText expr))
  | .format name format => .ok (t.setAttribute id name (formatString format))
  | .spread spec =>
      (expandAttributes spec).map fun found =>
        found.foldl (fun t a => t.setAttribute id a.1 a.2) t

/-- Sets the computed attributes of an element in source order. -/
def computeAttributes (table : DirectiveTable) (t : Tree) (id : NodeId) :
    Except CompileError Tree :=
  match table.get? id with
  | none => .ok t
  | some d => d.attributes.foldlM (setComputed id) t

/-! ### Branches and loops -/

/-- Ends a chain, if one is open: its last member comes with whether that is an `else`. -/
def closeChain (t : Tree) : Option (NodeId × Bool) → Except CompileError Tree
  | none => .ok t
  | some (last, _) => t.writeAfter last .branchEnd

/-- Begins the branch of a member that goes on with a chain; `isLast` says that no other member can
follow it. -/
def continueChain (name : DirectiveName) (isLast : Bool) (c : Conditional) (t : Tree)
    (child : NodeId) : Option (NodeId × Bool) →
      Except CompileError (Tree × Option (NodeId × Bool))
  | some (_, false) => (t.writeBefore child c.statement).map (·, some (child, isLast))
  | _ => .error (.danglingConditional name (t.tag child))

/-- Goes on to the next child. -/
def joinChain (table : DirectiveTable) (s : Tree × Option (NodeId × Bool)) (child : NodeId) :
    Except CompileError (Tree × Option (NodeId × Bool)) :=
  let (t, chain) := s
  if t.isBlankText child then .ok s
  else
    match (table.get? child).bind (·.conditional) with
    | none => (t.closeChain chain).map (·, none)
    | some (.ifTrue condition) =>
        (t.closeChain chain).bind fun t =>
          (t.writeBefore child (.branchIf condition)).map (·, some (child, false))
    | some (.elseIf condition) => continueChain .elseIf false (.elseIf condition) t child chain
    | some .otherwise => continueChain .otherwise true .otherwise t child chain

/-- Lowers the chains among the children of a node. -/
def lowerChains (table : DirectiveTable) (t : Tree) (parent : NodeId) :
    Except CompileError Tree :=
  ((t.children parent).roots.foldlM (joinChain table) (t, none)).bind fun s => s.1.closeChain s.2

/-- Lowers the loop at an element. -/
def lowerLoop (table : DirectiveTable) (t : Tree) (id : NodeId) : Except CompileError Tree :=
  match table.get? id with
  | none => .ok t
  | some d =>
      match d.foreach, d.binding with
      | some expr, some name =>
          (t.writeBefore id (.loopStart name expr)).bind (·.writeAfter id .loopEnd)
      | some _, none => .error (.incompleteLoop (t.tag id) .foreach .binding)
      | none, some _ => .error (.incompleteLoop (t.tag id) .binding .foreach)
      | none, none => .ok t

/-! ### Assignments and calls -/

/-- The element asks for a call. -/
def isCall (table : DirectiveTable) (id : NodeId) : Bool :=
  (table.get? id).any (·.call.isSome)

/-- Makes a macro of the content of an element. -/
def writeMacro (t : Tree) (id : NodeId) (name : String) : Except CompileError Tree :=
  match t.hasContent id, (t.children id).roots.head? with
  | true, some first =>
      (t.writeBefore first (.macroStart name)).bind (·.writeLast id .macroEnd)
  | _, _ => .error (.emptySet name)

/-- Puts an assignment in the place of an element, or makes a macro of its content. -/
def assign (t : Tree) (id : NodeId) (name : String) : Option String → Except CompileError Tree
  | some value => (t.writeBefore id (.assign name value)).map (·.detach id)
  | none => t.writeMacro id name

/-- Lowers the assignment at an element, unless it belongs to a call. -/
def lowerSet (o : CompilerOptions) (table : DirectiveTable) (t : Tree) (id : NodeId) :
    Except CompileError Tree :=
  match table.get? id with
  | none => .ok t
  | some d =>
      match d.set with
      | none => if d.value.isSome then .error (.valueWithoutSet (t.tag id)) else .ok t
      | some name =>
          if !t.isReserved o id then .error (.setOnWrongTag (t.tag id))
          else if (t.parent? id).any (isCall table) then .ok t
          else if t.isAttached id then t.assign id name d.value
          else .ok t

/-- Looks at one child of a call: an assignment of a value is taken out and joins the bindings, one
of content is moved in front of the call. -/
def bindChild (table : DirectiveTable) (call : NodeId) (s : Tree × List (String × String))
    (child : NodeId) : Except CompileError (Tree × List (String × String)) :=
  let (t, bindings) := s
  match table.get? child with
  | none => .ok s
  | some d =>
      match d.set, d.blockOnBinding?, d.value with
      | none, _, _ => .ok s
      | some name, some directive, _ => .error (.controlOnCallBinding name directive)
      | some name, none, some value => .ok (t.detach child, bindings ++ [(name, value)])
      | some name, none, none =>
          (t.writeMacro child name).bind fun t =>
            ((t.detach child).insertBefore call child).mapError .tree |>.map (·, bindings)

/-- Makes a macro of what has been taken out of an element, and puts it back. -/
def writeDefault (t : Tree) (id : NodeId) (placeholder : String) (content : List NodeId) :
    Except CompileError Tree := do
  let t ← t.writeLast id (.macroStart placeholder)
  let t ← content.foldlM (fun t child => (t.appendChild id child).mapError .tree) t
  t.writeLast id .macroEnd

/-- Puts what an element holds into a scope with an inclusion. -/
def writeScope (placeholder template : String) (bindings : List (String × String)) (t : Tree)
    (id : NodeId) : Except CompileError Tree := do
  let hasContent := t.hasContent id
  let (content, t) := t.takeChildren id
  let t ← t.writeLast id (.scopeStart placeholder)
  let t ← if hasContent then t.writeDefault id placeholder content else .ok t
  let t ← t.writeLast id (.inclusion template bindings)
  t.writeLast id .scopeEnd

/-- Lowers a call: its children give bindings and macros, and what is left is put into a scope with
the inclusion. -/
def writeCall (table : DirectiveTable) (placeholder template : String) (t : Tree) (id : NodeId) :
    Except CompileError Tree :=
  ((t.children id).roots.foldlM (bindChild table id) (t, [])).bind fun s =>
    s.1.writeScope placeholder template s.2 id

/-- Lowers the call at an element. -/
def lowerCall (o : CompilerOptions) (table : DirectiveTable) (t : Tree) (id : NodeId) :
    Except CompileError Tree :=
  match (table.get? id).bind (·.call) with
  | none => .ok t
  | some template =>
      if !t.isReserved o id then .error (.callOnWrongTag (t.tag id))
      else if !t.isAttached id then .ok t
      else t.writeCall table o.placeholder template id

/-! ### All passes -/

/-- Replaces an element with the reserved tag by its children. -/
def unwrapReserved (o : CompilerOptions) (t : Tree) (id : NodeId) : Except CompileError Tree :=
  if t.isReserved o id then (t.unwrap id).mapError .tree else .ok t

/-- All passes, on a copy of the document. -/
def lower (o : CompilerOptions) (hook : TreeHook) (t : Tree) : Except CompileError Tree := do
  let ⟨t, table⟩ := t.compacted.collect o
  let t ← (t.askingIds table).foldlM (lowerOutput o table) t
  let t ← (t.askingIds table).foldlM (computeAttributes table) t
  let t ← (root :: t.elementIds).foldlM (lowerChains table) t
  let t ← (t.askingIds table).foldlM (lowerLoop table) t
  let t ← (t.askingIds table).foldlM (lowerSet o table) t
  let t ← (t.askingIds table).foldlM (lowerCall o table) t
  let t ← t.elementIds.foldlM hook t
  t.elementIds.foldlM (unwrapReserved o) t

/-- The text of a compiled document. -/
def compile (o : CompilerOptions) (hook : TreeHook) (t : Tree) : Except CompileError String :=
  (t.lower o hook).map fun t => t.writeChildren o.output root

end Tree

/-- Setting attributes and writing texts behind the children of an element is something that a
caller can do. -/
def FieldHook.inPlace (hook : FieldHook) : TreeHook := fun t id =>
  match hook (t.tag id) (t.attributes id) with
  | .error e => .error e
  | .ok (attributes, added) =>
      added.foldlM (fun t content => t.writeTextLast id content)
        (t.mapAttributes id fun _ => attributes)

/-- The hook that does nothing. -/
def TreeHook.none : TreeHook := fun t _ => .ok t

end ViewCompiler
