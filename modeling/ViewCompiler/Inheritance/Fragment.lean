/-
**Loading fragments.**

A fragment is a `<view>` or `<template>` element.  With an `inherit_id` it queues its children as
patches on that document; otherwise its children are the content of a new document.  A fragment is
taken in as a whole or not at all.

Main definitions:

* `ViewCompiler.Forest.fragments` — the outermost fragments of a document;
* `ViewCompiler.Tree.fragmentRoots` — where they are in a tree, its nodes visited one by one;
* `ViewCompiler.Loaded` — what a fragment turned into;
* `ViewCompiler.Store.load` — taking in one fragment;
* `ViewCompiler.Store.loadDocument` — taking in the first element of a document as a fragment.
-/

import ViewCompiler.Inheritance.Store
import ViewCompiler.Markup.Tree
import ViewCompiler.Text.Blank
import ViewCompiler.Text.Numeral

set_option autoImplicit false

namespace ViewCompiler

variable {ι : Type}

/-- The tag of views. -/
def viewTag : String := "view"

/-- The tag of templates. -/
def templateTag : String := "template"

/-- The name of a fragment's element. -/
def isFragmentTag (name : String) : Bool :=
  name = viewTag || name = templateTag

/-- The outermost fragments in document order; none is looked for inside a fragment. -/
def Forest.fragments : Forest ι → List (Element ι)
  | nil => []
  | element label name attributes children rest =>
      if isFragmentTag name then ⟨label, name, attributes, children⟩ :: rest.fragments
      else children.fragments ++ rest.fragments
  | leaf _ _ _ rest => rest.fragments

/-- The node is the element of a fragment. -/
def Tree.isFragmentRoot (t : Tree) (id : NodeId) : Bool :=
  (t.name? id).any isFragmentTag

/-- Visits a node in search of fragments: of the children of other nodes only elements are visited,
and those of a fragment are not. -/
def Tree.searchVisit (t : Tree) (roots : List NodeId) (id : NodeId) : List NodeId × List NodeId :=
  if t.isFragmentRoot id then (roots ++ [id], [])
  else (roots, (t.children id).roots.filter fun child => (t.name? child).isSome)

/-- The outermost fragments of the document. -/
def Tree.fragmentRoots (t : Tree) : List NodeId :=
  depthFirst t.searchVisit t.size [root] []

/-- What a fragment turned into. -/
inductive Loaded where
  | document (id : DocumentId)
  | pending (target : DocumentId) (newId : Option DocumentId)
  deriving DecidableEq, Repr

/-- The specifications of a patch fragment: one for each element; text besides blanks is stray. -/
def readSpecs (target : DocumentId) : List (Node ι) → Except LoadError (List PatchSpec)
  | [] => .ok []
  | .element e :: more =>
      match PatchSpec.ofElement e with
      | .error error => .error (.patch target error)
      | .ok spec => (readSpecs target more).map (spec :: ·)
  | .leaf _ .text content :: more =>
      if allBlank content then readSpecs target more
      else .error (.strayText target (trimmed content))
  | .leaf .. :: more => readSpecs target more

/-- The priority that a fragment gives: a whole number of 32 bits. -/
def priorityOf (e : Element ι) : Except LoadError (Option Int) :=
  match e.attr? "priority" with
  | none => .ok none
  | some value =>
      match integer? (-2147483648) 2147483647 (trim value.toList) with
      | some n => .ok (some n)
      | none =>
          let id := ((e.attr? "id").or (e.attr? "inherit_id")).getD ""
          .error (.invalidPriority id value)

/-- The owner that a fragment without `inherit_id` gives. -/
def ownerOf (e : Element ι) (id : DocumentId) : Except LoadError Owner :=
  match e.attr? "model" with
  | some model => .ok model
  | none => if e.name = templateTag then .ok templateOwner else .error (.missingModel id)

/-- The patch that a fragment on `target` queues. -/
def patchOf (e : Element ι) (target : DocumentId) (priority : Option Int) :
    Except LoadError PendingPatch :=
  (readSpecs target e.children.nodes).map fun specs =>
    { target := target, newId := e.attr? "id", specs := specs, priority := priority,
      owner := e.attr? "model" }

/-- The document that a fragment holds. -/
def documentOf (e : Element ι) (priority : Option Int) : Except LoadError Document :=
  match e.attr? "id" with
  | none => .error (.missingId e.name)
  | some id =>
      match ownerOf e id with
      | .error error => .error error
      | .ok owner =>
          match e.children.topElements with
          | [] => .error (.emptyArch id)
          | first :: _ =>
              let kind := if e.name = templateTag then .template else .ofRootTag first.name
              .ok { id := id, owner := owner, kind := kind,
                    priority := priority.getD defaultPriority, arch := e.children.plain }

namespace Store

/-- Takes in one fragment. -/
def load (s : Store) (e : Element ι) : Except LoadError (Loaded × Store) :=
  if !isFragmentTag e.name then .error (.unknownRoot e.name)
  else match priorityOf e with
    | .error error => .error error
    | .ok priority =>
        match e.attr? "inherit_id" with
        | some target =>
            match patchOf e target priority with
            | .error error => .error error
            | .ok patch => (s.enqueue patch).map fun s => (.pending target patch.newId, s)
        | none =>
            match documentOf e priority with
            | .error error => .error error
            | .ok document => (s.insert document).map fun s => (.document document.id, s)

/-- Takes in the first element of a document as a fragment. -/
def loadDocument (s : Store) (f : Forest ι) : Except LoadError (Loaded × Store) :=
  match f.topElements with
  | [] => .error .emptyFragment
  | e :: _ => s.load e

end Store

end ViewCompiler
