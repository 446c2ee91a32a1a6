/-
**Documents and queued patches.**

Main definitions:

* `ViewCompiler.ViewKind` — what a document shows;
* `ViewCompiler.Document` — a view or template;
* `ViewCompiler.PendingPatch` — patches that wait for the document they are aimed at;
* `ViewCompiler.PendingPatch.sortKey` — the order in which queued patches are considered.
-/

import ViewCompiler.Inheritance.Spec
import ViewCompiler.Names

set_option autoImplicit false

namespace ViewCompiler

/-- What a document shows. -/
inductive ViewKind where
  | form
  | list
  | search
  | kanban
  | graph
  | calendar
  | pivot
  | template
  deriving DecidableEq, Repr

namespace ViewKind

def name : ViewKind → String
  | form => "form"
  | list => "list"
  | search => "search"
  | kanban => "kanban"
  | graph => "graph"
  | calendar => "calendar"
  | pivot => "pivot"
  | template => "template"

/-- The kind with the given name. -/
def ofName? (name : String) : Option ViewKind :=
  [form, list, search, kanban, graph, calendar, pivot, template].find? (·.name = name)

/-- The kind of a view whose first element has the given name: the kind of that name, `tree` being
another word for a list, and a template for all other names. -/
def ofRootTag (tag : String) : ViewKind :=
  if tag = "tree" then list else (ofName? tag).getD template

end ViewKind

/-- The priority of documents and patches that give none. -/
def defaultPriority : Int := 16

/-- A view or template.  `base` is the document that it was derived from, `sequence` its place in
the order of loading. -/
structure Document where
  id : DocumentId
  owner : Owner
  kind : ViewKind
  priority : Int := defaultPriority
  base : Option DocumentId := none
  arch : Forest Unit
  sequence : Nat := 0
  deriving DecidableEq, Repr

/-- Patches that wait for their target.  With a `newId` they make a new document out of a copy of
the target, otherwise they change the target. -/
structure PendingPatch where
  target : DocumentId
  newId : Option DocumentId := none
  specs : List PatchSpec
  priority : Option Int := none
  owner : Option Owner := none
  sequence : Nat := 0
  deriving DecidableEq, Repr

/-- Queued patches are considered by priority, and in the order of loading within one. -/
def PendingPatch.sortKey (p : PendingPatch) : Int × Nat :=
  (p.priority.getD defaultPriority, p.sequence)

/-- The order of queued patches. -/
def PendingPatch.le (p q : PendingPatch) : Bool :=
  let (a, m) := p.sortKey
  let (b, n) := q.sortKey
  a < b || (a = b && m ≤ n)

/-- Documents are listed by owner, then by priority, then in the order of loading. -/
def Document.le (d e : Document) : Bool :=
  d.owner < e.owner ||
    (d.owner = e.owner &&
      (d.priority < e.priority || (d.priority = e.priority && d.sequence ≤ e.sequence)))

end ViewCompiler
