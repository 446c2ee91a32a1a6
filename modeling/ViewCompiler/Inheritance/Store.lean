/-
**The store of documents.**

The store holds documents under their ids and a queue of patches.  A queued patch that will make a
new document reserves the id of that document.  Whatever is stored or queued takes the next load
sequence number.

Main definitions:

* `ViewCompiler.Store` — documents in the order of loading, the queue, the reserved ids and the
  last sequence number;
* `ViewCompiler.Store.insert`, `ViewCompiler.Store.enqueue` — taking in documents and patches;
* `ViewCompiler.Store.insertDerived`, `ViewCompiler.Store.release` — what becomes of a reserved
  id;
* `ViewCompiler.Store.documents`, `ViewCompiler.Store.firstForOwner?` — listing and look-up;
* `ViewCompiler.LoadError` — why a fragment cannot be taken in.
-/

import ViewCompiler.Inheritance.Document

set_option autoImplicit false

namespace ViewCompiler

/-- Why a fragment cannot be taken in. -/
inductive LoadError where
  | unknownRoot (tag : String)
  | emptyFragment
  | missingId (tag : String)
  | missingModel (id : DocumentId)
  | duplicateId (id : DocumentId)
  | invalidPriority (id value : String)
  | emptyArch (id : DocumentId)
  | strayText (target : DocumentId) (text : String)
  | patch (target : DocumentId) (source : PatchError)
  deriving DecidableEq, Repr

def LoadError.message : LoadError → String
  | unknownRoot tag => "fragment root must be <view> or <template>, found <" ++ tag ++ ">"
  | emptyFragment => "fragment has no root element"
  | missingId tag => "<" ++ tag ++ "> without `inherit_id` needs an `id`"
  | missingModel id => "view `" ++ id ++ "` has no `model`"
  | duplicateId id => "document id `" ++ id ++ "` is already registered"
  | invalidPriority id value => "`" ++ id ++ "`: priority `" ++ value ++ "` is not an integer"
  | emptyArch id => "`" ++ id ++ "` has no arch"
  | strayText target text =>
      "patch fragment on `" ++ target ++ "` contains stray text `" ++ text ++ "`"
  | patch target source => "patch fragment on `" ++ target ++ "`: " ++ source.message

/-- Documents in the order of loading, queued patches, the ids that those announce, and the last
sequence number given out. -/
structure Store where
  stored : List Document
  pending : List PendingPatch
  reserved : List DocumentId
  counter : Nat
  deriving DecidableEq, Repr

namespace Store

/-- Nothing is loaded. -/
def empty : Store := ⟨[], [], [], 0⟩

/-- The document with an id. -/
def get? (s : Store) (id : DocumentId) : Option Document :=
  s.stored.find? (·.id = id)

/-- A document has the id. -/
def contains (s : Store) (id : DocumentId) : Bool :=
  (s.get? id).isSome

/-- The id belongs to a document or is announced by a queued patch. -/
def taken (s : Store) (id : DocumentId) : Bool :=
  s.contains id || s.reserved.contains id

/-- Stores a document under the next sequence number. -/
def add (s : Store) (d : Document) : Store :=
  { s with
    stored := s.stored ++ [{ d with sequence := s.counter + 1 }]
    counter := s.counter + 1 }

/-- Takes in a loaded document. -/
def insert (s : Store) (d : Document) : Except LoadError Store :=
  if s.taken d.id then .error (.duplicateId d.id) else .ok (s.add d)

/-- Puts a patch into the queue and reserves the id that it announces. -/
def enqueue (s : Store) (p : PendingPatch) : Except LoadError Store :=
  let queued : Store :=
    { s with
      pending := s.pending ++ [{ p with sequence := s.counter + 1 }]
      counter := s.counter + 1 }
  match p.newId with
  | none => .ok queued
  | some id =>
      if s.taken id then .error (.duplicateId id)
      else .ok { queued with reserved := id :: s.reserved }

/-- Gives up a reservation. -/
def release (s : Store) (id : DocumentId) : Store :=
  { s with reserved := s.reserved.filter (· ≠ id) }

/-- Stores a document that a patch has made under the id it announced. -/
def insertDerived (s : Store) (d : Document) : Except DocumentId Store :=
  if s.contains d.id then .error d.id else .ok ((s.release d.id).add d)

/-- The store with a new arch for a document. -/
def setArch (s : Store) (id : DocumentId) (arch : Forest Unit) : Store :=
  { s with stored := s.stored.map fun d => if d.id = id then { d with arch := arch } else d }

/-- All documents by owner, priority and order of loading. -/
def documents (s : Store) : List Document :=
  s.stored.mergeSort Document.le

/-- The document with the least priority among those of a kind and owner; of several the one
that was loaded first. -/
def firstForOwner? (s : Store) (owner : Owner) (kind : ViewKind) : Option Document :=
  (s.stored.filter fun d => d.owner = owner && d.kind = kind).foldl
    (fun best d => match best with
      | none => some d
      | some b => if d.le b then some d else some b) none

end Store

end ViewCompiler
