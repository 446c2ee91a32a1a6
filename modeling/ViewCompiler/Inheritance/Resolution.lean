/-
**Resolving inheritance.**

Queued patches are resolved in passes.  A pass first applies the patches that change their target
to every target that is stored, then makes new documents out of the patches with a new id, each
from a copy of its target.  A document made in a pass is no target before the next pass, so all
patches on it are applied before anything is derived from it.  Passes go on until the queue is
empty, a pass takes nothing out of it, or the bound is reached.

Main definitions:

* `ViewCompiler.ResolverOptions`, `ViewCompiler.UnresolvedPolicy` — the bound, and how patches
  that stay in the queue count;
* `ViewCompiler.Progress` — the store and what was done so far;
* `ViewCompiler.Progress.applyInPlace`, `ViewCompiler.Progress.derive` — the two halves of a pass;
* `ViewCompiler.Store.resolve` — all passes, and the outcome.
-/

import ViewCompiler.Inheritance.Patch
import ViewCompiler.Inheritance.Store

set_option autoImplicit false

namespace ViewCompiler

/-- What happens to patches whose target never turned up. -/
inductive UnresolvedPolicy where
  | ignore
  | warn
  | error
  deriving DecidableEq, Repr

/-- How far resolution goes. -/
structure ResolverOptions where
  maxPasses : Nat := 100
  unresolved : UnresolvedPolicy := .warn
  deriving DecidableEq, Repr

/-- A patch that stayed in the queue. -/
structure Unresolved where
  target : DocumentId
  newId : Option DocumentId
  deriving DecidableEq, Repr

/-- What went wrong during resolution. -/
inductive ResolveError where
  | patch (target : DocumentId) (newId : Option DocumentId) (source : PatchError)
  | duplicateId (id : DocumentId)
  | unresolvedBase (target : DocumentId) (newId : Option DocumentId)
  deriving DecidableEq, Repr

def ResolveError.message : ResolveError → String
  | patch target _ source => "patch on `" ++ target ++ "` failed: " ++ source.message
  | duplicateId id => "derived document `" ++ id ++ "` collides with an existing id"
  | unresolvedBase target newId =>
      "base `" ++ target ++ "` never resolved (pending patch" ++
        (match newId with
          | some id => " for `" ++ id ++ "`"
          | none => "") ++ ")"

/-- The outcome of resolution. -/
structure Resolution where
  passes : Nat
  applied : Nat
  created : List DocumentId
  unresolved : List Unresolved
  errors : List ResolveError
  deriving DecidableEq, Repr

/-- The store, and what has been done to it. -/
structure Progress where
  store : Store
  applied : Nat := 0
  created : List DocumentId := []
  errors : List ResolveError := []

namespace Progress

/-- The arch that patches make of a base. -/
def patched (base : Document) (specs : List PatchSpec) : Except PatchError (Forest Unit) :=
  (applyPatches base.arch specs).map Tree.plain

/-- Records a patch that failed. -/
def fail (r : Progress) (error : ResolveError) : Progress :=
  { r with errors := r.errors ++ [error] }

/-- Applies the patches that change their target, where the target is stored.  The patches that
remain come with the progress. -/
def applyInPlace (r : Progress) : List PendingPatch → List PendingPatch × Progress
  | [] => ([], r)
  | p :: more =>
      match p.newId, r.store.get? p.target with
      | none, some base =>
          match patched base p.specs with
          | .ok arch =>
              applyInPlace
                { r with store := r.store.setArch p.target arch, applied := r.applied + 1 } more
          | .error source => applyInPlace (r.fail (.patch p.target none source)) more
      | _, _ =>
          let (remaining, r) := applyInPlace r more
          (p :: remaining, r)

/-- The document that a patch makes of its base. -/
def derived (p : PendingPatch) (newId : DocumentId) (base : Document) (arch : Forest Unit) :
    Document where
  id := newId
  owner := p.owner.getD base.owner
  kind := base.kind
  priority := p.priority.getD base.priority
  base := some p.target
  arch := arch

/-- Makes new documents out of the patches with a new id whose target is stored and was not made
in this pass; `fresh` holds the ids made so far.  The patches that remain come with the
progress. -/
def derive (r : Progress) (fresh : List DocumentId) :
    List PendingPatch → List PendingPatch × Progress
  | [] => ([], r)
  | p :: more =>
      match p.newId, if fresh.contains p.target then none else r.store.get? p.target with
      | some newId, some base =>
          match patched base p.specs with
          | .error source =>
              derive ({ r with store := r.store.release newId }.fail
                (.patch p.target (some newId) source)) fresh more
          | .ok arch =>
              match r.store.insertDerived (derived p newId base arch) with
              | .error id => derive (r.fail (.duplicateId id)) fresh more
              | .ok store =>
                  derive
                    { r with
                      store := store
                      applied := r.applied + 1
                      created := r.created ++ [newId] }
                    (newId :: fresh) more
      | _, _ =>
          let (remaining, r) := derive r fresh more
          (p :: remaining, r)

/-- One pass: first the patches in place, then the new documents. -/
def pass (r : Progress) (pending : List PendingPatch) : List PendingPatch × Progress :=
  let (pending, r) := r.applyInPlace pending
  r.derive [] pending

/-- Passes up to a bound.  The number of passes comes first. -/
def passes (r : Progress) (pending : List PendingPatch) :
    Nat → Nat × List PendingPatch × Progress
  | 0 => (0, pending, r)
  | bound + 1 =>
      if pending.isEmpty then (0, pending, r)
      else
        let (remaining, r) := r.pass pending
        if remaining.length = pending.length then (1, remaining, r)
        else
          let (n, result) := r.passes remaining bound
          (n + 1, result)

end Progress

/-- The entry of a queued patch in the list of unresolved ones. -/
def PendingPatch.unresolved (p : PendingPatch) : Unresolved :=
  ⟨p.target, p.newId⟩

/-- The errors that patches left in the queue amount to. -/
def UnresolvedPolicy.errors (policy : UnresolvedPolicy) (pending : List PendingPatch) :
    List ResolveError :=
  match policy with
  | .error => pending.map fun p => .unresolvedBase p.target p.newId
  | _ => []

/-- Resolves the queue.  What cannot be resolved stays in it, in the order of consideration. -/
def Store.resolve (s : Store) (options : ResolverOptions) : Resolution × Store :=
  let start : Progress := { store := { s with pending := [] } }
  let (passes, remaining, r) :=
    start.passes (s.pending.mergeSort PendingPatch.le) options.maxPasses
  ({ passes := passes
     applied := r.applied
     created := r.created
     unresolved := remaining.map PendingPatch.unresolved
     errors := r.errors ++ options.unresolved.errors remaining },
    { r.store with pending := remaining })

end ViewCompiler
