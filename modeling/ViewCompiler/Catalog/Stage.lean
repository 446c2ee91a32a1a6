/-
**The catalog.**

A catalog takes in fragments, is bootstrapped once, and answers look-ups from then on.  A faulty
fragment is not refused at once: its error is kept for the bootstrap, which fails if there is any
error.  A catalog whose bootstrap has failed repeats the errors.  Only a reset leads back to the
start.

Main definitions:

* `ViewCompiler.Stage`, `ViewCompiler.Catalog` — where a catalog stands;
* `ViewCompiler.Catalog.load`, `ViewCompiler.Catalog.loadSource` — taking in fragments;
* `ViewCompiler.Catalog.bootstrap` — resolving and compiling all that was taken in;
* `ViewCompiler.Catalog.documents`, `ViewCompiler.Catalog.get?`, `ViewCompiler.Catalog.first?` —
  look-ups.
-/

import ViewCompiler.Catalog.Directory
import ViewCompiler.Inheritance.Fragment
import ViewCompiler.Markup.Reader

set_option autoImplicit false

namespace ViewCompiler

/-- Where a catalog stands: it takes in fragments and keeps the errors found so far, it answers
look-ups, or it has failed. -/
inductive Stage where
  | loading (store : Store) (errors : List BootstrapError)
  | ready (directory : Directory)
  | failed (errors : List BootstrapError)
  deriving Repr

/-- Nothing is taken in. -/
def Stage.start : Stage := .loading .empty []

/-- What bootstrapping has done. -/
structure BootstrapSummary where
  passes : Nat
  documents : Nat
  created : List DocumentId
  unresolved : List Unresolved
  languages : List Lang
  deriving DecidableEq, Repr

/-- A catalog: what it goes by, and where it stands. -/
structure Catalog where
  options : CatalogOptions
  hook : FieldHook
  stage : Stage

/-- Takes in fragments one by one.  Those that cannot be taken in give an error each. -/
def Store.loadEach {ι : Type} (s : Store) :
    List (Element ι) → List Loaded × List LoadError × Store
  | [] => ([], [], s)
  | e :: more =>
      match s.load e with
      | .error error =>
          let (loaded, errors, s) := s.loadEach more
          (loaded, error :: errors, s)
      | .ok (item, s) =>
          let (loaded, errors, s) := s.loadEach more
          (item :: loaded, errors, s)

namespace Catalog

/-- A catalog that has taken in nothing. -/
def new (options : CatalogOptions) (hook : FieldHook) : Catalog :=
  ⟨options, hook, .start⟩

/-- Drops all that was taken in. -/
def reset (c : Catalog) : Catalog :=
  { c with stage := .start }

/-- Look-ups can be answered. -/
def isReady (c : Catalog) : Bool :=
  match c.stage with
  | .ready _ => true
  | _ => false

/-- The bootstrap has failed. -/
def hasFailed (c : Catalog) : Bool :=
  match c.stage with
  | .failed _ => true
  | _ => false

/-- Takes in all fragments of a document.  Errors are kept for the bootstrap. -/
def load {ι : Type} (c : Catalog) (f : Forest ι) :
    Except CatalogRefusal (List Loaded × Catalog) :=
  match c.stage with
  | .ready _ => .error .alreadyBootstrapped
  | .failed _ => .error .bootstrapFailed
  | .loading store errors =>
      let (loaded, found, store) := store.loadEach f.fragments
      .ok (loaded, { c with stage := .loading store (errors ++ found.map .load) })

/-- Takes in all fragments of a source.  A source that is no document is one more error. -/
def loadSource (c : Catalog) (source : String) :
    Except CatalogRefusal (List Loaded × Catalog) :=
  match parse source with
  | .ok t => c.load t.content
  | .error e =>
      match c.stage with
      | .ready _ => .error .alreadyBootstrapped
      | .failed _ => .error .bootstrapFailed
      | .loading store errors =>
          .ok ([], { c with stage := .loading store (errors ++ [.parse e]) })

/-- The catalog after a bootstrap with errors, and the errors. -/
def fail (c : Catalog) (errors : List BootstrapError) :
    Except (List BootstrapError) BootstrapSummary × Catalog :=
  (.error errors, { c with stage := .failed errors })

/-- Resolves and compiles all that was taken in.  The errors of loading and of resolving come
together; documents are compiled only if there are none. -/
def bootstrap (c : Catalog) (translator : Translator) :
    Except (List BootstrapError) BootstrapSummary × Catalog :=
  match c.stage with
  | .ready _ => (.error [.refused .alreadyBootstrapped], c)
  | .failed errors => (.error errors, c)
  | .loading store errors =>
      let (resolution, store) := store.resolve c.options.resolver
      let errors := errors ++ resolution.errors.map .ofResolveError
      if !errors.isEmpty then c.fail errors
      else
        let (errors, entries) := compileEntries c.options c.hook translator store.documents
        if !errors.isEmpty then c.fail errors
        else
          (.ok { passes := resolution.passes, documents := entries.length,
                 created := resolution.created, unresolved := resolution.unresolved,
                 languages := c.options.effectiveLanguages },
            { c with stage := .ready (.ofEntries entries) })

/-- All documents by owner, priority and order of loading. -/
def documents (c : Catalog) : List CompiledDocument :=
  match c.stage with
  | .ready directory => directory.ordered
  | _ => []

/-- The document with an id. -/
def get? (c : Catalog) (id : DocumentId) : Option CompiledDocument :=
  match c.stage with
  | .ready directory => directory.byId.get? id
  | _ => none

/-- The document with the least priority among those of a kind and owner; of several the one
that was loaded first. -/
def first? (c : Catalog) (owner : Owner) (kind : ViewKind) : Option CompiledDocument :=
  match c.stage with
  | .ready directory => directory.byOwner.get? (owner, kind)
  | _ => none

end Catalog

end ViewCompiler
