/-
**What goes wrong in a catalog.**

Main definitions:

* `ViewCompiler.CatalogRefusal` — why a catalog takes nothing in;
* `ViewCompiler.BootstrapError` — one fault of the fragments;
* `ViewCompiler.bootstrapReport` — all faults of a bootstrap as one text.
-/

import ViewCompiler.Inheritance.Resolution
import ViewCompiler.Markup.Token
import ViewCompiler.Template.Error

set_option autoImplicit false

namespace ViewCompiler

/-- Why a catalog takes nothing in. -/
inductive CatalogRefusal where
  | alreadyBootstrapped
  | bootstrapFailed
  deriving DecidableEq, Repr

def CatalogRefusal.message : CatalogRefusal → String
  | alreadyBootstrapped =>
      "catalog is already bootstrapped; reset it before loading more fragments"
  | bootstrapFailed => "catalog bootstrap failed; reset it before loading more fragments"

/-- One fault found while fragments are loaded or bootstrapped. -/
inductive BootstrapError where
  | parse (error : ParseError)
  | load (error : LoadError)
  | resolve (error : ResolveError)
  | unresolvedBase (target : DocumentId) (newId : Option DocumentId)
  | compile (id : DocumentId) (error : CompileError)
  | refused (refusal : CatalogRefusal)
  deriving DecidableEq, Repr

/-- A patch whose target is missing is a fault of its own kind. -/
def BootstrapError.ofResolveError : ResolveError → BootstrapError
  | .unresolvedBase target newId => .unresolvedBase target newId
  | error => .resolve error

/-- Who waits for a missing document. -/
def wantedBy : Option DocumentId → String
  | none => ""
  | some id => " (wanted by `" ++ id ++ "`)"

def BootstrapError.message : BootstrapError → String
  | parse error => "fragment source does not parse: " ++ error.message
  | load error => error.message
  | resolve error => error.message
  | unresolvedBase target newId =>
      "inherit_id `" ++ target ++ "` never resolved" ++ wantedBy newId
  | compile id error => "compiling `" ++ id ++ "` failed: " ++ error.message
  | refused refusal => refusal.message

/-- All faults of a bootstrap, one on each line. -/
def bootstrapReport (errors : List BootstrapError) : String :=
  errors.foldl (fun report e => report ++ "\n  - " ++ e.message)
    ("bootstrap failed with " ++ toString errors.length ++ " error(s)")

end ViewCompiler
