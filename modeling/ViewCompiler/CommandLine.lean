/-
**The command line.**

`compile FILE…` loads the fragments of all files, bootstraps them and prints the compiled
documents.  A command line is read completely before any file is looked at; one that is not of
this form is rejected as a whole.

Main definitions:

* `ViewCompiler.Invocation`, `ViewCompiler.Invocation.parse` — what a command line asks for;
* `ViewCompiler.CommandError` — why a command fails;
* `ViewCompiler.Reply`, `ViewCompiler.runCommand` — what a command line does, given the texts of
  files.
-/

import ViewCompiler.Catalog.Stage
import ViewCompiler.FileTree

set_option autoImplicit false

namespace ViewCompiler

/-! ### Arguments -/

/-- What a command line asks for, as far as it has been read. -/
structure Invocation where
  files : List String := []
  languages : List Lang := []
  id : Option DocumentId := none
  strict : Bool := false
  maxPasses : Option Nat := none
  deriving DecidableEq, Repr

namespace Invocation

/-- The largest number that an argument can give: the largest of 64 bits. -/
def numberLimit : Nat := 18446744073709551615

/-- Takes in the name of a file, which is not empty. -/
def addFile (i : Invocation) (name : String) : Option Invocation :=
  if name = "" then none else some { i with files := i.files ++ [name] }

/-- Takes in the names of files. -/
def addFiles (i : Invocation) : List String → Option Invocation
  | [] => some i
  | name :: more => (i.addFile name).bind fun i => i.addFiles more

/-- Takes in an option with a value.  Only languages may be given more than once. -/
def addOption (i : Invocation) (name value : String) : Option Invocation :=
  match name with
  | "--lang" => some { i with languages := i.languages ++ [value] }
  | "--id" => if i.id.isSome then none else some { i with id := some value }
  | "--max-passes" =>
      if i.maxPasses.isSome then none
      else (natural? numberLimit value.toList).map fun n => { i with maxPasses := some n }
  | _ => none

/-- Takes in an option without a value. -/
def addFlag (i : Invocation) (name : String) : Option Invocation :=
  if name ≠ "--strict" || i.strict then none else some { i with strict := true }

/-- The options that are followed by a value. -/
def takesValue (name : String) : Bool :=
  ["--lang", "--id", "--max-passes"].contains name

/-- The argument is an option or the mark behind the last one; a single dash is a plain text. -/
def isOption (arg : String) : Bool :=
  match arg.toList with
  | '-' :: _ :: _ => true
  | _ => false

/-- The parts of an argument before and behind its first equals sign. -/
def splitValue? (arg : String) : Option (String × String) :=
  match arg.toList.span (· ≠ '=') with
  | (name, _ :: value) => some (.ofList name, .ofList value)
  | (_, []) => none

/-- Reads arguments.  Behind `--` all are names of files. -/
def readArguments (i : Invocation) : List String → Option Invocation
  | [] => some i
  | arg :: more =>
      if arg = "--" then i.addFiles more
      else if !isOption arg then (i.addFile arg).bind fun i => i.readArguments more
      else match splitValue? arg with
        | some (name, value) => (i.addOption name value).bind fun i => i.readArguments more
        | none =>
            if !takesValue arg then (i.addFlag arg).bind fun i => i.readArguments more
            else match more with
              | [] => none
              | value :: more =>
                  if isOption value then none
                  else (i.addOption arg value).bind fun i => i.readArguments more

/-- What a command line asks for: the command and at least one file. -/
def parse : List String → Option Invocation
  | "compile" :: arguments =>
      (readArguments {} arguments).filter fun i => !i.files.isEmpty
  | _ => none

/-- What the catalog goes by. -/
def options (i : Invocation) : CatalogOptions where
  resolver :=
    { maxPasses := i.maxPasses.getD ({} : ResolverOptions).maxPasses
      unresolved := if i.strict then .error else .warn }
  languages := i.languages

end Invocation

/-! ### Errors -/

/-- Why a command fails. -/
inductive CommandError where
  | reading (name : String) (fault : FileFault)
  | parsing (name : String) (error : ParseError)
  | refused (refusal : CatalogRefusal)
  | bootstrap (errors : List BootstrapError)
  | noDocument (id : DocumentId)
  deriving DecidableEq, Repr

namespace CommandError

/-- What failed. -/
def message : CommandError → String
  | reading name _ => "reading " ++ name
  | parsing name _ => "parsing " ++ name
  | refused refusal => refusal.message
  | bootstrap errors => bootstrapReport errors
  | noDocument id => "no document with id `" ++ id ++ "`"

/-- What it failed of, if that is another message. -/
def cause? : CommandError → Option String
  | reading _ fault => some fault.message
  | parsing _ error => some error.message
  | _ => none

/-- The error as it is printed. -/
def report (e : CommandError) : String :=
  "Error: " ++ e.message ++
    (match e.cause? with
      | some cause => "\n\nCaused by:\n    " ++ cause
      | none => "") ++ "\n"

end CommandError

/-! ### Running -/

/-- Loads files one after the other, up to the first that cannot be loaded. -/
def loadFiles (read : String → Except FileFault String) (c : Catalog) :
    List String → Except CommandError Catalog
  | [] => .ok c
  | name :: more =>
      match read name with
      | .error fault => .error (.reading name fault)
      | .ok source =>
          match parse source with
          | .error error => .error (.parsing name error)
          | .ok t =>
              match c.load t.content with
              | .error refusal => .error (.refused refusal)
              | .ok (_, c) => loadFiles read c more

/-- The line in front of a compiled document. -/
def headerLine (d : CompiledDocument) (lang : Lang) : String :=
  "\x7b# " ++ d.id ++ " (" ++ d.owner ++ ", " ++ d.kind.name ++ ", " ++ lang ++ ") #\x7d\n"

/-- A document in several languages.  Where only one is printed, a header is needed only among
other documents. -/
def printedDocument (languages : List Lang) (headed : Bool) (d : CompiledDocument) : String :=
  languages.foldl
    (fun out lang =>
      match d.output? lang with
      | none => out
      | some text =>
          out ++ (if headed || languages.length > 1 then headerLine d lang else "") ++ text ++ "\n")
    ""

/-- The line about a patch whose target never turned up. -/
def warningLine (u : Unresolved) : String :=
  "warning: inherit_id `" ++ u.target ++ "` never resolved\n"

/-- What a command prints, and its exit status. -/
structure Reply where
  status : Nat
  out : String
  err : String
  deriving DecidableEq, Repr

/-- The documents that are printed. -/
def printedOutput (i : Invocation) (c : Catalog) (languages : List Lang) :
    Except CommandError String :=
  match i.id with
  | none => .ok (c.documents.foldl (fun out d => out ++ printedDocument languages true d) "")
  | some id =>
      match c.get? id with
      | none => .error (.noDocument id)
      | some d => .ok (printedDocument languages false d)

/-- Carries out a command, given the texts of files. -/
def Invocation.run (i : Invocation) (read : String → Except FileFault String) : Reply :=
  match loadFiles read (.new i.options .none) i.files with
  | .error e => ⟨1, "", e.report⟩
  | .ok c =>
      match c.bootstrap .identity with
      | (.error errors, _) => ⟨1, "", (CommandError.bootstrap errors).report⟩
      | (.ok summary, c) =>
          let warnings := summary.unresolved.foldl (fun out u => out ++ warningLine u) ""
          match printedOutput i c summary.languages with
          | .error e => ⟨1, "", warnings ++ e.report⟩
          | .ok out => ⟨0, out, warnings⟩

/-- What is printed about a command line that is rejected. -/
def usageText : String :=
  "usage: compile FILE... [--lang LANG]... [--id ID] [--strict] [--max-passes N]\n"

/-- What a command line does, given the texts of files. -/
def runCommand (arguments : List String) (read : String → Except FileFault String) : Reply :=
  match Invocation.parse arguments with
  | none => ⟨2, "", usageText⟩
  | some i => i.run read

end ViewCompiler
