/-
**Compiling archs.**

An arch is compiled in a fixed order of passes; each relies on the shape that the one before it has
left.  What a pass cannot lower is refused before it runs.

1. An output directive becomes an output.
2. Computed attributes become attributes.
3. Chains of alternatives become blocks.
4. Loops become blocks.
5. Assignments become statements or macros.
6. Calls become scopes around inclusions.

Then the caller's hook sees every element, and the elements with the reserved tag are replaced by
what is in them.

Main definitions:

* `ViewCompiler.FieldHook` — what a caller does with the attributes that no directive takes;
* `ViewCompiler.lower` — all passes;
* `ViewCompiler.compile` — the text of a compiled arch;
* `ViewCompiler.compileDocument` — its texts in several languages.
-/

import ViewCompiler.Template.Lowering.Block
import ViewCompiler.Template.Lowering.Count
import ViewCompiler.Template.Lowering.Output
import ViewCompiler.Template.Translation

set_option autoImplicit false

namespace ViewCompiler

variable {ι : Type}

/-- What a caller makes of an element, given its name and attributes: new attributes, and texts
that are written at the end of its content as they are. -/
abbrev FieldHook := String → Attributes → Except CompileError (Attributes × List String)

/-- The hook that leaves every element as it is. -/
def FieldHook.none : FieldHook := fun _ attributes => .ok (attributes, [])

/-- Texts that are written as they are. -/
def rawLeaves : List String → Forest Mark
  | [] => .nil
  | content :: more => .leaf (.source {}) .raw content (rawLeaves more)

/-- Shows every element to a hook, in document order. -/
def applyHook (hook : FieldHook) : Forest Mark → Except CompileError (Forest Mark)
  | .nil => .ok .nil
  | .leaf mark kind content rest => (applyHook hook rest).map (.leaf mark kind content)
  | .element mark name attributes children rest =>
      match hook name attributes with
      | .error e => .error e
      | .ok (attributes, added) =>
          match applyHook hook children with
          | .error e => .error e
          | .ok children =>
              (applyHook hook rest).map
                (.element mark name attributes (children ++ rawLeaves added))

/-- Replaces the elements of a name by what is in them. -/
def Forest.unwrapNamed (tag : String) : Forest ι → Forest ι
  | nil => nil
  | leaf label kind content rest => leaf label kind content (rest.unwrapNamed tag)
  | element label name attributes children rest =>
      if name = tag then children.unwrapNamed tag ++ rest.unwrapNamed tag
      else element label name attributes (children.unwrapNamed tag) (rest.unwrapNamed tag)

/-- A compiled arch.  `size` counts the document, the nodes of the arch and all that was
written. -/
structure Lowered where
  content : Forest Mark
  size : Nat
  deriving DecidableEq, Repr

/-- Fails with an error, if there is one. -/
def refuse {ε : Type} : Option ε → Except ε Unit
  | none => .ok ()
  | some e => .error e

/-- All passes. -/
def lower (o : CompilerOptions) (hook : FieldHook) (arch : Forest ι) :
    Except CompileError Lowered := do
  let collected := (arch.numberEach 1).1.collect o
  let outputs ← lowerOutputs o false collected
  let computed ← lowerAttributes outputs
  refuse (danglingMember? computed)
  let branches := lowerBranches computed
  refuse (incompleteLoop? branches)
  let loops := lowerLoops branches
  refuse (misusedSet? o false true loops)
  let sets := lowerSets false loops
  refuse (misusedCall? o false true sets)
  let calls := lowerCalls o.placeholder sets
  let hooked ← applyHook hook calls
  let written := outputCount collected + (loops.size - computed.size) + setCount false loops +
    callCount false sets + (hooked.size - calls.size)
  return { content := hooked.unwrapNamed o.reservedTag, size := 1 + arch.size + written }

/-- The text of a compiled arch. -/
def compile (o : CompilerOptions) (hook : FieldHook) (arch : Forest ι) :
    Except CompileError String :=
  (lower o hook arch).map fun lowered => lowered.content.write o.output

/-- The texts of an arch in several languages, in the order given. -/
def compileEach (o : CompilerOptions) (hook : FieldHook) (translator : Translator)
    (id : DocumentId) (arch : Forest ι) : List Lang → Except CompileError (List (Lang × String))
  | [] => .ok []
  | lang :: more =>
      match compile o hook (arch.translate (translator lang id)) with
      | .error e => .error e
      | .ok text => (compileEach o hook translator id arch more).map ((lang, text) :: ·)

/-- The texts of a document, one for each language, ordered by language.  A repeated language
counts once. -/
def compileDocument (o : CompilerOptions) (hook : FieldHook) (translator : Translator)
    (id : DocumentId) (arch : Forest ι) (languages : List Lang) :
    Except CompileError (List (Lang × String)) :=
  (compileEach o hook translator id arch languages.eraseDups).map fun texts =>
    texts.mergeSort fun a b => a.1 ≤ b.1

end ViewCompiler
