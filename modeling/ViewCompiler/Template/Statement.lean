/-
**Statements of the template language.**

Compiling writes statements between the nodes of an arch: outputs, and the openings and endings of
blocks.

Main definitions:

* `ViewCompiler.Statement`, `ViewCompiler.Statement.text` — the statements and how they are
  written;
* `ViewCompiler.Mark` — the label of a node under compilation: what it asks for, or which
  statement it is;
* `ViewCompiler.Statement.before` — a statement in front of siblings.
-/

import ViewCompiler.Template.Directive

set_option autoImplicit false

namespace ViewCompiler

/-- What compiling writes. -/
inductive Statement where
  | output (mode : OutputMode) (expr : String)
  | branchIf (condition : String)
  | branchElif (condition : String)
  | branchElse
  | branchEnd
  | loopStart (name expr : String)
  | loopEnd
  | assign (name value : String)
  | macroStart (name : String)
  | macroEnd
  | scopeStart (placeholder : String)
  | inclusion (template : String) (bindings : List (String × String))
  | scopeEnd
  deriving DecidableEq, Repr

/-- A block statement with the given inner text. -/
def blockText (inner : String) : String :=
  "\x7b% " ++ inner ++ " %\x7d"

/-- The expression between the marks of an output. -/
def outputText (expr : String) : String :=
  .ofList (markedChars expr.toList)

/-- The bindings of an inclusion. -/
def bindingsText (bindings : List (String × String)) : String :=
  if bindings.isEmpty then ""
  else " with " ++ ", ".intercalate (bindings.map fun b => b.1 ++ " = " ++ b.2)

/-- The written form of a statement. -/
def Statement.text : Statement → String
  | output .escaped expr => outputText expr
  | output .raw expr => outputText (expr ++ "|safe")
  | branchIf condition => blockText ("if " ++ condition)
  | branchElif condition => blockText ("elif " ++ condition)
  | branchElse => blockText "else"
  | branchEnd => blockText "endif"
  | loopStart name expr => blockText ("for " ++ name ++ " in " ++ expr)
  | loopEnd => blockText "endfor"
  | assign name value => blockText ("set " ++ name ++ " = " ++ value)
  | macroStart name => blockText ("macro " ++ name ++ "()")
  | macroEnd => blockText "endmacro"
  | scopeStart placeholder => blockText ("with " ++ placeholder ++ " = null")
  | inclusion template bindings =>
      blockText ("include \"" ++ template ++ "\"" ++ bindingsText bindings)
  | scopeEnd => blockText "endwith"

/-- The label of a node under compilation: a node of the arch with what it asks for, or a node
that compiling has written. -/
inductive Mark where
  | source (directives : Directives)
  | written (statement : Statement)
  deriving DecidableEq, Repr

/-- What a node asks for; a written node asks for nothing. -/
def Mark.directives : Mark → Directives
  | .source directives => directives
  | .written _ => {}

/-- The statement as a leaf in front of siblings. -/
def Statement.before (s : Statement) (rest : Forest Mark) : Forest Mark :=
  .leaf (.written s) .raw s.text rest

/-- The statement as a leaf of its own. -/
def Statement.alone (s : Statement) : Forest Mark :=
  s.before .nil

namespace Forest

variable {ι : Type}

/-- A leaf of blanks only. -/
def isBlankLeaf (kind : LeafKind) (content : String) : Bool :=
  kind = .text && allBlank content

/-- Among the siblings is something besides blank text. -/
def hasContent : Forest ι → Bool
  | nil => false
  | element .. => true
  | leaf _ kind content rest => !isBlankLeaf kind content || rest.hasContent

end Forest

end ViewCompiler
