/-
**Directives.**

Directives are attributes whose name starts with a prefix.  Before an arch is compiled the
directives of every element are taken off it and kept beside it; other attributes with the prefix
stay.

Main definitions:

* `ViewCompiler.Directive` — one directive;
* `ViewCompiler.Directive.parse` — the directive that an attribute stands for;
* `ViewCompiler.Directives` — all that one element asks for;
* `ViewCompiler.CompilerOptions` — tags and names that compiling goes by;
* `ViewCompiler.Forest.collect` — elements without their directives, labelled by them.
-/

import ViewCompiler.Markup.Writer
import ViewCompiler.Template.Expression

set_option autoImplicit false

namespace ViewCompiler

/-- The attribute that turns translation off below an element. -/
def translationDirective : String := "t-translation"

/-- Whether an output is escaped by the template engine. -/
inductive OutputMode where
  | escaped
  | raw
  deriving DecidableEq, Repr

/-- An attribute whose value is computed: by an expression, by a format text, or all attributes of
a literal. -/
inductive DynamicAttribute where
  | expression (name expr : String)
  | format (name format : String)
  | spread (spec : String)
  deriving DecidableEq, Repr

/-- The place of an element in a chain of alternatives. -/
inductive Conditional where
  | ifTrue (condition : String)
  | elseIf (condition : String)
  | otherwise
  deriving DecidableEq, Repr

/-- One directive. -/
inductive Directive where
  | output (mode : OutputMode) (expr : String)
  | dynamic (attr : DynamicAttribute)
  | conditional (place : Conditional)
  | foreach (expr : String)
  | binding (name : String)
  | set (name : String)
  | value (expr : String)
  | call (template : String)
  deriving DecidableEq, Repr

/-- The rest of a name behind a prefix. -/
def dropStart? (start name : String) : Option String :=
  (start.toList.isPrefixOf? name.toList).map .ofList

namespace Directive

/-- The directive that a name without its prefix and a value stand for. -/
def ofKey (key value : String) : Option Directive :=
  match key with
  | "esc" | "out" => some (.output .escaped (normalize value))
  | "raw" => some (.output .raw (normalize value))
  | "att" => some (.dynamic (.spread (trimmed value)))
  | "if" => some (.conditional (.ifTrue (normalize value)))
  | "elif" => some (.conditional (.elseIf (normalize value)))
  | "else" => some (.conditional .otherwise)
  | "foreach" => some (.foreach (normalize value))
  | "as" => some (.binding (trimmed value))
  | "set" => some (.set (trimmed value))
  | "value" => some (.value (normalize value))
  | "call" => some (.call (trimmed value))
  | _ =>
      match dropStart? "attf-" key with
      | some name => some (.dynamic (.format name value))
      | none =>
          (dropStart? "att-" key).map fun name => .dynamic (.expression name (normalize value))

/-- The directive that an attribute stands for. -/
def parse (start name value : String) : Option Directive :=
  (dropStart? start name).bind fun key => ofKey key value

end Directive

/-- All that one element asks for. -/
structure Directives where
  output : Option (OutputMode × String) := none
  attributes : List DynamicAttribute := []
  conditional : Option Conditional := none
  foreach : Option String := none
  binding : Option String := none
  set : Option String := none
  value : Option String := none
  call : Option String := none
  deriving DecidableEq, Repr

namespace Directives

/-- Files a directive: attributes are collected in order, of all others the last one counts. -/
def add (d : Directives) : Directive → Directives
  | .output mode expr => { d with output := some (mode, expr) }
  | .dynamic a => { d with attributes := d.attributes ++ [a] }
  | .conditional c => { d with conditional := some c }
  | .foreach expr => { d with foreach := some expr }
  | .binding name => { d with binding := some name }
  | .set name => { d with set := some name }
  | .value expr => { d with value := some expr }
  | .call template => { d with call := some template }

/-- Nothing is asked for. -/
def isEmpty (d : Directives) : Bool :=
  d = {}

/-- Something is asked for that makes a block of the element or puts a statement in its place. -/
def hasControl (d : Directives) : Bool :=
  d.conditional.isSome || d.foreach.isSome || d.binding.isSome || d.set.isSome || d.call.isSome

end Directives

/-- What compiling goes by: the name of the macro with the content of a call, the tag that only
carries directives, the prefix of directives, and how the result is written. -/
structure CompilerOptions where
  placeholder : String := "_0"
  reservedTag : String := "t"
  directivePrefix : String := "t-"
  output : WriteStyle := .html
  deriving DecidableEq, Repr

namespace CompilerOptions

/-- The directive of an attribute; the one that turns translation off is none. -/
def directive? (o : CompilerOptions) (a : String × String) : Option Directive :=
  if a.1 = translationDirective then none else Directive.parse o.directivePrefix a.1 a.2

/-- The attribute is taken off its element. -/
def consumes (o : CompilerOptions) (a : String × String) : Bool :=
  a.1 = translationDirective || (o.directive? a).isSome

/-- What the attributes of an element ask for. -/
def directivesOf (o : CompilerOptions) (attributes : Attributes) : Directives :=
  (attributes.filterMap o.directive?).foldl .add {}

end CompilerOptions

/-- Every element without its directives, labelled by them beside its own label. -/
def Forest.collect {ι : Type} (o : CompilerOptions) : Forest ι → Forest (ι × Directives)
  | nil => nil
  | element label name attributes children rest =>
      element (label, o.directivesOf attributes) name (attributes.filter (!o.consumes ·))
        (children.collect o) (rest.collect o)
  | leaf label kind content rest => leaf (label, {}) kind content (rest.collect o)

end ViewCompiler
