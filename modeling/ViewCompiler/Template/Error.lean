/-
**Misused directives.**

Every misuse ends the compilation of a document.

Main definitions:

* `ViewCompiler.DirectiveName` — the directives that messages mention;
* `ViewCompiler.SpreadFault` — why a literal gives no attributes;
* `ViewCompiler.CompileError` — the misuses.
-/

import ViewCompiler.Markup.Tree
import ViewCompiler.Template.Literal

set_option autoImplicit false

namespace ViewCompiler

/-- The directives that messages mention. -/
inductive DirectiveName where
  | ifTrue
  | elseIf
  | otherwise
  | foreach
  | binding
  | call
  deriving DecidableEq, Repr

/-- A directive as messages write it. -/
def DirectiveName.text : DirectiveName → String
  | ifTrue => "t-if"
  | elseIf => "t-elif"
  | otherwise => "t-else"
  | foreach => "t-foreach"
  | binding => "t-as"
  | call => "t-call"

/-- Why a literal gives no attributes. -/
inductive SpreadFault where
  | literal (fault : LiteralFault)
  | tupleSize
  | oddPairs
  | notAttributes
  | nameNotString
  | valueNotScalar
  deriving DecidableEq, Repr

def SpreadFault.reason : SpreadFault → String
  | literal fault => fault.reason
  | tupleSize => "tuple must have exactly two elements"
  | oddPairs => "pair list has odd length"
  | notAttributes => "expected an object, tuple or pair list"
  | nameNotString => "attribute names must be strings"
  | valueNotScalar => "attribute values must be scalars"

/-- The misuses of directives, and what a caller's field hook refuses. -/
inductive CompileError where
  | badAttributeSpec (spec : String) (fault : SpreadFault)
  | danglingConditional (directive : DirectiveName) (tag : String)
  | incompleteLoop (tag : String) (present missing : DirectiveName)
  | emptySet (name : String)
  | setOnWrongTag (tag : String)
  | callOnWrongTag (tag : String)
  | controlOnCallBinding (name : String) (directive : DirectiveName)
  | valueWithoutSet (tag : String)
  | smartField (tag message : String)
  | tree (error : TreeError)
  deriving DecidableEq, Repr

def CompileError.message : CompileError → String
  | badAttributeSpec spec fault => "bad `t-att` value `" ++ spec ++ "`: " ++ fault.reason
  | danglingConditional directive tag =>
      "`" ++ directive.text ++ "` on <" ++ tag ++ "> has no open `t-if` chain"
  | incompleteLoop tag present missing =>
      "<" ++ tag ++ "> has `" ++ present.text ++ "` without `" ++ missing.text ++ "`"
  | emptySet name => "`t-set=\"" ++ name ++ "\"` has neither a value nor content"
  | setOnWrongTag tag => "`t-set` is only allowed on <t>, found <" ++ tag ++ ">"
  | callOnWrongTag tag => "`t-call` is only allowed on <t>, found <" ++ tag ++ ">"
  | controlOnCallBinding name directive =>
      "call binding `" ++ name ++ "` cannot carry `" ++ directive.text ++ "`"
  | valueWithoutSet tag => "<" ++ tag ++ "> has `t-value` without `t-set`"
  | smartField tag message => "smart field on <" ++ tag ++ ">: " ++ message
  | tree error => error.message

end ViewCompiler
