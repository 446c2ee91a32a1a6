/-
**Locators.**

A locator addresses nodes of a document by a path of steps, a subset of the location paths of
XPath.  A path starts at the document or at its first element; each step moves to children, to
descendants, to the node itself or to the parent, keeps the elements that pass a test of their
name and filters them by predicates.

Main definitions:

* `ViewCompiler.Condition`, `ViewCompiler.Predicate`, `ViewCompiler.Step`, `ViewCompiler.Path` —
  the parts of a path;
* `ViewCompiler.Path.attributeEquals` — the path to elements with a name and one attribute;
* `ViewCompiler.PathFault`, `ViewCompiler.PathError` — why an expression is no path.
-/

set_option autoImplicit false

namespace ViewCompiler

/-- Where a step moves. -/
inductive Axis where
  | child
  | descendant
  | self
  | parent
  deriving DecidableEq, Repr

/-- The test of an element's name. -/
inductive NameTest where
  | named (name : String)
  | any
  deriving DecidableEq, Repr

/-- What can be asked of an element. -/
inductive Condition where
  | attrEquals (name value : String)
  | attrExists (name : String)
  | attrContains (name value : String)
  | hasClass (classes : List String)
  | textEquals (value : String)
  | all (parts : List Condition)
  | any (parts : List Condition)
  deriving Repr, Inhabited

mutual

/-- Two conditions are compared part by part. -/
def Condition.decEq : (a b : Condition) → Decidable (a = b)
  | .attrEquals n v, .attrEquals n' v' =>
      decidable_of_iff (n = n' ∧ v = v') (by simp)
  | .attrExists n, .attrExists n' => decidable_of_iff (n = n') (by simp)
  | .attrContains n v, .attrContains n' v' =>
      decidable_of_iff (n = n' ∧ v = v') (by simp)
  | .hasClass cs, .hasClass cs' => decidable_of_iff (cs = cs') (by simp)
  | .textEquals v, .textEquals v' => decidable_of_iff (v = v') (by simp)
  | .all ps, .all ps' =>
      have := Condition.decEqList ps ps'
      decidable_of_iff (ps = ps') (by simp)
  | .any ps, .any ps' =>
      have := Condition.decEqList ps ps'
      decidable_of_iff (ps = ps') (by simp)
  | .attrEquals .., .attrExists .. | .attrEquals .., .attrContains ..
  | .attrEquals .., .hasClass .. | .attrEquals .., .textEquals ..
  | .attrEquals .., .all .. | .attrEquals .., .any ..
  | .attrExists .., .attrEquals .. | .attrExists .., .attrContains ..
  | .attrExists .., .hasClass .. | .attrExists .., .textEquals ..
  | .attrExists .., .all .. | .attrExists .., .any ..
  | .attrContains .., .attrEquals .. | .attrContains .., .attrExists ..
  | .attrContains .., .hasClass .. | .attrContains .., .textEquals ..
  | .attrContains .., .all .. | .attrContains .., .any ..
  | .hasClass .., .attrEquals .. | .hasClass .., .attrExists ..
  | .hasClass .., .attrContains .. | .hasClass .., .textEquals ..
  | .hasClass .., .all .. | .hasClass .., .any ..
  | .textEquals .., .attrEquals .. | .textEquals .., .attrExists ..
  | .textEquals .., .attrContains .. | .textEquals .., .hasClass ..
  | .textEquals .., .all .. | .textEquals .., .any ..
  | .all .., .attrEquals .. | .all .., .attrExists .. | .all .., .attrContains ..
  | .all .., .hasClass .. | .all .., .textEquals .. | .all .., .any ..
  | .any .., .attrEquals .. | .any .., .attrExists .. | .any .., .attrContains ..
  | .any .., .hasClass .. | .any .., .textEquals .. | .any .., .all .. =>
      .isFalse (by simp)

/-- Two lists of conditions are compared member by member. -/
def Condition.decEqList : (as bs : List Condition) → Decidable (as = bs)
  | [], [] => .isTrue rfl
  | [], _ :: _ | _ :: _, [] => .isFalse (by simp)
  | a :: as, b :: bs =>
      have := Condition.decEq a b
      have := Condition.decEqList as bs
      decidable_of_iff (a = b ∧ as = bs) (by simp)

end

instance : DecidableEq Condition := Condition.decEq

/-- A filter of the elements found under one parent: by their place among those that are left,
counted from one, or by a condition. -/
inductive Predicate where
  | position (n : Nat)
  | condition (condition : Condition)
  deriving DecidableEq, Repr

/-- One step of a path. -/
structure Step where
  axis : Axis
  test : NameTest
  predicates : List Predicate
  deriving DecidableEq, Repr

/-- A path with the expression that it was written as.  An absolute path starts at the document,
any other at the first element. -/
structure Path where
  source : String
  absolute : Bool
  steps : List Step
  deriving DecidableEq, Repr

/-- The path to all elements named `tag` whose attribute `attr` is `value`. -/
def Path.attributeEquals (tag attr value : String) : Path where
  source := "//" ++ tag ++ "[@" ++ attr ++ "='" ++ value ++ "']"
  absolute := true
  steps := [⟨.descendant, .named tag, [.condition (.attrEquals attr value)]⟩]

/-! ### Faults of expressions -/

/-- What is wrong with an expression. -/
inductive PathFault where
  | emptyExpression
  | missingName
  | missingString
  | unterminatedString
  | missingSlash
  | missingBracket
  | invalidPosition
  | zeroPosition
  | missingParenthesis
  | missingTextEquals
  | missingContainsAttribute
  | missingComma
  | unsupportedPredicate
  deriving DecidableEq, Repr

def PathFault.reason : PathFault → String
  | emptyExpression => "empty expression"
  | missingName => "expected a name"
  | missingString => "expected a quoted string"
  | unterminatedString => "unterminated string"
  | missingSlash => "expected `/` between steps"
  | missingBracket => "expected `]`"
  | invalidPosition => "invalid position"
  | zeroPosition => "positions start at 1"
  | missingParenthesis => "expected `)`"
  | missingTextEquals => "expected `=` after text()"
  | missingContainsAttribute => "contains() takes an attribute"
  | missingComma => "expected `,`"
  | unsupportedPredicate => "unsupported predicate"

/-- An expression that is no path, the byte offset where that shows, and the fault. -/
structure PathError where
  expression : String
  offset : Nat
  fault : PathFault
  deriving DecidableEq, Repr

def PathError.message (e : PathError) : String :=
  "invalid locator `" ++ e.expression ++ "` at offset " ++ toString e.offset ++ ": " ++
    e.fault.reason

end ViewCompiler
