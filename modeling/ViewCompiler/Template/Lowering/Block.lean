/-
**Branches and loops.**

Siblings with `if`, `elif` and `else` make up chains: each member but the first follows the one
before it with nothing but blank text between.  A chain becomes one block, whose end stands right
behind the last member.  A loop becomes a block around its element, inside the branch that the
element may be.

Main definitions:

* `ViewCompiler.danglingMember?` — the first member of a chain that is not open;
* `ViewCompiler.lowerBranches` — the pass for chains;
* `ViewCompiler.incompleteLoop?`, `ViewCompiler.lowerLoops` — the same for loops.
-/

import ViewCompiler.Template.Error
import ViewCompiler.Template.Statement

set_option autoImplicit false

namespace ViewCompiler

/-- The statement that begins the branch of a member. -/
def Conditional.statement : Conditional → Statement
  | .ifTrue condition => .branchIf condition
  | .elseIf condition => .branchElif condition
  | .otherwise => .branchElse

/-- The first member among siblings that is not open; `isOpen` says that a chain that can be
continued ends just before them. -/
def danglingSibling? (isOpen : Bool) : Forest Mark → Option CompileError
  | .nil => none
  | .leaf _ kind content rest =>
      danglingSibling? (Forest.isBlankLeaf kind content && isOpen) rest
  | .element mark name _ _ rest =>
      match mark.directives.conditional with
      | none => danglingSibling? false rest
      | some (.ifTrue _) => danglingSibling? true rest
      | some (.elseIf _) =>
          if isOpen then danglingSibling? true rest
          else some (.danglingConditional .elseIf name)
      | some .otherwise =>
          if isOpen then danglingSibling? false rest
          else some (.danglingConditional .otherwise name)

/-- The first such member below siblings: parents in document order. -/
def danglingBelow? : Forest Mark → Option CompileError
  | .nil => none
  | .leaf _ _ _ rest => danglingBelow? rest
  | .element _ _ _ children rest =>
      (danglingSibling? false children).or ((danglingBelow? children).or (danglingBelow? rest))

/-- The first member of a chain that is not open, parents in document order. -/
def danglingMember? (f : Forest Mark) : Option CompileError :=
  (danglingSibling? false f).or (danglingBelow? f)

/-- The siblings go on with a chain: the first of them besides blank text is an `elif` or `else`
member. -/
def continuesChain : Forest Mark → Bool
  | .nil => false
  | .leaf _ kind content rest => Forest.isBlankLeaf kind content && continuesChain rest
  | .element mark _ _ _ _ =>
      match mark.directives.conditional with
      | some (.elseIf _) | some .otherwise => true
      | _ => false

/-- Lowers chains. -/
def lowerBranches : Forest Mark → Forest Mark
  | .nil => .nil
  | .leaf mark kind content rest => .leaf mark kind content (lowerBranches rest)
  | .element mark name attributes children rest =>
      match mark.directives.conditional with
      | none => .element mark name attributes (lowerBranches children) (lowerBranches rest)
      | some c =>
          c.statement.before <|
            .element mark name attributes (lowerBranches children) <|
              if continuesChain rest then lowerBranches rest
              else Statement.branchEnd.before (lowerBranches rest)

/-! ### Loops -/

/-- The first element with one half of a loop only. -/
def incompleteLoop? : Forest Mark → Option CompileError
  | .nil => none
  | .leaf _ _ _ rest => incompleteLoop? rest
  | .element mark name _ children rest =>
      match mark.directives.foreach, mark.directives.binding with
      | some _, none => some (.incompleteLoop name .foreach .binding)
      | none, some _ => some (.incompleteLoop name .binding .foreach)
      | _, _ => (incompleteLoop? children).or (incompleteLoop? rest)

/-- Lowers loops. -/
def lowerLoops : Forest Mark → Forest Mark
  | .nil => .nil
  | .leaf mark kind content rest => .leaf mark kind content (lowerLoops rest)
  | .element mark name attributes children rest =>
      match mark.directives.foreach, mark.directives.binding with
      | some expr, some binding =>
          (Statement.loopStart binding expr).before <|
            .element mark name attributes (lowerLoops children) <|
              Statement.loopEnd.before (lowerLoops rest)
      | _, _ => .element mark name attributes (lowerLoops children) (lowerLoops rest)

end ViewCompiler
