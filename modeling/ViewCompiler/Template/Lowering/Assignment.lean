/-
**Assignments.**

An element that sets a name to a value is replaced by an assignment; one that sets a name to its
content keeps that content between the start and the end of a macro.  Assignments directly inside
a call belong to the call and are left to it.

Main definitions:

* `ViewCompiler.misusedSet?` — the first misuse;
* `ViewCompiler.macroAround` — content as a macro;
* `ViewCompiler.lowerSets` — the pass for assignments.
-/

import ViewCompiler.Template.Error
import ViewCompiler.Template.Statement

set_option autoImplicit false

namespace ViewCompiler

/-- The first misuse of an assignment.  `inCall` says that the parent is a call, `attached` that
the siblings are still part of the document: below an element that an assignment replaces, only the
directives themselves are checked. -/
def misusedSet? (o : CompilerOptions) (inCall attached : Bool) :
    Forest Mark → Option CompileError
  | .nil => none
  | .leaf _ _ _ rest => misusedSet? o inCall attached rest
  | .element mark tag _ children rest =>
      let d := mark.directives
      match d.set with
      | none =>
          if d.value.isSome then some (.valueWithoutSet tag)
          else (misusedSet? o d.call.isSome attached children).or
            (misusedSet? o inCall attached rest)
      | some name =>
          if tag ≠ o.reservedTag then some (.setOnWrongTag tag)
          else if !inCall && attached && d.value.isNone && !children.hasContent then
            some (.emptySet name)
          else
            let stays := attached && (inCall || d.value.isNone)
            (misusedSet? o d.call.isSome stays children).or (misusedSet? o inCall attached rest)

/-- Siblings between the start and the end of a macro. -/
def macroAround (name : String) (content : Forest Mark) : Forest Mark :=
  (Statement.macroStart name).before (content ++ Statement.macroEnd.alone)

/-- Lowers assignments; `inCall` says that the parent is a call. -/
def lowerSets (inCall : Bool) : Forest Mark → Forest Mark
  | .nil => .nil
  | .leaf mark kind content rest => .leaf mark kind content (lowerSets inCall rest)
  | .element mark tag attributes children rest =>
      let d := mark.directives
      let lowered := lowerSets d.call.isSome children
      match inCall, d.set, d.value with
      | false, some name, some value =>
          (Statement.assign name value).before (lowerSets inCall rest)
      | false, some name, none =>
          .element mark tag attributes (macroAround name lowered) (lowerSets inCall rest)
      | _, _, _ => .element mark tag attributes lowered (lowerSets inCall rest)

end ViewCompiler
