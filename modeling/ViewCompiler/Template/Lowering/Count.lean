/-
**How many statements are written.**

Every statement that compiling writes takes a number of its own, also one that a later pass takes
out again.  Branches and loops leave all that they write in place, so their share is the growth of
the forest; the other passes are counted here.

Main definitions:

* `ViewCompiler.outputCount`, `ViewCompiler.setCount`, `ViewCompiler.callCount` — the statements
  that the passes for outputs, assignments and calls write.
-/

import ViewCompiler.Template.Lowering.Call

set_option autoImplicit false

namespace ViewCompiler

/-- The statements written for outputs: one for each element with an output directive, inside
other such elements as well. -/
def outputCount {ι : Type} : Forest (ι × Directives) → Nat
  | .nil => 0
  | .leaf _ _ _ rest => outputCount rest
  | .element (_, d) _ _ children rest =>
      (if d.output.isSome then 1 else 0) + outputCount children + outputCount rest

/-- The statements written for assignments; `inCall` says that the parent is a call.  Nothing below
an assignment of a value is looked at. -/
def setCount (inCall : Bool) : Forest Mark → Nat
  | .nil => 0
  | .leaf _ _ _ rest => setCount inCall rest
  | .element mark _ _ children rest =>
      let d := mark.directives
      match inCall, d.set, d.value with
      | false, some _, some _ => 1 + setCount inCall rest
      | false, some _, none => 2 + setCount d.call.isSome children + setCount inCall rest
      | _, _, _ => setCount d.call.isSome children + setCount inCall rest

/-- The assignments of content among siblings. -/
def contentSets : Forest Mark → Nat
  | .nil => 0
  | .leaf _ _ _ rest => contentSets rest
  | .element mark _ _ _ rest =>
      (if mark.directives.set.isSome && mark.directives.value.isNone then 1 else 0) +
        contentSets rest

/-- The statements written for calls; `inCall` says that the parent is a call.  Nothing below an
assignment that becomes a binding is looked at. -/
def callCount (inCall : Bool) : Forest Mark → Nat
  | .nil => 0
  | .leaf _ _ _ rest => callCount inCall rest
  | .element mark _ _ children rest =>
      let d := mark.directives
      if inCall && d.set.isSome && d.value.isSome then callCount inCall rest
      else
        let own :=
          if d.call.isNone then 0
          else 3 + 2 * contentSets children + if (callContent children).hasContent then 2 else 0
        own + callCount d.call.isSome children + callCount inCall rest

end ViewCompiler
