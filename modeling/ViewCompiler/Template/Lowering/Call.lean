/-
**Calls.**

A call becomes a scope around an inclusion.  Assignments directly inside it with a value become
bindings of the inclusion; those with content become macros in front of the call.  What else is
inside, unless it is blank, is the default content: a macro under the name of the placeholder.

Main definitions:

* `ViewCompiler.misusedCall?` — the first misuse;
* `ViewCompiler.callBindings`, `ViewCompiler.hoistedMacros`, `ViewCompiler.callContent` — the
  three parts of what is inside a call;
* `ViewCompiler.lowerCalls` — the pass for calls.
-/

import ViewCompiler.Template.Lowering.Assignment

set_option autoImplicit false

namespace ViewCompiler

/-- A directive that an assignment directly inside a call cannot carry. -/
def Directives.blockOnBinding? (d : Directives) : Option DirectiveName :=
  match d.conditional with
  | some (.ifTrue _) => some .ifTrue
  | some (.elseIf _) => some .elseIf
  | some .otherwise => some .otherwise
  | none =>
      if d.foreach.isSome then some .foreach
      else if d.call.isSome then some .call
      else none

/-- The first misuse among the assignments directly inside a call. -/
def misusedBinding? : Forest Mark → Option CompileError
  | .nil => none
  | .leaf _ _ _ rest => misusedBinding? rest
  | .element mark _ _ children rest =>
      let d := mark.directives
      match d.set, d.blockOnBinding? with
      | none, _ => misusedBinding? rest
      | some name, some directive => some (.controlOnCallBinding name directive)
      | some name, none =>
          if d.value.isNone && !children.hasContent then some (.emptySet name)
          else misusedBinding? rest

/-- The first misuse of a call.  `inCall` says that the parent is a call that is lowered,
`attached` that the siblings are still part of the document: below an assignment that becomes a
binding, only the directives themselves are checked. -/
def misusedCall? (o : CompilerOptions) (inCall attached : Bool) :
    Forest Mark → Option CompileError
  | .nil => none
  | .leaf _ _ _ rest => misusedCall? o inCall attached rest
  | .element mark tag _ children rest =>
      let d := mark.directives
      let stays := attached && !(inCall && d.set.isSome && d.value.isSome)
      let lowered := d.call.isSome && stays
      let own :=
        if d.call.isSome && tag ≠ o.reservedTag then some (.callOnWrongTag tag)
        else if lowered then misusedBinding? children
        else none
      own.or ((misusedCall? o lowered stays children).or (misusedCall? o inCall attached rest))

/-- The names and values of the assignments with a value. -/
def callBindings : Forest Mark → List (String × String)
  | .nil => []
  | .leaf _ _ _ rest => callBindings rest
  | .element mark _ _ _ rest =>
      match mark.directives.set, mark.directives.value with
      | some name, some value => (name, value) :: callBindings rest
      | _, _ => callBindings rest

/-- The assignments with content, each with its content as a macro.  They ask for no assignment
any more. -/
def hoistedMacros : Forest Mark → Forest Mark
  | .nil => .nil
  | .leaf _ _ _ rest => hoistedMacros rest
  | .element mark tag attributes children rest =>
      match mark.directives.set, mark.directives.value with
      | some name, none =>
          .element (.source { mark.directives with set := none }) tag attributes
            (macroAround name children) (hoistedMacros rest)
      | _, _ => hoistedMacros rest

/-- The siblings that are no assignments. -/
def callContent : Forest Mark → Forest Mark
  | .nil => .nil
  | .leaf mark kind content rest => .leaf mark kind content (callContent rest)
  | .element mark tag attributes children rest =>
      if mark.directives.set.isSome then callContent rest
      else .element mark tag attributes children (callContent rest)

/-- What stands inside a lowered call. -/
def callBlock (placeholder template : String) (bindings : List (String × String))
    (content : Forest Mark) : Forest Mark :=
  let default := if content.hasContent then macroAround placeholder content else .nil
  (Statement.scopeStart placeholder).before
    (default ++ (Statement.inclusion template bindings).before Statement.scopeEnd.alone)

/-- Lowers calls. -/
def lowerCalls (placeholder : String) : Forest Mark → Forest Mark
  | .nil => .nil
  | .leaf mark kind content rest => .leaf mark kind content (lowerCalls placeholder rest)
  | .element mark tag attributes children rest =>
      let inside := lowerCalls placeholder children
      match mark.directives.call with
      | none => .element mark tag attributes inside (lowerCalls placeholder rest)
      | some template =>
          hoistedMacros inside ++
            .element mark tag attributes
              (callBlock placeholder template (callBindings children) (callContent inside))
              (lowerCalls placeholder rest)

end ViewCompiler
