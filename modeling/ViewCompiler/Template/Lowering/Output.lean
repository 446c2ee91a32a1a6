/-
**Outputs and computed attributes.**

An element with an output directive gives up its children for one output.  An element with the
reserved tag that asks for no block is replaced by the output altogether; this needs a parent, and
an element whose parent has just given up its children has none.

Computed attributes are set on their element in source order.

Main definitions:

* `ViewCompiler.lowerOutputs` — the pass for outputs;
* `ViewCompiler.lowerAttributes` — the pass for attributes.
-/

import ViewCompiler.Template.Spread
import ViewCompiler.Template.Statement

set_option autoImplicit false

namespace ViewCompiler

/-- The output that an output directive writes: the expression `0` calls the placeholder. -/
def CompilerOptions.outputOf (o : CompilerOptions) (output : OutputMode × String) : Statement :=
  .output output.1 (if output.2 = "0" then o.placeholder ++ "()" else output.2)

/-- An element with an output stays around it. -/
def CompilerOptions.keepsElement (o : CompilerOptions) (name : String) (d : Directives) : Bool :=
  name ≠ o.reservedTag || d.hasControl

/-- Lowers outputs; `orphaned` says that the siblings have just lost their parent.  What an element
gives up is still looked through for elements that cannot be replaced. -/
def lowerOutputs (o : CompilerOptions) (orphaned : Bool) :
    Forest (NodeId × Directives) → Except CompileError (Forest Mark)
  | .nil => .ok .nil
  | .leaf _ kind content rest =>
      (lowerOutputs o orphaned rest).map (.leaf (.source {}) kind content)
  | .element (id, d) name attributes children rest =>
      match d.output with
      | none =>
          match lowerOutputs o false children with
          | .error e => .error e
          | .ok children =>
              (lowerOutputs o orphaned rest).map (.element (.source d) name attributes children)
      | some output =>
          let statement := o.outputOf output
          if o.keepsElement name d then
            match lowerOutputs o true children with
            | .error e => .error e
            | .ok _ =>
                (lowerOutputs o orphaned rest).map
                  (.element (.source d) name attributes statement.alone)
          else if orphaned then .error (.tree (.detached id))
          else
            match lowerOutputs o false children with
            | .error e => .error e
            | .ok _ => (lowerOutputs o orphaned rest).map statement.before

/-! ### Computed attributes -/

/-- The attributes after one computed attribute. -/
def setDynamic (attributes : Attributes) : DynamicAttribute → Except CompileError Attributes
  | .expression name expr => .ok (attributes.set name (outputText expr))
  | .format name format => .ok (attributes.set name (formatString format))
  | .spread spec =>
      (expandAttributes spec).map fun found =>
        found.foldl (fun attributes a => attributes.set a.1 a.2) attributes

/-- The attributes after computed attributes in order. -/
def setAllDynamic (attributes : Attributes) :
    List DynamicAttribute → Except CompileError Attributes
  | [] => .ok attributes
  | a :: more =>
      match setDynamic attributes a with
      | .error e => .error e
      | .ok attributes => setAllDynamic attributes more

/-- Lowers computed attributes. -/
def lowerAttributes : Forest Mark → Except CompileError (Forest Mark)
  | .nil => .ok .nil
  | .leaf mark kind content rest => (lowerAttributes rest).map (.leaf mark kind content)
  | .element mark name attributes children rest =>
      match setAllDynamic attributes mark.directives.attributes with
      | .error e => .error e
      | .ok attributes =>
          match lowerAttributes children with
          | .error e => .error e
          | .ok children => (lowerAttributes rest).map (.element mark name attributes children)

end ViewCompiler
