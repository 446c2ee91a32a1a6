/-
**One reading of an arch.**

Compiling runs six passes over an arch and then takes the reserved elements away.  Together they
do no more than a single recursion, which looks at an element once and decides what stands in its
place: the blocks of its branch and its loop, and between them an assignment, a macro, the scope of
a call, or the element around what is read from below it.

The children of a call are the only place where this recursion has to look twice: the assignments
with content among them become macros in front of the call, those with a value bindings, and the
rest its default content.  A reading is therefore one of a *share* of a child list: all of it, the
macros, or the rest.

The recursion is set down here, together with what the passes for outputs and attributes do; these
two need nothing but their own directives.

Main definitions:

* `ViewCompiler.Share` — the parts of a child list;
* `ViewCompiler.readElement`, `ViewCompiler.reading` — the recursion;
* `ViewCompiler.Prepared` — what the passes for outputs and attributes do.

Main results:

* `ViewCompiler.prepared_of_ok` — they do it, if they succeed.
-/

import ViewCompiler.Outcome
import ViewCompiler.Proofs.Template.Siblings

set_option relaxedAutoImplicit false
set_option autoImplicit false

namespace ViewCompiler

variable {ι : Type}

/-! ### The reading -/

/-- A part of a child list: all siblings, or of the children of a call the assignments with
content, or those that are no assignments. -/
inductive Share where
  | all
  | macros
  | content
  deriving DecidableEq, Repr

/-- The share is one of the children of a call. -/
def Share.inCall : Share → Bool
  | .all => false
  | .macros | .content => true

/-- The attributes that a computed attribute sets, with their values. -/
def DynamicAttribute.found : DynamicAttribute → Attributes
  | .expression name expr => [(name, outputText expr)]
  | .format name text => [(name, formatString text)]
  | .spread spec => (expandAttributes spec).toOption.getD []

/-- Attributes with computed attributes set in order. -/
def Attributes.withDynamic (attributes : Attributes) (dynamic : List DynamicAttribute) :
    Attributes :=
  (dynamic.flatMap DynamicAttribute.found).foldl (fun attributes a => attributes.set a.1 a.2)
    attributes

/-- What is read from below an assignment with content is a macro. -/
def capturedAs : Option String → Forest Mark → Forest Mark
  | none, f => f
  | some name, f => macroAround name f

/-- What a call gives: the macros that belong to it, and a scope with the default content, if there
is any, and the inclusion. -/
def readCall (o : CompilerOptions) (set : Option String) (template : String)
    (inside : Forest Mark) (below : Share → Forest Mark) : Forest Mark :=
  let default :=
    if set.isSome || (callContent inside).hasContent then
      macroAround o.placeholder (capturedAs set (below .content))
    else .nil
  below .macros ++
    (Statement.scopeStart o.placeholder).before
      (default ++ (Statement.inclusion template (callBindings inside)).before
        Statement.scopeEnd.alone)

/-- What an element gives by itself, without its branch and loop. -/
def readCore (o : CompilerOptions) (mark : Mark) (tag : String) (attributes : Attributes)
    (inside : Forest Mark) (below : Share → Forest Mark) : Forest Mark :=
  let d := mark.directives
  match d.set, d.value, d.call with
  | some name, some value, _ => (Statement.assign name value).alone
  | some name, none, none => macroAround name (below .all)
  | none, _, none =>
      if tag = o.reservedTag then below .all
      else .element mark tag (attributes.withDynamic d.attributes) (below .all) .nil
  | set, _, some template => readCall o set template inside below

/-- What an element gives to a share of its siblings, where `inside` are its children, `below` is
what is read from them, and `continued` says that the next sibling goes on with a chain. -/
def readElement (o : CompilerOptions) (share : Share) (mark : Mark) (tag : String)
    (attributes : Attributes) (inside : Forest Mark) (continued : Bool)
    (below : Share → Forest Mark) : Forest Mark :=
  let d := mark.directives
  match share, d.set, d.value with
  | .macros, some name, none => macroAround name (below .all)
  | .macros, _, _ => .nil
  | .content, some _, _ => .nil
  | _, _, _ =>
      writtenAll d.openings ++
        (readCore o mark tag attributes inside below ++ writtenAll (d.closings continued))

/-- What is read from a share of siblings.  An element with an output has that output in the place
of its children. -/
def reading (o : CompilerOptions) (share : Share) : Forest Mark → Forest Mark
  | .nil => .nil
  | .leaf _ kind content rest =>
      if share = .macros then reading o share rest
      else .leaf (.source {}) kind content (reading o share rest)
  | .element mark tag attributes children rest =>
      match mark.directives.output with
      | none =>
          readElement o share mark tag attributes children (continuesChain rest)
            (fun share => reading o share children) ++ reading o share rest
      | some output =>
          readElement o share mark tag attributes (o.outputOf output).alone (continuesChain rest)
            (fun share => if share = .macros then .nil else (o.outputOf output).alone) ++
            reading o share rest

/-- An arch, each node labelled by what it asks for. -/
def Forest.marked (o : CompilerOptions) (arch : Forest ι) : Forest Mark :=
  (arch.collect o).map fun label => .source label.2

/-- What is asked for does not depend on labels. -/
theorem Forest.marked_plain (o : CompilerOptions) (arch : Forest ι) :
    arch.plain.marked o = arch.marked o := by
  induction arch with
  | nil => rfl
  | element label name attributes children rest ihc ihr =>
      simp only [marked, plain, Forest.map, collect] at *
      rw [ihc, ihr]
  | leaf label kind content rest ih =>
      simp only [marked, plain, Forest.map, collect] at *
      rw [ih]

/-! ### Outputs and attributes -/

/-- What the passes for outputs and attributes do to siblings: an element with an output has that
output in the place of its children, or is replaced by it if it asks for nothing else. -/
inductive Prepared (o : CompilerOptions) : Forest Mark → Forest Mark → Prop
  | nil : Prepared o .nil .nil
  | leaf {mark : Mark} {kind : LeafKind} {content : String} {rest rest' : Forest Mark} :
      Prepared o rest rest' →
      Prepared o (.leaf mark kind content rest) (.leaf (.source {}) kind content rest')
  | element {mark : Mark} {tag : String} {attributes : Attributes}
      {children children' rest rest' : Forest Mark} :
      mark.directives.output = none → Prepared o children children' → Prepared o rest rest' →
      Prepared o (.element mark tag attributes children rest)
        (.element mark tag (attributes.withDynamic mark.directives.attributes) children' rest')
  | around {mark : Mark} {tag : String} {attributes : Attributes}
      {children rest rest' : Forest Mark} {output : OutputMode × String} :
      mark.directives.output = some output → Prepared o rest rest' →
      Prepared o (.element mark tag attributes children rest)
        (.element mark tag (attributes.withDynamic mark.directives.attributes)
          (o.outputOf output).alone rest')
  | inPlace {mark : Mark} {tag : String} {attributes : Attributes}
      {children rest rest' : Forest Mark} {output : OutputMode × String} :
      mark.directives.output = some output → o.keepsElement tag mark.directives = false →
      Prepared o rest rest' →
      Prepared o (.element mark tag attributes children rest)
        ((o.outputOf output).before rest')

theorem setAllDynamic_eq_ok {attributes found : Attributes} {dynamic : List DynamicAttribute}
    (h : setAllDynamic attributes dynamic = .ok found) :
    found = attributes.withDynamic dynamic := by
  induction dynamic generalizing attributes with
  | nil => exact (Except.ok.inj h).symm
  | cons a more ih =>
      simp only [setAllDynamic] at h
      split at h
      · cases h
      · rename_i next hnext
        rw [ih h, Attributes.withDynamic, Attributes.withDynamic, List.flatMap_cons,
          List.foldl_append]
        congr 1
        cases a with
        | expression name expr => exact (Except.ok.inj hnext).symm
        | format name text => exact (Except.ok.inj hnext).symm
        | spread spec =>
            obtain ⟨pairs, hpairs, rfl⟩ := map_eq_ok_iff.1 hnext
            rw [DynamicAttribute.found, hpairs]
            rfl

/-- An output goes unchanged through the pass for attributes. -/
theorem lowerAttributes_before {s : Statement} {f g : Forest Mark}
    (h : lowerAttributes (s.before f) = .ok g) :
    ∃ rest, lowerAttributes f = .ok rest ∧ g = s.before rest := by
  obtain ⟨rest, hrest, rfl⟩ := map_eq_ok_iff.1 h
  exact ⟨rest, hrest, rfl⟩

theorem lowerAttributes_element {mark : Mark} {tag : String} {attributes : Attributes}
    {children rest g : Forest Mark}
    (h : lowerAttributes (.element mark tag attributes children rest) = .ok g) :
    ∃ children' rest', lowerAttributes children = .ok children' ∧
      lowerAttributes rest = .ok rest' ∧
      g = .element mark tag (attributes.withDynamic mark.directives.attributes) children'
        rest' := by
  simp only [lowerAttributes] at h
  split at h
  · cases h
  · rename_i found hfound
    split at h
    · cases h
    · rename_i children' hchildren
      obtain ⟨rest', hrest, rfl⟩ := map_eq_ok_iff.1 h
      rw [setAllDynamic_eq_ok hfound]
      exact ⟨children', rest', hchildren, hrest, rfl⟩

/-- The passes for outputs and attributes do what they should, if they succeed. -/
theorem prepared_of_ok {o : CompilerOptions} {orphaned : Bool}
    {f : Forest (NodeId × Directives)} {outputs computed : Forest Mark}
    (houtputs : lowerOutputs o orphaned f = .ok outputs)
    (hcomputed : lowerAttributes outputs = .ok computed) :
    Prepared o (f.map fun label => .source label.2) computed := by
  induction f generalizing orphaned outputs computed with
  | nil =>
      cases houtputs
      cases hcomputed
      exact .nil
  | leaf label kind content rest ih =>
      obtain ⟨rest₁, hrest₁, rfl⟩ := map_eq_ok_iff.1 houtputs
      obtain ⟨rest₂, hrest₂, rfl⟩ := map_eq_ok_iff.1 hcomputed
      exact .leaf (ih hrest₁ hrest₂)
  | element label tag attributes children rest ihc ihr =>
      obtain ⟨id, d⟩ := label
      simp only [lowerOutputs] at houtputs
      split at houtputs
      · rename_i hnone
        split at houtputs
        · cases houtputs
        · rename_i children₁ hchildren₁
          obtain ⟨rest₁, hrest₁, rfl⟩ := map_eq_ok_iff.1 houtputs
          obtain ⟨children₂, rest₂, hchildren₂, hrest₂, rfl⟩ := lowerAttributes_element hcomputed
          exact .element hnone (ihc hchildren₁ hchildren₂) (ihr hrest₁ hrest₂)
      · rename_i output hsome
        split at houtputs
        · -- The element is kept around the output.
          split at houtputs
          · cases houtputs
          · obtain ⟨rest₁, hrest₁, rfl⟩ := map_eq_ok_iff.1 houtputs
            obtain ⟨children₂, rest₂, hchildren₂, hrest₂, rfl⟩ :=
              lowerAttributes_element hcomputed
            obtain ⟨_, hnil, rfl⟩ := lowerAttributes_before hchildren₂
            cases hnil
            exact .around hsome (ihr hrest₁ hrest₂)
        · rename_i hreplaced
          split at houtputs
          · cases houtputs
          · split at houtputs
            · cases houtputs
            · obtain ⟨rest₁, hrest₁, rfl⟩ := map_eq_ok_iff.1 houtputs
              obtain ⟨rest₂, hrest₂, rfl⟩ := lowerAttributes_before hcomputed
              exact .inPlace hsome (Bool.eq_false_iff.2 hreplaced) (ihr hrest₁ hrest₂)

/-! ### What the passes for outputs and attributes leave alone -/

section Prepared

variable {o : CompilerOptions} {f g : Forest Mark}

theorem CompilerOptions.keepsElement_eq_false {tag : String} {d : Directives}
    (h : o.keepsElement tag d = false) :
    tag = o.reservedTag ∧ d.conditional = none ∧ d.foreach = none ∧ d.set = none ∧
      d.call = none := by
  simp only [keepsElement, Directives.hasControl, Bool.or_eq_false_iff, decide_eq_false_iff_not,
    ne_eq, Decidable.not_not, Option.isSome_eq_false_iff, Option.isNone_iff_eq_none] at h
  obtain ⟨htag, ⟨⟨⟨hconditional, hforeach⟩, -⟩, hset⟩, hcall⟩ := h
  exact ⟨htag, hconditional, hforeach, hset, hcall⟩

theorem Prepared.continuesChain_eq (h : Prepared o f g) : continuesChain g = continuesChain f := by
  induction h with
  | nil => rfl
  | leaf _ ih => rw [continuesChain, continuesChain, ih]
  | element _ _ _ _ _ => rfl
  | around _ _ _ => rfl
  | inPlace _ hreplaced _ _ =>
      obtain ⟨-, hconditional, -⟩ := CompilerOptions.keepsElement_eq_false hreplaced
      rw [continuesChain, hconditional]
      rfl

theorem Prepared.callBindings_eq (h : Prepared o f g) : callBindings g = callBindings f := by
  induction h with
  | nil => rfl
  | leaf _ ih => exact ih
  | element _ _ _ _ ih =>
      rw [callBindings, callBindings, ih]
  | around _ _ ih =>
      rw [callBindings, callBindings, ih]
  | inPlace _ hreplaced _ ih =>
      obtain ⟨-, -, -, hset, -⟩ := CompilerOptions.keepsElement_eq_false hreplaced
      simp only [callBindings, hset]
      exact ih

theorem Prepared.hasContent_eq (h : Prepared o f g) :
    (callContent g).hasContent = (callContent f).hasContent := by
  induction h with
  | nil => rfl
  | leaf _ ih => rw [callContent, callContent, Forest.hasContent, Forest.hasContent, ih]
  | element _ _ _ _ ih =>
      rw [callContent, callContent]
      split
      · exact ih
      · rfl
  | around _ _ ih =>
      rw [callContent, callContent]
      split
      · exact ih
      · rfl
  | inPlace _ hreplaced _ _ =>
      obtain ⟨-, -, -, hset, -⟩ := CompilerOptions.keepsElement_eq_false hreplaced
      simp only [callContent, hset]
      rfl

end Prepared

end ViewCompiler
