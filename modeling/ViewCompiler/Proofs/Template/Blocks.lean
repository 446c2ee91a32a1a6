/-
**Statements and blocks.**

The template engine reads a compiled text as one sequence of statements, so every block that is
opened has to be closed again, in the right order.  Statements are read with a stack of the blocks
that are open; a chain of alternatives that has had its `else` is a block of its own kind, which
only its end fits into.

Main definitions:

* `ViewCompiler.Block`, `ViewCompiler.Statement.after`, `ViewCompiler.blocksAfter` — the blocks
  that are open, and what statements do to them;
* `ViewCompiler.WellNested` — every block that is opened is closed again;
* `ViewCompiler.Forest.statements`, `ViewCompiler.Forest.childLists` — the statements of a child
  list, and all child lists below a document;
* `ViewCompiler.Forest.NestedBelow` — the child lists below siblings are well nested;
* `ViewCompiler.Forest.LeavesSatisfy` — a condition on all leaves.

Main results:

* `ViewCompiler.WellNested.blocksAfter_eq` — well nested statements leave any open blocks as they
  are;
* `ViewCompiler.Forest.rawTexts_eq` — the raw texts of siblings are their statements.
-/

import ViewCompiler.Template.Compiler

set_option relaxedAutoImplicit false
set_option autoImplicit false

namespace ViewCompiler

/-! ### Statements and the blocks that are open -/

/-- A block that is open: a chain of alternatives that may go on, one that has had its `else`, a
loop, a macro or a scope. -/
inductive Block where
  | chain
  | lastBranch
  | loop
  | capture
  | scope
  deriving DecidableEq, Repr

/-- The blocks that are open behind a statement, the innermost first; none if the statement does
not fit. -/
def Statement.after (opened : List Block) : Statement → Option (List Block)
  | .branchIf _ => some (.chain :: opened)
  | .branchElif _ => match opened with
    | .chain :: outer => some (.chain :: outer)
    | _ => none
  | .branchElse => match opened with
    | .chain :: outer => some (.lastBranch :: outer)
    | _ => none
  | .branchEnd => match opened with
    | .chain :: outer | .lastBranch :: outer => some outer
    | _ => none
  | .loopStart _ _ => some (.loop :: opened)
  | .loopEnd => match opened with
    | .loop :: outer => some outer
    | _ => none
  | .macroStart _ => some (.capture :: opened)
  | .macroEnd => match opened with
    | .capture :: outer => some outer
    | _ => none
  | .scopeStart _ => some (.scope :: opened)
  | .scopeEnd => match opened with
    | .scope :: outer => some outer
    | _ => none
  | .output _ _ | .assign _ _ | .inclusion _ _ => some opened

/-- The blocks that are open behind statements. -/
def blocksAfter (opened : List Block) : List Statement → Option (List Block)
  | [] => some opened
  | s :: more => (s.after opened).bind fun opened => blocksAfter opened more

/-- Every block is closed in the order in which it was opened, and no other statement is out of
place. -/
def WellNested (statements : List Statement) : Prop :=
  blocksAfter [] statements = some []

instance (statements : List Statement) : Decidable (WellNested statements) :=
  inferInstanceAs (Decidable (blocksAfter [] statements = some []))

theorem blocksAfter_append (opened : List Block) (a b : List Statement) :
    blocksAfter opened (a ++ b) =
      (blocksAfter opened a).bind fun opened => blocksAfter opened b := by
  induction a generalizing opened with
  | nil => rfl
  | cons s a ih =>
      simp only [List.cons_append, blocksAfter]
      cases s.after opened with
      | none => rfl
      | some opened => exact ih opened

/-- Blocks that are open further out do not matter to a statement that fits without them. -/
theorem Statement.after_append {opened inner : List Block} {s : Statement} (outer : List Block)
    (h : s.after opened = some inner) : s.after (opened ++ outer) = some (inner ++ outer) := by
  cases s with
  | branchIf _ | loopStart _ _ | macroStart _ | scopeStart _ | output _ _ | assign _ _
  | inclusion _ _ =>
      cases h
      rfl
  | branchElif _ | branchElse | branchEnd | loopEnd | macroEnd | scopeEnd =>
      simp only [Statement.after] at h
      split at h
      all_goals
        cases h
        try rfl

theorem blocksAfter_append_outer {opened inner : List Block} {statements : List Statement}
    (outer : List Block) (h : blocksAfter opened statements = some inner) :
    blocksAfter (opened ++ outer) statements = some (inner ++ outer) := by
  induction statements generalizing opened with
  | nil =>
      cases h
      rfl
  | cons s more ih =>
      obtain ⟨next, hs, hmore⟩ := Option.bind_eq_some_iff.1 h
      rw [blocksAfter, Statement.after_append outer hs]
      exact ih hmore

/-- Well nested statements leave the open blocks as they are. -/
theorem WellNested.blocksAfter_eq {statements : List Statement} (h : WellNested statements)
    (opened : List Block) : blocksAfter opened statements = some opened :=
  blocksAfter_append_outer opened h

/-! ### Child lists -/

/-- The statement that a written node is. -/
def Mark.statement? : Mark → Option Statement
  | .source _ => none
  | .written s => some s

/-- A leaf is the statement that its mark says it is: raw text, in the written form of the
statement.  A leaf of the arch is not raw. -/
def Mark.IsLeaf (mark : Mark) (kind : LeafKind) (content : String) : Prop :=
  match mark with
  | .source _ => kind ≠ .raw
  | .written s => kind = .raw ∧ content = s.text

namespace Forest

variable {ι : Type}

/-- The statements among siblings, from left to right. -/
def statements : Forest Mark → List Statement
  | nil => []
  | element _ _ _ _ rest => rest.statements
  | leaf mark _ _ rest => mark.statement?.toList ++ rest.statements

/-- The texts of the raw leaves among siblings, from left to right. -/
def rawTexts : Forest ι → List String
  | nil => []
  | element _ _ _ _ rest => rest.rawTexts
  | leaf _ .raw content rest => content :: rest.rawTexts
  | leaf _ _ _ rest => rest.rawTexts

/-- The child list of a document and those of all elements below it. -/
def childLists (f : Forest ι) : List (Forest ι) :=
  f :: f.elements.map (·.children)

/-- A condition holds of all leaves, at all depths. -/
def LeavesSatisfy (P : ι → LeafKind → String → Prop) : Forest ι → Prop
  | nil => True
  | element _ _ _ children rest => children.LeavesSatisfy P ∧ rest.LeavesSatisfy P
  | leaf label kind content rest => P label kind content ∧ rest.LeavesSatisfy P

/-- The child lists below siblings are well nested. -/
def NestedBelow (f : Forest Mark) : Prop :=
  ∀ e ∈ f.elements, WellNested e.children.statements

@[simp] theorem statements_nil : (nil : Forest Mark).statements = [] := rfl

@[simp] theorem statements_element (mark : Mark) (name : String) (attributes : Attributes)
    (children rest : Forest Mark) :
    (element mark name attributes children rest).statements = rest.statements := rfl

@[simp] theorem statements_leaf (mark : Mark) (kind : LeafKind) (content : String)
    (rest : Forest Mark) :
    (leaf mark kind content rest).statements = mark.statement?.toList ++ rest.statements := rfl

@[simp] theorem statements_before (s : Statement) (rest : Forest Mark) :
    (s.before rest).statements = s :: rest.statements := rfl

@[simp] theorem statements_append (f g : Forest Mark) :
    (f ++ g).statements = f.statements ++ g.statements := by
  induction f with
  | nil => rfl
  | element _ _ _ _ _ _ ih => simpa using ih
  | leaf mark _ _ _ ih => simp [ih]

@[simp] theorem elements_append (f g : Forest ι) :
    (f ++ g).elements = f.elements ++ g.elements := by
  induction f with
  | nil => rfl
  | element _ _ _ _ _ _ ih => simp [elements, ih]
  | leaf _ _ _ _ ih => simpa [elements] using ih

@[simp] theorem nestedBelow_nil : (nil : Forest Mark).NestedBelow := by
  simp [NestedBelow, elements]

@[simp] theorem nestedBelow_element {mark : Mark} {name : String} {attributes : Attributes}
    {children rest : Forest Mark} :
    (element mark name attributes children rest).NestedBelow ↔
      WellNested children.statements ∧ children.NestedBelow ∧ rest.NestedBelow := by
  simp [NestedBelow, elements, or_imp, forall_and]

@[simp] theorem nestedBelow_leaf {mark : Mark} {kind : LeafKind} {content : String}
    {rest : Forest Mark} : (leaf mark kind content rest).NestedBelow ↔ rest.NestedBelow := by
  simp [NestedBelow, elements]

@[simp] theorem nestedBelow_before {s : Statement} {rest : Forest Mark} :
    (s.before rest).NestedBelow ↔ rest.NestedBelow := nestedBelow_leaf

@[simp] theorem nestedBelow_append {f g : Forest Mark} :
    (f ++ g).NestedBelow ↔ f.NestedBelow ∧ g.NestedBelow := by
  simp [NestedBelow, or_imp, forall_and]

@[simp] theorem leavesSatisfy_append {P : ι → LeafKind → String → Prop} {f g : Forest ι} :
    (f ++ g).LeavesSatisfy P ↔ f.LeavesSatisfy P ∧ g.LeavesSatisfy P := by
  induction f with
  | nil => simp [LeavesSatisfy]
  | element _ _ _ _ _ _ ih => simp [LeavesSatisfy, ih, and_assoc]
  | leaf _ _ _ _ ih => simp [LeavesSatisfy, ih, and_assoc]

theorem LeavesSatisfy.of_mem_elements {P : ι → LeafKind → String → Prop} {f : Forest ι}
    (h : f.LeavesSatisfy P) {e : Element ι} (he : e ∈ f.elements) : e.children.LeavesSatisfy P := by
  induction f with
  | nil => exact absurd he List.not_mem_nil
  | element _ _ _ _ _ ihc ihr =>
      rcases List.mem_cons.1 he with rfl | he
      · exact h.1
      · rcases List.mem_append.1 he with he | he
        · exact ihc h.1 he
        · exact ihr h.2 he
  | leaf _ _ _ _ ih => exact ih h.2 he

theorem leavesSatisfy_of_forall {P : ι → LeafKind → String → Prop}
    (hP : ∀ label kind content, P label kind content) (f : Forest ι) : f.LeavesSatisfy P := by
  induction f with
  | nil => trivial
  | element _ _ _ _ _ ihc ihr => exact ⟨ihc, ihr⟩
  | leaf _ _ _ _ ih => exact ⟨hP _ _ _, ih⟩

/-- The raw texts of siblings are their statements as they are written. -/
theorem rawTexts_eq {f : Forest Mark} (h : f.LeavesSatisfy Mark.IsLeaf) :
    f.rawTexts = f.statements.map Statement.text := by
  induction f with
  | nil => rfl
  | element _ _ _ _ _ _ ih => exact ih h.2
  | leaf mark kind content rest ih =>
      obtain ⟨hleaf, hrest⟩ := h
      cases mark with
      | source d => cases kind <;> simp_all [rawTexts, Mark.IsLeaf, Mark.statement?]
      | written s =>
          obtain ⟨rfl, rfl⟩ := hleaf
          simp [rawTexts, Mark.statement?, ih hrest]

/-- A condition on kinds and contents of leaves does not depend on labels. -/
theorem leavesSatisfy_plain {P : LeafKind → String → Prop} {f : Forest ι} :
    f.plain.LeavesSatisfy (fun _ kind content => P kind content) ↔
      f.LeavesSatisfy fun _ kind content => P kind content := by
  induction f with
  | nil => exact Iff.rfl
  | element _ _ _ _ _ ihc ihr => exact and_congr ihc ihr
  | leaf _ _ _ _ ih => exact and_congr Iff.rfl ih

theorem leavesSatisfy_collect {P : LeafKind → String → Prop} {o : CompilerOptions} {f : Forest ι}
    (h : f.LeavesSatisfy fun _ kind content => P kind content) :
    (f.collect o).LeavesSatisfy fun _ kind content => P kind content := by
  induction f with
  | nil => trivial
  | element _ _ _ _ _ ihc ihr => exact ⟨ihc h.1, ihr h.2⟩
  | leaf _ _ _ _ ih => exact ⟨h.1, ih h.2⟩

end Forest

end ViewCompiler
