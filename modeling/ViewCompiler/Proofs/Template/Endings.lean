/-
**How the passes end.**

The passes without a field hook give a result, or they name a misused directive.  There is one
exception.  An element with an output directive drops its children, but they are still looked
through for outputs; if one of them is to be replaced by its output, it has no parent to be
replaced in.  The passes then end with an error about a node of the tree, although no directive is
misused.

Main definitions:

* `ViewCompiler.Forest.placed` — all elements in document order, each with its parent;
* `ViewCompiler.CompilerOptions.dropsChildren`, `ViewCompiler.CompilerOptions.givesWay` — what
  becomes of an element with an output directive;
* `ViewCompiler.firstStranded?` — the first element that gives way where its parent has dropped it;
* `ViewCompiler.CompileError.isMisuse` — an error about directives.

Main results:

* `ViewCompiler.errorOf?_lowerOutputs` — how the pass for outputs fails;
* `ViewCompiler.lower_ends` — **how the passes end**.
-/

import ViewCompiler.Proofs.Template.Passes

set_option relaxedAutoImplicit false
set_option autoImplicit false

namespace ViewCompiler

variable {ι : Type}

/-! ### Elements and their parents -/

/-- All elements in document order, each with the element directly around it; `parent` stands around
all of them. -/
def Forest.placed (parent : Option (Element ι)) : Forest ι → List (Option (Element ι) × Element ι)
  | nil => []
  | element label name attributes children rest =>
      (parent, ⟨label, name, attributes, children⟩) ::
        (children.placed (some ⟨label, name, attributes, children⟩) ++ rest.placed parent)
  | leaf _ _ _ rest => rest.placed parent

/-- The elements with a parent are the children of elements, besides those at the top. -/
theorem Forest.mem_placed {outer : Option (Element ι)} {parent child : Element ι} {f : Forest ι} :
    (some parent, child) ∈ f.placed outer ↔
      outer = some parent ∧ child ∈ f.topElements ∨
        parent ∈ f.elements ∧ child ∈ parent.children.topElements := by
  induction f generalizing outer with
  | nil => simp [placed, topElements, elements]
  | leaf _ _ _ _ ih => exact ih
  | element label name attributes children rest ihc ihr =>
      simp only [placed, topElements, elements, List.mem_cons, List.mem_append, ihc, ihr,
        Option.some.injEq, Prod.mk.injEq]
      constructor
      · rintro (⟨rfl, rfl⟩ | (⟨rfl, hchild⟩ | ⟨hparent, hchild⟩) | ⟨rfl, hchild⟩ |
          ⟨hparent, hchild⟩)
        · exact .inl ⟨rfl, .inl rfl⟩
        · exact .inr ⟨.inl rfl, hchild⟩
        · exact .inr ⟨.inr (.inl hparent), hchild⟩
        · exact .inl ⟨rfl, .inr hchild⟩
        · exact .inr ⟨.inr (.inr hparent), hchild⟩
      · rintro (⟨rfl, rfl | hchild⟩ | ⟨rfl | hparent | hparent, hchild⟩)
        · exact .inl ⟨rfl, rfl⟩
        · exact .inr (.inr (.inl ⟨rfl, hchild⟩))
        · exact .inr (.inl (.inl ⟨rfl, hchild⟩))
        · exact .inr (.inl (.inr ⟨hparent, hchild⟩))
        · exact .inr (.inr (.inr ⟨hparent, hchild⟩))

/-! ### The pass for outputs -/

namespace CompilerOptions

/-- The element stays around its output and drops its children. -/
def dropsChildren (o : CompilerOptions) (e : Element ι) : Bool :=
  (o.directivesOf e.attributes).output.isSome && o.keepsElement e.name (o.directivesOf e.attributes)

/-- The element is replaced by its output. -/
def givesWay (o : CompilerOptions) (e : Element ι) : Bool :=
  (o.directivesOf e.attributes).output.isSome &&
    !o.keepsElement e.name (o.directivesOf e.attributes)

end CompilerOptions

/-- The first element that is to be replaced by its output where its parent has dropped it. -/
def firstStranded? (o : CompilerOptions) (parent : Option (Element ι)) (f : Forest ι) :
    Option (Element ι) :=
  ((f.placed parent).find? fun x => x.1.any o.dropsChildren && o.givesWay x.2).map (·.2)

theorem firstStranded?_element (o : CompilerOptions) (parent : Option (Element ι)) (label : ι)
    (name : String) (attributes : Attributes) (children rest : Forest ι) :
    firstStranded? o parent (.element label name attributes children rest) =
      if parent.any o.dropsChildren && o.givesWay ⟨label, name, attributes, children⟩ then
        some ⟨label, name, attributes, children⟩
      else
        (firstStranded? o (some ⟨label, name, attributes, children⟩) children).or
          (firstStranded? o parent rest) := by
  simp only [firstStranded?, Forest.placed, List.find?_cons, List.find?_append]
  cases parent.any o.dropsChildren && o.givesWay ⟨label, name, attributes, children⟩ with
  | true => rfl
  | false => simp [Option.map_or]

theorem firstStranded?_eq_some {o : CompilerOptions} {f : Forest ι} {child : Element ι}
    (h : firstStranded? o none f = some child) :
    ∃ parent ∈ f.elements, child ∈ parent.children.topElements ∧ o.dropsChildren parent = true ∧
      o.givesWay child = true := by
  obtain ⟨⟨around, _⟩, hfind, rfl⟩ := Option.map_eq_some_iff.1 h
  have hboth := List.find?_some hfind
  have hmem := List.mem_of_find?_eq_some hfind
  cases around with
  | none => simp at hboth
  | some parent =>
      rcases Forest.mem_placed.1 hmem with ⟨hnone, _⟩ | ⟨hparent, hchild⟩
      · exact absurd hnone (by simp)
      · rw [Option.any_some, Bool.and_eq_true] at hboth
        exact ⟨parent, hparent, hchild, hboth⟩

theorem firstStranded?_eq_none {o : CompilerOptions} {f : Forest ι}
    (h : firstStranded? o none f = none) {parent child : Element ι} (hparent : parent ∈ f.elements)
    (hdrops : o.dropsChildren parent = true) (hchild : child ∈ parent.children.topElements) :
    o.givesWay child = false := by
  have hmem : (some parent, child) ∈ f.placed none :=
    Forest.mem_placed.2 (.inr ⟨hparent, hchild⟩)
  simpa [hdrops] using List.find?_eq_none.1 (Option.map_eq_none_iff.1 h) _ hmem

/-- What the pass for outputs does with one element: it fails there, or where it fails below, or
behind. -/
theorem errorOf?_lowerOutputs_element (o : CompilerOptions) (orphaned : Bool) (id : NodeId)
    (d : Directives) (name : String) (attributes : Attributes)
    (children rest : Forest (NodeId × Directives)) :
    errorOf? (lowerOutputs o orphaned (.element (id, d) name attributes children rest)) =
      if orphaned && (d.output.isSome && !o.keepsElement name d) then some (.tree (.detached id))
      else (errorOf? (lowerOutputs o (d.output.isSome && o.keepsElement name d) children)).or
        (errorOf? (lowerOutputs o orphaned rest)) := by
  rw [lowerOutputs]
  cases d.output with
  | none =>
      rw [Option.isSome_none, Bool.false_and, Bool.and_false, if_neg Bool.false_ne_true,
        Bool.false_and]
      cases lowerOutputs o false children with
      | error e => rfl
      | ok lowered => exact errorOf?_map _ _
  | some output =>
      rw [Option.isSome_some, Bool.true_and, Bool.true_and]
      cases o.keepsElement name d with
      | true =>
          rw [Bool.not_true, Bool.and_false, if_neg Bool.false_ne_true]
          cases lowerOutputs o true children with
          | error e => rfl
          | ok lowered => exact errorOf?_map _ _
      | false =>
          cases orphaned with
          | true => rfl
          | false =>
              rw [Bool.false_and, if_neg Bool.false_ne_true]
              cases lowerOutputs o false children with
              | error e => rfl
              | ok lowered => exact errorOf?_map _ _

/-- **How the pass for outputs fails.** -/
theorem errorOf?_lowerOutputs (o : CompilerOptions) (parent : Option (Element NodeId))
    (f : Forest NodeId) :
    errorOf? (lowerOutputs o (parent.any o.dropsChildren) (f.collect o)) =
      (firstStranded? o parent f).map fun child => .tree (.detached child.label) := by
  induction f generalizing parent with
  | nil => rfl
  | leaf label kind content rest ih =>
      simp only [Forest.collect, lowerOutputs, errorOf?_map]
      exact ih parent
  | element label name attributes children rest ihc ihr =>
      have hbelow := ihc (some ⟨label, name, attributes, children⟩)
      simp only [Option.any_some, CompilerOptions.dropsChildren] at hbelow
      rw [Forest.collect, errorOf?_lowerOutputs_element, firstStranded?_element, hbelow, ihr parent,
        CompilerOptions.givesWay]
      split
      · rfl
      · exact Option.map_or.symm

/-! ### Misused directives -/

/-- The error is about a misused directive, not about moving a node or what a field hook refuses. -/
def CompileError.isMisuse : CompileError → Bool
  | .smartField .. | .tree _ => false
  | _ => true

/-- A misuse that is found behind the passes for attributes and chains: of a loop, an assignment or
a call. -/
def CompileError.isBlockMisuse : CompileError → Bool
  | .incompleteLoop .. | .emptySet _ | .setOnWrongTag _ | .callOnWrongTag _
  | .controlOnCallBinding .. | .valueWithoutSet _ => true
  | _ => false

theorem CompileError.isMisuse_of_isBlockMisuse {e : CompileError} (h : e.isBlockMisuse = true) :
    e.isMisuse = true := by
  cases e <;> first | rfl | cases h

theorem all_imp {α : Type} {p q : α → Bool} (hpq : ∀ a, p a = true → q a = true) {x : Option α}
    (hx : x.all p = true) : x.all q = true := by
  cases x with
  | none => rfl
  | some a => exact hpq a hx

theorem all_or {α : Type} {p : α → Bool} {x y : Option α} (hx : x.all p = true)
    (hy : y.all p = true) : (x.or y).all p = true := by
  cases x with
  | none => exact hy
  | some a => exact hx

theorem danglingSibling?_misuse (isOpen : Bool) (f : Forest Mark) :
    (danglingSibling? isOpen f).all (·.isMisuse) = true := by
  induction f generalizing isOpen with
  | nil => rfl
  | leaf _ _ _ _ ih => exact ih _
  | element mark _ _ _ _ _ ih =>
      rw [danglingSibling?]
      split
      · exact ih _
      · exact ih _
      · split
        · exact ih _
        · rfl
      · split
        · exact ih _
        · rfl

theorem danglingMember?_misuse (f : Forest Mark) :
    (danglingMember? f).all (·.isMisuse) = true := by
  have hbelow : (danglingBelow? f).all (·.isMisuse) = true := by
    induction f with
    | nil => rfl
    | leaf _ _ _ _ ih => exact ih
    | element _ _ _ _ _ ihc ihr =>
        exact all_or (danglingSibling?_misuse false _) (all_or ihc ihr)
  exact all_or (danglingSibling?_misuse false f) hbelow

theorem incompleteLoop?_blockMisuse (f : Forest Mark) :
    (incompleteLoop? f).all (·.isBlockMisuse) = true := by
  induction f with
  | nil => rfl
  | leaf _ _ _ _ ih => exact ih
  | element mark _ _ _ _ ihc ihr =>
      rw [incompleteLoop?]
      split
      · rfl
      · rfl
      · exact all_or ihc ihr

theorem misusedSet?_blockMisuse (o : CompilerOptions) (inCall attached : Bool) (f : Forest Mark) :
    (misusedSet? o inCall attached f).all (·.isBlockMisuse) = true := by
  induction f generalizing inCall attached with
  | nil => rfl
  | leaf _ _ _ _ ih => exact ih _ _
  | element mark _ _ _ _ ihc ihr =>
      rw [misusedSet?]
      split
      · split
        · rfl
        · exact all_or (ihc _ _) (ihr _ _)
      · split
        · rfl
        · split
          · rfl
          · exact all_or (ihc _ _) (ihr _ _)

theorem misusedBinding?_blockMisuse (f : Forest Mark) :
    (misusedBinding? f).all (·.isBlockMisuse) = true := by
  induction f with
  | nil => rfl
  | leaf _ _ _ _ ih => exact ih
  | element mark _ _ _ _ _ ih =>
      rw [misusedBinding?]
      split
      · exact ih
      · rfl
      · split
        · rfl
        · exact ih

theorem misusedCall?_blockMisuse (o : CompilerOptions) (inCall attached : Bool) (f : Forest Mark) :
    (misusedCall? o inCall attached f).all (·.isBlockMisuse) = true := by
  induction f generalizing inCall attached with
  | nil => rfl
  | leaf _ _ _ _ ih => exact ih _ _
  | element mark _ _ children _ ihc ihr =>
      rw [misusedCall?]
      refine all_or ?_ (all_or (ihc _ _) (ihr _ _))
      split
      · rfl
      · split
        · exact misusedBinding?_blockMisuse children
        · rfl

theorem setAllDynamic_misuse (attributes : Attributes) (dynamic : List DynamicAttribute) :
    (errorOf? (setAllDynamic attributes dynamic)).all (·.isMisuse) = true := by
  induction dynamic generalizing attributes with
  | nil => rfl
  | cons a more ih =>
      cases a with
      | expression name expr => exact ih _
      | format name format => exact ih _
      | spread spec =>
          rw [setAllDynamic, setDynamic, expandAttributes]
          cases spreadAttributes spec with
          | error fault => rfl
          | ok found => exact ih _

theorem lowerAttributes_misuse (f : Forest Mark) :
    (errorOf? (lowerAttributes f)).all (·.isMisuse) = true := by
  induction f with
  | nil => rfl
  | leaf _ _ _ _ ih =>
      rw [lowerAttributes, errorOf?_map]
      exact ih
  | element mark name attributes children rest ihc ihr =>
      have hown := setAllDynamic_misuse attributes mark.directives.attributes
      rw [lowerAttributes]
      revert hown ihc
      cases setAllDynamic attributes mark.directives.attributes with
      | error e => exact fun _ hown => hown
      | ok computed =>
          cases lowerAttributes children with
          | error e => exact fun hbelow _ => hbelow
          | ok lowered =>
              intro _ _
              simp only [errorOf?_map]
              exact ihr

/-! ### The whole compilation -/

theorem errorOf?_refuse {ε : Type} (e : Option ε) : errorOf? (refuse e) = e := by
  cases e <;> rfl

theorem all_refuse_misuse {e : Option CompileError} (h : e.all (·.isBlockMisuse) = true) :
    (errorOf? (refuse e)).all (·.isMisuse) = true := by
  rw [errorOf?_refuse]
  exact all_imp (fun _ => CompileError.isMisuse_of_isBlockMisuse) h

/-- Once outputs are lowered, only a misused directive ends the compilation. -/
theorem lower_misuse {o : CompilerOptions} {arch : Forest ι} {outputs : Forest Mark}
    (h : lowerOutputs o false ((arch.numberEach 1).1.collect o) = .ok outputs) :
    (errorOf? (lower o .none arch)).all (·.isMisuse) = true := by
  rw [lower, h]
  refine all_errorOf?_bind rfl fun outputs => ?_
  refine all_errorOf?_bind (lowerAttributes_misuse outputs) fun computed => ?_
  refine all_errorOf?_bind (errorOf?_refuse _ ▸ danglingMember?_misuse _) fun _ => ?_
  refine all_errorOf?_bind (all_refuse_misuse (incompleteLoop?_blockMisuse _)) fun _ => ?_
  refine all_errorOf?_bind (all_refuse_misuse (misusedSet?_blockMisuse _ _ _ _)) fun _ => ?_
  refine all_errorOf?_bind (all_refuse_misuse (misusedCall?_blockMisuse _ _ _ _)) fun _ => ?_
  refine all_errorOf?_bind ?_ fun _ => rfl
  rw [applyHook_none]
  rfl

/-- **How the passes end**: with an error about a node of the tree if an element is to be replaced by
its output where its parent has dropped it, and then about the first such element; otherwise with a
result or a misused directive. -/
theorem lower_ends (o : CompilerOptions) (arch : Forest ι) :
    (∃ parent ∈ (arch.numberEach 1).1.elements, ∃ child ∈ parent.children.topElements,
        o.dropsChildren parent = true ∧ o.givesWay child = true ∧
        firstStranded? o none (arch.numberEach 1).1 = some child ∧
        lower o .none arch = .error (.tree (.detached child.label))) ∨
      ((∀ parent ∈ (arch.numberEach 1).1.elements, o.dropsChildren parent = true →
          ∀ child ∈ parent.children.topElements, o.givesWay child = false) ∧
        ((∃ l, lower o .none arch = .ok l) ∨
          ∃ e : CompileError, e.isMisuse = true ∧ lower o .none arch = .error e)) := by
  have houtputs := errorOf?_lowerOutputs o none (arch.numberEach 1).1
  cases hfirst : firstStranded? o none (arch.numberEach 1).1 with
  | some child =>
      left
      obtain ⟨parent, hparent, hchild, hdrops, hgives⟩ := firstStranded?_eq_some hfirst
      rw [hfirst, Option.map_some, errorOf?_eq_some] at houtputs
      have hlower : lower o .none arch = .error (.tree (.detached child.label)) := by
        rw [lower]
        exact congrArg (· >>= _) houtputs
      exact ⟨parent, hparent, child, hchild, hdrops, hgives, rfl, hlower⟩
  | none =>
      right
      refine ⟨fun parent hparent hdrops child hchild =>
        firstStranded?_eq_none hfirst hparent hdrops hchild, ?_⟩
      rw [hfirst, Option.map_none] at houtputs
      cases hlowered : lowerOutputs o false ((arch.numberEach 1).1.collect o) with
      | error e => simp [hlowered, errorOf?] at houtputs
      | ok outputs =>
          have hmisuse := lower_misuse hlowered
          cases hlower : lower o .none arch with
          | ok l => exact .inl ⟨l, rfl⟩
          | error e =>
              rw [hlower] at hmisuse
              exact .inr ⟨e, hmisuse, rfl⟩

end ViewCompiler
