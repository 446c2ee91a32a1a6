/-
**The passes sibling by sibling.**

Behind the first two passes, every pass and every check works on each sibling by itself: what it
makes of siblings side by side is what it makes of the ones in front of what it makes of the
others.  Only chains look further, at whether the next sibling goes on with them.  A written
statement is left as it is by the passes behind the one that has written it.

Main definitions:

* `ViewCompiler.writtenAll` — statements as leaves;
* `ViewCompiler.Directives.openings`, `ViewCompiler.Directives.closings` — the blocks of an
  element's branch and loop;
* `ViewCompiler.inBlocks` — what the passes for chains and loops leave.

Main results:

* `ViewCompiler.inBlocks_element` — chains and loops put their blocks around each element;
* `ViewCompiler.lowerSets_append`, `ViewCompiler.lowerCalls_append`,
  `ViewCompiler.Forest.unwrapNamed_append` — the other passes, sibling by sibling.
-/

import ViewCompiler.Template.Compiler

set_option relaxedAutoImplicit false
set_option autoImplicit false

namespace ViewCompiler

variable {ι : Type}

/-! ### Blocks around an element -/

/-- Statements as leaves, one after the other. -/
def writtenAll : List Statement → Forest Mark
  | [] => .nil
  | s :: more => s.before (writtenAll more)

/-- The name and the expression of a loop. -/
def Directives.loop? (d : Directives) : Option (String × String) :=
  match d.foreach, d.binding with
  | some expr, some binding => some (binding, expr)
  | _, _ => none

/-- What stands in front of an element: the start of its branch, then that of its loop. -/
def Directives.openings (d : Directives) : List Statement :=
  (d.conditional.map Conditional.statement).toList ++
    (d.loop?.map fun l => .loopStart l.1 l.2).toList

/-- What stands behind an element: the end of its loop, then that of its chain, unless the chain
goes on. -/
def Directives.closings (d : Directives) (continued : Bool) : List Statement :=
  (d.loop?.map fun _ => .loopEnd).toList ++
    if d.conditional.isSome && !continued then [.branchEnd] else []

/-- Without a branch or a loop, nothing stands around an element. -/
theorem Directives.noBlocks {d : Directives} (hconditional : d.conditional = none)
    (hforeach : d.foreach = none) (continued : Bool) :
    d.openings = [] ∧ d.closings continued = [] := by
  simp [Directives.openings, Directives.closings, Directives.loop?, hconditional, hforeach]

/-! ### The passes work on each sibling by itself -/

@[simp] theorem lowerSets_append (inCall : Bool) (f g : Forest Mark) :
    lowerSets inCall (f ++ g) = lowerSets inCall f ++ lowerSets inCall g := by
  induction f with
  | nil => rfl
  | leaf _ _ _ _ ih => rw [Forest.leaf_append, lowerSets, lowerSets, ih, Forest.leaf_append]
  | element _ _ _ _ _ _ ih =>
      rw [Forest.element_append]
      simp only [lowerSets, ih]
      split <;> rfl

@[simp] theorem hoistedMacros_append (f g : Forest Mark) :
    hoistedMacros (f ++ g) = hoistedMacros f ++ hoistedMacros g := by
  induction f with
  | nil => rfl
  | leaf _ _ _ _ ih => exact ih
  | element _ _ _ _ _ _ ih =>
      rw [Forest.element_append]
      simp only [hoistedMacros, ih]
      split <;> rfl

@[simp] theorem callContent_append (f g : Forest Mark) :
    callContent (f ++ g) = callContent f ++ callContent g := by
  induction f with
  | nil => rfl
  | leaf _ _ _ _ ih => rw [Forest.leaf_append, callContent, callContent, ih, Forest.leaf_append]
  | element _ _ _ _ _ _ ih =>
      rw [Forest.element_append]
      simp only [callContent, ih]
      split <;> rfl

@[simp] theorem callBindings_append (f g : Forest Mark) :
    callBindings (f ++ g) = callBindings f ++ callBindings g := by
  induction f with
  | nil => rfl
  | leaf _ _ _ _ ih => exact ih
  | element _ _ _ _ _ _ ih =>
      rw [Forest.element_append]
      simp only [callBindings, ih]
      split <;> rfl

@[simp] theorem lowerCalls_append (placeholder : String) (f g : Forest Mark) :
    lowerCalls placeholder (f ++ g) = lowerCalls placeholder f ++ lowerCalls placeholder g := by
  induction f with
  | nil => rfl
  | leaf _ _ _ _ ih => rw [Forest.leaf_append, lowerCalls, lowerCalls, ih, Forest.leaf_append]
  | element _ _ _ _ _ _ ih =>
      rw [Forest.element_append]
      simp only [lowerCalls, ih]
      split
      · rfl
      · rw [Forest.append_assoc, Forest.element_append]

@[simp] theorem Forest.unwrapNamed_append (tag : String) (f g : Forest ι) :
    (f ++ g).unwrapNamed tag = f.unwrapNamed tag ++ g.unwrapNamed tag := by
  induction f with
  | nil => rfl
  | leaf _ _ _ _ ih => rw [leaf_append, unwrapNamed, unwrapNamed, ih, leaf_append]
  | element _ _ _ _ _ _ ih =>
      rw [element_append]
      simp only [unwrapNamed, ih]
      split
      · rw [append_assoc]
      · rfl

@[simp] theorem Forest.hasContent_append (f g : Forest ι) :
    (f ++ g).hasContent = (f.hasContent || g.hasContent) := by
  induction f with
  | nil => rfl
  | leaf _ _ _ _ ih => rw [leaf_append, hasContent, hasContent, ih, Bool.or_assoc]
  | element _ _ _ _ _ _ _ => rfl

@[simp] theorem misusedSet?_append (o : CompilerOptions) (inCall attached : Bool)
    (f g : Forest Mark) :
    misusedSet? o inCall attached (f ++ g) =
      (misusedSet? o inCall attached f).or (misusedSet? o inCall attached g) := by
  induction f with
  | nil => rfl
  | leaf _ _ _ _ ih => exact ih
  | element _ _ _ _ _ _ ih =>
      rw [Forest.element_append]
      simp only [misusedSet?, ih]
      split
      · split
        · rfl
        · rw [Option.or_assoc]
      · split
        · rfl
        · split
          · rfl
          · rw [Option.or_assoc]

@[simp] theorem misusedBinding?_append (f g : Forest Mark) :
    misusedBinding? (f ++ g) = (misusedBinding? f).or (misusedBinding? g) := by
  induction f with
  | nil => rfl
  | leaf _ _ _ _ ih => exact ih
  | element _ _ _ _ _ _ ih =>
      rw [Forest.element_append]
      simp only [misusedBinding?, ih]
      split
      · rfl
      · rfl
      · split <;> rfl

@[simp] theorem misusedCall?_append (o : CompilerOptions) (inCall attached : Bool)
    (f g : Forest Mark) :
    misusedCall? o inCall attached (f ++ g) =
      (misusedCall? o inCall attached f).or (misusedCall? o inCall attached g) := by
  induction f with
  | nil => rfl
  | leaf _ _ _ _ ih => exact ih
  | element _ _ _ _ _ _ ih =>
      rw [Forest.element_append]
      simp only [misusedCall?, ih, Option.or_assoc]

/-! ### Statements go through the passes -/

section Written

variable (ss : List Statement)

theorem writtenAll_append (more : List Statement) :
    writtenAll (ss ++ more) = writtenAll ss ++ writtenAll more := by
  induction ss with
  | nil => rfl
  | cons s ss ih => exact congrArg s.before ih

@[simp] theorem lowerSets_writtenAll (inCall : Bool) :
    lowerSets inCall (writtenAll ss) = writtenAll ss := by
  induction ss with
  | nil => rfl
  | cons s more ih => exact congrArg s.before ih

@[simp] theorem lowerCalls_writtenAll (placeholder : String) :
    lowerCalls placeholder (writtenAll ss) = writtenAll ss := by
  induction ss with
  | nil => rfl
  | cons s more ih => exact congrArg s.before ih

@[simp] theorem hoistedMacros_writtenAll : hoistedMacros (writtenAll ss) = .nil := by
  induction ss with
  | nil => rfl
  | cons s more ih => exact ih

@[simp] theorem callContent_writtenAll : callContent (writtenAll ss) = writtenAll ss := by
  induction ss with
  | nil => rfl
  | cons s more ih => exact congrArg s.before ih

@[simp] theorem callBindings_writtenAll : callBindings (writtenAll ss) = [] := by
  induction ss with
  | nil => rfl
  | cons s more ih => exact ih

@[simp] theorem unwrapNamed_writtenAll (tag : String) :
    (writtenAll ss).unwrapNamed tag = writtenAll ss := by
  induction ss with
  | nil => rfl
  | cons s more ih => exact congrArg s.before ih

@[simp] theorem misusedSet?_writtenAll (o : CompilerOptions) (inCall attached : Bool) :
    misusedSet? o inCall attached (writtenAll ss) = none := by
  induction ss with
  | nil => rfl
  | cons s more ih => exact ih

@[simp] theorem misusedBinding?_writtenAll : misusedBinding? (writtenAll ss) = none := by
  induction ss with
  | nil => rfl
  | cons s more ih => exact ih

@[simp] theorem misusedCall?_writtenAll (o : CompilerOptions) (inCall attached : Bool) :
    misusedCall? o inCall attached (writtenAll ss) = none := by
  induction ss with
  | nil => rfl
  | cons s more ih => exact ih

end Written

theorem macroAround_eq (name : String) (f : Forest Mark) :
    macroAround name f = writtenAll [.macroStart name] ++ (f ++ writtenAll [.macroEnd]) := rfl

/-- Taking elements away keeps a macro around what is left of its body. -/
theorem unwrapNamed_macroAround (tag name : String) (f : Forest Mark) :
    (macroAround name f).unwrapNamed tag = macroAround name (f.unwrapNamed tag) := by
  rw [macroAround_eq, Forest.unwrapNamed_append, Forest.unwrapNamed_append,
    unwrapNamed_writtenAll, unwrapNamed_writtenAll]
  rfl

/-- Siblings behind the passes for chains and loops. -/
def inBlocks (f : Forest Mark) : Forest Mark :=
  lowerLoops (lowerBranches f)

/-- A loop stands around its element, in front of whatever follows. -/
theorem lowerLoops_element (mark : Mark) (tag : String) (attributes : Attributes)
    (children rest : Forest Mark) :
    lowerLoops (.element mark tag attributes children rest) =
      writtenAll (mark.directives.loop?.map fun l => .loopStart l.1 l.2).toList ++
        (.element mark tag attributes (lowerLoops children) .nil ++
          (writtenAll (mark.directives.loop?.map fun _ => .loopEnd).toList ++
            lowerLoops rest)) := by
  rw [lowerLoops, Directives.loop?]
  cases mark.directives.foreach with
  | none => rfl
  | some expr =>
      cases mark.directives.binding with
      | none => rfl
      | some binding => rfl

/-- Chains and loops put their blocks around each element. -/
theorem inBlocks_element (mark : Mark) (tag : String) (attributes : Attributes)
    (children rest : Forest Mark) :
    inBlocks (.element mark tag attributes children rest) =
      writtenAll mark.directives.openings ++
        (.element mark tag attributes (inBlocks children) .nil ++
          (writtenAll (mark.directives.closings (continuesChain rest)) ++ inBlocks rest)) := by
  rw [inBlocks, lowerBranches, Directives.openings, Directives.closings, writtenAll_append,
    writtenAll_append]
  cases mark.directives.conditional with
  | none =>
      rw [lowerLoops_element]
      simp [writtenAll, inBlocks]
  | some c =>
      -- The statement of the branch stands outside the loop of its element.
      have hbranch : ∀ f, lowerLoops (c.statement.before f) = c.statement.before (lowerLoops f) :=
        fun _ => rfl
      simp only [hbranch, lowerLoops_element, Forest.append_assoc]
      cases continuesChain rest with
      | false => rfl
      | true => rfl

theorem inBlocks_leaf (mark : Mark) (kind : LeafKind) (content : String) (rest : Forest Mark) :
    inBlocks (.leaf mark kind content rest) = .leaf mark kind content (inBlocks rest) := rfl

end ViewCompiler
