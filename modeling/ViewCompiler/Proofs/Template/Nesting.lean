/-
**Blocks are well nested.**

Compiling guarantees more than that the blocks of a compiled text fit together: opening and ending
of a block always stand in the same child list, so that the blocks of every child list are well
nested by themselves.

The passes behind the one for chains insert only pieces that leave any open blocks as they find
them, and hence change the effect of no child list: a loop is an opening and its end around an
element, macros and calls are whole child lists of their own, and the elements that are taken away
at the end leave behind their well nested children.  Chains are the exception.  Whether their
members fit together is decided by the check in front of that pass, so the proof for chains is
about a child list from some member on, with the block of the members before it still open.

Main results:

* `ViewCompiler.blocksAfter_lowerBranches` — chains, from any member on;
* `ViewCompiler.blocksAfter_lowerLoops`, `ViewCompiler.blocksAfter_lowerSets`,
  `ViewCompiler.statements_lowerCalls`, `ViewCompiler.blocksAfter_unwrapNamed` — the other passes
  change the effect of no child list;
* `ViewCompiler.lower_wellNested` — **every child list of a compiled arch is well nested**.
-/

import ViewCompiler.Proofs.Template.Leaves
import ViewCompiler.Proofs.Template.Passes

set_option relaxedAutoImplicit false
set_option autoImplicit false

namespace ViewCompiler

/-! ### Chains -/

/-- The statements before the pass for chains are outputs. -/
def Mark.OnlyOutput (mark : Mark) (kind : LeafKind) (_ : String) : Prop :=
  ∀ s, mark = .written s → kind = .raw ∧ ∃ mode expr, s = .output mode expr

/-- The pass for outputs writes nothing but outputs. -/
theorem onlyOutput_lowerOutputs {o : CompilerOptions} {orphaned : Bool}
    {f : Forest (NodeId × Directives)} {g : Forest Mark} (h : lowerOutputs o orphaned f = .ok g) :
    g.LeavesSatisfy Mark.OnlyOutput := by
  refine leavesSatisfy_lowerOutputs (fun mode expr s hs => ?_) ?_ h
  · exact ⟨rfl, mode, expr, (Mark.written.inj hs).symm⟩
  · exact Forest.leavesSatisfy_of_forall (fun _ _ _ s hs => by cases hs) f

/-- Behind siblings that no chain runs up to, no chain is continued. -/
theorem continuesChain_of_closed {f : Forest Mark} (h : danglingSibling? false f = none) :
    continuesChain f = false := by
  induction f with
  | nil => rfl
  | leaf mark kind content rest ih =>
      rw [danglingSibling?, Bool.and_false] at h
      rw [continuesChain, ih h, Bool.and_false]
  | element mark name attributes children rest _ _ =>
      rw [continuesChain]
      rw [danglingSibling?] at h
      split at h
      · simp_all
      · simp_all
      · cases h
      · cases h

/-- A leaf before the pass for chains opens and closes nothing. -/
theorem Mark.OnlyOutput.blocksAfter {mark : Mark} {kind : LeafKind} {content : String}
    (h : mark.OnlyOutput kind content) (opened : List Block) (more : List Statement) :
    blocksAfter opened (mark.statement?.toList ++ more) = ViewCompiler.blocksAfter opened more := by
  cases mark with
  | source d => rfl
  | written s =>
      obtain ⟨-, mode, expr, rfl⟩ := h s rfl
      rfl

/-- From any member on, chains close the block that the members before have left open, and no
other. -/
theorem blocksAfter_lowerBranches {f : Forest Mark} {isOpen : Bool} (opened : List Block)
    (hf : f.LeavesSatisfy Mark.OnlyOutput) (h : danglingSibling? isOpen f = none) :
    blocksAfter (if continuesChain f then .chain :: opened else opened)
      (lowerBranches f).statements = some opened := by
  induction f generalizing isOpen with
  | nil => rfl
  | leaf mark kind content rest ih =>
      rw [danglingSibling?] at h
      rw [lowerBranches, Forest.statements_leaf, hf.1.blocksAfter, continuesChain]
      cases hblank : Forest.isBlankLeaf kind content with
      | true =>
          rw [hblank, Bool.true_and] at h
          exact ih hf.2 h
      | false =>
          -- Behind a leaf that is seen no chain can go on.
          rw [hblank, Bool.false_and] at h
          have hrest := ih hf.2 h
          rw [continuesChain_of_closed h] at hrest
          exact hrest
  | element mark name attributes children rest _ ih =>
      rw [danglingSibling?] at h
      rw [lowerBranches, continuesChain]
      cases hplace : mark.directives.conditional with
      | none =>
          rw [hplace] at h
          have hrest := ih hf.2 h
          rw [continuesChain_of_closed h] at hrest
          exact hrest
      | some place =>
          rw [hplace] at h
          -- Behind the first statement of the branch: what follows closes the chain, by a branch
          -- end of its own or by a later member.
          have htail {block : Block} {next : Bool} (hnext : danglingSibling? next rest = none)
              (hend : Statement.branchEnd.after (block :: opened) = some opened)
              (hcont : continuesChain rest = true → block = .chain) :
              blocksAfter (block :: opened)
                (if continuesChain rest then lowerBranches rest
                  else Statement.branchEnd.before (lowerBranches rest)).statements =
                some opened := by
            have hrest := ih hf.2 hnext
            split
            · rename_i hcontinues
              rw [hcont hcontinues]
              rwa [if_pos hcontinues] at hrest
            · rename_i hcontinues
              rw [if_neg hcontinues] at hrest
              rw [Forest.statements_before, blocksAfter, hend]
              exact hrest
          cases place with
          | ifTrue condition => exact htail h rfl fun _ => rfl
          | elseIf condition =>
              cases isOpen with
              | false => cases h
              | true => exact htail h rfl fun _ => rfl
          | otherwise =>
              cases isOpen with
              | false => cases h
              | true =>
                  refine htail h rfl fun hcontinues => ?_
                  rw [continuesChain_of_closed h] at hcontinues
                  cases hcontinues

theorem wellNested_lowerBranches {f : Forest Mark} (hf : f.LeavesSatisfy Mark.OnlyOutput)
    (h : danglingSibling? false f = none) : WellNested (lowerBranches f).statements := by
  have hnested := blocksAfter_lowerBranches [] hf h
  rwa [continuesChain_of_closed h] at hnested

theorem nestedBelow_lowerBranches {f : Forest Mark} (hf : f.LeavesSatisfy Mark.OnlyOutput)
    (h : danglingBelow? f = none) : (lowerBranches f).NestedBelow := by
  induction f with
  | nil => exact Forest.nestedBelow_nil
  | leaf _ _ _ _ ih => exact Forest.nestedBelow_leaf.2 (ih hf.2 h)
  | element mark name attributes children rest ihc ihr =>
      rw [danglingBelow?, Option.or_eq_none_iff, Option.or_eq_none_iff] at h
      obtain ⟨hsiblings, hchildren, hrest⟩ := h
      have hnested := wellNested_lowerBranches hf.1 hsiblings
      rw [lowerBranches]
      split
      · exact Forest.nestedBelow_element.2 ⟨hnested, ihc hf.1 hchildren, ihr hf.2 hrest⟩
      · rw [Forest.nestedBelow_before, Forest.nestedBelow_element]
        refine ⟨hnested, ihc hf.1 hchildren, ?_⟩
        split
        · exact ihr hf.2 hrest
        · exact Forest.nestedBelow_before.2 (ihr hf.2 hrest)

/-! ### Loops, assignments and calls -/

/-- A loop opens and closes its own block only. -/
theorem blocksAfter_lowerLoops (opened : List Block) (f : Forest Mark) :
    blocksAfter opened (lowerLoops f).statements = blocksAfter opened f.statements := by
  induction f generalizing opened with
  | nil => rfl
  | leaf mark kind content rest ih =>
      rw [lowerLoops, Forest.statements_leaf, Forest.statements_leaf, blocksAfter_append,
        blocksAfter_append]
      simp only [ih]
  | element mark name attributes children rest _ ih =>
      rw [lowerLoops]
      split
      · exact ih opened
      · exact ih opened

theorem nestedBelow_lowerLoops {f : Forest Mark} (h : f.NestedBelow) :
    (lowerLoops f).NestedBelow := by
  induction f with
  | nil => exact Forest.nestedBelow_nil
  | leaf _ _ _ _ ih => exact Forest.nestedBelow_leaf.2 (ih (Forest.nestedBelow_leaf.1 h))
  | element mark name attributes children rest ihc ihr =>
      obtain ⟨hnested, hchildren, hrest⟩ := Forest.nestedBelow_element.1 h
      have hlowered : WellNested (lowerLoops children).statements :=
        (blocksAfter_lowerLoops [] children).trans hnested
      rw [lowerLoops]
      split
      · rw [Forest.nestedBelow_before, Forest.nestedBelow_element, Forest.nestedBelow_before]
        exact ⟨hlowered, ihc hchildren, ihr hrest⟩
      · exact Forest.nestedBelow_element.2 ⟨hlowered, ihc hchildren, ihr hrest⟩

/-- A macro around well nested siblings is well nested. -/
theorem wellNested_macroAround {f : Forest Mark} (name : String) (h : WellNested f.statements) :
    WellNested (macroAround name f).statements := by
  rw [macroAround, Forest.statements_before, Forest.statements_append, WellNested, blocksAfter,
    Statement.after, Option.bind_some, blocksAfter_append, h.blocksAfter_eq]
  rfl

theorem nestedBelow_macroAround {f : Forest Mark} (name : String) (h : f.NestedBelow) :
    (macroAround name f).NestedBelow := by
  rw [macroAround, Forest.nestedBelow_before, Forest.nestedBelow_append]
  exact ⟨h, Forest.nestedBelow_before.2 Forest.nestedBelow_nil⟩

/-- An assignment opens and closes nothing among the siblings of its element. -/
theorem blocksAfter_lowerSets (inCall : Bool) (opened : List Block) (f : Forest Mark) :
    blocksAfter opened (lowerSets inCall f).statements = blocksAfter opened f.statements := by
  induction f generalizing opened with
  | nil => rfl
  | leaf mark kind content rest ih =>
      rw [lowerSets, Forest.statements_leaf, Forest.statements_leaf, blocksAfter_append,
        blocksAfter_append]
      simp only [ih]
  | element mark tag attributes children rest _ ih =>
      simp only [lowerSets]
      split
      · exact ih opened
      · exact ih opened
      · exact ih opened

theorem nestedBelow_lowerSets (inCall : Bool) {f : Forest Mark} (h : f.NestedBelow) :
    (lowerSets inCall f).NestedBelow := by
  induction f generalizing inCall with
  | nil => exact Forest.nestedBelow_nil
  | leaf _ _ _ _ ih => exact Forest.nestedBelow_leaf.2 (ih _ (Forest.nestedBelow_leaf.1 h))
  | element mark tag attributes children rest ihc ihr =>
      obtain ⟨hnested, hchildren, hrest⟩ := Forest.nestedBelow_element.1 h
      have hlowered : WellNested (lowerSets mark.directives.call.isSome children).statements :=
        (blocksAfter_lowerSets _ [] children).trans hnested
      simp only [lowerSets]
      split
      · exact Forest.nestedBelow_before.2 (ihr _ hrest)
      · rw [Forest.nestedBelow_element]
        exact ⟨wellNested_macroAround _ hlowered, nestedBelow_macroAround _ (ihc _ hchildren),
          ihr _ hrest⟩
      · exact Forest.nestedBelow_element.2 ⟨hlowered, ihc _ hchildren, ihr _ hrest⟩

@[simp] theorem statements_hoistedMacros (f : Forest Mark) :
    (hoistedMacros f).statements = [] := by
  induction f with
  | nil => rfl
  | leaf _ _ _ _ ih => exact ih
  | element mark tag attributes children rest _ ih =>
      rw [hoistedMacros]
      split
      · exact ih
      · exact ih

theorem nestedBelow_hoistedMacros {f : Forest Mark} (h : f.NestedBelow) :
    (hoistedMacros f).NestedBelow := by
  induction f with
  | nil => exact Forest.nestedBelow_nil
  | leaf _ _ _ _ ih => exact ih (Forest.nestedBelow_leaf.1 h)
  | element mark tag attributes children rest _ ih =>
      obtain ⟨hnested, hchildren, hrest⟩ := Forest.nestedBelow_element.1 h
      rw [hoistedMacros]
      split
      · rw [Forest.nestedBelow_element]
        exact ⟨wellNested_macroAround _ hnested, nestedBelow_macroAround _ hchildren, ih hrest⟩
      · exact ih hrest

@[simp] theorem statements_callContent (f : Forest Mark) :
    (callContent f).statements = f.statements := by
  induction f with
  | nil => rfl
  | leaf mark _ _ _ ih => rw [callContent, Forest.statements_leaf, Forest.statements_leaf, ih]
  | element mark tag attributes children rest _ ih =>
      rw [callContent]
      split
      · exact ih
      · exact ih

theorem nestedBelow_callContent {f : Forest Mark} (h : f.NestedBelow) :
    (callContent f).NestedBelow := by
  induction f with
  | nil => exact Forest.nestedBelow_nil
  | leaf _ _ _ _ ih => exact Forest.nestedBelow_leaf.2 (ih (Forest.nestedBelow_leaf.1 h))
  | element mark tag attributes children rest _ ih =>
      obtain ⟨hnested, hchildren, hrest⟩ := Forest.nestedBelow_element.1 h
      rw [callContent]
      split
      · exact ih hrest
      · exact Forest.nestedBelow_element.2 ⟨hnested, hchildren, ih hrest⟩

section CallBlock

variable {placeholder template : String} {bindings : List (String × String)}
  {content : Forest Mark}

/-- What stands inside a lowered call is well nested if the default content is. -/
theorem wellNested_callBlock (h : WellNested content.statements) :
    WellNested (callBlock placeholder template bindings content).statements := by
  have hdefault : WellNested (if content.hasContent then macroAround placeholder content
      else Forest.nil).statements := by
    split
    · exact wellNested_macroAround placeholder h
    · rfl
  rw [callBlock, Forest.statements_before, Forest.statements_append, WellNested, blocksAfter,
    Statement.after, Option.bind_some, blocksAfter_append, hdefault.blocksAfter_eq]
  rfl

theorem nestedBelow_callBlock (h : content.NestedBelow) :
    (callBlock placeholder template bindings content).NestedBelow := by
  rw [callBlock, Forest.nestedBelow_before, Forest.nestedBelow_append]
  constructor
  · split
    · exact nestedBelow_macroAround placeholder h
    · exact Forest.nestedBelow_nil
  · exact Forest.nestedBelow_before.2 (Forest.nestedBelow_before.2 Forest.nestedBelow_nil)

end CallBlock

/-- A call writes no statement among the siblings of its element. -/
@[simp] theorem statements_lowerCalls (placeholder : String) (f : Forest Mark) :
    (lowerCalls placeholder f).statements = f.statements := by
  induction f with
  | nil => rfl
  | leaf mark _ _ _ ih => rw [lowerCalls, Forest.statements_leaf, Forest.statements_leaf, ih]
  | element mark tag attributes children rest _ ih =>
      simp only [lowerCalls]
      split
      · exact ih
      · rw [Forest.statements_append, statements_hoistedMacros]
        exact ih

theorem nestedBelow_lowerCalls (placeholder : String) {f : Forest Mark} (h : f.NestedBelow) :
    (lowerCalls placeholder f).NestedBelow := by
  induction f with
  | nil => exact Forest.nestedBelow_nil
  | leaf _ _ _ _ ih => exact Forest.nestedBelow_leaf.2 (ih (Forest.nestedBelow_leaf.1 h))
  | element mark tag attributes children rest ihc ihr =>
      obtain ⟨hnested, hchildren, hrest⟩ := Forest.nestedBelow_element.1 h
      have hinside : WellNested (lowerCalls placeholder children).statements := by
        rw [statements_lowerCalls]
        exact hnested
      have hbelow := ihc hchildren
      simp only [lowerCalls]
      split
      · exact Forest.nestedBelow_element.2 ⟨hinside, hbelow, ihr hrest⟩
      · -- Three new places: the macros in front, the child list of the call, and below it.
        rw [Forest.nestedBelow_append, Forest.nestedBelow_element]
        refine ⟨nestedBelow_hoistedMacros hbelow, wellNested_callBlock ?_,
          nestedBelow_callBlock (nestedBelow_callContent hbelow), ihr hrest⟩
        rw [statements_callContent]
        exact hinside

/-! ### Reserved elements -/

/-- An element that is taken away leaves behind statements that open and close only what is their
own. -/
theorem blocksAfter_unwrapNamed (tag : String) (opened : List Block) {f : Forest Mark}
    (h : f.NestedBelow) :
    blocksAfter opened (f.unwrapNamed tag).statements = blocksAfter opened f.statements := by
  induction f generalizing opened with
  | nil => rfl
  | leaf mark kind content rest ih =>
      rw [Forest.unwrapNamed, Forest.statements_leaf, Forest.statements_leaf, blocksAfter_append,
        blocksAfter_append]
      simp only [ih _ (Forest.nestedBelow_leaf.1 h)]
  | element mark name attributes children rest ihc ihr =>
      obtain ⟨hnested, hchildren, hrest⟩ := Forest.nestedBelow_element.1 h
      rw [Forest.unwrapNamed]
      split
      · -- The children stand in the place of the element, and leave open what was open there.
        rw [Forest.statements_append, blocksAfter_append, ihc opened hchildren,
          hnested.blocksAfter_eq]
        exact ihr opened hrest
      · exact ihr opened hrest

theorem nestedBelow_unwrapNamed (tag : String) {f : Forest Mark} (h : f.NestedBelow) :
    (f.unwrapNamed tag).NestedBelow := by
  induction f with
  | nil => exact Forest.nestedBelow_nil
  | leaf _ _ _ _ ih => exact Forest.nestedBelow_leaf.2 (ih (Forest.nestedBelow_leaf.1 h))
  | element mark name attributes children rest ihc ihr =>
      obtain ⟨hnested, hchildren, hrest⟩ := Forest.nestedBelow_element.1 h
      rw [Forest.unwrapNamed]
      split
      · exact Forest.nestedBelow_append.2 ⟨ihc hchildren, ihr hrest⟩
      · have hunwrapped : WellNested (children.unwrapNamed tag).statements :=
          (blocksAfter_unwrapNamed tag [] hchildren).trans hnested
        exact Forest.nestedBelow_element.2 ⟨hunwrapped, ihc hchildren, ihr hrest⟩

/-! ### The compiled arch -/

section Compiled

variable {o : CompilerOptions} {arch : Forest (NodeId × Directives)}
  {outputs computed content : Forest Mark}

/-- Compiling starts without raw text if there is none in the arch. -/
theorem leavesSatisfy_numbered {ι : Type} {arch : Forest ι}
    (hraw : arch.LeavesSatisfy fun _ kind _ => kind ≠ .raw) :
    ((arch.numberEach 1).1.collect o).LeavesSatisfy fun _ kind _ => kind ≠ .raw := by
  refine Forest.leavesSatisfy_collect (P := fun kind _ => kind ≠ .raw) ?_
  rw [← Forest.leavesSatisfy_plain, Forest.plain_numberEach, Forest.leavesSatisfy_plain]
  exact hraw

/-- Behind all passes, every leaf is what its mark says it is. -/
theorem Passed.leavesSatisfy (hp : Passed o arch outputs computed content)
    (hraw : arch.LeavesSatisfy fun _ kind _ => kind ≠ .raw) :
    content.LeavesSatisfy Mark.IsLeaf := by
  have hwritten : ∀ s : Statement, Mark.IsLeaf (.written s) .raw s.text := fun _ => ⟨rfl, rfl⟩
  have houtputs := leavesSatisfy_lowerOutputs (fun _ _ => hwritten _) hraw hp.outputs_eq
  have hcomputed := leavesSatisfy_lowerAttributes houtputs hp.computed_eq
  have hloops := leavesSatisfy_lowerLoops hwritten (leavesSatisfy_lowerBranches hwritten hcomputed)
  have hcalls := leavesSatisfy_lowerCalls hwritten o.placeholder
    (leavesSatisfy_lowerSets hwritten false hloops)
  rw [hp.content_eq]
  exact leavesSatisfy_unwrapNamed hcalls

/-- Behind all passes, the child lists are well nested: the document's own and those below it. -/
theorem Passed.wellNested (hp : Passed o arch outputs computed content) :
    WellNested content.statements ∧ content.NestedBelow := by
  have hcomputed :=
    leavesSatisfy_lowerAttributes (onlyOutput_lowerOutputs hp.outputs_eq) hp.computed_eq
  obtain ⟨hsiblings, hbelow⟩ := Option.or_eq_none_iff.1 hp.chains
  have hbranches := wellNested_lowerBranches hcomputed hsiblings
  have hbranchesBelow := nestedBelow_lowerBranches hcomputed hbelow
  have hcalls := nestedBelow_lowerCalls o.placeholder
    (nestedBelow_lowerSets false (nestedBelow_lowerLoops hbranchesBelow))
  rw [hp.content_eq]
  refine ⟨?_, nestedBelow_unwrapNamed o.reservedTag hcalls⟩
  rw [WellNested, blocksAfter_unwrapNamed _ _ hcalls, statements_lowerCalls,
    blocksAfter_lowerSets, blocksAfter_lowerLoops]
  exact hbranches

end Compiled

/-- **Every child list of a compiled arch is well nested.**  Whatever directives the elements of an
arch without raw text combine, and however they are put into one another: once the arch compiles,
the raw texts in each child list are statements, and these open and close their blocks among
themselves. -/
theorem lower_wellNested {ι : Type} {o : CompilerOptions} {arch : Forest ι} {l : Lowered}
    (hraw : arch.LeavesSatisfy fun _ kind _ => kind ≠ .raw)
    (h : lower o .none arch = .ok l) :
    ∀ siblings ∈ l.content.childLists,
      siblings.rawTexts = siblings.statements.map Statement.text ∧
        WellNested siblings.statements := by
  obtain ⟨outputs, computed, hp⟩ := lower_eq_ok h
  have hleaves := hp.leavesSatisfy (leavesSatisfy_numbered hraw)
  obtain ⟨hnested, hbelow⟩ := hp.wellNested
  intro siblings hsiblings
  rcases List.mem_cons.1 hsiblings with rfl | hsiblings
  · exact ⟨Forest.rawTexts_eq hleaves, hnested⟩
  · obtain ⟨e, he, rfl⟩ := List.mem_map.1 hsiblings
    exact ⟨Forest.rawTexts_eq (hleaves.of_mem_elements he), hbelow e he⟩

/-- A loop on a member of a chain, an assignment that is a call, and a macro that belongs to a call
inside another call's macro. -/
def entangledArch : Forest Unit :=
  .element () "t" [("t-if", "a"), ("t-foreach", "xs"), ("t-as", "x")]
    (.element () "b" [] .nil .nil) <|
  .leaf () .text " " <|
  .element () "p" [("t-else", "")] .nil <|
  .element () "t" [("t-set", "s"), ("t-call", "c")] (.leaf () .text "x" .nil) <|
  .element () "t" [("t-call", "outer")]
    (.element () "t" [("t-set", "body")]
      (.element () "t" [("t-call", "inner")]
        (.element () "t" [("t-set", "deep")] (.leaf () .text "d" .nil) .nil) .nil)
      .nil)
  .nil

/-- The entangled arch compiles, and its child lists are well nested. -/
theorem entangledArch_wellNested :
    ∃ l, lower {} .none entangledArch = .ok l ∧
      ∀ siblings ∈ l.content.childLists,
        siblings.rawTexts = siblings.statements.map Statement.text ∧
          WellNested siblings.statements := by
  have hok : (lower {} .none entangledArch).isOk = true := by decide +kernel
  cases hl : lower {} .none entangledArch with
  | error e =>
      rw [hl] at hok
      cases hok
  | ok l => exact ⟨l, rfl, lower_wellNested (by simp [entangledArch, Forest.LeavesSatisfy]) hl⟩

end ViewCompiler
