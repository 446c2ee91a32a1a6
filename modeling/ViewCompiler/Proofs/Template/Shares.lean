/-
**What the passes make of a share.**

A share of siblings behind the pass for attributes goes through the passes for chains, loops,
assignments and calls, and then loses its reserved elements.  An element in front of siblings gives
its blocks around what it gives alone; and alone it gives its children, a macro, or the scope of a
call, if the checks have let it through.

Main definitions:

* `ViewCompiler.finished`, `ViewCompiler.assembled` — what siblings give to a share in the end;
* `ViewCompiler.Lowerable` — the checks for assignments and calls let siblings through.

Main results:

* `ViewCompiler.assembled_element` — the passes on an element in front of siblings;
* `ViewCompiler.finished_plainElement`, `ViewCompiler.finished_call`,
  `ViewCompiler.finished_macros` — the passes on one element;
* `ViewCompiler.callBindings_lowered`, `ViewCompiler.hasContent_lowered` — a call finds among its
  lowered children what it would find among them before;
* `ViewCompiler.Lowerable.below` — the checks reach the children of an element.
-/

import ViewCompiler.Proofs.Template.Reading

set_option relaxedAutoImplicit false
set_option autoImplicit false

namespace ViewCompiler

/-! ### What the passes make of a share -/

/-- A share of siblings behind the pass for calls. -/
def Share.of : Share → Forest Mark → Forest Mark
  | .all, f => f
  | .macros, f => hoistedMacros f
  | .content, f => callContent f

/-- What siblings behind the pass for assignments give to a share in the end. -/
def finished (o : CompilerOptions) (share : Share) (f : Forest Mark) : Forest Mark :=
  (share.of (lowerCalls o.placeholder f)).unwrapNamed o.reservedTag

/-- What siblings behind the pass for attributes give to a share in the end. -/
def assembled (o : CompilerOptions) (share : Share) (f : Forest Mark) : Forest Mark :=
  finished o share (lowerSets share.inCall (inBlocks f))

section Finished

variable {o : CompilerOptions} {share : Share}

theorem finished_append (f g : Forest Mark) :
    finished o share (f ++ g) = finished o share f ++ finished o share g := by
  cases share <;> simp [finished, Share.of]

theorem finished_writtenAll (ss : List Statement) :
    finished o share (writtenAll ss) = if share = .macros then .nil else writtenAll ss := by
  cases share <;> simp [finished, Share.of, Forest.unwrapNamed]

/-- A macro around siblings stands around what they give, but it is none of a call's. -/
theorem finished_macroAround (name : String) (f : Forest Mark) :
    finished o share (macroAround name f) =
      if share = .macros then finished o share f else macroAround name (finished o share f) := by
  rw [macroAround_eq, finished_append, finished_append, finished_writtenAll, finished_writtenAll]
  split
  · exact Forest.append_nil _
  · rfl

theorem assembled_leaf (mark : Mark) (kind : LeafKind) (content : String) (rest : Forest Mark) :
    assembled o share (.leaf mark kind content rest) =
      if share = .macros then assembled o share rest
      else .leaf mark kind content (assembled o share rest) := by
  cases share <;> rfl

/-- What an element in front of siblings gives: the blocks around what it gives alone, in front of
what the siblings give. -/
theorem assembled_element (mark : Mark) (tag : String) (attributes : Attributes)
    (children rest : Forest Mark) :
    assembled o share (.element mark tag attributes children rest) =
      finished o share (writtenAll mark.directives.openings) ++
        (finished o share
            (lowerSets share.inCall (.element mark tag attributes (inBlocks children) .nil)) ++
          (finished o share (writtenAll (mark.directives.closings (continuesChain rest))) ++
            assembled o share rest)) := by
  rw [assembled, inBlocks_element, lowerSets_append, lowerSets_append, lowerSets_append,
    lowerSets_writtenAll, lowerSets_writtenAll, finished_append, finished_append, finished_append]
  rfl

/-- An element that is no call and no assignment of a call gives its children, in an element unless
it is reserved. -/
theorem finished_plainElement {mark : Mark} (hcall : mark.directives.call = none)
    (hshare : share = .all ∨ share = .content ∧ mark.directives.set = none)
    (tag : String) (attributes : Attributes) (f : Forest Mark) :
    finished o share (.element mark tag attributes f .nil) =
      if tag = o.reservedTag then finished o .all f
      else .element mark tag attributes (finished o .all f) .nil := by
  have hlowered : lowerCalls o.placeholder (.element mark tag attributes f .nil) =
      .element mark tag attributes (lowerCalls o.placeholder f) .nil := by
    simp only [lowerCalls, hcall]
  have hkept : share.of (.element mark tag attributes (lowerCalls o.placeholder f) .nil) =
      .element mark tag attributes (lowerCalls o.placeholder f) .nil := by
    rcases hshare with rfl | ⟨rfl, hset⟩
    · rfl
    · simp [Share.of, callContent, hset]
  rw [finished, hlowered, hkept, Forest.unwrapNamed]
  simp only [Forest.unwrapNamed, Forest.append_nil]
  rfl

/-- Macros that have been taken out of a call are no assignments any more. -/
theorem callContent_hoistedMacros (f : Forest Mark) :
    callContent (hoistedMacros f) = hoistedMacros f := by
  induction f with
  | nil => rfl
  | leaf _ _ _ _ ih => exact ih
  | element mark tag attributes children rest _ ih =>
      rw [hoistedMacros]
      split
      · simp [callContent, Mark.directives, ih]
      · exact ih

theorem hoistedMacros_hoistedMacros (f : Forest Mark) :
    hoistedMacros (hoistedMacros f) = .nil := by
  induction f with
  | nil => rfl
  | leaf _ _ _ _ ih => exact ih
  | element mark tag attributes children rest _ ih =>
      rw [hoistedMacros]
      split
      · simp [hoistedMacros, Mark.directives, ih]
      · exact ih

/-- The scope of a call stays around what is left of its default content. -/
theorem unwrapNamed_callBlock (tag placeholder template : String)
    (bindings : List (String × String)) (content : Forest Mark) :
    (callBlock placeholder template bindings content).unwrapNamed tag =
      (Statement.scopeStart placeholder).before
        ((if content.hasContent then macroAround placeholder (content.unwrapNamed tag) else .nil) ++
          (Statement.inclusion template bindings).before Statement.scopeEnd.alone) := by
  simp only [callBlock, Statement.before, Forest.unwrapNamed, Forest.unwrapNamed_append]
  split
  · rw [unwrapNamed_macroAround]
    rfl
  · rfl

/-- A reserved element that is a call gives the macros of the call and its scope. -/
theorem finished_call {mark : Mark} {template : String}
    (hcall : mark.directives.call = some template)
    (hshare : share = .all ∨ share = .content ∧ mark.directives.set = none)
    (attributes : Attributes) (f : Forest Mark) :
    finished o share (.element mark o.reservedTag attributes f .nil) =
      finished o .macros f ++
        (Statement.scopeStart o.placeholder).before
          ((if (callContent (lowerCalls o.placeholder f)).hasContent then
              macroAround o.placeholder (finished o .content f)
            else .nil) ++
            (Statement.inclusion template (callBindings f)).before Statement.scopeEnd.alone) := by
  have hlowered : lowerCalls o.placeholder (.element mark o.reservedTag attributes f .nil) =
      hoistedMacros (lowerCalls o.placeholder f) ++
        .element mark o.reservedTag attributes
          (callBlock o.placeholder template (callBindings f)
            (callContent (lowerCalls o.placeholder f))) .nil := by
    simp only [lowerCalls, hcall]
  -- The macros in front of a call are no longer assignments of the call around it.
  have hkept : ∀ inside : Forest Mark,
      share.of (hoistedMacros (lowerCalls o.placeholder f) ++
        .element mark o.reservedTag attributes inside .nil) =
      hoistedMacros (lowerCalls o.placeholder f) ++
        .element mark o.reservedTag attributes inside .nil := by
    intro inside
    rcases hshare with rfl | ⟨rfl, hset⟩
    · rfl
    · rw [Share.of, callContent_append, callContent_hoistedMacros]
      simp [callContent, hset]
  rw [finished, hlowered, hkept, Forest.unwrapNamed_append, Forest.unwrapNamed, if_pos rfl,
    unwrapNamed_callBlock]
  simp only [Forest.unwrapNamed, Forest.append_nil]
  rfl

/-- An assignment with content, directly inside a call, gives the call a macro. -/
theorem finished_macros {mark : Mark} {name : String} (hset : mark.directives.set = some name)
    (hvalue : mark.directives.value = none) (hcall : mark.directives.call = none)
    (attributes : Attributes) (f : Forest Mark) :
    finished o .macros (.element mark o.reservedTag attributes f .nil) =
      macroAround name (finished o .all f) := by
  have hhoisted : hoistedMacros
      (lowerCalls o.placeholder (.element mark o.reservedTag attributes f .nil)) =
        .element (.source { mark.directives with set := none }) o.reservedTag attributes
          (macroAround name (lowerCalls o.placeholder f)) .nil := by
    simp only [lowerCalls, hcall, hoistedMacros, hset, hvalue]
  rw [finished, Share.of, hhoisted, Forest.unwrapNamed, if_pos rfl, unwrapNamed_macroAround]
  exact Forest.append_nil _

/-- What is no assignment gives a call no macro. -/
theorem finished_macros_other {mark : Mark} (hset : mark.directives.set = none) (tag : String)
    (attributes : Attributes) (f : Forest Mark) :
    finished o .macros (.element mark tag attributes f .nil) = .nil := by
  have hhoisted :
      hoistedMacros (lowerCalls o.placeholder (.element mark tag attributes f .nil)) = .nil := by
    simp only [lowerCalls]
    split
    · simp only [hoistedMacros, hset]
    · rw [hoistedMacros_append, hoistedMacros_hoistedMacros]
      simp only [hoistedMacros, hset, Forest.nil_append]
  rw [finished, Share.of, hhoisted]
  rfl

/-- A binding of a call gives it nothing to write. -/
theorem finished_binding {mark : Mark} {name value : String}
    (hset : mark.directives.set = some name) (hvalue : mark.directives.value = some value)
    (hcall : mark.directives.call = none) (tag : String) (attributes : Attributes)
    (f : Forest Mark) : finished o .macros (.element mark tag attributes f .nil) = .nil := by
  simp only [finished, Share.of, lowerCalls, hcall, hoistedMacros, hset, hvalue]
  rfl

/-- An assignment directly inside a call is no part of its default content. -/
theorem finished_content_set {mark : Mark} (hset : mark.directives.set.isSome = true)
    (hcall : mark.directives.call = none) (tag : String) (attributes : Attributes)
    (f : Forest Mark) : finished o .content (.element mark tag attributes f .nil) = .nil := by
  simp only [finished, Share.of, lowerCalls, hcall, callContent, if_pos hset]
  rfl

end Finished

/-! ### What a call looks for among its children -/

theorem lowerSets_element_inCall (mark : Mark) (tag : String) (attributes : Attributes)
    (children rest : Forest Mark) :
    lowerSets true (.element mark tag attributes children rest) =
      .element mark tag attributes (lowerSets mark.directives.call.isSome children)
        (lowerSets true rest) := by
  simp only [lowerSets]

/-- The passes before the one for calls leave the bindings of a call as they are. -/
theorem callBindings_lowered (f : Forest Mark) :
    callBindings (lowerSets true (inBlocks f)) = callBindings f := by
  induction f with
  | nil => rfl
  | leaf _ _ _ _ ih => exact ih
  | element mark tag attributes children rest _ ih =>
      rw [inBlocks_element]
      simp only [lowerSets_append, lowerSets_writtenAll, callBindings_append,
        callBindings_writtenAll, List.nil_append, ih, lowerSets_element_inCall]
      rw [callBindings, callBindings]
      split <;> rfl

/-- An assignment directly inside a call has no block around it and is no call itself. -/
theorem Directives.blockOnBinding?_eq_none {d : Directives} (h : d.blockOnBinding? = none) :
    d.conditional = none ∧ d.foreach = none ∧ d.call = none := by
  rw [Directives.blockOnBinding?] at h
  cases hconditional : d.conditional with
  | some place =>
      rw [hconditional] at h
      cases place <;> cases h
  | none =>
      rw [hconditional] at h
      cases hforeach : d.foreach with
      | some expr => simp [hforeach] at h
      | none =>
          cases hcall : d.call with
          | some template => simp [hforeach, hcall] at h
          | none => exact ⟨rfl, rfl, rfl⟩

/-- What a check of the assignments inside a call says about the first of its children. -/
theorem misusedBinding?_element {mark : Mark} {tag : String} {attributes : Attributes}
    {children rest : Forest Mark}
    (h : misusedBinding? (.element mark tag attributes children rest) = none)
    (hset : mark.directives.set.isSome = true) : mark.directives.blockOnBinding? = none := by
  obtain ⟨name, hname⟩ := Option.isSome_iff_exists.1 hset
  cases hblock : mark.directives.blockOnBinding? with
  | none => rfl
  | some directive =>
      simp only [misusedBinding?, hname, hblock] at h
      cases h

/-- The passes add no default content to a call that has none, and take none away. -/
theorem hasContent_lowered (placeholder : String) {f : Forest Mark}
    (h : misusedBinding? (lowerSets true (inBlocks f)) = none) :
    (callContent (lowerCalls placeholder (lowerSets true (inBlocks f)))).hasContent =
      (callContent f).hasContent := by
  induction f with
  | nil => rfl
  | leaf mark kind content rest ih =>
      have hrest := ih h
      rw [inBlocks_leaf, lowerSets, lowerCalls, callContent, callContent, Forest.hasContent,
        Forest.hasContent, hrest]
  | element mark tag attributes children rest _ ih =>
      rw [inBlocks_element] at h ⊢
      simp only [lowerSets_append, lowerSets_writtenAll, lowerSets_element_inCall,
        misusedBinding?_append, misusedBinding?_writtenAll, Option.none_or,
        Option.or_eq_none_iff] at h
      obtain ⟨hown, hrest⟩ := h
      simp only [lowerSets_append, lowerSets_writtenAll, lowerSets_element_inCall,
        lowerCalls_append, lowerCalls_writtenAll, callContent_append, callContent_writtenAll,
        Forest.hasContent_append, ih hrest]
      cases hset : mark.directives.set with
      | none =>
          -- The element itself is content, whatever the passes put around it.
          have hlowered : (callContent (lowerCalls placeholder (.element mark tag attributes
              (lowerSets mark.directives.call.isSome (inBlocks children)) (lowerSets true .nil)))
              ).hasContent = true := by
            simp only [lowerCalls]
            split
            · simp [callContent, hset, Forest.hasContent]
            · simp [callContent, hset, Forest.hasContent]
          simp [hlowered, callContent, hset, Forest.hasContent]
      | some name =>
          have hisSome : mark.directives.set.isSome = true := by rw [hset]; rfl
          obtain ⟨hconditional, hforeach, hcall⟩ :=
            Directives.blockOnBinding?_eq_none (misusedBinding?_element hown hisSome)
          obtain ⟨hopenings, hclosings⟩ :=
            Directives.noBlocks hconditional hforeach (continuesChain rest)
          simp [hopenings, hclosings, lowerCalls, hcall, callContent, hset, writtenAll,
            Forest.hasContent, lowerSets]

/-! ### The checks -/

/-- The checks for assignments and calls let a share of siblings through. -/
structure Lowerable (o : CompilerOptions) (share : Share) (f : Forest Mark) : Prop where
  sets : misusedSet? o share.inCall true (inBlocks f) = none
  calls : misusedCall? o share.inCall true (lowerSets share.inCall (inBlocks f)) = none
  bindings : share.inCall = true → misusedBinding? (lowerSets true (inBlocks f)) = none

namespace Lowerable

variable {o : CompilerOptions} {share : Share} {mark : Mark} {tag : String}
  {attributes : Attributes} {children rest : Forest Mark}

/-- The checks of an element in front of siblings are those of the element alone and those of the
siblings. -/
theorem parts (h : Lowerable o share (.element mark tag attributes children rest)) :
    Lowerable o share rest ∧
      misusedSet? o share.inCall true
        (.element mark tag attributes (inBlocks children) .nil) = none ∧
      misusedCall? o share.inCall true
        (lowerSets share.inCall (.element mark tag attributes (inBlocks children) .nil)) = none ∧
      (share.inCall = true → misusedBinding?
        (lowerSets true (.element mark tag attributes (inBlocks children) .nil)) = none) := by
  obtain ⟨hsets, hcalls, hbindings⟩ := h
  rw [inBlocks_element] at hsets hcalls hbindings
  simp only [misusedSet?_append, misusedSet?_writtenAll, Option.none_or,
    Option.or_eq_none_iff] at hsets
  simp only [lowerSets_append, lowerSets_writtenAll, misusedCall?_append,
    misusedCall?_writtenAll, Option.none_or, Option.or_eq_none_iff] at hcalls
  simp only [lowerSets_append, lowerSets_writtenAll, misusedBinding?_append,
    misusedBinding?_writtenAll, Option.none_or, Option.or_eq_none_iff] at hbindings
  exact ⟨⟨hsets.2, hcalls.2, fun hin => (hbindings hin).2⟩, hsets.1, hcalls.1,
    fun hin => (hbindings hin).1⟩

theorem siblings (h : Lowerable o share (.element mark tag attributes children rest)) :
    Lowerable o share rest :=
  h.parts.1

/-- Assignments stand on reserved elements only. -/
theorem tag_of_set (h : Lowerable o share (.element mark tag attributes children rest))
    (hset : mark.directives.set.isSome = true) : tag = o.reservedTag := by
  obtain ⟨name, hname⟩ := Option.isSome_iff_exists.1 hset
  obtain ⟨-, hsets, -⟩ := h.parts
  simp only [misusedSet?, hname] at hsets
  by_cases htag : tag = o.reservedTag
  · exact htag
  · rw [if_pos htag] at hsets
    cases hsets

/-- An assignment directly inside a call has no block around it and is no call itself. -/
theorem block_of_set (h : Lowerable o share (.element mark tag attributes children rest))
    (hin : share.inCall = true) (hset : mark.directives.set.isSome = true) :
    mark.directives.blockOnBinding? = none := by
  obtain ⟨-, -, -, hbindings⟩ := h.parts
  have hown := hbindings hin
  rw [lowerSets_element_inCall] at hown
  exact misusedBinding?_element hown hset

/-- An element without a value stays, with its children lowered, maybe as a macro. -/
theorem lowerSets_element (hstays : mark.directives.set = none ∨ mark.directives.value = none)
    (inCall : Bool) (f : Forest Mark) :
    lowerSets inCall (.element mark tag attributes f .nil) =
      .element mark tag attributes
        (capturedAs (if inCall then none else mark.directives.set)
          (lowerSets mark.directives.call.isSome f)) .nil := by
  cases inCall with
  | true => simp [lowerSets, capturedAs]
  | false =>
      cases hset : mark.directives.set with
      | none => simp [lowerSets, hset, capturedAs]
      | some name =>
          have hvalue : mark.directives.value = none :=
            hstays.resolve_left fun h => by rw [hset] at h; cases h
          simp [lowerSets, hset, hvalue, capturedAs]

theorem misusedCall?_capturedAs (inCall attached : Bool) (set : Option String)
    (f : Forest Mark) :
    misusedCall? o inCall attached (capturedAs set f) = misusedCall? o inCall attached f := by
  cases set with
  | none => rfl
  | some name =>
      rw [capturedAs, macroAround_eq]
      simp

theorem misusedBinding?_capturedAs (set : Option String) (f : Forest Mark) :
    misusedBinding? (capturedAs set f) = misusedBinding? f := by
  cases set with
  | none => rfl
  | some name =>
      rw [capturedAs, macroAround_eq]
      simp

/-- The check for assignments reaches the children of an element that stays. -/
theorem sets_below (h : Lowerable o share (.element mark tag attributes children rest))
    (hstays : mark.directives.set = none ∨ mark.directives.value = none) :
    misusedSet? o mark.directives.call.isSome true (inBlocks children) = none := by
  obtain ⟨-, hsets, -⟩ := h.parts
  simp only [misusedSet?] at hsets
  cases hset : mark.directives.set with
  | none =>
      simp only [hset] at hsets
      by_cases hvalue : mark.directives.value.isSome = true
      · rw [if_pos hvalue] at hsets
        cases hsets
      · rw [if_neg hvalue, Option.or_eq_none_iff] at hsets
        exact hsets.1
  | some name =>
      have hvalue : mark.directives.value = none :=
        hstays.resolve_left fun h => by rw [hset] at h; cases h
      simp only [hset, hvalue] at hsets
      split at hsets
      · cases hsets
      · split at hsets
        · cases hsets
        · simp only [Option.isNone_none, Bool.or_true, Bool.and_true,
            Option.or_eq_none_iff] at hsets
          exact hsets.1

/-- The check for calls reaches the children of an element that stays, lets calls stand on reserved
elements only, and looks through the assignments directly inside them. -/
theorem calls_below (h : Lowerable o share (.element mark tag attributes children rest))
    (hstays : mark.directives.set = none ∨ mark.directives.value = none) :
    misusedCall? o mark.directives.call.isSome true
        (lowerSets mark.directives.call.isSome (inBlocks children)) = none ∧
      (mark.directives.call.isSome = true →
        tag = o.reservedTag ∧ misusedBinding? (lowerSets true (inBlocks children)) = none) := by
  obtain ⟨-, -, hcalls, -⟩ := h.parts
  -- Only assignments with a value keep the check from looking below.
  have hnotBoth : (mark.directives.set.isSome && mark.directives.value.isSome) = false := by
    rcases hstays with h | h <;> simp [h]
  rw [lowerSets_element hstays] at hcalls
  simp only [misusedCall?, Bool.and_assoc, hnotBoth, Bool.and_false, Bool.not_false, Bool.and_true,
    Option.or_eq_none_iff, misusedCall?_capturedAs, misusedBinding?_capturedAs] at hcalls
  obtain ⟨hown, hbelow, -⟩ := hcalls
  refine ⟨hbelow, fun hcall => ?_⟩
  simp only [hcall, Bool.true_and, decide_eq_true_eq, if_true] at hown
  split at hown
  · cases hown
  · rename_i htag
    exact ⟨Decidable.not_not.1 htag, hown⟩

/-- The children of an element that stays pass the checks as well. -/
theorem below (h : Lowerable o share (.element mark tag attributes children rest))
    (hstays : mark.directives.set = none ∨ mark.directives.value = none) {part : Share}
    (hpart : part.inCall = mark.directives.call.isSome) : Lowerable o part children := by
  obtain ⟨hcalls, hbindings⟩ := h.calls_below hstays
  have hsets := h.sets_below hstays
  rw [← hpart] at hsets hcalls
  refine ⟨hsets, hcalls, fun hin => ?_⟩
  rw [hpart] at hin
  exact (hbindings hin).2

/-- Calls stand on reserved elements only. -/
theorem tag_of_call (h : Lowerable o share (.element mark tag attributes children rest))
    (hstays : mark.directives.set = none ∨ mark.directives.value = none)
    (hcall : mark.directives.call.isSome = true) : tag = o.reservedTag :=
  ((h.calls_below hstays).2 hcall).1

end Lowerable

end ViewCompiler
