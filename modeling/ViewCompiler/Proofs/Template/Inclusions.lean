/-
**What becomes of calls.**

Every call of an arch becomes one inclusion.  The passes take elements away before calls are
lowered: an element with an output drops what is inside it, and an element that sets a name to a
value is replaced by the assignment, or is a binding, with everything inside it.  A call in there is
gone with the rest.  One more kind of call is lost: that of an element which also sets a name to a
value.  The assignment replaces the element, and nothing is said about the call.  Directly inside
another call the same element is refused.

Calls are counted by the templates that they ask for, so that none can be lost in favour of another.
The reading of an arch gives each of them once: the macros of a call and its default content are two
shares of its children, which have no call in common.

Main definitions:

* `ViewCompiler.Forest.inclusionTokens` — the raw texts that start an inclusion;
* `ViewCompiler.Forest.included`, `ViewCompiler.Forest.called` — the templates that written nodes
  include, and those that a share of siblings calls;
* `ViewCompiler.CompilerOptions.callers` — the elements of an arch whose call nothing around them
  takes away.

Main results:

* `ViewCompiler.Prepared.included_reading` — what is read from a share includes what it calls;
* `ViewCompiler.CompilerOptions.called_marked` — an arch calls what its callers call, besides those
  that are assignments of a value;
* `ViewCompiler.lower_inclusions` — **how many inclusions a compiled arch has**.
-/

import Mathlib.Algebra.Order.Group.Multiset
import ViewCompiler.Markup.Reader
import ViewCompiler.Proofs.Template.Agreement
import ViewCompiler.Proofs.Template.Nesting

set_option relaxedAutoImplicit false
set_option autoImplicit false

namespace ViewCompiler

variable {ι : Type}

/-! ### Inclusions -/

/-- The template that a statement includes. -/
def Statement.template? : Statement → Option String
  | .inclusion template _ => some template
  | _ => none

/-- The text starts as an inclusion does. -/
def startsInclusion (content : String) : Bool :=
  "\x7b% include ".toList.isPrefixOf content.toList

namespace Forest

/-- The number of raw texts, at all depths, that start as an inclusion does. -/
def inclusionTokens : Forest ι → Nat
  | nil => 0
  | element _ _ _ children rest => children.inclusionTokens + rest.inclusionTokens
  | leaf _ kind content rest =>
      (if kind = .raw && startsInclusion content then 1 else 0) + rest.inclusionTokens

/-- The templates that written nodes include, at all depths. -/
def included : Forest Mark → Multiset String
  | nil => 0
  | element _ _ _ children rest => children.included + rest.included
  | leaf mark _ _ rest => (mark.statement?.bind Statement.template?).toList + rest.included

end Forest

/-- Of all statements, only inclusions are written as an inclusion starts. -/
theorem startsInclusion_text (s : Statement) : startsInclusion s.text = s.template?.isSome := by
  cases s with
  | output mode expr =>
      cases mode <;>
        simp [startsInclusion, Statement.text, outputText, markedChars, openMark,
          List.isPrefixOf, Statement.template?]
  | branchIf _ | branchElif _ | branchElse | branchEnd | loopStart _ _ | loopEnd | assign _ _
  | macroStart _ | macroEnd | scopeStart _ | inclusion _ _ | scopeEnd =>
      simp [startsInclusion, Statement.text, blockText, List.isPrefixOf, Statement.template?]

namespace Forest

/-- Where every leaf is what its mark says it is, the texts that start an inclusion are the
inclusions that were written. -/
theorem inclusionTokens_eq_card {f : Forest Mark} (h : f.LeavesSatisfy Mark.IsLeaf) :
    f.inclusionTokens = f.included.card := by
  induction f with
  | nil => rfl
  | element _ _ _ _ _ ihc ihr =>
      rw [inclusionTokens, included, Multiset.card_add, ihc h.1, ihr h.2]
  | leaf mark kind content rest ih =>
      obtain ⟨hleaf, hrest⟩ := h
      rw [inclusionTokens, included, Multiset.card_add, ih hrest]
      cases mark with
      | source d =>
          have hraw : (decide (kind = .raw) && startsInclusion content) = false := by
            rw [decide_eq_false hleaf, Bool.false_and]
          rw [hraw]
          rfl
      | written s =>
          obtain ⟨rfl, rfl⟩ := hleaf
          rw [startsInclusion_text]
          cases hs : s.template? <;> simp [Mark.statement?, hs]

@[simp] theorem included_append (f g : Forest Mark) :
    (f ++ g).included = f.included + g.included := by
  induction f with
  | nil => exact (zero_add _).symm
  | element _ _ _ _ _ _ ih => rw [element_append, included, included, ih, add_assoc]
  | leaf _ _ _ _ ih => rw [leaf_append, included, included, ih, add_assoc]

@[simp] theorem included_before (s : Statement) (rest : Forest Mark) :
    (s.before rest).included = s.template?.toList + rest.included := rfl

/-- A macro includes what is inside it. -/
@[simp] theorem included_macroAround (name : String) (f : Forest Mark) :
    (macroAround name f).included = f.included := by
  rw [macroAround, included_before, included_append, Statement.alone, included_before]
  exact (zero_add _).trans (add_zero _)

@[simp] theorem included_capturedAs (set : Option String) (f : Forest Mark) :
    (capturedAs set f).included = f.included := by
  cases set with
  | none => rfl
  | some name => exact included_macroAround name f

/-- Statements that include nothing. -/
theorem included_writtenAll {ss : List Statement} (h : ∀ s ∈ ss, s.template? = none) :
    (writtenAll ss).included = 0 := by
  induction ss with
  | nil => rfl
  | cons s ss ih =>
      rw [writtenAll, included_before, h s List.mem_cons_self,
        ih fun s hs => h s (List.mem_cons_of_mem _ hs)]
      rfl

end Forest

/-- The start of a branch or a loop includes nothing. -/
theorem Directives.included_openings (d : Directives) : (writtenAll d.openings).included = 0 := by
  refine Forest.included_writtenAll fun s hs => ?_
  simp only [openings, List.mem_append, Option.mem_toList, Option.map_eq_some_iff] at hs
  rcases hs with ⟨c, -, rfl⟩ | ⟨l, -, rfl⟩
  · cases c <;> rfl
  · rfl

/-- The end of a branch or a loop includes nothing. -/
theorem Directives.included_closings (d : Directives) (continued : Bool) :
    (writtenAll (d.closings continued)).included = 0 := by
  refine Forest.included_writtenAll fun s hs => ?_
  simp only [closings, List.mem_append, Option.mem_toList, Option.map_eq_some_iff] at hs
  rcases hs with ⟨l, -, rfl⟩ | hs
  · rfl
  · split at hs
    · rw [List.mem_singleton.1 hs]
      rfl
    · cases hs

/-! ### Calls -/

/-- The element is replaced by an assignment, or is a binding of a call. -/
def Directives.assigns (d : Directives) : Bool :=
  d.set.isSome && d.value.isSome

theorem Directives.assigns_eq_false {d : Directives} :
    d.assigns = false ↔ d.set = none ∨ d.value = none := by
  rw [assigns, Bool.and_eq_false_iff, Option.isSome_eq_false_iff, Option.isSome_eq_false_iff,
    Option.isNone_iff_eq_none, Option.isNone_iff_eq_none]

theorem Directives.value_eq_none {d : Directives} {name : String} (h : d.assigns = false)
    (hset : d.set = some name) : d.value = none := by
  rcases assigns_eq_false.1 h with hnone | hvalue
  · rw [hset] at hnone
    cases hnone
  · exact hvalue

/-- The template that the element calls, unless it is replaced by an assignment. -/
def Directives.called (d : Directives) : Multiset String :=
  if d.assigns then 0 else d.call.toList

/-- The element does not stay around what is inside it. -/
def Directives.dropsInside (d : Directives) : Bool :=
  d.output.isSome || d.assigns

/-- An element belongs to a share of its siblings. -/
def Share.takes : Share → Directives → Bool
  | .all, _ => true
  | .macros, d => d.set.isSome
  | .content, d => d.set.isNone

/-- The templates that a share of siblings calls, at all depths, where nothing takes the call
away. -/
def Forest.called (share : Share) : Forest Mark → Multiset String
  | nil => 0
  | leaf _ _ _ rest => rest.called share
  | element mark _ _ children rest =>
      let d := mark.directives
      (if share.takes d then d.called + if d.dropsInside then 0 else children.called .all else 0) +
        rest.called share

/-- The macros of a call and the rest of what is inside it have no call in common. -/
theorem Forest.called_macros_add_content (f : Forest Mark) :
    f.called .macros + f.called .content = f.called .all := by
  induction f with
  | nil => rfl
  | leaf _ _ _ _ ih => exact ih
  | element mark _ _ children rest _ ih =>
      rw [called, called, called, ← ih]
      cases hset : mark.directives.set with
      | none => simp [Share.takes, hset, add_left_comm]
      | some name => simp [Share.takes, hset, add_assoc]

/-- A call without default content has no call in it. -/
theorem Forest.called_content {f : Forest Mark} (h : (callContent f).hasContent = false) :
    f.called .content = 0 := by
  induction f with
  | nil => rfl
  | leaf _ _ _ _ ih => exact ih (Bool.or_eq_false_iff.1 h).2
  | element mark _ _ children rest _ ih =>
      rw [callContent] at h
      split at h
      · rename_i hset
        have htakes : Share.content.takes mark.directives = false := by
          rw [Share.takes, Option.isNone_eq_false_iff, hset]
        simp only [called, htakes, ih h]
        rfl
      · cases h

/-! ### The reading of one element -/

section Element

variable {o : CompilerOptions} {mark : Mark} {inside : Forest Mark}
  {below : Share → Forest Mark} {calls : Share → Multiset String}

/-- What is read from below an element includes what is called there: `calls` are the templates
that each share of its children calls. -/
structure Includes (d : Directives) (inside : Forest Mark) (below : Share → Forest Mark)
    (calls : Share → Multiset String) : Prop where
  below_eq : d.assigns = false → ∀ part : Share, part.inCall = d.call.isSome →
    (below part).included = calls part
  parts : calls .macros + calls .content = calls .all
  blank : (callContent inside).hasContent = false → calls .content = 0

/-- A call includes its template, and everything that is called inside it. -/
theorem Includes.included_readCall {template : String}
    (h : Includes mark.directives inside below calls) (hassigns : mark.directives.assigns = false)
    (hcall : mark.directives.call = some template) (set : Option String) :
    (readCall o set template inside below).included = {template} + calls .all := by
  have hsome : mark.directives.call.isSome = true := by rw [hcall]; rfl
  have hmacros := h.below_eq hassigns .macros hsome.symm
  have hcontent := h.below_eq hassigns .content hsome.symm
  have hdefault : (if set.isSome || (callContent inside).hasContent then
      macroAround o.placeholder (capturedAs set (below .content)) else Forest.nil).included =
        calls .content := by
    split
    · rw [Forest.included_macroAround, Forest.included_capturedAs, hcontent]
    · rename_i hnone
      exact (h.blank (Bool.or_eq_false_iff.1 (Bool.eq_false_iff.2 hnone)).2).symm
  rw [readCall, Forest.included_append, Forest.included_before, Forest.included_append,
    Forest.included_before, hdefault, hmacros, ← h.parts]
  change calls .macros + (0 + (calls .content + ({template} + (0 + 0)))) =
    {template} + (calls .macros + calls .content)
  rw [zero_add, add_zero, add_zero, ← add_assoc, add_comm]

/-- What an element gives by itself includes its call and what is called inside it. -/
theorem Includes.included_readCore (h : Includes mark.directives inside below calls)
    (tag : String) (attributes : Attributes) :
    (readCore o mark tag attributes inside below).included =
      mark.directives.called + if mark.directives.assigns then 0 else calls .all := by
  cases hassigns : mark.directives.assigns with
  | true =>
      obtain ⟨hset, hvalue⟩ := Bool.and_eq_true_iff.1 hassigns
      obtain ⟨name, hset⟩ := Option.isSome_iff_exists.1 hset
      obtain ⟨value, hvalue⟩ := Option.isSome_iff_exists.1 hvalue
      simp only [readCore, hset, hvalue, Directives.called, hassigns]
      rfl
  | false =>
      rw [Directives.called, hassigns, if_neg Bool.false_ne_true, if_neg Bool.false_ne_true]
      cases hcall : mark.directives.call with
      | none =>
          have hall : (below .all).included = calls .all :=
            h.below_eq hassigns .all (by rw [hcall]; rfl)
          refine Eq.trans ?_ (zero_add _).symm
          cases hset : mark.directives.set with
          | none =>
              simp only [readCore, hset, hcall]
              split
              · exact hall
              · exact (add_zero _).trans hall
          | some name =>
              have hvalue := Directives.value_eq_none hassigns hset
              simp only [readCore, hset, hvalue, hcall]
              rw [Forest.included_macroAround, hall]
      | some template =>
          cases hset : mark.directives.set with
          | none =>
              simp only [readCore, hset, hcall]
              exact h.included_readCall hassigns hcall none
          | some name =>
              have hvalue := Directives.value_eq_none hassigns hset
              simp only [readCore, hset, hvalue, hcall]
              exact h.included_readCall hassigns hcall (some name)

/-- What an element gives to a share that it belongs to includes its call and what is called inside
it; directly inside a call, an assignment is no call itself. -/
theorem Includes.included_readElement (h : Includes mark.directives inside below calls)
    (share : Share) (tag : String) (attributes : Attributes) (continued : Bool)
    (hbinding : share.inCall = true → mark.directives.set.isSome = true →
      mark.directives.call = none) :
    (readElement o share mark tag attributes inside continued below).included =
      if share.takes mark.directives then
        mark.directives.called + if mark.directives.assigns then 0 else calls .all
      else 0 := by
  have hown : (writtenAll mark.directives.openings ++
      (readCore o mark tag attributes inside below ++
        writtenAll (mark.directives.closings continued))).included =
      mark.directives.called + if mark.directives.assigns then 0 else calls .all := by
    rw [Forest.included_append, Forest.included_append, mark.directives.included_openings,
      mark.directives.included_closings, zero_add, add_zero, h.included_readCore]
  cases share with
  | all => exact hown
  | macros =>
      cases hset : mark.directives.set with
      | none => simp [readElement, hset, Share.takes, Forest.included]
      | some name =>
          have hcall : mark.directives.call = none := hbinding rfl (by rw [hset]; rfl)
          cases hvalue : mark.directives.value with
          | none =>
              have hassigns : mark.directives.assigns = false :=
                Directives.assigns_eq_false.2 (.inr hvalue)
              have hall := h.below_eq hassigns .all (by rw [hcall]; rfl)
              simp only [readElement, hset, hvalue, Share.takes, Directives.called, hassigns, hcall]
              exact (Forest.included_macroAround name _).trans (hall.trans (zero_add _).symm)
          | some value =>
              simp [readElement, hset, hvalue, Share.takes, Directives.called, Directives.assigns,
                Forest.included]
  | content =>
      cases hset : mark.directives.set with
      | none =>
          simp only [readElement, hset, Share.takes]
          exact hown
      | some name => simp [readElement, hset, Share.takes, Forest.included]

/-- An element with an output includes its call, and nothing that is called inside it. -/
theorem included_readElement_output (output : OutputMode × String) (share : Share) (tag : String)
    (attributes : Attributes) (continued : Bool)
    (hbinding : share.inCall = true → mark.directives.set.isSome = true →
      mark.directives.call = none) :
    (readElement o share mark tag attributes (o.outputOf output).alone continued
        (fun part => if part = .macros then .nil else (o.outputOf output).alone)).included =
      if share.takes mark.directives then mark.directives.called else 0 := by
  have hincludes : Includes mark.directives (o.outputOf output).alone
      (fun part => if part = .macros then .nil else (o.outputOf output).alone) fun _ => 0 := by
    refine ⟨fun _ part _ => ?_, zero_add 0, fun _ => rfl⟩
    split <;> rfl
  rw [hincludes.included_readElement share tag attributes continued hbinding, ite_self, add_zero]

end Element

/-! ### The reading of an arch -/

/-- An assignment directly inside a call is no call itself. -/
theorem Lowerable.call_of_set {o : CompilerOptions} {share : Share} {mark : Mark} {tag : String}
    {attributes : Attributes} {children rest : Forest Mark}
    (h : Lowerable o share (.element mark tag attributes children rest))
    (hin : share.inCall = true) (hset : mark.directives.set.isSome = true) :
    mark.directives.call = none :=
  (Directives.blockOnBinding?_eq_none (h.block_of_set hin hset)).2.2

/-- **What is read from a share of siblings includes what the share calls.** -/
theorem Prepared.included_reading {o : CompilerOptions} {share : Share} {f g : Forest Mark}
    (h : Prepared o f g) (hl : Lowerable o share g) :
    (reading o share f).included = f.called share := by
  induction h generalizing share with
  | nil => rfl
  | leaf _ ih =>
      have hrest := ih ⟨hl.sets, hl.calls, hl.bindings⟩
      rw [reading, Forest.called, ← hrest]
      split
      · rfl
      · exact zero_add _
  | @element mark tag attributes children _ _ _ hnone _ _ ihc ihr =>
      -- A call reads its children as two shares, any other element as a whole.
      have hincludes : Includes mark.directives children (fun part => reading o part children)
          (fun part => children.called part) :=
        ⟨fun hassigns part hpart => ihc (hl.below (Directives.assigns_eq_false.1 hassigns) hpart),
          children.called_macros_add_content, Forest.called_content⟩
      simp only [reading, hnone, Forest.included_append,
        hincludes.included_readElement share tag attributes _ hl.call_of_set, ihr hl.siblings,
        Forest.called, Directives.dropsInside, Option.isSome_none, Bool.false_or]
  | @around mark tag attributes _ _ _ _ hsome _ ihr =>
      simp only [reading, hsome, Forest.included_append,
        included_readElement_output _ share tag attributes _ hl.call_of_set, ihr hl.siblings,
        Forest.called, Directives.dropsInside, Option.isSome_some, Bool.true_or, if_true, add_zero]
  | @inPlace mark tag attributes _ _ _ _ hsome hreplaced _ ihr =>
      -- An element that its output replaces is no call.
      have hsiblings := ihr ⟨hl.sets, hl.calls, hl.bindings⟩
      have hcall := (CompilerOptions.keepsElement_eq_false hreplaced).2.2.2.2
      simp only [reading, hsome, Forest.included_append,
        included_readElement_output _ share tag attributes _ fun _ _ => hcall, hsiblings,
        Forest.called, Directives.dropsInside, Option.isSome_some, Bool.true_or, if_true, add_zero]

/-! ### The calls of an arch -/

/-- All elements in document order, each with the elements around it, the innermost first; `around`
are those around all of them. -/
def Forest.enclosed (around : List (Element ι)) : Forest ι → List (List (Element ι) × Element ι)
  | nil => []
  | element label name attributes children rest =>
      (around, ⟨label, name, attributes, children⟩) ::
        (children.enclosed (⟨label, name, attributes, children⟩ :: around) ++
          rest.enclosed around)
  | leaf _ _ _ rest => rest.enclosed around

namespace CompilerOptions

/-- The template that an element calls. -/
def template? (o : CompilerOptions) (e : Element ι) : Option String :=
  (o.directivesOf e.attributes).call

/-- The element sets a name to a value. -/
def assignsValue (o : CompilerOptions) (e : Element ι) : Bool :=
  (o.directivesOf e.attributes).assigns

/-- The element has an output, or sets a name to a value. -/
def dropsInside (o : CompilerOptions) (e : Element ι) : Bool :=
  (o.directivesOf e.attributes).dropsInside

/-- The elements among siblings, at all depths, that call a template where no element around them
has an output or sets a name to a value; `around` are the elements around all of them. -/
def callersWithin (o : CompilerOptions) (around : List (Element ι)) (f : Forest ι) :
    List (Element ι) :=
  ((f.enclosed around).filter fun x =>
    (o.template? x.2).isSome && x.1.all (!o.dropsInside ·)).map (·.2)

/-- The elements of an arch that call a template, and are inside no element that has an output or
sets a name to a value. -/
def callers (o : CompilerOptions) (arch : Forest ι) : List (Element ι) :=
  o.callersWithin [] arch

variable {o : CompilerOptions} {around : List (Element ι)}

theorem callersWithin_element (label : ι) (name : String) (attributes : Attributes)
    (children rest : Forest ι) :
    o.callersWithin around (.element label name attributes children rest) =
      (if (o.template? ⟨label, name, attributes, children⟩).isSome &&
          around.all (!o.dropsInside ·) then [⟨label, name, attributes, children⟩] else []) ++
        (o.callersWithin (⟨label, name, attributes, children⟩ :: around) children ++
          o.callersWithin around rest) := by
  simp only [callersWithin, Forest.enclosed, List.filter_cons, List.filter_append]
  split <;> simp

/-- Inside an element that drops what is inside it, no call counts. -/
theorem callersWithin_of_drops (h : around.all (!o.dropsInside ·) = false) (f : Forest ι) :
    o.callersWithin around f = [] := by
  induction f generalizing around with
  | nil => rfl
  | leaf _ _ _ _ ih => exact ih h
  | element label name attributes children rest ihc ihr =>
      have hinside : (⟨label, name, attributes, children⟩ :: around).all (!o.dropsInside ·) =
          false := by rw [List.all_cons, h, Bool.and_false]
      rw [callersWithin_element, h, Bool.and_false, ihc hinside, ihr h]
      rfl

theorem template_of_mem_callersWithin {f : Forest ι} {e : Element ι}
    (he : e ∈ o.callersWithin around f) : (o.template? e).isSome = true := by
  obtain ⟨x, hx, rfl⟩ := List.mem_map.1 he
  exact (Bool.and_eq_true_iff.1 (List.mem_filter.1 hx).2).1

/-- The templates that callers call, unless they are assignments of a value. -/
theorem called_own (e : Element ι) :
    (o.directivesOf e.attributes).called =
      ((if (o.template? e).isSome then [e] else []).filter
        (!o.assignsValue ·)).filterMap o.template? := by
  rw [Directives.called]
  change (if o.assignsValue e then (0 : Multiset String) else (o.template? e).toList) = _
  cases hcall : o.template? e with
  | none => simp
  | some template => cases hassigns : o.assignsValue e <;> simp [hcall, hassigns]

/-- **What an arch calls**: each of its callers, unless it sets a name to a value, calls its
template once. -/
theorem called_marked (h : around.all (!o.dropsInside ·) = true) (f : Forest ι) :
    (f.marked o).called .all =
      ((o.callersWithin around f).filter (!o.assignsValue ·)).filterMap o.template? := by
  induction f generalizing around with
  | nil => rfl
  | leaf _ _ _ _ ih => exact ih h
  | element label name attributes children rest ihc ihr =>
      have hinside : (if (o.directivesOf attributes).dropsInside then 0
            else (children.marked o).called .all) =
          (((o.callersWithin (⟨label, name, attributes, children⟩ :: around) children).filter
            (!o.assignsValue ·)).filterMap o.template? : List String) := by
        cases hdrops : (o.directivesOf attributes).dropsInside with
        | true =>
            rw [callersWithin_of_drops (by simp [dropsInside, hdrops])]
            rfl
        | false => exact ihc (by simpa [dropsInside, hdrops] using h)
      have hown := o.called_own ⟨label, name, attributes, children⟩
      simp only [callersWithin_element, h, Bool.and_true, List.filter_append,
        List.filterMap_append, ← Multiset.coe_add, ← hown, ← hinside, ← ihr h]
      exact add_assoc _ _ _

end CompilerOptions

/-! ### The compiled arch -/

/-- **How many inclusions a compiled arch has.**  Whatever else the elements of an arch without raw
text ask for and however they are put into one another: once the arch compiles, it includes the
templates that its callers call, each as often as it is called, but for those callers that set a
name to a value.  So there is an inclusion for every caller if, and only if, none sets a name to a
value. -/
theorem lower_inclusions {o : CompilerOptions} {arch : Forest ι} {l : Lowered}
    (hraw : arch.LeavesSatisfy fun _ kind _ => kind ≠ .raw)
    (h : lower o .none arch = .ok l) :
    l.content.included =
        ((o.callers arch).filter (!o.assignsValue ·)).filterMap o.template? ∧
      l.content.inclusionTokens + (o.callers arch).countP o.assignsValue =
        (o.callers arch).length ∧
      (l.content.inclusionTokens = (o.callers arch).length ↔
        ∀ e ∈ o.callers arch, o.assignsValue e = false) := by
  obtain ⟨outputs, computed, hp⟩ := lower_eq_ok h
  have hincluded : l.content.included =
      ((o.callers arch).filter (!o.assignsValue ·)).filterMap o.template? := by
    rw [hp.content_eq_reading, hp.prepared.included_reading hp.lowerable]
    exact o.called_marked rfl arch
  have hleaves := hp.leavesSatisfy (leavesSatisfy_numbered hraw)
  have htokens : l.content.inclusionTokens = (o.callers arch).countP (!o.assignsValue ·) := by
    rw [Forest.inclusionTokens_eq_card hleaves, hincluded, Multiset.coe_card,
      List.length_filterMap_eq_countP, List.countP_filter]
    refine List.countP_congr fun e he => ?_
    rw [CompilerOptions.template_of_mem_callersWithin he, Bool.true_and]
  have hsum : l.content.inclusionTokens + (o.callers arch).countP o.assignsValue =
      (o.callers arch).length := by
    rw [htokens, List.length_eq_countP_add_countP o.assignsValue, Nat.add_comm]
    simp
  refine ⟨hincluded, hsum, ?_⟩
  have hnone := List.countP_eq_zero (l := o.callers arch) (p := o.assignsValue)
  simp only [Bool.not_eq_true] at hnone
  rw [← hnone]
  omega

/-- A call with a macro, a binding, default content and an output inside it, each with a call of its
own, next to a call that is an assignment of a value as well. -/
def nestedCalls : String :=
  "<t t-call='a'><t t-set='m'><t t-call='b'/></t><t t-set='v' t-value='1'><t t-call='c'/></t>" ++
    "<p><t t-call='d'/></p><p t-out='x'><t t-call='e'/></p></t>" ++
    "<t t-set='w' t-value='2' t-call='f'/>"

/-- Of the callers `a`, `b`, `d` and `f` all but the last are included; `c` and `e` are none. -/
theorem nestedCalls_inclusions :
    ∃ t l, parse nestedCalls = .ok t ∧ lower {} .none t.content = .ok l ∧
      l.content.included = {"a", "b", "d"} ∧ l.content.inclusionTokens + 1 = 4 := by
  have hok : (parse nestedCalls).toOption.any (fun t =>
      (lower {} .none t.content).isOk &&
        (((CompilerOptions.callers {} t.content).filter
            (!CompilerOptions.assignsValue {} ·)).filterMap (CompilerOptions.template? {}) =
              ["a", "b", "d"] ∧
          (CompilerOptions.callers {} t.content).countP (CompilerOptions.assignsValue {}) = 1 ∧
          (CompilerOptions.callers {} t.content).length = 4)) = true := by
    decide +kernel
  cases hparse : parse nestedCalls with
  | error e =>
      rw [hparse] at hok
      cases hok
  | ok t =>
      rw [hparse] at hok
      obtain ⟨hlower, hcallers⟩ := Bool.and_eq_true_iff.1 hok
      obtain ⟨htemplates, hcount, hlength⟩ := of_decide_eq_true hcallers
      cases hl : lower {} .none t.content with
      | error e =>
          rw [hl] at hlower
          cases hlower
      | ok l =>
          have hraw : t.content.LeavesSatisfy fun _ kind _ => kind ≠ .raw :=
            leavesSatisfy_parse (fun _ _ => by decide) (fun _ _ => by decide) hparse
          obtain ⟨hincluded, hsum, -⟩ := lower_inclusions hraw hl
          rw [htemplates] at hincluded
          rw [hcount, hlength] at hsum
          exact ⟨t, l, rfl, hl, hincluded, hsum⟩

/-- An assignment of a value that is a call compiles, and its call is lost. -/
theorem lower_lostCall :
    ∃ t l, parse "<t t-set=\"x\" t-value=\"1\" t-call=\"foo\"/>" = .ok t ∧
      lower {} .none t.content = .ok l ∧ (CompilerOptions.callers {} t.content).length = 1 ∧
      l.content.inclusionTokens = 0 := by
  have hlost : (parse "<t t-set=\"x\" t-value=\"1\" t-call=\"foo\"/>").toOption.any (fun t =>
      (lower {} .none t.content).toOption.any fun l =>
        (CompilerOptions.callers {} t.content).length = 1 ∧
          l.content.inclusionTokens = 0) = true := by
    decide +kernel
  cases hparse : parse "<t t-set=\"x\" t-value=\"1\" t-call=\"foo\"/>" with
  | error e =>
      rw [hparse] at hlost
      cases hlost
  | ok t =>
      rw [hparse] at hlost
      cases hl : lower {} .none t.content with
      | error e => simp [Except.toOption, hl] at hlost
      | ok l =>
          have hboth : (CompilerOptions.callers {} t.content).length = 1 ∧
              l.content.inclusionTokens = 0 := by
            simpa [Except.toOption, hl] using hlost
          exact ⟨t, l, rfl, hl, hboth⟩

end ViewCompiler
