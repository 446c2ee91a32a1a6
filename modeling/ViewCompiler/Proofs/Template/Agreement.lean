/-
**Compiling is reading.**

The passes of a compilation, run one after the other over the whole arch, give what the reading
gives element by element.  The proof is one induction on the arch for all passes at once: the step
is an element in front of siblings, of which the passes give its blocks and its own part, and the
induction gives what they make of the shares of its children and of the siblings behind it.

Main definitions:

* `ViewCompiler.Agrees` — what is read from below an element agrees with its children.

Main results:

* `ViewCompiler.Agrees.assembled_eq_readElement` — the passes on one element;
* `ViewCompiler.Prepared.assembled_eq` — the passes on a share of any child list;
* `ViewCompiler.Passed.content_eq_reading` — the passes on a whole arch;
* `ViewCompiler.lower_eq_reading` — **compiling is reading**.
-/

import ViewCompiler.Proofs.Template.Passes
import ViewCompiler.Proofs.Template.Shares

set_option relaxedAutoImplicit false
set_option autoImplicit false

namespace ViewCompiler

/-! ### One element -/

/-- What is read from below an element agrees with its children behind the pass for attributes:
`read` with what the passes make of them, as far as they are looked at, and `inside` with what a
call looks for among them. -/
structure Agrees (o : CompilerOptions) (d : Directives) (children inside : Forest Mark)
    (read : Share → Forest Mark) : Prop where
  below : d.set = none ∨ d.value = none → ∀ part : Share, part.inCall = d.call.isSome →
    assembled o part children = read part
  bindings : callBindings children = callBindings inside
  content : (callContent children).hasContent = (callContent inside).hasContent

section Element

variable {o : CompilerOptions} {share : Share} {mark : Mark} {tag : String}
  {attributes : Attributes} {children inside rest : Forest Mark} {read : Share → Forest Mark}

/-- What an element gives that is no call. -/
theorem Agrees.finished_all (ha : Agrees o mark.directives children inside read)
    (hstays : mark.directives.set = none ∨ mark.directives.value = none)
    (hcall : mark.directives.call = none) :
    finished o .all (lowerSets mark.directives.call.isSome (inBlocks children)) = read .all := by
  have hall := ha.below hstays .all (by rw [hcall]; rfl)
  rw [hcall]
  exact hall

/-- What a call gives, once its children pass the checks. -/
theorem Agrees.finished_call {template : String}
    (ha : Agrees o mark.directives children inside read)
    (h : Lowerable o share (.element mark tag attributes children rest))
    (hstays : mark.directives.set = none ∨ mark.directives.value = none)
    (hcall : mark.directives.call = some template)
    (hshare : share = .all ∨ share = .content ∧ mark.directives.set = none)
    (set : Option String) :
    finished o share (.element mark tag attributes
        (capturedAs set (lowerSets mark.directives.call.isSome (inBlocks children))) .nil) =
      readCall o set template inside read := by
  have hsome : mark.directives.call.isSome = true := by rw [hcall]; rfl
  obtain rfl := h.tag_of_call hstays hsome
  have hmacros : finished o .macros (lowerSets true (inBlocks children)) = read .macros :=
    ha.below hstays .macros hsome.symm
  have hdefault : finished o .content (lowerSets true (inBlocks children)) = read .content :=
    ha.below hstays .content hsome.symm
  have hlowered := hasContent_lowered o.placeholder
    ((h.calls_below hstays).2 hsome).2
  rw [hsome, ViewCompiler.finished_call hcall hshare, readCall]
  cases set with
  | none =>
      simp only [capturedAs, hmacros, hdefault, hlowered, callBindings_lowered, ha.content,
        ha.bindings, Option.isSome_none, Bool.false_or]
  | some name =>
      -- A macro around the children is content, and hides no binding.
      have hcontent : (callContent (lowerCalls o.placeholder
          (macroAround name (lowerSets true (inBlocks children))))).hasContent = true := rfl
      have hbindings : callBindings (macroAround name (lowerSets true (inBlocks children))) =
          callBindings inside := by
        rw [macroAround_eq, callBindings_append, callBindings_append, callBindings_writtenAll,
          callBindings_writtenAll, List.append_nil, List.nil_append, callBindings_lowered,
          ha.bindings]
      simp only [capturedAs, finished_macroAround, hmacros, hdefault, hcontent, hbindings,
        Option.isSome_some, Bool.true_or, if_true, if_false, reduceCtorEq]

/-- The own part of an element that is no assignment. -/
theorem Agrees.finished_of_noSet (ha : Agrees o mark.directives children inside read)
    (h : Lowerable o share (.element mark tag (attributes.withDynamic mark.directives.attributes)
      children rest))
    (hshare : share = .all ∨ share = .content) (hset : mark.directives.set = none) :
    finished o share (lowerSets share.inCall (.element mark tag
        (attributes.withDynamic mark.directives.attributes) (inBlocks children) .nil)) =
      readCore o mark tag attributes inside read := by
  have hstays : mark.directives.set = none ∨ mark.directives.value = none := .inl hset
  have hpart : share = .all ∨ share = .content ∧ mark.directives.set = none :=
    hshare.imp_right fun hcontent => ⟨hcontent, hset⟩
  rw [Lowerable.lowerSets_element hstays, hset, ite_self]
  cases hcall : mark.directives.call with
  | none =>
      have hall := ha.finished_all hstays hcall
      rw [hcall] at hall
      rw [finished_plainElement hcall hpart, capturedAs, hall]
      simp only [readCore, hset, hcall]
  | some template =>
      have hread := ha.finished_call h hstays hcall hpart none
      rw [hcall] at hread
      simp only [readCore, hset, hcall]
      exact hread

/-- The own part of an assignment that is not directly inside a call. -/
theorem Agrees.finished_of_set {name : String}
    (ha : Agrees o mark.directives children inside read)
    (h : Lowerable o .all (.element mark tag (attributes.withDynamic mark.directives.attributes)
      children rest))
    (hset : mark.directives.set = some name) :
    finished o .all (lowerSets false (.element mark tag
        (attributes.withDynamic mark.directives.attributes) (inBlocks children) .nil)) =
      readCore o mark tag attributes inside read := by
  cases hvalue : mark.directives.value with
  | some value =>
      have hassign : lowerSets false (.element mark tag
          (attributes.withDynamic mark.directives.attributes) (inBlocks children) .nil) =
            writtenAll [.assign name value] := by
        simp only [lowerSets, hset, hvalue]
        rfl
      rw [hassign, finished_writtenAll]
      simp only [readCore, hset, hvalue]
      rfl
  | none =>
      have hstays : mark.directives.set = none ∨ mark.directives.value = none := .inr hvalue
      obtain rfl := h.tag_of_set (by rw [hset]; rfl)
      rw [Lowerable.lowerSets_element hstays, hset]
      cases hcall : mark.directives.call with
      | none =>
          have hall := ha.finished_all hstays hcall
          rw [hcall] at hall
          rw [finished_plainElement hcall (.inl rfl), if_pos rfl]
          simp only [readCore, hset, hvalue, hcall]
          exact (finished_macroAround name _).trans (congrArg (macroAround name) hall)
      | some template =>
          have hread := ha.finished_call h hstays hcall (.inl rfl) (some name)
          rw [hcall] at hread
          simp only [readCore, hset, hvalue, hcall]
          exact hread

/-- What an element directly inside a call gives to the macros of the call. -/
theorem Agrees.finished_macros (ha : Agrees o mark.directives children inside read)
    (h : Lowerable o .macros (.element mark tag
      (attributes.withDynamic mark.directives.attributes) children rest)) (continued : Bool) :
    finished o .macros (lowerSets true (.element mark tag
        (attributes.withDynamic mark.directives.attributes) (inBlocks children) .nil)) =
      readElement o .macros mark tag attributes inside continued read := by
  rw [lowerSets_element_inCall, lowerSets]
  cases hset : mark.directives.set with
  | none =>
      rw [finished_macros_other hset]
      simp only [readElement, hset]
  | some name =>
      have hisSome : mark.directives.set.isSome = true := by rw [hset]; rfl
      obtain ⟨-, -, hcall⟩ := Directives.blockOnBinding?_eq_none (h.block_of_set rfl hisSome)
      cases hvalue : mark.directives.value with
      | some value =>
          rw [finished_binding hset hvalue hcall]
          simp only [readElement, hset, hvalue]
      | none =>
          obtain rfl := h.tag_of_set hisSome
          rw [ViewCompiler.finished_macros hset hvalue hcall, ha.finished_all (.inr hvalue) hcall]
          simp only [readElement, hset, hvalue]

/-- The passes on an element in front of siblings: what it gives to the share, in front of what the
siblings give. -/
theorem Agrees.assembled_eq_readElement (ha : Agrees o mark.directives children inside read)
    (h : Lowerable o share (.element mark tag (attributes.withDynamic mark.directives.attributes)
      children rest)) :
    assembled o share (.element mark tag (attributes.withDynamic mark.directives.attributes)
        children rest) =
      readElement o share mark tag attributes inside (continuesChain rest) read ++
        assembled o share rest := by
  rw [assembled_element, finished_writtenAll, finished_writtenAll]
  cases share with
  | all =>
      have hcore : finished o .all (lowerSets false (.element mark tag
          (attributes.withDynamic mark.directives.attributes) (inBlocks children) .nil)) =
            readCore o mark tag attributes inside read := by
        cases hset : mark.directives.set with
        | none => exact ha.finished_of_noSet h (.inl rfl) hset
        | some name => exact ha.finished_of_set h hset
      rw [Share.inCall, hcore]
      simp only [readElement, reduceCtorEq, if_false, Forest.append_assoc]
  | macros =>
      rw [Share.inCall, ha.finished_macros h (continuesChain rest), if_pos rfl, if_pos rfl]
      rfl
  | content =>
      cases hset : mark.directives.set with
      | none =>
          rw [ha.finished_of_noSet h (.inr rfl) hset]
          simp only [readElement, hset, reduceCtorEq, if_false, Forest.append_assoc]
      | some name =>
          -- An assignment directly inside a call has no blocks of its own to leave behind.
          have hisSome : mark.directives.set.isSome = true := by rw [hset]; rfl
          obtain ⟨hconditional, hforeach, hcall⟩ :=
            Directives.blockOnBinding?_eq_none (h.block_of_set rfl hisSome)
          obtain ⟨hopenings, hclosings⟩ :=
            Directives.noBlocks hconditional hforeach (continuesChain rest)
          rw [hopenings, hclosings, Share.inCall, lowerSets_element_inCall, lowerSets,
            finished_content_set hisSome hcall]
          simp only [readElement, hset]
          rfl

/-- An element that its output replaces altogether reads as this output. -/
theorem readElement_of_replaced {output : Statement} {d : Directives} (hmark : mark.directives = d)
    (hreplaced : o.keepsElement tag d = false) (continued : Bool) :
    readElement o share mark tag attributes output.alone continued
        (fun part => if part = .macros then .nil else output.alone) =
      if share = .macros then .nil else output.alone := by
  subst hmark
  obtain ⟨rfl, hconditional, hforeach, hset, hcall⟩ :=
    CompilerOptions.keepsElement_eq_false hreplaced
  obtain ⟨hopenings, hclosings⟩ := Directives.noBlocks hconditional hforeach continued
  cases share with
  | macros => simp [readElement, hset]
  | all | content => simp [readElement, readCore, hset, hcall, hopenings, hclosings, writtenAll]

end Element

/-- An output goes through the passes into every share but that of the macros. -/
theorem assembled_alone (o : CompilerOptions) (share : Share) (s : Statement) :
    assembled o share s.alone = if share = .macros then .nil else s.alone := by
  cases share <;> rfl

/-- An output in the place of children agrees with itself. -/
theorem agrees_alone (o : CompilerOptions) (d : Directives) (s : Statement) :
    Agrees o d s.alone s.alone (fun part => if part = .macros then .nil else s.alone) :=
  ⟨fun _ part _ => assembled_alone o part s, rfl, rfl⟩

/-- **The passes on a share of siblings are the reading of it.** -/
theorem Prepared.assembled_eq {o : CompilerOptions} {share : Share} {f g : Forest Mark}
    (h : Prepared o f g) (hl : Lowerable o share g) : assembled o share g = reading o share f := by
  induction h generalizing share with
  | nil => cases share <;> rfl
  | leaf _ ih =>
      have hrest := ih ⟨hl.sets, hl.calls, hl.bindings⟩
      rw [assembled_leaf, reading, hrest]
  | element hnone hchildren hrest ihc ihr =>
      have ha := Agrees.mk (fun hstays part hpart => ihc (hl.below hstays hpart))
        hchildren.callBindings_eq hchildren.hasContent_eq
      rw [ha.assembled_eq_readElement hl, ihr hl.siblings, hrest.continuesChain_eq, reading, hnone]
  | around hsome hrest ihr =>
      rw [(agrees_alone o _ _).assembled_eq_readElement hl, ihr hl.siblings,
        hrest.continuesChain_eq, reading, hsome]
  | inPlace hsome hreplaced hrest ihr =>
      -- The element is gone already: its output is a leaf among the siblings.
      have hsiblings := ihr ⟨hl.sets, hl.calls, hl.bindings⟩
      rw [Statement.before, assembled_leaf, reading, hsome, hsiblings]
      simp only [readElement_of_replaced rfl hreplaced]
      split <;> rfl

/-! ### A compilation that succeeds -/

section Passed

variable {ι : Type} {o : CompilerOptions} {arch : Forest ι} {outputs computed content : Forest Mark}

/-- The passes for outputs and attributes have done what they should to the arch. -/
theorem Passed.prepared
    (hp : Passed o ((arch.numberEach 1).1.collect o) outputs computed content) :
    Prepared o (arch.marked o) computed := by
  have hprepared : Prepared o ((arch.numberEach 1).1.marked o) computed :=
    prepared_of_ok hp.outputs_eq hp.computed_eq
  rw [← Forest.marked_plain, Forest.plain_numberEach, Forest.marked_plain] at hprepared
  exact hprepared

/-- The checks for assignments and calls have let the whole arch through. -/
theorem Passed.lowerable {collected : Forest (NodeId × Directives)}
    (hp : Passed o collected outputs computed content) : Lowerable o .all computed :=
  ⟨hp.sets, hp.calls, fun hin => absurd hin Bool.false_ne_true⟩

/-- What the passes have left is what is read from the arch. -/
theorem Passed.content_eq_reading
    (hp : Passed o ((arch.numberEach 1).1.collect o) outputs computed content) :
    content = reading o .all (arch.marked o) := by
  rw [hp.content_eq]
  exact hp.prepared.assembled_eq hp.lowerable

end Passed

/-- **Compiling is reading.**  Whatever the elements of an arch ask for and however they are put
into one another: once the arch compiles without a field hook, its content is what is read from
it. -/
theorem lower_eq_reading {ι : Type} {o : CompilerOptions} {arch : Forest ι} {l : Lowered}
    (h : lower o .none arch = .ok l) : l.content = reading o .all (arch.marked o) := by
  obtain ⟨outputs, computed, hp⟩ := lower_eq_ok h
  exact hp.content_eq_reading

/-- A call in a branch in a loop, with a macro, a binding and default content, and a computed
attribute in the other branch. -/
def invoiceArch : Forest Unit :=
  .element () "t" [("t-foreach", "lines"), ("t-as", "line")]
    (.element () "t" [("t-if", "line.on"), ("t-call", "row")]
      (.element () "t" [("t-set", "head")]
        (.element () "b" [("t-out", "line.title")] .nil .nil) <|
      .element () "t" [("t-set", "id"), ("t-value", "line.id")] .nil <|
      .leaf () .text "rest" .nil) <|
    .element () "p" [("t-else", ""), ("t-att-id", "line.id")] .nil .nil)
  .nil

/-- The invoice compiles to what is read from it, here as it is written. -/
theorem invoiceArch_reading :
    ∃ l, lower {} .none invoiceArch = .ok l ∧
      l.content = reading {} .all (invoiceArch.marked {}) ∧
      l.content.write .html =
        "\x7b% for line in lines %\x7d\x7b% if line.on %\x7d\x7b% macro head() %\x7d" ++
          "<b>\x7b\x7b line.title \x7d\x7d</b>\x7b% endmacro %\x7d" ++
          "\x7b% with _0 = null %\x7d\x7b% macro _0() %\x7drest\x7b% endmacro %\x7d" ++
          "\x7b% include \"row\" with id = line.id %\x7d\x7b% endwith %\x7d" ++
          "\x7b% else %\x7d<p id=\"\x7b\x7b line.id \x7d\x7d\"></p>" ++
          "\x7b% endif %\x7d\x7b% endfor %\x7d" := by
  have hok : (lower {} .none invoiceArch).isOk = true := by decide +kernel
  cases hl : lower {} .none invoiceArch with
  | error e =>
      rw [hl] at hok
      cases hok
  | ok l =>
      refine ⟨l, rfl, lower_eq_reading hl, ?_⟩
      rw [lower_eq_reading hl]
      decide +kernel

end ViewCompiler
