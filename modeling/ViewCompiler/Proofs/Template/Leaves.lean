/-
**Leaves through the passes.**

A condition that every written statement meets, and that the leaves of the arch meet, is met by
the leaves behind every pass: no pass makes a leaf but statements, and none changes one.  A document
that has been read has texts and comments as its leaves, so it starts without raw text.

Main results:

* `ViewCompiler.leavesSatisfy_parse` — the leaves of a document;
* `ViewCompiler.leavesSatisfy_lowerOutputs`, `ViewCompiler.leavesSatisfy_lowerAttributes`,
  `ViewCompiler.leavesSatisfy_lowerBranches`, `ViewCompiler.leavesSatisfy_lowerLoops`,
  `ViewCompiler.leavesSatisfy_lowerSets`, `ViewCompiler.leavesSatisfy_lowerCalls`,
  `ViewCompiler.leavesSatisfy_unwrapNamed` — one for each pass.
-/

import ViewCompiler.Markup.Reader
import ViewCompiler.Outcome
import ViewCompiler.Proofs.Template.Blocks

set_option relaxedAutoImplicit false
set_option autoImplicit false

namespace ViewCompiler

/-! ### Reading -/

theorem Forest.leavesSatisfy_reverseOnto {ι : Type} {P : ι → LeafKind → String → Prop}
    {f g : Forest ι} :
    (f.reverseOnto g).LeavesSatisfy P ↔ f.LeavesSatisfy P ∧ g.LeavesSatisfy P := by
  induction f generalizing g with
  | nil => exact (iff_of_eq (true_and _)).symm
  | element _ _ _ _ _ _ ih =>
      rw [reverseOnto, ih, LeavesSatisfy, LeavesSatisfy, and_left_comm, and_assoc]
  | leaf _ _ _ _ ih => rw [reverseOnto, ih, LeavesSatisfy, LeavesSatisfy, and_left_comm, and_assoc]

section Reading

variable {P : NodeId → LeafKind → String → Prop}

/-- A condition holds of all leaves that the reader keeps. -/
structure Reading.LeavesSatisfy (P : NodeId → LeafKind → String → Prop) (r : Reading) : Prop where
  done : r.done.LeavesSatisfy P
  before : ∀ e ∈ r.opened, e.before.LeavesSatisfy P

variable (htext : ∀ label content, P label .text content)
  (hcomment : ∀ label content, P label .comment content)
include htext hcomment

theorem Reading.LeavesSatisfy.step {r s : Reading} {token : Token} (hr : r.LeavesSatisfy P)
    (h : r.step token = .ok s) : s.LeavesSatisfy P := by
  cases token with
  | text content =>
      cases h
      exact ⟨⟨htext _ _, hr.done⟩, hr.before⟩
  | comment content =>
      cases h
      exact ⟨⟨hcomment _ _, hr.done⟩, hr.before⟩
  | startTag name attributes selfClosing position =>
      cases selfClosing with
      | true =>
          cases h
          exact ⟨⟨trivial, hr.done⟩, hr.before⟩
      | false =>
          cases h
          exact ⟨trivial, List.forall_mem_cons.2 ⟨hr.done, hr.before⟩⟩
  | endTag name position =>
      rw [Reading.step] at h
      split at h
      · cases h
      · rename_i e outer hopened
        split at h
        · cases h
          obtain ⟨hbefore, houter⟩ := List.forall_mem_cons.1 (hopened ▸ hr.before)
          exact ⟨⟨Forest.leavesSatisfy_reverseOnto.2 ⟨hr.done, trivial⟩, hbefore⟩, houter⟩
        · cases h

theorem Reading.LeavesSatisfy.steps {r s : Reading} {tokens : List Token}
    (hr : r.LeavesSatisfy P) (h : r.steps tokens = .ok s) : s.LeavesSatisfy P := by
  induction tokens generalizing r with
  | nil =>
      cases h
      exact hr
  | cons token more ih =>
      rw [Reading.steps] at h
      split at h
      · cases h
      · rename_i next hnext
        exact ih (hr.step htext hcomment hnext) h

/-- The leaves of a document that has been read are texts and comments. -/
theorem leavesSatisfy_parse {source : String} {t : Tree} (h : parse source = .ok t) :
    t.content.LeavesSatisfy P := by
  obtain ⟨tokens, -, h⟩ := bind_eq_ok_iff.1 h
  obtain ⟨r, hsteps, hfinish⟩ := bind_eq_ok_iff.1 h
  have hstart : Reading.start.LeavesSatisfy P := ⟨trivial, fun _ he => absurd he List.not_mem_nil⟩
  have hr := hstart.steps htext hcomment hsteps
  rw [Reading.finish] at hfinish
  split at hfinish
  · cases hfinish
    exact Forest.leavesSatisfy_reverseOnto.2 ⟨hr.done, trivial⟩
  · cases hfinish

end Reading

/-! ### Passes -/

variable {P : Mark → LeafKind → String → Prop}

/-- Behind the pass for outputs, the leaves are those of the arch and outputs. -/
theorem leavesSatisfy_lowerOutputs {o : CompilerOptions} {orphaned : Bool}
    {f : Forest (NodeId × Directives)} {g : Forest Mark}
    (hout : ∀ mode expr, P (.written (.output mode expr)) .raw (Statement.output mode expr).text)
    (hf : f.LeavesSatisfy fun _ kind content => P (.source {}) kind content)
    (h : lowerOutputs o orphaned f = .ok g) : g.LeavesSatisfy P := by
  induction f generalizing orphaned g with
  | nil =>
      cases h
      trivial
  | leaf label kind content rest ih =>
      obtain ⟨rest', hrest, rfl⟩ := map_eq_ok_iff.1 h
      exact ⟨hf.1, ih hf.2 hrest⟩
  | element label name attributes children rest ihc ihr =>
      obtain ⟨id, d⟩ := label
      simp only [lowerOutputs] at h
      split at h
      · split at h
        · cases h
        · rename_i children' hchildren
          obtain ⟨rest', hrest, rfl⟩ := map_eq_ok_iff.1 h
          exact ⟨ihc hf.1 hchildren, ihr hf.2 hrest⟩
      · split at h
        · split at h
          · cases h
          · obtain ⟨rest', hrest, rfl⟩ := map_eq_ok_iff.1 h
            exact ⟨⟨hout _ _, trivial⟩, ihr hf.2 hrest⟩
        · split at h
          · cases h
          · split at h
            · cases h
            · obtain ⟨rest', hrest, rfl⟩ := map_eq_ok_iff.1 h
              exact ⟨hout _ _, ihr hf.2 hrest⟩

theorem leavesSatisfy_lowerAttributes {f g : Forest Mark} (hf : f.LeavesSatisfy P)
    (h : lowerAttributes f = .ok g) : g.LeavesSatisfy P := by
  induction f generalizing g with
  | nil =>
      cases h
      trivial
  | leaf mark kind content rest ih =>
      obtain ⟨rest', hrest, rfl⟩ := map_eq_ok_iff.1 h
      exact ⟨hf.1, ih hf.2 hrest⟩
  | element mark name attributes children rest ihc ihr =>
      simp only [lowerAttributes] at h
      split at h
      · cases h
      · split at h
        · cases h
        · rename_i children' hchildren
          obtain ⟨rest', hrest, rfl⟩ := map_eq_ok_iff.1 h
          exact ⟨ihc hf.1 hchildren, ihr hf.2 hrest⟩

variable (hP : ∀ s : Statement, P (.written s) .raw s.text)
include hP

theorem leavesSatisfy_lowerBranches {f : Forest Mark} (hf : f.LeavesSatisfy P) :
    (lowerBranches f).LeavesSatisfy P := by
  induction f with
  | nil => trivial
  | leaf _ _ _ _ ih => exact ⟨hf.1, ih hf.2⟩
  | element mark name attributes children rest ihc ihr =>
      have hchildren := ihc hf.1
      have hrest := ihr hf.2
      rw [lowerBranches]
      split
      · exact ⟨hchildren, hrest⟩
      · refine ⟨hP _, hchildren, ?_⟩
        split
        · exact hrest
        · exact ⟨hP _, hrest⟩

theorem leavesSatisfy_lowerLoops {f : Forest Mark} (hf : f.LeavesSatisfy P) :
    (lowerLoops f).LeavesSatisfy P := by
  induction f with
  | nil => trivial
  | leaf _ _ _ _ ih => exact ⟨hf.1, ih hf.2⟩
  | element mark name attributes children rest ihc ihr =>
      rw [lowerLoops]
      split
      · exact ⟨hP _, ihc hf.1, hP _, ihr hf.2⟩
      · exact ⟨ihc hf.1, ihr hf.2⟩

theorem leavesSatisfy_macroAround {f : Forest Mark} (name : String) (hf : f.LeavesSatisfy P) :
    (macroAround name f).LeavesSatisfy P :=
  ⟨hP _, Forest.leavesSatisfy_append.2 ⟨hf, hP _, trivial⟩⟩

theorem leavesSatisfy_lowerSets (inCall : Bool) {f : Forest Mark} (hf : f.LeavesSatisfy P) :
    (lowerSets inCall f).LeavesSatisfy P := by
  induction f generalizing inCall with
  | nil => trivial
  | leaf _ _ _ _ ih => exact ⟨hf.1, ih _ hf.2⟩
  | element mark tag attributes children rest ihc ihr =>
      simp only [lowerSets]
      split
      · exact ⟨hP _, ihr _ hf.2⟩
      · exact ⟨leavesSatisfy_macroAround hP _ (ihc _ hf.1), ihr _ hf.2⟩
      · exact ⟨ihc _ hf.1, ihr _ hf.2⟩

theorem leavesSatisfy_hoistedMacros {f : Forest Mark} (hf : f.LeavesSatisfy P) :
    (hoistedMacros f).LeavesSatisfy P := by
  induction f with
  | nil => trivial
  | leaf _ _ _ _ ih => exact ih hf.2
  | element mark tag attributes children rest _ ihr =>
      rw [hoistedMacros]
      split
      · exact ⟨leavesSatisfy_macroAround hP _ hf.1, ihr hf.2⟩
      · exact ihr hf.2

omit hP in
theorem leavesSatisfy_callContent {f : Forest Mark} (hf : f.LeavesSatisfy P) :
    (callContent f).LeavesSatisfy P := by
  induction f with
  | nil => trivial
  | leaf _ _ _ _ ih => exact ⟨hf.1, ih hf.2⟩
  | element mark tag attributes children rest _ ihr =>
      rw [callContent]
      split
      · exact ihr hf.2
      · exact ⟨hf.1, ihr hf.2⟩

theorem leavesSatisfy_callBlock {content : Forest Mark} (placeholder template : String)
    (bindings : List (String × String)) (hcontent : content.LeavesSatisfy P) :
    (callBlock placeholder template bindings content).LeavesSatisfy P := by
  refine ⟨hP _, Forest.leavesSatisfy_append.2 ⟨?_, hP _, hP _, trivial⟩⟩
  split
  · exact leavesSatisfy_macroAround hP _ hcontent
  · trivial

theorem leavesSatisfy_lowerCalls (placeholder : String) {f : Forest Mark}
    (hf : f.LeavesSatisfy P) : (lowerCalls placeholder f).LeavesSatisfy P := by
  induction f with
  | nil => trivial
  | leaf _ _ _ _ ih => exact ⟨hf.1, ih hf.2⟩
  | element mark tag attributes children rest ihc ihr =>
      have hinside := ihc hf.1
      rw [lowerCalls]
      split
      · exact ⟨hinside, ihr hf.2⟩
      · rw [Forest.leavesSatisfy_append]
        exact ⟨leavesSatisfy_hoistedMacros hP hinside,
          leavesSatisfy_callBlock hP _ _ _ (leavesSatisfy_callContent hinside), ihr hf.2⟩

omit hP in
theorem leavesSatisfy_unwrapNamed {tag : String} {f : Forest Mark} (hf : f.LeavesSatisfy P) :
    (f.unwrapNamed tag).LeavesSatisfy P := by
  induction f with
  | nil => trivial
  | leaf _ _ _ _ ih => exact ⟨hf.1, ih hf.2⟩
  | element mark name attributes children rest ihc ihr =>
      rw [Forest.unwrapNamed]
      split
      · exact Forest.leavesSatisfy_append.2 ⟨ihc hf.1, ihr hf.2⟩
      · exact ⟨ihc hf.1, ihr hf.2⟩

end ViewCompiler
