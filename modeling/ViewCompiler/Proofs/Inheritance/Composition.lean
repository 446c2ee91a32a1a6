/-
**Patch lists compose.**

What a patch does, errors included, depends on the structure of the document alone: not on the numbers
of its nodes, nor on the loose pieces beside it.  A list of patches may therefore be applied in two
parts, the second to a fresh copy of what the first has left.

Main results:

* `ViewCompiler.Tree.Renumbers.patchAt_plain` — a patch at corresponding targets of documents of the
  same structure;
* `ViewCompiler.PatchSpec.applyTo_congr`, `ViewCompiler.PatchSpec.applyAll_congr` — **what patches do
  depends on the structure alone**;
* `ViewCompiler.applyPatches_append` — **a list of patches in two parts**.
-/

import ViewCompiler.Outcome
import ViewCompiler.Proofs.Inheritance.EditByEdit

set_option relaxedAutoImplicit false
set_option autoImplicit false

namespace ViewCompiler

variable {ι κ : Type}

/-! ### Content of the same structure -/

/-- Trimming does not look at labels. -/
theorem trimFragment_map (φ : ι → κ) (f : Forest ι) :
    (trimFragment (f.map φ)).1 = (trimFragment f).1.map φ := by
  cases f with
  | nil | element => rfl
  | leaf label kind content rest =>
      cases kind with
      | comment | raw => rfl
      | text =>
          rw [Forest.map, trimFragment.eq_def, trimFragment.eq_def]
          simp only
          split <;> rfl

/-- Copies of a content have the same structure in every tree. -/
theorem Tree.plain_importFragment (t u : Tree) (body : Forest ι) :
    (t.importFragment body).1.plain = (u.importFragment body).1.plain := by
  have hplain : ∀ v : Tree, (v.importFragment body).1.plain = (trimFragment body.plain).1 := by
    intro v
    rw [← body.plain_numberEach v.size]
    exact (trimFragment_map _ _).symm
  rw [hplain, hplain]

namespace Tree.Renumbers

variable {φ : NodeId → NodeId} {t u : Tree} {target : NodeId}

theorem distinguishes (h : Renumbers φ u t) (htarget : target ∈ root :: u.content.labels) :
    Forest.Distinguishes φ u.content target := fun x hx heq =>
  h.injective x (List.mem_cons_of_mem _ hx) target htarget heq

theorem eq_root_iff (h : Renumbers φ u t) (htarget : target ∈ root :: u.content.labels) :
    φ target = root ↔ target = root := by
  constructor
  · intro heq
    exact h.injective target htarget root List.mem_cons_self (heq.trans h.document.symm)
  · rintro rfl
    exact h.document

/-- Corresponding nodes are replaced by siblings of the same structure. -/
theorem replace_plain (h : Renumbers φ u t) (htarget : target ∈ root :: u.content.labels)
    {g g' : Node NodeId → Forest NodeId} (hg : ∀ n, (g' (n.map φ)).plain = (g n).plain)
    (loose loose' : Forest NodeId) (n n' : Nat) :
    (replace ⟨t.content, loose', n'⟩ (φ target) g').plain =
      (replace ⟨u.content, loose, n⟩ target g).plain := by
  rw [plain, plain, replace, replace, h.content]
  exact Forest.plain_splice_map (h.distinguishes htarget) hg

theorem plain_single_map (φ : NodeId → NodeId) (n : Node NodeId) :
    (Forest.single (n.map φ)).plain = (Forest.single n).plain := by
  rw [← Forest.map_single, Forest.plain_map]

/-- **A patch at corresponding targets of documents of the same structure.** -/
theorem patchAt_plain (h : Renumbers φ u t) (htarget : target ∈ root :: u.content.labels)
    (position : Position) (body : Forest ι) :
    (t.patchAt (φ target) position body).plain = (u.patchAt target position body).plain := by
  have hpieces := plain_importFragment t u body
  cases position with
  | before =>
      refine h.replace_plain htarget (fun n => ?_) _ _ _ _
      rw [Forest.plain_append, Forest.plain_append, plain_single_map]
      exact congrArg (· ++ _) hpieces
  | after =>
      refine h.replace_plain htarget (fun n => ?_) _ _ _ _
      rw [Forest.plain_append, Forest.plain_append, plain_single_map]
      exact congrArg (_ ++ ·) hpieces
  | replace => exact h.replace_plain htarget (fun _ => hpieces) _ _ _ _
  | inside =>
      rw [patchAt, patchAt, plain, plain, Accounted.content_extend, Accounted.content_extend]
      by_cases hroot : target = root
      · rw [if_pos hroot, if_pos ((h.eq_root_iff htarget).2 hroot), Forest.plain_append,
          Forest.plain_append]
        refine congrArg₂ (· ++ ·) ?_ hpieces
        change t.content.plain = u.content.plain
        rw [h.content, Forest.plain_map]
      · rw [if_neg hroot, if_neg (mt (h.eq_root_iff htarget).1 hroot)]
        refine h.replace_plain htarget ?_ .nil .nil 0 0
        rintro (e | ⟨label, kind, content⟩)
        · have hchildren : ((e.map φ).children ++ (t.importFragment body).1).plain =
              (e.children ++ (u.importFragment body).1).plain := by
            rw [Forest.plain_append, Forest.plain_append, hpieces]
            exact congrArg (· ++ _) (Forest.plain_map φ e.children)
          exact congrArg (fun f => Forest.element () e.name e.attributes f .nil) hchildren
        · rfl
  | attributes =>
      refine h.replace_plain htarget ?_ _ _ _ _
      rintro (e | ⟨label, kind, content⟩)
      · exact congrArg (fun f => Forest.element () e.name _ f .nil)
          (Forest.plain_map φ e.children)
      · rfl

end Tree.Renumbers

/-! ### Patches -/

namespace PatchSpec

variable {t u : Tree}

/-- What keeps a patch from its target does not depend on the numbers. -/
theorem targetIn_map {φ : NodeId → NodeId} (h : Tree.Renumbers φ u t) (ht : t.Accounted)
    (hu : u.Accounted) (s : PatchSpec) : s.targetIn t = (s.targetIn u).map φ := by
  rw [targetIn, targetIn, Path.first?_map h ht hu]
  cases hfirst : s.locator.first? u with
  | none => rfl
  | some target =>
      obtain ⟨children, hbranch⟩ :=
        s.locator.branches_select hu target (List.mem_of_mem_head? hfirst)
      simp only [Option.map_some, h.parent?_eq ht hu hbranch, Option.isNone_map]
      split <;> rfl

/-- **What a patch does depends on the structure of the document alone**, errors included. -/
theorem applyTo_congr (s : PatchSpec) (ht : t.Accounted) (hu : u.Accounted)
    (h : t.plain = u.plain) :
    (s.applyTo t).1 = (s.applyTo u).1 ∧ (s.applyTo t).2.plain = (s.applyTo u).2.plain := by
  obtain ⟨φ, hφ⟩ := Tree.exists_renumbers ht hu h
  rw [applyTo, applyTo, targetIn_map hφ ht hu]
  cases htarget : s.targetIn u with
  | error e => exact ⟨rfl, h⟩
  | ok target =>
      obtain ⟨children, hbranch⟩ := branch_of_targetIn hu htarget
      exact ⟨rfl, hφ.patchAt_plain hbranch.mem_nodes s.position s.body⟩

/-- What patches leave is accounted for. -/
theorem accounted_applyAll {specs : List PatchSpec} (ht : t.Accounted)
    (h : applyAll specs t = .ok u) : u.Accounted := by
  induction specs generalizing t with
  | nil => exact Except.ok.inj h ▸ ht
  | cons s more ih =>
      have hstep := (perform_eq ht s).2
      rw [applyAll] at h
      split at h
      · cases h
      · next t' heq =>
          rw [heq] at hstep
          exact ih hstep h

/-- **What patches do depends on the structure of the document alone**, errors included. -/
theorem applyAll_congr (specs : List PatchSpec) (ht : t.Accounted) (hu : u.Accounted)
    (h : t.plain = u.plain) :
    (applyAll specs t).map Tree.plain = (applyAll specs u).map Tree.plain := by
  induction specs generalizing t u with
  | nil => exact congrArg Except.ok h
  | cons s more ih =>
      obtain ⟨herror, hplain⟩ := s.applyTo_congr ht hu h
      have ht' := (perform_eq ht s).2
      have hu' := (perform_eq hu s).2
      rw [applyAll, applyAll]
      generalize s.applyTo t = left at *
      generalize s.applyTo u = right at *
      obtain ⟨error, t'⟩ := left
      obtain ⟨error', u'⟩ := right
      obtain rfl : error = error' := herror
      cases error with
      | some e => rfl
      | none => exact ih ht' hu' hplain

/-- Patches in two parts, both on the same tree. -/
theorem applyAll_append (specs more : List PatchSpec) (t : Tree) :
    applyAll (specs ++ more) t = (applyAll specs t).bind (applyAll more) := by
  induction specs generalizing t with
  | nil => rfl
  | cons s rest ih =>
      rw [List.cons_append, applyAll, applyAll]
      split
      · rfl
      · exact ih _

end PatchSpec

/-! ### Bases -/

theorem Tree.plain_ofPlain (f : Forest ι) : (Tree.ofPlain f).plain = f.plain :=
  f.plain_numberEach 1

/-- The second part of a list of patches finds the same on a fresh copy of what the first part has
left as on the tree itself. -/
theorem map_plain_applyPatches_append (base : Forest ι) (specs more : List PatchSpec) :
    (applyPatches base (specs ++ more)).map Tree.plain =
      (applyPatches base specs).bind fun middle =>
        (applyPatches middle.content more).map Tree.plain := by
  rw [applyPatches, PatchSpec.applyAll_append, applyPatches]
  cases hfirst : PatchSpec.applyAll specs (.ofPlain base) with
  | error e => rfl
  | ok middle =>
      exact PatchSpec.applyAll_congr more
        (PatchSpec.accounted_applyAll (Tree.accounted_ofPlain base) hfirst)
        (Tree.accounted_ofPlain middle.content) (Tree.plain_ofPlain middle.content).symm

/-- **A list of patches in two parts.**  It can be applied, and leaves a document of a certain
structure, exactly if its first part can be applied to the base and its second part can be applied to
what the first has left, and leaves a document of that structure; otherwise the error is the same.
No patches leave the structure of the base.  And what a patch does, errors included, depends on the
structure of the document alone. -/
theorem applyPatches_append (base : Tree) (specs more : List PatchSpec) :
    (∀ f, (∃ result, applyPatches base.content (specs ++ more) = .ok result ∧ result.plain = f) ↔
      ∃ middle, applyPatches base.content specs = .ok middle ∧
        ∃ result, applyPatches middle.content more = .ok result ∧ result.plain = f) ∧
    (∀ error, applyPatches base.content (specs ++ more) = .error error ↔
      applyPatches base.content specs = .error error ∨
        ∃ middle, applyPatches base.content specs = .ok middle ∧
          applyPatches middle.content more = .error error) ∧
    (∃ result, applyPatches base.content [] = .ok result ∧ result.plain = base.plain) ∧
    ∀ (s : PatchSpec) (t u : Tree), t.Accounted → u.Accounted → t.plain = u.plain →
      (s.applyTo t).1 = (s.applyTo u).1 ∧ (s.applyTo t).2.plain = (s.applyTo u).2.plain := by
  have happend := map_plain_applyPatches_append base.content specs more
  refine ⟨fun f => ?_, fun error => ?_, ⟨_, rfl, Tree.plain_ofPlain base.content⟩,
    fun s t u => s.applyTo_congr⟩
  · rw [← map_eq_ok_iff, happend, bind_eq_ok_iff]
    simp only [map_eq_ok_iff]
  · rw [← map_eq_error_iff, happend]
    cases applyPatches base.content specs with
    | error e => simp [Except.bind]
    | ok middle => simp [Except.bind, map_eq_error_iff]

/-- An element that replaces another one, and then text inside it: in two parts, and on a tree beside
which there is a loose piece. -/
theorem applyPatches_replace_inside :
    ∃ (base : Tree) (first second : PatchSpec), base.loose ≠ .nil ∧
      (∃ result, applyPatches base.content ([first] ++ [second]) = .ok result ∧
        result.plain = .element () "a" []
          (.element () "c" [] (.leaf () .text "x" .nil) .nil) .nil) ∧
      (first.applyTo base).2.plain = (first.applyTo (.ofPlain base.content)).2.plain := by
  let base : Tree := ⟨.element 1 "a" [] (.element 2 "b" [] .nil .nil) .nil,
    .leaf 3 .text "gone" .nil, 4⟩
  let first : PatchSpec := ⟨⟨"//b", true, [⟨.descendant, .named "b", []⟩]⟩, .replace,
    .element () "c" [] .nil .nil⟩
  let second : PatchSpec := ⟨⟨"//c", true, [⟨.descendant, .named "c", []⟩]⟩, .inside,
    .leaf () .text "x" .nil⟩
  let middle : Tree := ⟨.element 1 "a" [] (.element 3 "c" [] .nil .nil) .nil,
    .element 2 "b" [] .nil .nil, 4⟩
  have hbase : base.Accounted := by
    unfold Tree.Accounted
    decide
  have hfirst : applyPatches base.content [first] = .ok middle := by decide +kernel
  obtain ⟨hok, -, -, hcongr⟩ := applyPatches_append base [first] [second]
  exact ⟨base, first, second, by decide, (hok _).2 ⟨middle, hfirst, _, rfl, by decide +kernel⟩,
    (hcongr first base (.ofPlain base.content) hbase (Tree.accounted_ofPlain _)
      (by decide +kernel)).2⟩

end ViewCompiler
