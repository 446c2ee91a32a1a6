/-
**Patches, edit by edit.**

A patch can be carried out with the edits of a tree: its content is imported as loose pieces, a line
feed at the start is taken off the first of them, and the pieces are put into place one by one, those
that go behind the target each behind the one before.  Every one of these edits is checked, but none
is ever refused, and what comes out is what applying the patch as a whole gives.

Main definitions:

* `ViewCompiler.Tree.importTrimmed`, `ViewCompiler.Tree.setEachAttribute` — the parts of a patch
  besides putting pieces into place;
* `ViewCompiler.PatchSpec.perform` — a patch, edit by edit.

Main results:

* `ViewCompiler.Tree.Accounted.importTrimmed_spec`, `ViewCompiler.Tree.Accounted.setEachAttribute_eq`
  — what the parts of a patch do;
* `ViewCompiler.PatchSpec.perform_eq` — **no edit of a patch is refused**.
-/

import ViewCompiler.Inheritance.Patch
import ViewCompiler.Proofs.Locator.Structure
import ViewCompiler.Proofs.Markup.Pieces

set_option relaxedAutoImplicit false
set_option autoImplicit false

namespace ViewCompiler

variable {ι : Type}

namespace Tree

/-- Imports siblings, takes a line feed off the start of the first of them, if that is a text, and
tells which of them are left to be put into place. -/
def importTrimmed (t : Tree) (body : Forest ι) : List NodeId × Tree :=
  let (copies, t) := t.importEach body
  match copies with
  | .leaf label .text content rest =>
      match content.toList with
      | '\n' :: more =>
          (if more.isEmpty then rest.roots else label :: rest.roots,
            t.setText label (.ofList more))
      | _ => (copies.roots, t)
  | _ => (copies.roots, t)

/-- Sets an attribute of the target for each of the elements, up to the first that has no name. -/
def setEachAttribute (target : NodeId) : List (Element ι) → Tree → Option PatchError × Tree
  | [], t => (none, t)
  | e :: more, t =>
      match e.attr? "name" with
      | none => (some .attributeWithoutName, t)
      | some name =>
          setEachAttribute target more
            ((t.removeAttribute target name).2.setAttribute target name e.children.textContent)

end Tree

/-- Carries out a patch with edits of the tree. -/
def PatchSpec.perform (s : PatchSpec) (t : Tree) : Except TreeError (Option PatchError × Tree) :=
  match s.targetIn t with
  | .error error => .ok (some error, t)
  | .ok target =>
      match s.position with
      | .before =>
          let (ids, t) := t.importTrimmed s.body
          (t.insertEachBefore target ids).map (none, ·)
      | .after =>
          let (ids, t) := t.importTrimmed s.body
          (t.insertEachAfter target ids).map (none, ·)
      | .replace =>
          let (ids, t) := t.importTrimmed s.body
          (t.insertEachBefore target ids).map fun t => (none, t.detach target)
      | .inside =>
          let (ids, t) := t.importTrimmed s.body
          (t.appendEach target ids).map (none, ·)
      | .attributes => .ok (t.setEachAttribute target (attributeElements s.body))

/-! ### The opening text of a content -/

theorem eq_lineFeed_append {content : String} {more : List Char}
    (h : content.toList = '\n' :: more) : content = "\n" ++ .ofList more :=
  String.toList_inj.1 (by simp [h])

/-- A line feed at the start is taken off, together with a text that has nothing else in it. -/
theorem trimFragment_lineFeed (label : ι) (content : String) (rest : Forest ι) :
    trimFragment (.leaf label .text ("\n" ++ content) rest) =
      if content = "" then (rest, .leaf label .text "" .nil)
      else (.leaf label .text content rest, .nil) := by
  by_cases hempty : content = ""
  · subst hempty
    simp [trimFragment]
  · obtain ⟨c, more, hcontent⟩ := List.exists_cons_of_ne_nil
      (mt String.toList_eq_nil_iff.1 hempty)
    have hback : String.ofList (c :: more) = content := String.toList_inj.1 (by simp [hcontent])
    simp [trimFragment, hcontent, hempty, hback]

theorem trimFragment_other {f : Forest ι}
    (h : ∀ label content rest, f ≠ .leaf label .text ("\n" ++ content) rest) :
    trimFragment f = (f, .nil) := by
  rw [trimFragment.eq_def]
  split
  · next label content rest =>
      have hother : ∀ more, content.toList ≠ '\n' :: more := fun more hcontent =>
        h label (.ofList more) rest (by rw [eq_lineFeed_append hcontent])
      split
      · next hcontent => exact absurd hcontent (hother _)
      · next hcontent => exact absurd hcontent (hother _)
      · rfl
  · rfl

/-- A branch may have more children. -/
theorem Tree.Branch.allowsChildren {t : Tree} {x : NodeId} {children : Forest NodeId}
    (h : t.Branch x children) (ht : t.Accounted) : t.allowsChildren x = true := by
  cases h with
  | document => rfl
  | @element e he =>
      have hfind : t.find? e.label = some (.element e) := by
        rw [Tree.find?, Forest.find?_of_mem_elements ht.nodup_content he, Option.some_or]
      simp [Tree.allowsChildren, hfind]

theorem Tree.Branch.of_content {t u : Tree} {x : NodeId} {children : Forest NodeId}
    (h : t.Branch x children) (hcontent : t.content = u.content) : u.Branch x children := by
  cases h with
  | document => exact hcontent ▸ .document
  | element he => exact .element (hcontent ▸ he)

namespace Tree.Accounted

variable {t : Tree}

/-! ### The content of a patch -/

/-- What is imported: the pieces that are left to be put into place stand behind what was dropped
and before the loose pieces that were there. -/
theorem importTrimmed_spec (ht : t.Accounted) (body : Forest ι) :
    ∃ F D, ∃ n, t.importFragment body = (F, ⟨t.content, D ++ t.loose, n⟩) ∧
      t.importTrimmed body = (F.roots, ⟨t.content, D ++ (F ++ t.loose), n⟩) ∧
      (t.importTrimmed body).2.Accounted := by
  have hacc := ht.importEach body
  rw [Tree.importTrimmed, importFragment]
  simp only [Tree.importEach] at hacc ⊢
  generalize body.numberEach t.size = numbered at hacc ⊢
  obtain ⟨copies, n⟩ := numbered
  by_cases hfeed : ∃ label content rest, copies = .leaf label .text ("\n" ++ content) rest
  · obtain ⟨label, content, rest, rfl⟩ := hfeed
    have htext :
        (⟨t.content, .leaf label .text ("\n" ++ content) (rest ++ t.loose), n⟩ : Tree).setText
          label content = ⟨t.content, .leaf label .text content (rest ++ t.loose), n⟩ :=
      hacc.setText_first rfl content
    have hacc' := hacc.setText label content
    rw [trimFragment_lineFeed]
    by_cases hempty : content = ""
    · subst hempty
      refine ⟨rest, .leaf label .text "" .nil, n, rfl, ?_, by simpa using hacc'⟩
      simpa using htext
    · refine ⟨.leaf label .text content rest, .nil, n, by simp [hempty], ?_, by simpa using hacc'⟩
      simpa [hempty, Forest.roots] using htext
  · have hother : ∀ label content rest, copies ≠ .leaf label .text ("\n" ++ content) rest :=
      fun label content rest heq => hfeed ⟨label, content, rest, heq⟩
    rw [trimFragment_other hother]
    refine ⟨copies, .nil, n, rfl, ?_⟩
    split
    · next label content rest heq =>
        split
        · next more hcontent =>
            rw [eq_lineFeed_append hcontent] at heq
            exact absurd heq (hother label _ rest)
        · exact ⟨rfl, hacc⟩
    · exact ⟨rfl, hacc⟩

theorem content_extend (t : Tree) (parent : NodeId) (piece : Forest NodeId) :
    (t.extend parent piece).content =
      if parent = root then t.content ++ piece
      else t.content.splice parent (appendBelow piece) := by
  rw [extend]
  split <;> rfl

/-! ### Attributes one by one -/

/-- Setting attributes one by one sets all of them. -/
theorem setEachAttribute_eq (t : Tree) (target : NodeId) (elements : List (Element ι)) :
    t.setEachAttribute target elements =
      (if elements.any fun e => (e.attr? "name").isNone then some .attributeWithoutName else none,
        t.mapAttributes target fun a => (settingsOf elements).foldl Attributes.reset a) := by
  induction elements generalizing t with
  | nil => exact congrArg _ (mapAttributes_id t target).symm
  | cons e more ih =>
      rw [Tree.setEachAttribute, settingsOf]
      cases hname : e.attr? "name" with
      | none =>
          refine Prod.ext ?_ (mapAttributes_id t target).symm
          simp [hname]
      | some name =>
          refine (ih _).trans ?_
          rw [Tree.removeAttribute, Tree.setAttribute, mapAttributes_mapAttributes,
            mapAttributes_mapAttributes]
          simp [hname, Attributes.reset]

end Tree.Accounted

/-! ### A patch -/

namespace PatchSpec

variable {t : Tree} {target : NodeId} {s : PatchSpec}

theorem targetIn_eq_ok_iff : s.targetIn t = .ok target ↔
    s.locator.first? t = some target ∧
      (s.position.needsParent = true → t.parent? target ≠ none) := by
  rw [targetIn]
  cases hfirst : s.locator.first? t with
  | none => simp
  | some found =>
      simp only [Option.some.injEq]
      split
      · next hdetached =>
          rw [Bool.and_eq_true, Option.isNone_iff_eq_none] at hdetached
          simp only [reduceCtorEq, false_iff, not_and, not_forall, not_not]
          rintro rfl
          exact ⟨hdetached.1, hdetached.2⟩
      · next hattached =>
          rw [Bool.and_eq_true, Option.isNone_iff_eq_none, not_and] at hattached
          rw [Except.ok.injEq]
          exact ⟨fun h => ⟨h, h ▸ hattached⟩, fun h => h.1⟩

/-- A target is the document or an element in it. -/
theorem branch_of_targetIn (ht : t.Accounted) (h : s.targetIn t = .ok target) :
    ∃ children, t.Branch target children :=
  s.locator.branches_select ht target (List.mem_of_mem_head? (targetIn_eq_ok_iff.1 h).1)

/-- Where a parent is needed the target is an element. -/
theorem mem_content_of_targetIn (ht : t.Accounted) (h : s.targetIn t = .ok target)
    (hposition : s.position.needsParent = true) : target ∈ t.content.labels := by
  obtain ⟨children, hbranch⟩ := branch_of_targetIn ht h
  refine (List.mem_cons.1 hbranch.mem_nodes).resolve_left ?_
  intro hroot
  exact (targetIn_eq_ok_iff.1 h).2 hposition ((hbranch.parent?_eq_none_iff ht).2 hroot)

/-- **No edit of a patch is refused**, and the edits do what the patch does as a whole, errors
included. -/
theorem perform_eq (ht : t.Accounted) (s : PatchSpec) :
    s.perform t = .ok (s.applyTo t) ∧ (s.applyTo t).2.Accounted := by
  rw [perform, applyTo]
  cases htarget : s.targetIn t with
  | error e => exact ⟨rfl, ht⟩
  | ok target =>
      obtain ⟨F, D, n, hfragment, htrimmed, hacc⟩ := ht.importTrimmed_spec s.body
      rw [htrimmed] at hacc
      obtain ⟨children, hbranch⟩ := branch_of_targetIn ht htarget
      have hloose : target ∉ (D ++ t.loose).labels := by
        intro hmem
        refine hacc.not_mem_nodes (x := target) ?_ hbranch.mem_nodes
        simp only [Forest.labels_append, List.mem_append] at hmem ⊢
        tauto
      cases hposition : s.position with
      | before =>
          have hmem := mem_content_of_targetIn ht htarget (by rw [hposition]; rfl)
          obtain ⟨t', hinsert, hacc', rfl⟩ := hacc.insertEachBefore_loose rfl hmem
          have hpatch : t.patchAt target .before s.body =
              ⟨t.content.splice target fun n => F ++ .single n, D ++ t.loose, n⟩ := by
            simp only [Tree.patchAt, hfragment, Tree.replace, Forest.splice_of_not_mem hloose]
          simp only [hpatch, htrimmed, hinsert, lacksName, hposition]
          exact ⟨rfl, hacc'⟩
      | after =>
          have hmem := mem_content_of_targetIn ht htarget (by rw [hposition]; rfl)
          obtain ⟨t', hinsert, hacc', rfl⟩ := hacc.insertEachAfter_loose rfl hmem
          have hpatch : t.patchAt target .after s.body =
              ⟨t.content.splice target fun n => .single n ++ F, D ++ t.loose, n⟩ := by
            simp only [Tree.patchAt, hfragment, Tree.replace, Forest.splice_of_not_mem hloose]
          simp only [hpatch, htrimmed, hinsert, lacksName, hposition]
          exact ⟨rfl, hacc'⟩
      | replace =>
          have hmem := mem_content_of_targetIn ht htarget (by rw [hposition]; rfl)
          obtain ⟨m, hm⟩ := Forest.exists_find?_iff.2 hmem
          obtain ⟨t', hinsert, hacc', hdetach⟩ := hacc.insertEachBefore_detach rfl hm
          have hpatch : t.patchAt target .replace s.body =
              ⟨t.content.splice target fun _ => F, .single m ++ (D ++ t.loose), n⟩ := by
            simp only [Tree.patchAt, hfragment, Tree.replace, Forest.splice_of_not_mem hloose,
              Tree.find?, hm, Option.some_or, Option.map_some, Option.getD_some]
          simp only [hpatch, htrimmed, hinsert, lacksName, hposition, Except.map, hdetach]
          exact ⟨rfl, hdetach ▸ hacc'⟩
      | inside =>
          have hallows : Tree.allowsChildren ⟨t.content, D ++ (F ++ t.loose), n⟩ target = true :=
            Tree.Branch.allowsChildren (hbranch.of_content rfl) hacc
          obtain ⟨t', hinsert, hacc', rfl⟩ :=
            hacc.appendEach_loose rfl hbranch.mem_nodes hallows
          have hpatch : t.patchAt target .inside s.body =
              ⟨Tree.grown target t.content F, D ++ t.loose, n⟩ := by
            simp only [Tree.patchAt, hfragment, Tree.extend, Tree.grown]
            split
            · rfl
            · simp only [Tree.replace, Forest.splice_of_not_mem hloose]
          simp only [hpatch, htrimmed, hinsert, lacksName, hposition]
          exact ⟨rfl, hacc'⟩
      | attributes =>
          refine ⟨?_, ht.mapAttributes target _⟩
          simp only [Tree.Accounted.setEachAttribute_eq, lacksName, hposition, Tree.patchAt,
            attributeSettings]
          simp

end PatchSpec

end ViewCompiler
