/-
**What a copy keeps, and what depends on a document by its copy.**

A node that is copied to another tree comes as a loose piece with numbers that were not handed out
before, so no record of that tree changes.  A copy of a document is numbered afresh, in an order
that its structure determines.  Patching and lowering begin with such a copy: whatever they answer,
they answer it for every document of the same structure.

Main definitions:

* `ViewCompiler.Tree.CopiesExactly` — what copying from one tree to another, and copying a
  document, has to give.

Main results:

* `ViewCompiler.Tree.Accounted.record?_importNode` — a copy leaves the records alone;
* `ViewCompiler.lower_plain`, `ViewCompiler.applyPatches_plain` — lowering and patching depend on
  structure alone;
* `ViewCompiler.Tree.Accounted.copiesExactly` — **copies are exact**.
-/

import ViewCompiler.Inheritance.Patch
import ViewCompiler.Proofs.Markup.Copying
import ViewCompiler.Template.Compiler

set_option relaxedAutoImplicit false
set_option autoImplicit false

namespace ViewCompiler

variable {ι : Type}

theorem Forest.length_labels (f : Forest ι) : f.labels.length = f.size := by
  induction f with
  | nil => rfl
  | element label name attributes children rest ihc ihr =>
      rw [labels, size, List.length_cons, List.length_append, ihc, ihr]
  | leaf label kind content rest ih => rw [labels, size, List.length_cons, ih]

/-! ### Structure alone -/

/-- A document is numbered by its structure. -/
theorem Tree.ofPlain_plain (f : Forest ι) : Tree.ofPlain f.plain = Tree.ofPlain f := by
  rw [ofPlain, ofPlain, Forest.numberEach_plain]

theorem lower_plain (o : CompilerOptions) (hook : FieldHook) (f : Forest ι) :
    lower o hook f.plain = lower o hook f := by
  rw [lower, lower, Forest.numberEach_plain, Forest.size_plain]

theorem Tree.lower_congr {t u : Tree} (h : t.plain = u.plain) (o : CompilerOptions)
    (hook : FieldHook) : lower o hook t.content = lower o hook u.content := by
  rw [← lower_plain, ← lower_plain o hook u.content]
  exact congrArg (lower o hook) h

theorem applyPatches_plain (f : Forest ι) (specs : List PatchSpec) :
    applyPatches f.plain specs = applyPatches f specs := by
  rw [applyPatches, applyPatches, Tree.ofPlain_plain]

namespace Tree

variable {t u : Tree} {id : NodeId} {n : Node NodeId}

/-! ### Copies of nodes -/

/-- A copy is a loose piece of the same structure: its node has the next number, and all that is
below it has numbers that come next. -/
theorem exists_importNode (t : Tree) (n : Node NodeId) :
    ∃ m : Node NodeId, m.label = t.size ∧ (Forest.single m).plain = (Forest.single n).plain ∧
      (∀ x ∈ (Forest.single m).labels, t.size ≤ x) ∧
      (t.importNode n).2 = ⟨t.content, .single m ++ t.loose, t.size + (Forest.single n).size⟩ := by
  have hlabels := (Forest.single n).labels_numberEach t.size
  have hplain := (Forest.single n).plain_numberEach t.size
  have hnext := (Forest.single n).numberEach_next t.size
  obtain ⟨m, hm, hsingle⟩ : ∃ m : Node NodeId, m.label = t.size ∧
      ((Forest.single n).numberEach t.size).1 = .single m := by
    cases n with
    | element e => exact ⟨.element ⟨t.size, _, _, _⟩, rfl, rfl⟩
    | leaf label kind content => exact ⟨.leaf t.size kind content, rfl, rfl⟩
  rw [hsingle] at hlabels hplain
  refine ⟨m, hm, hplain, fun x hx => ?_, ?_⟩
  · exact (List.mem_range'_1.1 (hlabels.mem_iff.1 hx)).1
  · have hcopy : (Forest.single n).numberEach t.size =
        (.single m, t.size + (Forest.single n).size) := Prod.ext hsingle hnext
    rw [importNode, importEach, hcopy]

/-- A copy adds rows that neither are about the nodes that were there nor name any of them. -/
theorem exists_records_importNode (t : Tree) (n : Node NodeId) :
    ∃ rows, (t.importNode n).2.whole.records.Perm (rows ++ t.whole.records) ∧
      ∀ row ∈ rows, t.size ≤ row.1 ∧ ∀ x ∈ row.2.children, t.size ≤ x := by
  obtain ⟨m, -, -, hnew, hcopy⟩ := t.exists_importNode n
  refine ⟨(Forest.single m).records, ?_, fun row hrow => ⟨?_, fun x hx => ?_⟩⟩
  · rw [hcopy]
    exact Accounted.records_addLoose t (.single m)
  · exact hnew _ (Forest.mem_labels_of_mem_records hrow)
  · exact hnew _ (Forest.mem_labels_of_mem_children hrow hx)

namespace Accounted

/-- A copy leaves the records of the nodes that were there alone. -/
theorem record?_importNode (ht : t.Accounted) (n : Node NodeId) (hid : id < t.size) :
    (t.importNode n).2.record? id = t.record? id := by
  obtain ⟨rows, hrows, hnew⟩ := t.exists_records_importNode n
  refine Option.ext fun r => ?_
  rw [(ht.importNode n).record?_eq_some_iff, ht.record?_eq_some_iff, hrows.mem_iff,
    List.mem_append]
  exact or_iff_right fun hmem => absurd (hnew _ hmem).1 (Nat.not_le.2 hid)

theorem parent?_importNode (ht : t.Accounted) (n : Node NodeId) (hid : id < t.size) :
    (t.importNode n).2.parent? id = t.parent? id := by
  obtain ⟨rows, hrows, hnew⟩ := t.exists_records_importNode n
  refine Option.ext fun parent => ?_
  rw [(ht.importNode n).parent?_eq_some_iff, ht.parent?_eq_some_iff,
    (ht.importNode n).mem_roots_children_iff, ht.mem_roots_children_iff]
  refine exists_congr fun r => and_congr_left fun hchild => ?_
  rw [hrows.mem_iff, List.mem_append]
  exact or_iff_right fun hmem => absurd ((hnew _ hmem).2 _ hchild) (Nat.not_le.2 hid)

/-- The copy is not part of anything yet. -/
theorem parent?_copy (ht : t.Accounted) (n : Node NodeId) :
    (t.importNode n).2.parent? t.size = none := by
  obtain ⟨m, hm, -, -, hcopy⟩ := t.exists_importNode n
  refine (ht.importNode n).parent?_eq_none_of_mem_roots ?_
  rw [hcopy, whole, Forest.roots_append, Forest.roots_append, Forest.roots_single m, hm]
  exact List.mem_append_right _ (List.mem_append_left _ List.mem_cons_self)

/-- The copy has the structure of what was copied. -/
theorem plain_subtree_copy (ht : t.Accounted) (n : Node NodeId) :
    ((t.importNode n).2.subtree t.size).plain = (Forest.single n).plain := by
  obtain ⟨m, hm, hplain, -, hcopy⟩ := t.exists_importNode n
  have hfind : (t.importNode n).2.find? t.size = some m := by
    have hcontent := (ht.not_mem_of_size_le (Nat.le_refl _)).1
    rw [hcopy, find?, Forest.find?_eq_none_iff.2 hcontent, Option.none_or, ← hm,
      Forest.find?_append, Forest.find?_single_self, Option.some_or]
  rw [subtree_of_find? (Nat.ne_of_gt ht.root_lt_size) hfind, hplain]

theorem size_single (hu : u.Accounted) (hn : u.find? id = some n) :
    (Forest.single n).size = (id :: u.descendants id).length := by
  obtain ⟨hroot, hid⟩ := hu.lt_size_of_find? hn
  rw [← Forest.length_labels, Forest.labels_single, hu.descendants_eq hid,
    children_of_find? hroot hn, List.length_cons, List.length_cons]

end Accounted

/-- What copying a node of `u` to `t` has to give, and copying the documents of both. -/
structure CopiesExactly (t u : Tree) : Prop where
  /-- The copy has the number that comes next. -/
  fresh : ∀ id, (t.importSubtree u id).1 = t.size
  detached : ∀ id ≠ root, id < u.size → (t.importSubtree u id).2.parent? t.size = none
  subtree_plain : ∀ id ≠ root, id < u.size →
    ((t.importSubtree u id).2.subtree t.size).plain = (u.subtree id).plain
  /-- There is one node more for every node that was copied. -/
  size_eq : ∀ id ≠ root, id < u.size →
    (t.importSubtree u id).2.size = t.size + (id :: u.descendants id).length
  accounted : ∀ id ≠ root, id < u.size → (t.importSubtree u id).2.Accounted
  /-- The records of the nodes that were there stay as they are. -/
  kept : ∀ id ≠ root, id < u.size → ∀ x < t.size,
    (t.importSubtree u id).2.record? x = t.record? x ∧
      (t.importSubtree u id).2.parent? x = t.parent? x
  copyDocument_plain : t.copyDocument.plain = t.plain
  /-- A copy has the document's node and those that are reached from it. -/
  copyDocument_size : t.copyDocument.size = (root :: t.descendants root).length
  /-- The structure determines the copy, numbers included. -/
  copyDocument_eq : t.plain = u.plain → t.copyDocument = u.copyDocument
  copyDocument_copyDocument : t.copyDocument.copyDocument = t.copyDocument
  /-- Lowering a document is lowering its copy. -/
  lower_copy : ∀ o hook, lower o hook t.content = lower o hook t.copyDocument.content
  lower_eq : t.plain = u.plain → ∀ o hook, lower o hook t.content = lower o hook u.content
  /-- Patches are applied to the copy. -/
  applyPatches_copy : ∀ specs,
    applyPatches t.content specs = PatchSpec.applyAll specs t.copyDocument
  applyPatches_eq : t.plain = u.plain → ∀ specs,
    applyPatches t.content specs = applyPatches u.content specs

namespace Accounted

theorem plain_copyDocument (ht : t.Accounted) : t.copyDocument.plain = t.plain := by
  rw [ht.copyDocument_eq]
  exact t.content.plain_numberEach 1

theorem copyDocument_congr (ht : t.Accounted) (hu : u.Accounted) (h : t.plain = u.plain) :
    t.copyDocument = u.copyDocument := by
  rw [ht.copyDocument_eq, hu.copyDocument_eq, compacted, compacted, ← ofPlain_plain t.content,
    ← ofPlain_plain u.content]
  exact congrArg ofPlain h

/-- **Copies are exact.** -/
theorem copiesExactly (ht : t.Accounted) (hu : u.Accounted) : t.CopiesExactly u := by
  -- what is copied is a node of the other tree
  have hcopy : ∀ id ≠ root, id < u.size →
      ∃ n, u.find? id = some n ∧ (t.importSubtree u id).2 = (t.importNode n).2 := by
    intro id hroot hid
    obtain ⟨n, hn⟩ := hu.exists_find? hroot hid
    exact ⟨n, hn, congrArg Prod.snd (ht.importSubtree_eq hu hn)⟩
  have hcopied : t.copyDocument.Accounted := by
    rw [ht.copyDocument_eq]
    exact accounted_ofPlain t.content
  refine ⟨fun _ => rfl, ?_, ?_, ?_, ?_, ?_, ht.plain_copyDocument, ?_, ht.copyDocument_congr hu,
    hcopied.copyDocument_congr ht ht.plain_copyDocument,
    lower_congr ht.plain_copyDocument.symm, lower_congr, ?_, ?_⟩
  · intro id hroot hid
    obtain ⟨n, -, heq⟩ := hcopy id hroot hid
    rw [heq]
    exact ht.parent?_copy n
  · intro id hroot hid
    obtain ⟨n, hn, heq⟩ := hcopy id hroot hid
    rw [heq, ht.plain_subtree_copy, subtree_of_find? hroot hn]
  · intro id hroot hid
    obtain ⟨n, hn, heq⟩ := hcopy id hroot hid
    obtain ⟨m, -, -, -, hsize⟩ := t.exists_importNode n
    rw [heq, hsize, hu.size_single hn]
  · intro id hroot hid
    obtain ⟨n, -, heq⟩ := hcopy id hroot hid
    rw [heq]
    exact ht.importNode n
  · intro id hroot hid x hx
    obtain ⟨n, -, heq⟩ := hcopy id hroot hid
    rw [heq]
    exact ⟨ht.record?_importNode n hx, ht.parent?_importNode n hx⟩
  · rw [ht.copyDocument_eq, ht.descendants_eq ht.root_lt_size, List.length_cons]
    exact (t.content.numberEach_next 1).trans
      ((Nat.add_comm _ _).trans (congrArg (· + 1) t.content.length_labels.symm))
  · intro specs
    rw [ht.copyDocument_eq]
    rfl
  · intro h specs
    rw [← applyPatches_plain, ← applyPatches_plain u.content]
    exact congrArg (applyPatches · specs) h

end Accounted

/-- A document of an element with two leaves, numbered out of order, and a loose piece. -/
def shuffled : Tree where
  content := .element 4 "p" [] (.leaf 2 .text "a" (.leaf 5 .comment "b" .nil)) .nil
  loose := .element 1 "q" [] (.leaf 3 .text "c" .nil) .nil
  size := 6

theorem shuffled_copiesExactly :
    shuffled.CopiesExactly shuffled ∧
      (shuffled.importSubtree shuffled 4).2.loose =
        .element 6 "p" [] (.leaf 7 .text "a" (.leaf 8 .comment "b" .nil)) shuffled.loose ∧
      shuffled.copyDocument =
        ⟨.element 1 "p" [] (.leaf 2 .text "a" (.leaf 3 .comment "b" .nil)) .nil, .nil, 4⟩ := by
  have ht : shuffled.Accounted := by
    rw [Accounted]
    decide
  exact ⟨ht.copiesExactly ht, by decide +kernel, by decide +kernel⟩

end Tree

end ViewCompiler
