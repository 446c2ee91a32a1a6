/-
**Loose pieces put into place.**

A piece that is loose may be put below every node of the document that can have children, and beside
every node that has a parent.  Neither is ever refused, and what comes out is the document with the
piece at its place.  Several pieces are put into place one by one.

Main definitions:

* `ViewCompiler.Tree.insertEachBefore`, `ViewCompiler.Tree.insertEachAfter`,
  `ViewCompiler.Tree.appendEach` — putting several pieces into place;
* `ViewCompiler.Tree.grown` — a document with more children below one node.

Main results:

* `ViewCompiler.Tree.Accounted.insertBeside_loose`,
  `ViewCompiler.Tree.Accounted.appendChild_loose` — a piece is put into place;
* `ViewCompiler.Tree.Accounted.insertEachBefore_loose`,
  `ViewCompiler.Tree.Accounted.insertEachAfter_loose`,
  `ViewCompiler.Tree.Accounted.appendEach_loose` — several pieces are put into place;
* `ViewCompiler.Tree.Accounted.insertEachBefore_detach` — several pieces take the place of a node.
-/

import ViewCompiler.Proofs.Markup.Placement
import ViewCompiler.Proofs.Markup.Surroundings

set_option relaxedAutoImplicit false
set_option autoImplicit false

namespace ViewCompiler

variable {ι : Type}

namespace Forest

/-! ### Siblings one by one -/

/-- Forests are built by putting siblings in front. -/
theorem siblings_induction {P : Forest ι → Prop} (nil : P nil)
    (cons : ∀ n rest, P rest → P (single n ++ rest)) (f : Forest ι) : P f := by
  induction f with
  | nil => exact nil
  | element label name attributes children rest _ ih =>
      exact cons (.element ⟨label, name, attributes, children⟩) rest ih
  | leaf label kind content rest ih => exact cons (.leaf label kind content) rest ih

theorem label_mem_single (n : Node ι) : n.label ∈ (single n).labels := by
  rw [labels_single]
  exact List.mem_cons_self

variable [DecidableEq ι] {f g : Forest ι} {x y : ι}

theorem find?_append : (f ++ g).find? x = (f.find? x).or (g.find? x) := by
  induction f with
  | nil => rfl
  | element l name attributes children rest _ ih =>
      rw [element_append, find?, find?, ih]
      split
      · rfl
      · rw [Option.or_assoc]
  | leaf l kind content rest ih =>
      rw [leaf_append, find?, find?, ih]
      split <;> rfl

@[simp] theorem find?_single_self (n : Node ι) : (single n).find? n.label = some n := by
  cases n <;> exact if_pos rfl

/-- What is put in the place of a node is there. -/
theorem mem_labels_splice (hx : x ∈ f.labels) {h : Node ι → Forest ι}
    (hh : ∀ n, n.label = x → y ∈ (h n).labels) : y ∈ (f.splice x h).labels := by
  induction f with
  | nil => cases hx
  | element l name attributes children rest ihc ihr =>
      rw [splice]
      split
      · next heq =>
          rw [labels_append]
          exact List.mem_append_left _ (hh (.element ⟨l, name, attributes, children⟩) heq)
      · next hne =>
          rcases List.mem_cons.1 hx with rfl | hx
          · exact absurd rfl hne
          · exact List.mem_cons_of_mem _ (List.mem_append.2 ((List.mem_append.1 hx).imp ihc ihr))
  | leaf l kind content rest ih =>
      rw [splice]
      split
      · next heq =>
          rw [labels_append]
          exact List.mem_append_left _ (hh (.leaf l kind content) heq)
      · next hne =>
          rcases List.mem_cons.1 hx with rfl | hx
          · exact absurd rfl hne
          · exact List.mem_cons_of_mem _ (ih hx)

/-- The node is found in what was put in its place, if it is found in that. -/
theorem find?_splice_self {h : Node ι → Forest ι} (hh : ∀ n, n.label = x → (h n).find? x = some n) :
    (f.splice x h).find? x = f.find? x := by
  induction f with
  | nil => rfl
  | element l name attributes children rest ihc ihr =>
      rw [splice, find?]
      split
      · next heq =>
          rw [find?_append, hh (.element ⟨l, name, attributes, children⟩) heq, Option.some_or]
      · next hne => rw [find?, if_neg hne, ihc, ihr]
  | leaf l kind content rest ih =>
      rw [splice, find?]
      split
      · next heq => rw [find?_append, hh (.leaf l kind content) heq, Option.some_or]
      · next hne => rw [find?, if_neg hne, ih]

end Forest

namespace Tree

/-! ### Several edits -/

/-- Puts loose pieces just before `reference`, one by one. -/
def insertEachBefore (reference : NodeId) : List NodeId → Tree → Except TreeError Tree
  | [], t => .ok t
  | id :: more, t => (t.insertBefore reference id).bind (insertEachBefore reference more)

/-- Puts loose pieces behind `anchor`, each just behind the one before. -/
def insertEachAfter (anchor : NodeId) : List NodeId → Tree → Except TreeError Tree
  | [], t => .ok t
  | id :: more, t => (t.insertAfter anchor id).bind (insertEachAfter id more)

/-- Makes loose pieces the last children of `parent`, one by one. -/
def appendEach (parent : NodeId) : List NodeId → Tree → Except TreeError Tree
  | [], t => .ok t
  | id :: more, t => (t.appendChild parent id).bind (appendEach parent more)

/-- A document with more children at the end of what is below `parent`. -/
def grown (parent : NodeId) (content piece : Forest NodeId) : Forest NodeId :=
  if parent = root then content ++ piece else content.splice parent (appendBelow piece)

namespace Accounted

variable {t t' : Tree} {D E F : Forest NodeId} {m : Node NodeId} {reference parent x : NodeId}

/-! ### One piece -/

/-- Every node of the document has a parent there. -/
theorem exists_parent (ht : t.Accounted) (hx : x ∈ t.content.labels) :
    ∃ parent ∈ root :: t.content.labels, t.parent? x = some parent := by
  rcases List.mem_append.1 (t.content.labels_perm.mem_iff.1 hx) with hroots | hchild
  · exact ⟨root, List.mem_cons_self, if_pos hroots⟩
  · obtain ⟨row, hrow, hmem⟩ := List.mem_flatMap.1 hchild
    refine ⟨row.1, List.mem_cons_of_mem _ (Forest.mem_labels_of_mem_records hrow), ?_⟩
    rw [ht.parent?_eq_some_iff, ht.mem_roots_children_iff, records_whole]
    exact ⟨row.2, List.mem_cons_of_mem _ (List.mem_append_left _ hrow), hmem⟩

/-- The numbers in the loose pieces, one piece taken out. -/
theorem nodup_loose (ht : t.Accounted) (hloose : t.loose = D ++ (.single m ++ E)) :
    m.label ∈ t.loose.labels ∧ m.label ∉ D.labels ∧ m.label ∉ E.labels := by
  have hnodup : t.loose.labels.Nodup := (List.nodup_append.1 (List.nodup_cons.1 ht.nodup).2).2.1
  rw [hloose, Forest.labels_append, Forest.labels_append, Forest.labels_single] at hnodup
  obtain ⟨-, hpiece, hdisjoint⟩ := List.nodup_append.1 hnodup
  refine ⟨?_, fun hmem => ?_, fun hmem => ?_⟩
  · rw [hloose, Forest.labels_append, Forest.labels_append]
    exact List.mem_append_right _ (List.mem_append_left _ (Forest.label_mem_single m))
  · exact hdisjoint _ hmem _ (List.mem_append_left _ List.mem_cons_self) rfl
  · exact (List.nodup_append.1 hpiece).2.2 _ List.mem_cons_self _ hmem rfl

theorem find?_loose (ht : t.Accounted) (hloose : t.loose = D ++ (.single m ++ E)) :
    t.loose.find? m.label = some m := by
  obtain ⟨-, hD, -⟩ := ht.nodup_loose hloose
  rw [hloose, Forest.find?_append, Forest.find?_append, Forest.find?_eq_none_iff.2 hD,
    Forest.find?_single_self, Option.none_or, Option.some_or]

theorem takeLoose_eq (ht : t.Accounted) (hloose : t.loose = D ++ (.single m ++ E)) :
    t.takeLoose m.label = (.single m, { t with loose := D ++ E }) := by
  obtain ⟨-, hD, hE⟩ := ht.nodup_loose hloose
  rw [takeLoose, ht.find?_loose hloose, hloose, Forest.remove, Forest.splice_append,
    Forest.splice_append, Forest.splice_of_not_mem hD, Forest.splice_of_not_mem hE,
    Forest.splice_single_self]
  rfl

/-- A loose piece may be put below every node outside of it that can have children. -/
theorem checkInsert_outside (ht : t.Accounted) (hloose : t.loose = D ++ (.single m ++ E))
    (hparent : parent ∉ (Forest.single m).labels) (hallows : t.allowsChildren parent = true) :
    t.checkInsert parent m.label = .ok () := by
  obtain ⟨hmem, hD, hE⟩ := ht.nodup_loose hloose
  have hfind := ht.find?_loose hloose
  have hne : m.label ≠ root := fun heq => ht.not_mem_loose.2 (heq ▸ hmem)
  have hcontent : m.label ∉ t.content.labels := fun h =>
    ht.not_mem_nodes hmem (List.mem_cons_of_mem _ h)
  have hroots : m.label ∈ t.whole.roots := by
    have hroot : m.label ∈ t.loose.roots := by
      rw [hloose, Forest.roots_append, Forest.roots_append, Forest.roots_single]
      simp
    exact List.mem_cons_of_mem _ hroot
  have hfree := ht.parent?_eq_none_of_mem_roots hroots
  have hbelow : t.isAncestorOrSelf m.label parent = false := by
    rw [Bool.eq_false_iff, Ne, isAncestorOrSelf_eq_true, not_or]
    rw [Forest.labels_single, List.mem_cons, not_or] at hparent
    refine ⟨hparent.1, fun hin => hparent.2 ?_⟩
    rwa [children_eq, t.find?_whole hne, find?, Forest.find?_eq_none_iff.2 hcontent, hfind,
      Option.none_or] at hin
  simp [checkInsert, hallows, hfree, hne, hbelow]

/-- A loose piece may be put below every node of the document that can have children. -/
theorem checkInsert_loose (ht : t.Accounted) (hloose : t.loose = D ++ (.single m ++ E))
    (hparent : parent ∈ root :: t.content.labels) (hallows : t.allowsChildren parent = true) :
    t.checkInsert parent m.label = .ok () := by
  refine ht.checkInsert_outside hloose (fun hmem => ht.not_mem_nodes ?_ hparent) hallows
  rw [hloose, Forest.labels_append, Forest.labels_append]
  exact List.mem_append_right _ (List.mem_append_left _ hmem)

/-- **A loose piece is put beside a node of the document.** -/
theorem insertBeside_loose (ht : t.Accounted) (hloose : t.loose = D ++ (.single m ++ E))
    (hreference : reference ∈ t.content.labels)
    (g : Forest NodeId → Forest NodeId → Forest NodeId) :
    t.insertBeside reference m.label g =
      .ok ⟨t.content.splice reference fun n => g (.single m) (.single n), D ++ E, t.size⟩ := by
  obtain ⟨parent, hparent, hfound⟩ := ht.exists_parent hreference
  have hallows : t.allowsChildren parent = true :=
    t.allowsChildren_of_roots_children
      (List.ne_nil_of_mem (ht.parent?_eq_some_iff.1 hfound))
  have hrest : reference ∉ (D ++ E).labels := by
    intro hmem
    refine ht.not_mem_nodes (x := reference) ?_ (List.mem_cons_of_mem _ hreference)
    simp only [hloose, Forest.labels_append, List.mem_append] at hmem ⊢
    tauto
  rw [insertBeside, hfound]
  simp only [ht.checkInsert_loose hloose hparent hallows, ht.takeLoose_eq hloose, Tree.replace,
    Forest.splice_of_not_mem hrest]

/-- **A loose piece becomes the last child of the document or of an element in it.** -/
theorem appendChild_loose (ht : t.Accounted) (hloose : t.loose = D ++ (.single m ++ E))
    (hparent : parent ∈ root :: t.content.labels) (hallows : t.allowsChildren parent = true) :
    t.appendChild parent m.label =
      .ok ⟨grown parent t.content (.single m), D ++ E, t.size⟩ := by
  have hrest : parent ∉ (D ++ E).labels := by
    intro hmem
    refine ht.not_mem_nodes (x := parent) ?_ hparent
    simp only [hloose, Forest.labels_append, List.mem_append] at hmem ⊢
    tauto
  rw [Tree.appendChild, grown]
  simp only [ht.checkInsert_loose hloose hparent hallows, ht.takeLoose_eq hloose]
  split
  · rfl
  · simp only [Tree.replace, Forest.splice_of_not_mem hrest]

/-! ### Several pieces -/

theorem lt_size_loose (ht : t.Accounted) (hloose : t.loose = D ++ (.single m ++ E)) :
    m.label < t.size := by
  rw [← ht.mem_labels_iff]
  exact List.mem_cons_of_mem _ (List.mem_append_right _ (ht.nodup_loose hloose).1)

/-- **Loose pieces are put before a node of the document.** -/
theorem insertEachBefore_loose (ht : t.Accounted) (hloose : t.loose = D ++ (F ++ E))
    (hreference : reference ∈ t.content.labels) :
    ∃ t', t.insertEachBefore reference F.roots = .ok t' ∧ t'.Accounted ∧
      t' = ⟨t.content.splice reference fun n => F ++ .single n, D ++ E, t.size⟩ := by
  induction F using Forest.siblings_induction generalizing t with
  | nil =>
      refine ⟨t, rfl, ht, ?_⟩
      rw [Forest.splice_self fun n _ => Forest.nil_append _, ← Forest.nil_append E, ← hloose]
  | cons m rest ih =>
      rw [Forest.append_assoc] at hloose
      have hstep := ht.insertBeside_loose hloose hreference fun piece node => piece ++ node
      have ht' := (ht.placed_insertBefore (ht.lt_size_loose hloose) hstep).1
      have hne : reference ∉ (Forest.single m).labels := by
        intro hmem
        refine ht.not_mem_nodes (x := reference) ?_ (List.mem_cons_of_mem _ hreference)
        rw [hloose, Forest.labels_append, Forest.labels_append]
        exact List.mem_append_right _ (List.mem_append_left _ hmem)
      have hreference' : reference ∈
          (t.content.splice reference fun n => .single m ++ .single n).labels := by
        refine Forest.mem_labels_splice hreference fun n hn => ?_
        rw [Forest.labels_append, ← hn]
        exact List.mem_append_right _ (Forest.label_mem_single n)
      obtain ⟨t', hmore, hacc, rfl⟩ := ih ht' rfl hreference'
      refine ⟨_, ?_, hacc, ?_⟩
      · rw [Forest.roots_append, Forest.roots_single, List.singleton_append,
          Tree.insertEachBefore, Tree.insertBefore, hstep]
        exact hmore
      · rw [Forest.splice_splice]
        congr 1
        refine Forest.splice_congr fun n hn _ => ?_
        rw [Forest.splice_append, Forest.splice_of_not_mem hne, ← hn, Forest.splice_single_self,
          Forest.append_assoc]

/-- **Loose pieces are put behind a node of the document**, each behind the one before. -/
theorem insertEachAfter_loose (ht : t.Accounted) (hloose : t.loose = D ++ (F ++ E))
    (hreference : reference ∈ t.content.labels) :
    ∃ t', t.insertEachAfter reference F.roots = .ok t' ∧ t'.Accounted ∧
      t' = ⟨t.content.splice reference fun n => .single n ++ F, D ++ E, t.size⟩ := by
  induction F using Forest.siblings_induction generalizing t reference with
  | nil =>
      refine ⟨t, rfl, ht, ?_⟩
      rw [Forest.splice_self fun n _ => Forest.append_nil _, ← Forest.nil_append E, ← hloose]
  | cons m rest ih =>
      rw [Forest.append_assoc] at hloose
      have hstep := ht.insertBeside_loose hloose hreference fun piece node => node ++ piece
      have ht' := (ht.placed_insertAfter (ht.lt_size_loose hloose) hstep).1
      have hnew : m.label ∉ t.content.labels := fun hmem =>
        ht.not_mem_nodes (ht.nodup_loose hloose).1 (List.mem_cons_of_mem _ hmem)
      have hanchor : m.label ∈
          (t.content.splice reference fun n => .single n ++ .single m).labels := by
        refine Forest.mem_labels_splice hreference fun n _ => ?_
        rw [Forest.labels_append]
        exact List.mem_append_right _ (Forest.label_mem_single m)
      -- the next piece goes behind this one
      obtain ⟨t', hmore, hacc, rfl⟩ := ih ht' rfl hanchor
      refine ⟨_, ?_, hacc, ?_⟩
      · rw [Forest.roots_append, Forest.roots_single, List.singleton_append,
          Tree.insertEachAfter, Tree.insertAfter, hstep]
        exact hmore
      · rw [Forest.splice_splice_new hnew]
        congr 1
        refine Forest.splice_congr fun n _ hn => ?_
        rw [Forest.splice_append, Forest.splice_of_not_mem fun hmem => hnew (hn _ hmem),
          Forest.splice_single_self]

theorem grown_grown (parent : NodeId) (content f g : Forest NodeId) :
    grown parent (grown parent content f) g = grown parent content (f ++ g) := by
  have happend : ∀ m : Node NodeId, m.label = parent →
      (appendBelow f m).splice parent (appendBelow g) = appendBelow (f ++ g) m := by
    rintro (e | ⟨label, kind, content⟩) rfl
    · simp [appendBelow, Forest.splice, Node.label, Forest.append_assoc]
    · simp [appendBelow, Forest.splice, Node.label, Forest.single]
  by_cases hroot : parent = root
  · simp only [grown, if_pos hroot, Forest.append_assoc]
  · simp only [grown, if_neg hroot, Forest.splice_splice]
    exact Forest.splice_congr fun m hm _ => happend m hm

/-- **Loose pieces become the last children of the document or of an element in it.** -/
theorem appendEach_loose (ht : t.Accounted) (hloose : t.loose = D ++ (F ++ E))
    (hparent : parent ∈ root :: t.content.labels) (hallows : t.allowsChildren parent = true) :
    ∃ t', t.appendEach parent F.roots = .ok t' ∧ t'.Accounted ∧
      t' = ⟨grown parent t.content F, D ++ E, t.size⟩ := by
  induction F using Forest.siblings_induction generalizing t with
  | nil =>
      refine ⟨t, rfl, ht, ?_⟩
      have hsame : grown parent t.content .nil = t.content := by
        rw [grown, Forest.append_nil]
        split
        · rfl
        · refine Forest.splice_self ?_
          rintro (e | ⟨label, kind, content⟩) _
          · simp [appendBelow, Forest.single]
          · rfl
      rw [hsame, ← Forest.nil_append E, ← hloose]
  | cons m rest ih =>
      rw [Forest.append_assoc] at hloose
      have hstep := ht.appendChild_loose hloose hparent hallows
      obtain ⟨ht', hplaced⟩ := ht.placed_appendChild (ht.lt_size_loose hloose) hstep
      have hallows' : allowsChildren ⟨grown parent t.content (.single m), D ++ (rest ++ E), t.size⟩
          parent = true := by
        refine allowsChildren_of_roots_children _ ?_
        rw [hplaced.children_after]
        simp
      have hparent' : parent ∈ root :: (grown parent t.content (.single m)).labels := by
        rw [grown]
        split
        · next hroot => exact hroot ▸ List.mem_cons_self
        · next hroot =>
            refine List.mem_cons_of_mem _ (Forest.mem_labels_splice
              ((List.mem_cons.1 hparent).resolve_left hroot) ?_)
            rintro (e | ⟨label, kind, content⟩) rfl <;> exact List.mem_cons_self
      obtain ⟨t', hmore, hacc, rfl⟩ := ih ht' rfl hparent' hallows'
      refine ⟨_, ?_, hacc, ?_⟩
      · rw [Forest.roots_append, Forest.roots_single, List.singleton_append, Tree.appendEach, hstep]
        exact hmore
      · rw [grown_grown]

/-- A node of the document is taken out of it. -/
theorem detach_eq (ht : t.Accounted) (hx : t.content.find? x = some m) :
    t.detach x = ⟨t.content.splice x fun _ => .nil, .single m ++ t.loose, t.size⟩ := by
  have hmem := Forest.exists_find?_iff.1 ⟨_, hx⟩
  obtain ⟨parent, -, hparent⟩ := ht.exists_parent hmem
  have hloose : x ∉ t.loose.labels := fun h => ht.not_mem_nodes h (List.mem_cons_of_mem _ hmem)
  have hfind : t.find? x = some m := by rw [find?, hx, Option.some_or]
  simp only [Tree.detach, hparent, hfind, Tree.replace, Forest.splice_of_not_mem hloose]

/-- **Loose pieces take the place of a node of the document**, which becomes loose. -/
theorem insertEachBefore_detach (ht : t.Accounted) (hloose : t.loose = D ++ (F ++ E))
    (hx : t.content.find? x = some m) :
    ∃ t', t.insertEachBefore x F.roots = .ok t' ∧ (t'.detach x).Accounted ∧
      t'.detach x =
        ⟨t.content.splice x fun _ => F, .single m ++ (D ++ E), t.size⟩ := by
  have hmem := Forest.exists_find?_iff.1 ⟨_, hx⟩
  have hpieces : x ∉ F.labels := by
    intro hin
    refine ht.not_mem_nodes (x := x) ?_ (List.mem_cons_of_mem _ hmem)
    rw [hloose, Forest.labels_append, Forest.labels_append]
    exact List.mem_append_right _ (List.mem_append_left _ hin)
  obtain ⟨t', hinsert, hacc, rfl⟩ := ht.insertEachBefore_loose hloose hmem
  have hfound : (t.content.splice x fun n => F ++ .single n).find? x = some m := by
    rw [Forest.find?_splice_self, hx]
    intro n hn
    rw [Forest.find?_append, Forest.find?_eq_none_iff.2 hpieces, ← hn, Forest.find?_single_self,
      Option.none_or]
  refine ⟨_, hinsert, hacc.detach x, ?_⟩
  rw [hacc.detach_eq hfound, Forest.splice_splice]
  congr 1
  refine Forest.splice_congr fun n hn _ => ?_
  rw [Forest.splice_append, Forest.splice_of_not_mem hpieces, ← hn, Forest.splice_single_self,
    Forest.append_nil]

theorem setText_first (ht : t.Accounted) {label : NodeId} {kind : LeafKind} {content : String}
    {rest : Forest NodeId} (hloose : t.loose = .leaf label kind content rest) (new : String) :
    t.setText label new = { t with loose := .leaf label kind new rest } := by
  obtain ⟨hmem, -, hrest⟩ :=
    ht.nodup_loose (D := .nil) (m := .leaf label kind content) (E := rest) hloose
  have hcontent : label ∉ t.content.labels := fun h =>
    ht.not_mem_nodes hmem (List.mem_cons_of_mem _ h)
  have hrest : label ∉ rest.labels := hrest
  rw [Tree.setText, Tree.replace, hloose, Forest.splice_of_not_mem hcontent, Forest.splice,
    if_pos rfl, Forest.splice_of_not_mem hrest]
  rfl

end Accounted

end Tree

end ViewCompiler
