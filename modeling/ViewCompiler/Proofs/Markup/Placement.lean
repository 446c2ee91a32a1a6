/-
**Putting nodes into place.**

A loose piece is put into a child list at the place that the edit names.  Seen as a table, the
piece's rows stay what they are, and so do all others but the parent's, which names one child more.

Main definitions:

* `ViewCompiler.Tree.Forbids`, `ViewCompiler.Tree.ForbidsBeside` — why a node may not be put
  somewhere;
* `ViewCompiler.Tree.Placed` — a tree with a node put into place;
* `ViewCompiler.Tree.Unwrapped` — a tree with a node unwrapped.

Main results:

* `ViewCompiler.Tree.Accounted.appendChild_eq_error_iff`,
  `ViewCompiler.Tree.Accounted.insertBeside_eq_error_iff` — which insertions are refused, and why;
* `ViewCompiler.Tree.Accounted.placed_appendChild`,
  `ViewCompiler.Tree.Accounted.placed_insertBefore`,
  `ViewCompiler.Tree.Accounted.placed_insertAfter` — **the others put the node into place and change
  nothing else**;
* `ViewCompiler.Tree.Accounted.exists_unwrapped` — unwrapping puts the children into the place of
  their parent.
-/

import ViewCompiler.Proofs.Markup.Editing

set_option relaxedAutoImplicit false
set_option autoImplicit false

namespace ViewCompiler.Tree

variable {t t' : Tree} {parent reference child : NodeId}

/-! ### Refusals -/

/-- Why `child` may not become a child of `parent`: the first reason that there is. -/
inductive Forbids (t : Tree) (parent child : NodeId) : TreeError → Prop where
  | invalidParent (hparent : t.allowsChildren parent = false) :
      Forbids t parent child (.invalidParent parent)
  | alreadyAttached (hparent : t.allowsChildren parent = true)
      (hchild : child = root ∨ t.parent? child ≠ none) :
      Forbids t parent child (.alreadyAttached child)
  | cycle (hparent : t.allowsChildren parent = true) (hchild : child ≠ root)
      (hloose : t.parent? child = none) (habove : t.Above child parent) :
      Forbids t parent child (.cycle parent child)

/-- Why `child` may not become a sibling of `reference`: the first reason that there is. -/
inductive ForbidsBeside (t : Tree) (reference child : NodeId) : TreeError → Prop where
  | detached (hreference : t.parent? reference = none) :
      ForbidsBeside t reference child (.detached reference)
  | parent {parent : NodeId} {e : TreeError} (hreference : t.parent? reference = some parent)
      (hforbids : t.Forbids parent child e) : ForbidsBeside t reference child e

/-- `child` may become a child of `parent`. -/
structure Allows (t : Tree) (parent child : NodeId) : Prop where
  allowsChildren : t.allowsChildren parent = true
  ne_root : child ≠ root
  parent?_eq_none : t.parent? child = none
  not_above : ¬ t.Above child parent

/-- There is one first reason. -/
theorem Forbids.eq {e e' : TreeError} (h : t.Forbids parent child e)
    (h' : t.Forbids parent child e') : e = e' := by
  cases h <;> cases h' <;> simp_all

theorem Allows.not_forbids (h : t.Allows parent child) (e : TreeError) :
    ¬ t.Forbids parent child e := by
  intro hforbids
  cases hforbids with
  | invalidParent hparent => simp [h.allowsChildren] at hparent
  | alreadyAttached _ hchild => exact hchild.elim h.ne_root fun h' => h' h.parent?_eq_none
  | cycle _ _ _ habove => exact h.not_above habove

/-- What is not allowed is refused for the first reason that there is. -/
theorem Accounted.checkInsert_cases (h : t.Accounted) (parent child : NodeId) :
    (t.checkInsert parent child = .ok () ∧ t.Allows parent child) ∨
      ∃ e, t.checkInsert parent child = .error e ∧ t.Forbids parent child e := by
  rw [checkInsert]
  split
  · next hparent => exact .inr ⟨_, rfl, .invalidParent (by simpa using hparent)⟩
  · next hparent =>
      have hparent : t.allowsChildren parent = true := by simpa using hparent
      split
      · next hattached =>
          rw [Bool.or_eq_true, decide_eq_true_iff, Option.isSome_iff_ne_none] at hattached
          exact .inr ⟨_, rfl, .alreadyAttached hparent hattached.symm⟩
      · next hattached =>
          rw [Bool.or_eq_true, decide_eq_true_iff, not_or, Option.isSome_iff_ne_none,
            not_not] at hattached
          obtain ⟨hfree, hchild⟩ := hattached
          split
          · next habove =>
              exact .inr ⟨_, rfl, .cycle hparent hchild hfree (h.isAncestorOrSelf_iff.1 habove)⟩
          · next habove =>
              exact .inl ⟨rfl, hparent, hchild, hfree, mt h.isAncestorOrSelf_iff.2 habove⟩

theorem Accounted.checkInsert_eq_error_iff (h : t.Accounted) {e : TreeError} :
    t.checkInsert parent child = .error e ↔ t.Forbids parent child e := by
  rcases h.checkInsert_cases parent child with ⟨hok, hallows⟩ | ⟨e', herror, hforbids⟩
  · simp [hok, hallows.not_forbids e]
  · rw [herror, Except.error.injEq]
    exact ⟨fun heq => heq ▸ hforbids, hforbids.eq⟩

theorem Accounted.checkInsert_eq_ok_iff (h : t.Accounted) :
    t.checkInsert parent child = .ok () ↔ t.Allows parent child := by
  rcases h.checkInsert_cases parent child with ⟨hok, hallows⟩ | ⟨e, herror, hforbids⟩
  · exact iff_of_true hok hallows
  · rw [herror]
    exact iff_of_false (by simp) fun hallows => hallows.not_forbids e hforbids

/-- **Appending is refused for the first reason that there is.** -/
theorem Accounted.appendChild_eq_error_iff (h : t.Accounted) {e : TreeError} :
    t.appendChild parent child = .error e ↔ t.Forbids parent child e := by
  rw [← h.checkInsert_eq_error_iff, Tree.appendChild]
  cases t.checkInsert parent child with
  | error e' => simp
  | ok u => by_cases hparent : parent = root <;> simp [hparent]

/-- **Insertion beside a node is refused for the first reason that there is.** -/
theorem Accounted.insertBeside_eq_error_iff (h : t.Accounted) {e : TreeError}
    (g : Forest NodeId → Forest NodeId → Forest NodeId) :
    t.insertBeside reference child g = .error e ↔ t.ForbidsBeside reference child e := by
  rw [insertBeside]
  cases hreference : t.parent? reference with
  | none =>
      constructor
      · intro heq
        obtain rfl := Except.error.inj heq
        exact .detached hreference
      · intro hforbids
        cases hforbids with
        | detached => rfl
        | parent h' => simp [hreference] at h'
  | some parent =>
      have hbeside : t.ForbidsBeside reference child e ↔ t.Forbids parent child e := by
        constructor
        · intro hforbids
          cases hforbids with
          | detached h' => simp [hreference] at h'
          | parent h' hforbids =>
              obtain rfl := Option.some.inj (hreference.symm.trans h')
              exact hforbids
        · exact .parent hreference
      rw [hbeside, ← h.checkInsert_eq_error_iff]
      cases hcheck : t.checkInsert parent child with
      | error e' => simp [hcheck]
      | ok u => simp [hcheck]

/-! ### Placing -/

/-- `child` is put into place among the children of `parent`, between `before` and `after`, and
nothing else is changed. -/
structure Placed (t t' : Tree) (parent child : NodeId) (before after : List NodeId) : Prop where
  size_eq : t'.size = t.size
  children_before : (t.children parent).roots = before ++ after
  children_after : (t'.children parent).roots = before ++ child :: after
  children_eq : ∀ id ≠ parent, (t'.children id).roots = (t.children id).roots
  parent?_child : t'.parent? child = some parent
  parent?_eq : ∀ id ≠ child, t'.parent? id = t.parent? id
  kind?_eq : ∀ id, t'.kind? id = t.kind? id

/-- The tables of two trees differ in one row, which names one child more. -/
def Gains (t t' : Tree) (parent child : NodeId) (before after : List NodeId) : Prop :=
  t'.size = t.size ∧ ∃ kind others,
    t.whole.records.Perm ((parent, ⟨kind, before ++ after⟩) :: others) ∧
    t'.whole.records.Perm ((parent, ⟨kind, before ++ child :: after⟩) :: others)

section

variable {before after : List NodeId}

theorem Gains.accounted (hgains : Gains t t' parent child before after) (h : t.Accounted) :
    t'.Accounted := by
  obtain ⟨hsize, kind, others, ht, ht'⟩ := hgains
  have hlabels : t'.whole.labels.Perm t.whole.labels := by
    simpa using (ht'.map (·.1)).trans (ht.map (·.1)).symm
  rw [Accounted, hsize]
  exact hlabels.trans h

/-- What the tables say of the trees. -/
theorem Gains.placed (hgains : Gains t t' parent child before after) (h : t.Accounted) :
    Placed t t' parent child before after := by
  have h' := hgains.accounted h
  obtain ⟨hsize, kind, others, ht, ht'⟩ := hgains
  have hbefore : (t.children parent).roots = before ++ after :=
    h.roots_children_of_mem (ht.mem_iff.2 List.mem_cons_self)
  have hafter : (t'.children parent).roots = before ++ child :: after :=
    h'.roots_children_of_mem (ht'.mem_iff.2 List.mem_cons_self)
  have hrecord : ∀ id ≠ parent, t'.record? id = t.record? id := by
    intro id hid
    ext r
    rw [h.record?_eq_some_iff, h'.record?_eq_some_iff, ht.mem_iff, ht'.mem_iff]
    simp [hid]
  have hchildren : ∀ id ≠ parent, (t'.children id).roots = (t.children id).roots := by
    intro id hid
    rw [roots_children, roots_children, hrecord id hid]
  refine ⟨hsize, hbefore, hafter, hchildren, ?_, fun id hid => ?_, fun id => ?_⟩
  · rw [h'.parent?_eq_some_iff, hafter]
    simp
  · ext p
    rw [h.parent?_eq_some_iff, h'.parent?_eq_some_iff]
    by_cases hp : p = parent
    · rw [hp, hbefore, hafter]
      simp [hid]
    · rw [hchildren p hp]
  · by_cases hid : id = root
    · rw [hid, kind?, kind?, h.find?_root, h'.find?_root]
    · rw [kind?_eq _ hid, kind?_eq _ hid]
      by_cases hp : id = parent
      · subst hp
        rw [h.record?_eq_some_iff.2 (ht.mem_iff.2 List.mem_cons_self),
          h'.record?_eq_some_iff.2 (ht'.mem_iff.2 List.mem_cons_self)]
        rfl
      · rw [hrecord id hp]

end

/-! ### A loose piece -/

/-- A node without a parent that is not the document starts a loose piece. -/
theorem Accounted.mem_roots_loose (h : t.Accounted) (hchild : child < t.size)
    (hroot : child ≠ root) (hfree : t.parent? child = none) : child ∈ t.loose.roots := by
  rcases List.mem_append.1 (t.whole.labels_perm.mem_iff.1 (h.mem_labels_iff.2 hchild)) with
    hroots | hnamed
  · have hroots : child ∈ root :: t.loose.roots := hroots
    exact (List.mem_cons.1 hroots).resolve_left hroot
  · obtain ⟨row, hrow, hmem⟩ := List.mem_flatMap.1 hnamed
    have hparent := h.parent?_eq_some_iff.2 (h.mem_roots_children_iff.2 ⟨row.2, hrow, hmem⟩)
    rw [hfree] at hparent
    cases hparent

/-- A loose piece is taken out of the table with all its rows, and the others stay. -/
theorem Accounted.takeLoose_spec (h : t.Accounted) (hallows : t.Allows parent child)
    (hchild : child < t.size) : ∃ n : Node NodeId, n.label = child ∧
      (t.takeLoose child).1 = .single n ∧ t.find? child = some n ∧
      (t.takeLoose child).2.size = t.size ∧
      t.whole.records.Perm ((t.takeLoose child).2.whole.records ++ (Forest.single n).records) := by
  have hloose := h.mem_roots_loose hchild hallows.ne_root hallows.parent?_eq_none
  have hnodup : (t.content.labels ++ t.loose.labels).Nodup := (List.nodup_cons.1 h.nodup).2
  have hcontent : child ∉ t.content.labels := fun hmem =>
    (List.nodup_append.1 hnodup).2.2 child hmem child (Forest.mem_labels_of_mem_roots hloose) rfl
  obtain ⟨n, hn⟩ := Forest.exists_find?_iff.2 (Forest.mem_labels_of_mem_roots hloose)
  have hfind : t.find? child = some n := by
    rw [find?, Forest.find?_eq_none_iff.2 hcontent, Option.none_or, hn]
  have hrest : (t.takeLoose child).2 = t.replace child fun _ => .nil := by
    rw [takeLoose, Tree.replace, Forest.splice_of_not_mem hcontent]
    rfl
  refine ⟨n, Forest.label_of_find? hn, by rw [takeLoose, hn]; rfl, hfind, rfl, ?_⟩
  obtain ⟨others, hothers, hsplice⟩ := h.exists_splicedTable hfind
  have hunnamed : ∀ row ∈ others, child ∉ row.2.children := fun row hrow =>
    Forest.not_mem_children_of_mem_roots h.nodup (List.mem_cons_of_mem _ hloose)
      (hothers.mem_iff.2 (List.mem_append_left _ hrow))
  have hspliced := (hsplice fun _ => .nil).2
  rw [← t.whole_replace hallows.ne_root, ← hrest] at hspliced
  simp only [Forest.roots, Forest.records, List.append_nil] at hspliced
  rw [map_spliced_eq_self hunnamed] at hspliced
  exact hothers.trans (hspliced.symm.append_right _)

/-- The rows of a loose piece are those of what lies below its first node. -/
theorem Accounted.mem_labels_single_iff (h : t.Accounted) {n : Node NodeId}
    (hn : t.find? child = some n) {id : NodeId} :
    id ∈ (Forest.single n).labels ↔ t.Above child id := by
  have hne := h.ne_root_of_find? hn
  have hlabel : n.label = child := by
    rw [← t.find?_whole hne] at hn
    exact Forest.label_of_find? hn
  rw [← h.isAncestorOrSelf_iff, isAncestorOrSelf_eq_true, children_eq, t.find?_whole hne, hn,
    Forest.labels_single, List.mem_cons, hlabel]
  rfl

theorem records_whole (t : Tree) : t.whole.records =
    (root, ⟨.element "" [], t.content.roots⟩) :: (t.content.records ++ t.loose.records) := rfl

/-- What is left of a tree without a loose piece has every node that is not in the piece, with the
same row. -/
theorem Accounted.exists_splicedTable_rest (h : t.Accounted) {n : Node NodeId}
    (hfind : t.find? child = some n) {rest : Tree}
    (hrows : t.whole.records.Perm (rest.whole.records ++ (Forest.single n).records))
    {id : NodeId} (hid : id < t.size) (habove : ¬ t.Above child id) :
    ∃ m others, m.label = id ∧ t.record? id = some m.record ∧
      rest.whole.labels.Nodup ∧ Forest.SplicedTable rest.whole id m others := by
  have hlabels : t.whole.labels.Perm (rest.whole.labels ++ (Forest.single n).labels) := by
    simpa using hrows.map (·.1)
  have hnodup := (List.nodup_append.1 (hlabels.nodup_iff.1 h.nodup)).1
  have hmem : id ∈ rest.whole.labels := by
    have hall := hlabels.mem_iff.1 (h.mem_labels_iff.2 hid)
    rw [List.mem_append, h.mem_labels_single_iff hfind] at hall
    exact hall.resolve_right habove
  obtain ⟨m, hm⟩ := Forest.exists_find?_iff.2 hmem
  obtain ⟨others, hothers⟩ := Forest.exists_splicedTable hnodup hm
  have hrow := Forest.mem_records_of_find? hnodup hm
  exact ⟨m, others, Forest.label_of_find? hm,
    h.record?_eq_some_iff.2 (hrows.mem_iff.2 (List.mem_append_left _ hrow)), hnodup, hothers⟩

/-- Only elements have children, besides the document. -/
theorem exists_element_of_allowsChildren (hparent : t.allowsChildren parent = true)
    (hroot : parent ≠ root) : ∃ e, t.find? parent = some (.element e) := by
  rw [allowsChildren, decide_eq_false hroot, Bool.false_or] at hparent
  split at hparent
  · next e he => exact ⟨e, he⟩
  · cases hparent

/-- What it does to the table when a piece goes behind the last child of an element. -/
theorem records_appendBelow {f piece : Forest NodeId} {e : Element NodeId}
    {others : List (NodeId × Record NodeId)}
    (h : Forest.SplicedTable f e.label (.element e) others) : ∃ rows,
      f.records.Perm ((e.label, ⟨.element e.name e.attributes, e.children.roots⟩) :: rows) ∧
      (f.splice e.label (appendBelow piece)).records.Perm
        ((e.label, ⟨.element e.name e.attributes, e.children.roots ++ piece.roots⟩) ::
          (rows ++ piece.records)) := by
  obtain ⟨hold, hsplice⟩ := h
  have hnew := (hsplice (appendBelow piece)).2
  have hroots : (appendBelow piece (.element e)).roots = [e.label] := rfl
  have hrows : (appendBelow piece (.element e)).records =
      (e.label, ⟨.element e.name e.attributes, e.children.roots ++ piece.roots⟩) ::
        (e.children.records ++ piece.records) := by
    rw [appendBelow, Forest.records, Forest.roots_append, Forest.records_append, Forest.records,
      List.append_nil]
  refine ⟨others ++ e.children.records, ?_, ?_⟩
  · rw [Forest.records_single] at hold
    exact hold.trans List.perm_middle
  · simp only [hroots, hrows, Record.spliced_self, List.map_id'] at hnew
    rw [List.append_assoc]
    exact hnew.trans List.perm_middle

/-- A piece goes behind the last child of `parent`. -/
theorem Accounted.gains_appendChild (h : t.Accounted) (hchild : child < t.size)
    (hok : t.appendChild parent child = .ok t') :
    ∃ before, Gains t t' parent child before [] := by
  have hallows : t.Allows parent child := by
    rw [← h.checkInsert_eq_ok_iff]
    rw [Tree.appendChild] at hok
    split at hok
    · cases hok
    · assumption
  rw [Tree.appendChild, h.checkInsert_eq_ok_iff.2 hallows] at hok
  obtain ⟨n, hlabel, hpiece, hfind, hsize, hrows⟩ := h.takeLoose_spec hallows hchild
  generalize t.takeLoose child = taken at *
  obtain ⟨piece, rest⟩ := taken
  obtain rfl : piece = .single n := hpiece
  simp only at hok hsize hrows
  split at hok
  · next hparent =>
      obtain rfl := Except.ok.inj hok
      subst hparent
      refine ⟨rest.content.roots, hsize, .element "" [],
        rest.content.records ++ rest.loose.records ++ (Forest.single n).records, ?_, ?_⟩
      · rw [List.append_nil]
        exact hrows
      · rw [records_whole, Forest.roots_append, Forest.roots_single, Forest.records_append, hlabel,
          List.append_assoc, List.append_assoc]
        exact .cons _ (List.perm_append_comm.append_left _)
  · next hparent =>
      obtain rfl := Except.ok.inj hok
      obtain ⟨e, he⟩ := exists_element_of_allowsChildren hallows.allowsChildren hparent
      have hmem : parent < t.size := by
        rw [← h.find?_ne_none_iff hparent, he]
        exact Option.some_ne_none _
      obtain ⟨m, others, rfl, hrecord, -, hothers⟩ :=
        h.exists_splicedTable_rest hfind hrows hmem hallows.not_above
      cases m with
      | leaf label kind content =>
          rw [record?, t.find?_whole hparent, he] at hrecord
          cases hrecord
      | element m =>
          obtain ⟨rows, hold, hnew⟩ := @records_appendBelow _ (.single n) m _ hothers
          refine ⟨m.children.roots, hsize, .element m.name m.attributes,
            rows ++ (Forest.single n).records, ?_, ?_⟩
          · rw [List.append_nil]
            exact hrows.trans (hold.append_right _)
          · rw [rest.whole_replace hparent]
            rwa [Forest.roots_single, hlabel] at hnew

/-- A piece goes beside `reference`, on the side that `g` says. -/
theorem Accounted.gains_insertBeside (h : t.Accounted) (hchild : child < t.size)
    {g : Forest NodeId → Forest NodeId → Forest NodeId}
    (hg : ∀ piece node, (g piece node).records.Perm (piece.records ++ node.records))
    (hok : t.insertBeside reference child g = .ok t') :
    ∃ parent n m before after kind others, n.label = child ∧ m.label = reference ∧
      t.parent? reference = some parent ∧ t'.size = t.size ∧
      t.whole.records.Perm ((parent, ⟨kind, before ++ reference :: after⟩) :: others) ∧
      t'.whole.records.Perm
        ((parent, ⟨kind, before ++ (g (.single n) (.single m)).roots ++ after⟩) :: others) := by
  rw [insertBeside] at hok
  split at hok
  · cases hok
  · next parent hparent =>
    split at hok
    · cases hok
    · next hcheck =>
      have hallows := h.checkInsert_eq_ok_iff.1 hcheck
      obtain ⟨n, hlabel, hpiece, hfind, hsize, hrows⟩ := h.takeLoose_spec hallows hchild
      generalize t.takeLoose child = taken at *
      obtain ⟨piece, rest⟩ := taken
      obtain rfl : piece = .single n := hpiece
      simp only at hok hsize hrows
      obtain rfl := Except.ok.inj hok
      obtain ⟨r, hr, hmem⟩ := h.mem_roots_children_iff.1 (h.parent?_eq_some_iff.1 hparent)
      -- the reference is not in the piece, since its parent is not
      have hapart : ¬ t.Above child reference := by
        intro habove
        rcases Relation.ReflTransGen.cases_head habove with rfl | ⟨p, hp, habove⟩
        · rw [hallows.parent?_eq_none] at hparent
          cases hparent
        · obtain rfl := Option.some.inj (hp.symm.trans hparent)
          exact hallows.not_above habove
      have hrest : (parent, r) ∈ rest.whole.records := by
        refine (List.mem_append.1 (hrows.mem_iff.1 hr)).resolve_right fun hin => ?_
        exact hallows.not_above
          ((h.mem_labels_single_iff hfind).1 (Forest.mem_labels_of_mem_records hin))
      obtain ⟨m, spliced, hm, -, hnodup, hspliced⟩ :=
        h.exists_splicedTable_rest hfind hrows (h.lt_size_of_parent? hparent).1 hapart
      obtain ⟨before, after, others, hchildren, hold, hnew⟩ :=
        hspliced.exists_named hnodup hm hrest hmem
      refine ⟨parent, n, m, before, after, r.kind,
        others ++ (Forest.single m).records ++ (Forest.single n).records, hlabel, hm, hparent,
        hsize, ?_, ?_⟩
      · rw [← hchildren]
        exact hrows.trans (hold.append_right _)
      · rw [rest.whole_replace (h.ne_root_of_parent? hparent)]
        refine (hnew _).trans (.cons _ ?_)
        rw [List.append_assoc]
        exact ((hg _ _).trans List.perm_append_comm).append_left _

/-- **A node is put behind the last child.** -/
theorem Accounted.placed_appendChild (h : t.Accounted) (hchild : child < t.size)
    (hok : t.appendChild parent child = .ok t') :
    t'.Accounted ∧ Placed t t' parent child (t.children parent).roots [] := by
  obtain ⟨before, hgains⟩ := h.gains_appendChild hchild hok
  have hplaced := hgains.placed h
  have hbefore := hplaced.children_before
  rw [List.append_nil] at hbefore
  exact ⟨hgains.accounted h, hbefore ▸ hplaced⟩

/-- **A node is put just before another one.** -/
theorem Accounted.placed_insertBefore (h : t.Accounted) (hchild : child < t.size)
    (hok : t.insertBefore reference child = .ok t') :
    t'.Accounted ∧ ∃ parent before after, t.parent? reference = some parent ∧
      Placed t t' parent child before (reference :: after) := by
  obtain ⟨parent, n, m, before, after, kind, others, rfl, rfl, hparent, hsize, hold, hnew⟩ :=
    h.gains_insertBeside hchild (fun piece node => .of_eq (Forest.records_append piece node)) hok
  have hgains : Gains t t' parent n.label before (m.label :: after) := by
    refine ⟨hsize, kind, others, hold, ?_⟩
    simpa using hnew
  exact ⟨hgains.accounted h, parent, before, after, hparent, hgains.placed h⟩

/-- **A node is put just behind another one.** -/
theorem Accounted.placed_insertAfter (h : t.Accounted) (hchild : child < t.size)
    (hok : t.insertAfter reference child = .ok t') :
    t'.Accounted ∧ ∃ parent before after, t.parent? reference = some parent ∧
      Placed t t' parent child (before ++ [reference]) after := by
  obtain ⟨parent, n, m, before, after, kind, others, rfl, rfl, hparent, hsize, hold, hnew⟩ :=
    h.gains_insertBeside hchild (fun piece node =>
      (List.Perm.of_eq (Forest.records_append node piece)).trans List.perm_append_comm) hok
  have hgains : Gains t t' parent n.label (before ++ [m.label]) after := by
    refine ⟨hsize, kind, others, by simpa using hold, ?_⟩
    simpa using hnew
  exact ⟨hgains.accounted h, parent, before, after, hparent, hgains.placed h⟩

/-! ### Unwrapping -/

/-- What unwrapping does to the table: the children stand in the place of the node, and the node is
left without children. -/
theorem Accounted.records_unwrap (h : t.Accounted) {id : NodeId}
    (hparent : t.parent? id = some parent) : ∃ t' before after kind own others,
      t.unwrap id = .ok t' ∧
      t.whole.records.Perm
        ((parent, ⟨kind, before ++ id :: after⟩) :: (id, ⟨own, (t.children id).roots⟩) :: others) ∧
      t'.whole.records.Perm
        ((parent, ⟨kind, before ++ (t.children id).roots ++ after⟩) :: (id, ⟨own, []⟩) ::
          others) := by
  obtain ⟨r, hr, hmem⟩ := h.mem_roots_children_iff.1 (h.parent?_eq_some_iff.1 hparent)
  have hne := h.ne_root_of_parent? hparent
  obtain ⟨n, hn⟩ : ∃ n, t.find? id = some n :=
    Option.ne_none_iff_exists'.1 ((h.find?_ne_none_iff hne).2 (h.lt_size_of_parent? hparent).1)
  have hwhole : t.whole.find? id = some n := by rw [t.find?_whole hne, hn]
  obtain ⟨spliced, hspliced⟩ := h.exists_splicedTable hn
  obtain ⟨before, after, others, hchildren, hold, hnew⟩ :=
    hspliced.exists_named h.nodup (Forest.label_of_find? hwhole) hr hmem
  have hroots : (t.children id).roots = n.below.roots := by
    rw [children_eq, hwhole]
    rfl
  refine ⟨{ t.replace id childrenOf with
      loose := childless n ++ (t.replace id childrenOf).loose },
    before, after, r.kind, n.kind, others ++ n.below.records, ?_, ?_, ?_⟩
  · simp only [Tree.unwrap, hparent, hn]
  · rw [hroots, ← hchildren, ← Forest.label_of_find? hwhole]
    refine hold.trans (.cons _ ?_)
    rw [Forest.records_single]
    exact List.perm_middle
  · have hrecords := hnew childrenOf
    rw [← t.whole_replace hne, childrenOf_eq, ← hroots] at hrecords
    refine (records_addLoose (t.replace id childrenOf) (childless n)).trans ?_
    rw [records_childless, Forest.label_of_find? hwhole]
    exact (hrecords.append_left _).trans (.swap _ _ _)

/-- A node is unwrapped unless it has no parent. -/
theorem Accounted.unwrap_eq_error_iff (h : t.Accounted) {id : NodeId} {e : TreeError} :
    t.unwrap id = .error e ↔ t.parent? id = none ∧ e = .detached id := by
  rw [Tree.unwrap]
  cases hparent : t.parent? id with
  | none => simp [eq_comm]
  | some parent =>
      obtain ⟨n, hn⟩ := Option.ne_none_iff_exists'.1
        ((h.find?_ne_none_iff (h.ne_root_of_parent? hparent)).2 (h.lt_size_of_parent? hparent).1)
      simp [hn]

theorem size_unwrap {id : NodeId} (hunwrap : t.unwrap id = .ok t') : t'.size = t.size := by
  unfold Tree.unwrap at hunwrap
  split at hunwrap
  · obtain rfl := Except.ok.inj hunwrap
    rfl
  · cases hunwrap

/-- `id` is unwrapped: its children stand in its place, and it is left without any. -/
structure Unwrapped (t t' : Tree) (parent id : NodeId) (before after : List NodeId) : Prop where
  size_eq : t'.size = t.size
  ne : id ≠ parent
  children_before : (t.children parent).roots = before ++ id :: after
  children_after : (t'.children parent).roots = before ++ (t.children id).roots ++ after
  children_own : (t'.children id).roots = []
  children_eq : ∀ x ≠ parent, x ≠ id → (t'.children x).roots = (t.children x).roots
  kind?_eq : ∀ x, t'.kind? x = t.kind? x

/-- **Unwrapping a node that has a parent succeeds.** -/
theorem Accounted.exists_unwrapped (h : t.Accounted) {id : NodeId}
    (hparent : t.parent? id = some parent) : ∃ t' before after,
      t.unwrap id = .ok t' ∧ Unwrapped t t' parent id before after := by
  obtain ⟨t', before, after, kind, own, others, hunwrap, hold, hnew⟩ := h.records_unwrap hparent
  have h' := h.unwrap hunwrap
  have hrecord : ∀ x ≠ parent, x ≠ id → t'.record? x = t.record? x := by
    intro x hx hid
    ext r
    rw [h.record?_eq_some_iff, h'.record?_eq_some_iff, hold.mem_iff, hnew.mem_iff]
    simp [hx, hid]
  -- both rows that are changed name other children only
  have hkind : ∀ x, (t'.record? x).map (·.kind) = (t.record? x).map (·.kind) := by
    intro x
    by_cases hx : x = parent
    · rw [hx, h.record?_eq_some_iff.2 (hold.mem_iff.2 List.mem_cons_self),
        h'.record?_eq_some_iff.2 (hnew.mem_iff.2 List.mem_cons_self)]
      rfl
    · by_cases hid : x = id
      · rw [hid, h.record?_eq_some_iff.2
            (hold.mem_iff.2 (List.mem_cons_of_mem _ List.mem_cons_self)),
          h'.record?_eq_some_iff.2 (hnew.mem_iff.2 (List.mem_cons_of_mem _ List.mem_cons_self))]
        rfl
      · rw [hrecord x hx hid]
  refine ⟨t', before, after, hunwrap, size_unwrap hunwrap, ?_, ?_, ?_, ?_, fun x hx hid => ?_,
    fun x => ?_⟩
  · rintro rfl
    exact Nat.lt_irrefl _ (h.idxOf_parent_lt hparent)
  · exact h.roots_children_of_mem (hold.mem_iff.2 List.mem_cons_self)
  · exact h'.roots_children_of_mem (hnew.mem_iff.2 List.mem_cons_self)
  · exact h'.roots_children_of_mem
      (hnew.mem_iff.2 (List.mem_cons_of_mem _ List.mem_cons_self))
  · rw [roots_children, roots_children, hrecord x hx hid]
  · by_cases hroot : x = root
    · rw [hroot, kind?, kind?, h.find?_root, h'.find?_root]
    · rw [t'.kind?_eq hroot, t.kind?_eq hroot, hkind]

/-- The children are linked to the parent, and the node is linked to none. -/
theorem Unwrapped.parent?_eq {id : NodeId} {before after : List NodeId}
    (hspec : Unwrapped t t' parent id before after) (h : t.Accounted) (h' : t'.Accounted)
    (x : NodeId) : t'.parent? x =
      if x = id then none else if x ∈ (t.children id).roots then some parent else t.parent? x := by
  have hparent : t.parent? id = some parent := by
    rw [h.parent?_eq_some_iff, hspec.children_before]
    simp
  split
  · next hx =>
      subst hx
      have hnodup : (t.children parent).roots.Nodup := h.roots_children_nodup
      rw [hspec.children_before, List.nodup_middle, List.nodup_cons, List.mem_append,
        not_or] at hnodup
      cases hp : t'.parent? x with
      | none => rfl
      | some p =>
          exfalso
          rw [h'.parent?_eq_some_iff] at hp
          by_cases hpp : p = parent
          · rw [hpp, hspec.children_after, List.append_assoc, List.mem_append, List.mem_append] at hp
            rcases hp with hmem | hmem | hmem
            · exact hnodup.1.1 hmem
            · rw [← h.parent?_eq_some_iff, hparent] at hmem
              exact hspec.ne (Option.some.inj hmem).symm
            · exact hnodup.1.2 hmem
          · by_cases hpx : p = x
            · rw [hpx, hspec.children_own] at hp
              cases hp
            · rw [hspec.children_eq p hpp hpx, ← h.parent?_eq_some_iff, hparent] at hp
              exact hpp (Option.some.inj hp).symm
  · next hx =>
      split
      · next hmem =>
          rw [h'.parent?_eq_some_iff, hspec.children_after]
          simp [hmem]
      · next hmem =>
          ext p
          rw [h.parent?_eq_some_iff, h'.parent?_eq_some_iff]
          by_cases hpp : p = parent
          · rw [hpp, hspec.children_after, hspec.children_before]
            simp [hmem, hx]
          · by_cases hpx : p = id
            · rw [hpx, hspec.children_own]
              exact iff_of_false (by simp) hmem
            · rw [hspec.children_eq p hpp hpx]

end ViewCompiler.Tree
