/-
**Copies and sources, link by link.**

A copy of a node gets its record first, and is then linked to the copy of its parent, which has to
be one that can have children: it is the copy of a node that has some.  So whatever waits to be
copied below its copy keeps room there, since nothing that happens to the tree in between changes
what a node is.  A source is read in the same way, each node being linked to the element that is
open.

Main definitions:

* `ViewCompiler.Tree.Extends` — a tree to which nodes were added;
* `ViewCompiler.Tree.HasRoom` — a copy below which the children can be copied;
* `ViewCompiler.Construction.records` — the records of a tree that is being read.

Main results:

* `ViewCompiler.depthFirst_map` — two walks with a stack that do the same;
* `ViewCompiler.Tree.Accounted.importSubtree_arena`,
  `ViewCompiler.Tree.Accounted.importChildren_arena`,
  `ViewCompiler.Tree.Accounted.compacted_arena` — **copies made link by link**;
* `ViewCompiler.Arena.parse_eq` — **sources read link by link**.
-/

import ViewCompiler.Proofs.Markup.Copying
import ViewCompiler.Proofs.Markup.Unlinking

set_option relaxedAutoImplicit false
set_option autoImplicit false

namespace ViewCompiler

/-- **Two walks that do the same at every visit come to the same.**  What makes the visits do the
same may depend on the state and on what is on the stack. -/
theorem depthFirst_map {σ τ α : Type} {visit : σ → α → σ × List α} {visit' : τ → α → τ × List α}
    {f : σ → τ} {Inv : σ → List α → Prop}
    (hvisit : ∀ s x stack, Inv s (x :: stack) →
      visit' (f s) x = (f (visit s x).1, (visit s x).2) ∧
        Inv (visit s x).1 ((visit s x).2 ++ stack))
    (fuel : Nat) {stack : List α} {s : σ} (h : Inv s stack) :
    depthFirst visit' fuel stack (f s) = f (depthFirst visit fuel stack s) ∧
      ∃ stack', Inv (depthFirst visit fuel stack s) stack' := by
  induction fuel generalizing stack s with
  | zero => exact ⟨rfl, stack, h⟩
  | succ fuel ih =>
      cases stack with
      | nil => exact ⟨rfl, [], h⟩
      | cons x stack =>
          obtain ⟨heq, hinv⟩ := hvisit s x stack h
          obtain ⟨hmore, hend⟩ := ih hinv
          rw [depthFirst, depthFirst, heq]
          exact ⟨hmore, hend⟩

theorem Forest.roots_reverseOnto {ι : Type} (f g : Forest ι) :
    (f.reverseOnto g).roots = f.roots.reverse ++ g.roots := by
  induction f generalizing g with
  | nil => rfl
  | element label name attributes children rest _ ih => simp [reverseOnto, ih, roots]
  | leaf label kind content rest ih => simp [reverseOnto, ih, roots]

namespace Tree

variable {t t' u : Tree} {id target child : NodeId}

/-! ### One copy -/

/-- Nodes were added, and what there was before is of the same kind. -/
structure Extends (t t' : Tree) : Prop where
  accounted : t'.Accounted
  size_le : t.size ≤ t'.size
  nodeKind_eq : ∀ x < t.size, t'.nodeKind x = t.nodeKind x

theorem Extends.refl (h : t.Accounted) : Extends t t :=
  ⟨h, Nat.le_refl _, fun _ _ => rfl⟩

theorem Extends.trans {t'' : Tree} (h : Extends t t') (h' : Extends t' t'') : Extends t t'' :=
  ⟨h'.accounted, h.size_le.trans h'.size_le, fun x hx =>
    (h'.nodeKind_eq x (Nat.lt_of_lt_of_le hx h.size_le)).trans (h.nodeKind_eq x hx)⟩

/-- The second node is one that can have children if the first one, of which it is a copy, has
any. -/
structure HasRoom (u t : Tree) (x : NodeId × NodeId) : Prop where
  lt_size : x.2 < t.size
  isElement : (u.children x.1).roots ≠ [] →
    ∃ name attributes, t.nodeKind x.2 = .element name attributes

theorem HasRoom.mono {x : NodeId × NodeId} (h : HasRoom u t x) (hext : Extends t t') :
    HasRoom u t' x where
  lt_size := Nat.lt_of_lt_of_le h.lt_size hext.size_le
  isElement hchildren := by
    rw [hext.nodeKind_eq _ h.lt_size]
    exact h.isElement hchildren

/-- A bare copy is one node, which has nothing below it. -/
theorem exists_bareCopy (u : Tree) (id label : NodeId) : ∃ m : Node NodeId,
    u.bareCopy id label = .single m ∧ m.label = label ∧ m.below = .nil ∧
      m.kind.nodeKind = Arena.copiedKind (u.nodeKind id) := by
  rw [bareCopy, nodeKind, kind?]
  cases u.find? id with
  | none => exact ⟨.element ⟨label, "", [], .nil⟩, rfl, rfl, rfl, rfl⟩
  | some n =>
      cases n with
      | element e => exact ⟨.element ⟨label, e.name, e.attributes, .nil⟩, rfl, rfl, rfl, rfl⟩
      | leaf _ kind content => exact ⟨.leaf label kind content, rfl, rfl, rfl, rfl⟩

theorem find?_of_nodeKind {name : String} {attributes : Attributes}
    (h : t.nodeKind id = .element name attributes) : ∃ e, t.find? id = some (.element e) := by
  rw [nodeKind, kind?] at h
  cases hn : t.find? id with
  | none => simp [hn] at h
  | some n =>
      cases n with
      | element e => exact ⟨e, rfl⟩
      | leaf => simp [hn, Node.kind, Kind.nodeKind] at h

theorem copiedKind_of_find? {n : Node NodeId} (hn : t.find? id = some n) :
    Arena.copiedKind (t.nodeKind id) = t.nodeKind id := by
  rw [nodeKind, kind?, hn]
  cases n <;> rfl

namespace Accounted

/-- A new loose node extends the tree. -/
theorem extends_addLoose (h : t.Accounted) {m : Node NodeId} (hlabel : m.label = t.size)
    (hbelow : m.below = .nil) :
    Extends t ⟨t.content, .single m ++ t.loose, t.size + 1⟩ ∧
      nodeKind ⟨t.content, .single m ++ t.loose, t.size + 1⟩ t.size = m.kind.nodeKind := by
  have hlabels : (Forest.single m).labels = List.range' t.size 1 := by
    rw [Forest.labels_single, hlabel, hbelow]
    rfl
  have h' := h.addNumbered (n := 1) (.of_eq hlabels)
  have hpush : (t.arena.push m.kind.nodeKind).2 =
      arena ⟨t.content, .single m ++ t.loose, t.size + 1⟩ :=
    congrArg Prod.snd (h.push_arena hlabel hbelow)
  have hkind : ∀ x, nodeKind ⟨t.content, .single m ++ t.loose, t.size + 1⟩ x =
      (if x = t.size then m.kind.nodeKind else t.nodeKind x) := by
    intro x
    rw [← h'.kind_arena, ← hpush, Arena.kind, Arena.record_push, size_arena]
    split
    · rfl
    · exact h.kind_arena
  refine ⟨⟨h', Nat.le_succ _, fun x hx => ?_⟩, ?_⟩
  · rw [hkind, if_neg (Nat.ne_of_lt hx)]
  · rw [hkind, if_pos rfl]

/-- **One node is copied link by link.** -/
theorem copyChild_arena (h : t.Accounted) (hu : u.Accounted) {name : String}
    {attributes : Attributes} (htarget : t.nodeKind target = .element name attributes)
    {n : Node NodeId} (hn : u.find? child = some n) (found : List (NodeId × NodeId)) :
    u.arena.copyChild target (t.arena, found) child =
        ((u.copyChild target (t, found) child).1.arena,
          (u.copyChild target (t, found) child).2) ∧
      Extends t (u.copyChild target (t, found) child).1 ∧
      HasRoom u (u.copyChild target (t, found) child).1 (child, t.size) := by
  obtain ⟨m, hbare, hlabel, hbelow, hkind⟩ := u.exists_bareCopy child t.size
  rw [copiedKind_of_find? hn] at hkind
  obtain ⟨hloose, hnew⟩ := h.extends_addLoose hlabel hbelow
  have hpush := h.push_arena hlabel hbelow
  have h₁ := hloose.accounted
  obtain ⟨e, he⟩ := find?_of_nodeKind htarget
  have hroot := h.ne_root_of_find? he
  obtain rfl : e.label = target := Forest.label_of_find? ((t.find?_whole hroot).trans he)
  have hlt : e.label < t.size := (h.find?_ne_none_iff hroot).1 (by simp [he])
  -- the copy was loose, and stands behind the last child now
  have hgains : Gains ⟨t.content, .single m ++ t.loose, t.size + 1⟩
      (u.copyChild e.label (t, found) child).1 e.label t.size e.children.roots [] := by
    obtain ⟨others, hothers⟩ := h.exists_splicedTable he
    obtain ⟨rows, hold, hspliced⟩ := @records_appendBelow _ (.single m) e _ hothers
    refine ⟨rfl, .element e.name e.attributes, rows ++ (Forest.single m).records, ?_, ?_⟩
    · refine (records_addLoose t (.single m)).trans ((hold.append_left _).trans ?_)
      rw [List.append_nil]
      exact List.perm_append_comm.trans (.of_eq (List.cons_append ..))
    · rw [← t.whole_replace hroot, Forest.roots_single, hlabel, ← hbare] at hspliced
      rw [← hbare]
      exact hspliced
  have hplaced := hgains.placed h₁
  have h₂ := hgains.accounted h₁
  have hext : Extends t (u.copyChild e.label (t, found) child).1 :=
    hloose.trans ⟨h₂, Nat.le_of_eq hgains.1.symm, fun x _ => hplaced.nodeKind_eq x⟩
  refine ⟨?_, hext, Nat.lt_of_lt_of_le (Nat.lt_succ_self _) (Nat.le_of_eq hgains.1.symm), ?_⟩
  · have harena := hplaced.arena_eq h₁ h₂ (Nat.lt_succ_of_lt hlt) (Nat.lt_succ_self _)
    have hchildren : (children ⟨t.content, .single m ++ t.loose, t.size + 1⟩ e.label).roots =
        e.children.roots := by
      rw [hplaced.children_before, List.append_nil]
    rw [Arena.copyChild, hu.kind_arena, ← hkind, hpush]
    simp only
    rw [Arena.pushChild_eq (by rw [size_arena]; exact Nat.lt_succ_of_lt hlt), h₁.children_arena,
      hchildren, harena]
    rfl
  · intro hchildren
    obtain ⟨e', he'⟩ := exists_element_of_allowsChildren
      (u.allowsChildren_of_roots_children hchildren) (hu.ne_root_of_find? hn)
    refine ⟨e'.name, e'.attributes, ?_⟩
    rw [hplaced.nodeKind_eq, hnew, hkind, nodeKind, kind?, he']
    rfl

/-! ### Copies of whole subtrees -/

/-- The children of a node are copied link by link. -/
theorem foldl_copyChild_arena (h : t.Accounted) (hu : u.Accounted) {name : String}
    {attributes : Attributes} (htarget : t.nodeKind target = .element name attributes)
    (hlt : target < t.size) {ids : List NodeId} (hids : ∀ id ∈ ids, ∃ n, u.find? id = some n)
    (found : List (NodeId × NodeId)) (hfound : ∀ x ∈ found, HasRoom u t x) :
    ids.foldl (u.arena.copyChild target) (t.arena, found) =
        ((ids.foldl (u.copyChild target) (t, found)).1.arena,
          (ids.foldl (u.copyChild target) (t, found)).2) ∧
      Extends t (ids.foldl (u.copyChild target) (t, found)).1 ∧
      ∀ x ∈ (ids.foldl (u.copyChild target) (t, found)).2,
        HasRoom u (ids.foldl (u.copyChild target) (t, found)).1 x := by
  induction ids generalizing t found with
  | nil => exact ⟨rfl, .refl h, hfound⟩
  | cons id ids ih =>
      obtain ⟨n, hn⟩ := hids id List.mem_cons_self
      obtain ⟨hcopy, hext, hroom⟩ := h.copyChild_arena hu htarget hn found
      obtain ⟨hmore, hext', hrooms⟩ := ih hext.accounted
        ((hext.nodeKind_eq target hlt).trans htarget) (Nat.lt_of_lt_of_le hlt hext.size_le)
        (fun x hx => hids x (List.mem_cons_of_mem _ hx)) _
        (List.forall_mem_cons.2 ⟨hroom, fun x hx => (hfound x hx).mono hext⟩)
      rw [List.foldl_cons, hcopy]
      exact ⟨hmore, hext.trans hext', hrooms⟩

/-- What a walk that copies relies on: there is room for all that waits. -/
def Copying (u t : Tree) (waiting : List (NodeId × NodeId)) : Prop :=
  t.Accounted ∧ ∀ x ∈ waiting, HasRoom u t x

theorem copyVisit_arena (hu : u.Accounted) {x : NodeId × NodeId}
    {waiting : List (NodeId × NodeId)} (h : Copying u t (x :: waiting)) :
    u.arena.copyVisit t.arena x = ((u.copyVisit t x).1.arena, (u.copyVisit t x).2) ∧
      Copying u (u.copyVisit t x).1 ((u.copyVisit t x).2 ++ waiting) := by
  obtain ⟨ht, hwaiting⟩ := h
  obtain ⟨hroom, hwaiting⟩ := List.forall_mem_cons.1 hwaiting
  rw [Arena.copyVisit, Tree.copyVisit, hu.children_arena]
  by_cases hchildren : (u.children x.1).roots = []
  · rw [hchildren]
    exact ⟨rfl, ht, hwaiting⟩
  · obtain ⟨name, attributes, htarget⟩ := hroom.isElement hchildren
    have hids : ∀ id ∈ (u.children x.1).roots, ∃ n, u.find? id = some n := by
      intro id hid
      have hparent := hu.parent?_eq_some_iff.2 hid
      exact Option.ne_none_iff_exists'.1 ((hu.find?_ne_none_iff
        (hu.ne_root_of_parent? hparent)).2 (hu.lt_size_of_parent? hparent).1)
    obtain ⟨hfold, hext, hrooms⟩ :=
      ht.foldl_copyChild_arena hu htarget hroom.lt_size hids [] (by simp)
    refine ⟨hfold, hext.accounted, fun y hy => ?_⟩
    rcases List.mem_append.1 hy with hy | hy
    · exact hrooms y hy
    · exact (hwaiting y hy).mono hext

/-- **A subtree is copied link by link.** -/
theorem importSubtree_arena (h : t.Accounted) (hu : u.Accounted) (id : NodeId) :
    t.arena.importSubtree u.arena id =
        ((t.importSubtree u id).1, (t.importSubtree u id).2.arena) ∧
      (t.importSubtree u id).2.Accounted := by
  obtain ⟨m, hbare, hlabel, hbelow, hkind⟩ := u.exists_bareCopy id t.size
  obtain ⟨hloose, hnew⟩ := h.extends_addLoose hlabel hbelow
  have hroom : HasRoom u ⟨t.content, .single m ++ t.loose, t.size + 1⟩ (id, t.size) := by
    refine ⟨Nat.lt_succ_self _, fun hchildren => ?_⟩
    rw [hnew, hkind, nodeKind, kind?]
    by_cases hroot : id = root
    · rw [hroot, hu.find?_root]
      exact ⟨"", [], rfl⟩
    · obtain ⟨e, he⟩ := exists_element_of_allowsChildren
        (u.allowsChildren_of_roots_children hchildren) hroot
      rw [he]
      exact ⟨e.name, e.attributes, rfl⟩
  obtain ⟨hwalk, stack, hend⟩ := depthFirst_map (f := arena)
    (fun s x waiting hs => copyVisit_arena hu hs) u.size
    (show Copying u _ [(id, t.size)] from ⟨hloose.accounted, by simpa using hroom⟩)
  rw [Arena.importSubtree, hu.kind_arena, ← hkind, h.push_arena hlabel hbelow, size_arena,
    Tree.importSubtree, hbare]
  exact ⟨congrArg (Prod.mk t.size) hwalk, hend.1⟩

theorem foldl_importSubtree_arena (h : t.Accounted) (hu : u.Accounted) (ids copies : List NodeId) :
    ids.foldl (fun s child =>
        (s.1 ++ [(s.2.importSubtree u.arena child).1], (s.2.importSubtree u.arena child).2))
          (copies, t.arena) =
        ((ids.foldl (fun s child =>
            (s.1 ++ [(s.2.importSubtree u child).1], (s.2.importSubtree u child).2))
              (copies, t)).1,
          (ids.foldl (fun s child =>
            (s.1 ++ [(s.2.importSubtree u child).1], (s.2.importSubtree u child).2))
              (copies, t)).2.arena) ∧
      (ids.foldl (fun s child =>
        (s.1 ++ [(s.2.importSubtree u child).1], (s.2.importSubtree u child).2))
          (copies, t)).2.Accounted := by
  induction ids generalizing t copies with
  | nil => exact ⟨rfl, h⟩
  | cons id ids ih =>
      obtain ⟨hcopy, hacc⟩ := h.importSubtree_arena hu id
      rw [List.foldl_cons, List.foldl_cons, hcopy]
      exact ih hacc _

/-- **Children are copied link by link.** -/
theorem importChildren_arena (h : t.Accounted) (hu : u.Accounted) (id : NodeId) :
    t.arena.importChildren u.arena id =
        ((t.importChildren u id).1, (t.importChildren u id).2.arena) ∧
      (t.importChildren u id).2.Accounted := by
  rw [Arena.importChildren, hu.children_arena]
  exact h.foldl_importSubtree_arena hu (u.children id).roots []

/-! ### Copies of a document -/

/-- A loose piece becomes the last child of the document. -/
theorem addToContent_arena (h : t.Accounted) (hid : id < t.size) (hroot : id ≠ root)
    (hfree : t.parent? id = none) :
    t.arena.addToRoot id = (t.addToContent id).arena ∧
      Placed t (t.addToContent id) root id (t.children root).roots [] ∧
      (t.addToContent id).Accounted := by
  have hzero : root < t.size := h.mem_labels_iff.1 List.mem_cons_self
  have hallows : t.Allows root id := by
    refine ⟨rfl, hroot, hfree, fun habove => ?_⟩
    rcases Relation.ReflTransGen.cases_head habove with heq | ⟨p, hp, -⟩
    · exact hroot heq.symm
    · rw [h.parent?_eq_none_of_mem_roots List.mem_cons_self] at hp
      cases hp
  have happend : t.appendChild root id = .ok (t.addToContent id) := by
    rw [Tree.appendChild, h.checkInsert_eq_ok_iff.2 hallows]
    rfl
  obtain ⟨h', hplaced⟩ := h.placed_appendChild hid happend
  refine ⟨?_, hplaced, h'⟩
  rw [← hplaced.arena_eq h h' hzero hid, Arena.addToRoot, Arena.pushChild_eq (by simpa using hzero),
    Arena.children_setParent, h.children_arena]
  -- the two links are stored the other way round
  exact Arena.setChildren_setParent (by simpa using hid) (by simpa using hzero)

theorem foldl_addToContent_arena (h : t.Accounted) {ids : List NodeId} (hids : ids.Nodup)
    (hfree : ∀ id ∈ ids, id < t.size ∧ id ≠ root ∧ t.parent? id = none) :
    ids.foldl Arena.addToRoot t.arena = (ids.foldl addToContent t).arena := by
  induction ids generalizing t with
  | nil => rfl
  | cons id ids ih =>
      obtain ⟨hid, hids⟩ := List.nodup_cons.1 hids
      obtain ⟨⟨hlt, hroot, hloose⟩, hfree⟩ := List.forall_mem_cons.1 hfree
      obtain ⟨hstep, hplaced, h'⟩ := h.addToContent_arena hlt hroot hloose
      rw [List.foldl_cons, List.foldl_cons, hstep]
      refine ih h' hids fun x hx => ?_
      have hne : x ≠ id := fun heq => hid (heq ▸ hx)
      rw [hplaced.size_eq, hplaced.parent?_eq x hne]
      exact hfree x hx

/-- **A document is copied link by link.** -/
theorem compacted_arena (h : t.Accounted) : t.arena.compacted = t.compacted.arena := by
  obtain ⟨hcopies, hacc⟩ := accounted_empty.importChildren_arena h root
  have hnodup : (t.content.numberEach empty.size).1.labels.Nodup :=
    (t.content.labels_numberEach empty.size).nodup_iff.2 List.nodup_range'
  have hnew : Arena.new = empty.arena := rfl
  rw [← h.copyDocument_eq, copyDocument, Arena.compacted, hnew, hcopies]
  have himport := accounted_empty.importChildren_eq h h.root_lt_size
  rw [himport] at hacc ⊢
  refine hacc.foldl_addToContent_arena ?_ fun id hid => ?_
  · exact (List.nodup_append.1 (Forest.roots_append_children_nodup hnodup)).1
  · have hloose : id ∈ ((t.content.numberEach empty.size).1.reverseOnto .nil).roots := by
      rw [Forest.roots_reverseOnto, Forest.roots, List.append_nil, List.mem_reverse]
      exact hid
    have hlabel := Forest.mem_labels_of_mem_roots hloose
    refine ⟨hacc.mem_labels_iff.1 (List.mem_cons_of_mem _ (List.mem_append_right _ hlabel)), ?_,
      hacc.parent?_eq_none_of_mem_roots (List.mem_cons_of_mem _ hloose)⟩
    rintro rfl
    exact hacc.not_mem_loose.2 hlabel

end Accounted

end Tree

/-! ### Sources -/

namespace Construction

variable {c d : Construction}

/-- The records of the tree that is being read. -/
def records (c : Construction) : ArenaReading :=
  ⟨c.tree.arena, c.opened⟩

/-- A node that may be put into the tree is put there link by link. -/
theorem attach_records (hc : c.tree.Accounted) {m : Node NodeId} (hlabel : m.label = c.tree.size)
    (hbelow : m.below = .nil) (hok : c.attach (c.tree.size,
      ⟨c.tree.content, .single m ++ c.tree.loose, c.tree.size + 1⟩) = .ok d) :
    c.records.attach m.kind.nodeKind = d.records := by
  have hloose := (hc.extends_addLoose hlabel hbelow).1.accounted
  rw [attach] at hok
  split at hok
  · next t happend =>
      obtain rfl := Except.ok.inj hok
      have hallows : Tree.allowsChildren _ c.parent = true :=
        (hloose.checkInsert_eq_ok_iff.1 (by
          rw [Tree.appendChild] at happend
          split at happend
          · cases happend
          · assumption)).allowsChildren
      have hparent : c.parent < c.tree.size + 1 := by
        by_cases hroot : c.parent = Tree.root
        · rw [hroot]
          exact Nat.succ_pos _
        · obtain ⟨e, he⟩ := Tree.exists_element_of_allowsChildren hallows hroot
          exact (hloose.find?_ne_none_iff hroot).1 (by simp [he])
      have harena := hloose.appendChild_arena hparent (Nat.lt_succ_self c.tree.size)
      rw [happend] at harena
      simp only [ArenaReading.attach, records, hc.push_arena hlabel hbelow]
      exact congrArg (fun x : Option TreeError × Arena => (⟨x.2, c.opened⟩ : ArenaReading)) harena
  · cases hok

/-- The innermost element is compared with an end tag by its record. -/
theorem name?_records (hc : c.tree.Accounted) (id : NodeId) (name : String) :
    c.tree.name? id = some name ↔
      ∃ attributes, c.records.arena.kind id = .element name attributes := by
  rw [records, hc.kind_arena, Tree.name?, Tree.nodeKind, Tree.kind?]
  cases c.tree.find? id with
  | none => simp
  | some n => cases n <;> simp [Node.kind, Kind.nodeKind]

/-- A refused edit is no fault of the tokens. -/
theorem attach_ne_fault (created : NodeId × Tree) (e : ParseError) :
    c.attach created ≠ .error (.fault e) := by
  rw [attach]
  split <;> simp

/-- A node that no edit refuses is put into the tree, whatever the tokens are. -/
theorem attach_map_records (hc : c.tree.Accounted) {m : Node NodeId}
    (hlabel : m.label = c.tree.size) (hbelow : m.below = .nil)
    {result : Except ParseError Construction} (hattach : c.attach (c.tree.size,
      ⟨c.tree.content, .single m ++ c.tree.loose, c.tree.size + 1⟩) = result.mapError .fault) :
    .ok (c.records.attach m.kind.nodeKind) = result.map records := by
  cases result with
  | error e => exact absurd hattach (attach_ne_fault _ e)
  | ok d => exact congrArg Except.ok (attach_records hc hlabel hbelow hattach)

/-- An element is opened link by link. -/
theorem open_records (hc : c.tree.Accounted) {name : String} {attributes : Attributes}
    {position : Nat} {result : Except ParseError Construction}
    (hstep : c.step (.startTag name attributes false position) = result.mapError .fault) :
    c.records.step (.startTag name attributes false position) = result.map records := by
  have helement : ∀ {d : Construction}, c.attach (c.tree.createElement name attributes) = .ok d →
      c.records.attach (.element name attributes) = d.records :=
    attach_records hc (m := .element ⟨c.tree.size, name, attributes, .nil⟩) rfl rfl
  rw [step] at hstep
  cases hattach : c.attach (c.tree.createElement name attributes) with
  | error e =>
      rw [hattach] at hstep
      cases result with
      | error e' => exact absurd (hattach.trans hstep) (attach_ne_fault _ e')
      | ok d => cases hstep
  | ok d =>
      rw [hattach] at hstep
      cases result with
      | error e' => cases hstep
      | ok d' =>
          obtain rfl := Except.ok.inj hstep
          simp only [ArenaReading.step, helement hattach]
          simp [Except.map, records, Tree.createElement]

/-- An element is closed, or found to be another one, by its record. -/
theorem close_records (hc : c.tree.Accounted) {name : String} {position : Nat}
    {result : Except ParseError Construction}
    (hstep : c.step (.endTag name position) = result.mapError .fault) :
    c.records.step (.endTag name position) = result.map records := by
  rw [step] at hstep
  rw [ArenaReading.step]
  have hrecords : c.records.opened = c.opened := rfl
  rw [hrecords]
  cases hopened : c.opened with
  | nil =>
      rw [hopened] at hstep
      cases result with
      | error e =>
          cases hstep
          rfl
      | ok d => cases hstep
  | cons innermost opened =>
      rw [hopened] at hstep
      simp only at hstep ⊢
      have hname := name?_records hc innermost.1 name
      split at hstep
      · next heq =>
          obtain ⟨attributes, hkind⟩ := hname.1 heq
          rw [hkind]
          cases result with
          | error e => cases hstep
          | ok d =>
              obtain rfl := Except.ok.inj hstep
              simp [Except.map, records]
      · next hne =>
          have hkind := mt hname.2 hne
          cases result with
          | ok d => cases hstep
          | error e =>
              obtain rfl := BuildFailure.fault.inj (Except.error.inj hstep)
              split
              · next opening attributes heq =>
                  have hother : opening ≠ name := by
                    rintro rfl
                    exact hkind ⟨attributes, heq⟩
                  rw [if_neg hother]
                  rfl
              · rfl

/-- **One token is read link by link**, if no edit is refused. -/
theorem step_records (hc : c.tree.Accounted) {token : Token}
    {result : Except ParseError Construction} (hstep : c.step token = result.mapError .fault) :
    c.records.step token = result.map records := by
  cases token with
  | text content =>
      exact attach_map_records hc (m := .leaf c.tree.size .text content) rfl rfl hstep
  | comment content =>
      exact attach_map_records hc (m := .leaf c.tree.size .comment content) rfl rfl hstep
  | startTag name attributes closed position =>
      cases closed with
      | true =>
          exact attach_map_records hc (m := .element ⟨c.tree.size, name, attributes, .nil⟩) rfl rfl
            hstep
      | false => exact open_records hc hstep
  | endTag name position => exact close_records hc hstep

end Construction

/-- Tokens are read link by link. -/
theorem Reading.steps_records {r : Reading} (hr : r.tree.Accounted) (tokens : List Token) :
    r.construction.records.steps tokens =
      (r.steps tokens).map fun s => s.construction.records := by
  induction tokens generalizing r with
  | nil => rfl
  | cons token more ih =>
      obtain ⟨hstep, hacc⟩ := construction_step hr token
      rw [ArenaReading.steps, Reading.steps, Construction.step_records hr hstep]
      cases hs : r.step token with
      | error e => rfl
      | ok s => exact ih (hacc s hs)

/-- **Sources are read link by link.** -/
theorem Arena.parse_eq (source : String) :
    parse source = (ViewCompiler.parse source).map Tree.arena := by
  have hstart : (⟨.new, []⟩ : ArenaReading) = Reading.start.construction.records := rfl
  have htokens : ∀ tokens, ofTokens tokens = (Tree.ofTokens tokens).map Tree.arena := by
    intro tokens
    rw [ofTokens, Tree.ofTokens, hstart, Reading.steps_records (r := .start) Tree.accounted_empty]
    cases Reading.start.steps tokens with
    | error e => rfl
    | ok r =>
        -- when no element is open any more, what was read is the tree
        change r.construction.records.finish = r.finish.map Tree.arena
        rw [ArenaReading.finish, Reading.finish, Construction.records, Reading.construction,
          Reading.tree]
        cases r.opened <;> rfl
  rw [parse, ViewCompiler.parse]
  cases tokenize source with
  | error e => rfl
  | ok tokens => exact htokens tokens

end ViewCompiler
