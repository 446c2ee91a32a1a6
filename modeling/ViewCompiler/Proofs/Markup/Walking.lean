/-
**Visiting with a stack.**

What is on the stack is always the top level of a forest: of what there is still to visit.  Taking
the first thing off and putting its children there turns the forest of an element, its children and
its siblings into that of the children followed by the siblings.  So things are visited in document
order, each of them once, and what holds before and after each visit can be stated of the labels
that are still to come.  A visit that does not go on below some nodes goes through the forest
without what is below them.

Main definitions:

* `ViewCompiler.Forest.Follows` — a visit finds what the forest has below a node;
* `ViewCompiler.Forest.pruned` — a forest with nothing below some nodes;
* `ViewCompiler.Tree.document` — the document as a forest of one node;
* `ViewCompiler.Tree.StrictlyAbove` — going up at least once;
* `ViewCompiler.Tree.PartOf` — some nodes of a tree with everything below them.

Main results:

* `ViewCompiler.depthFirst_invariant` — **what every visit keeps holds when all is visited**;
* `ViewCompiler.depthFirst_eq_foldl` — a visit that finds the same whenever it comes is a step of a
  fold over the labels;
* `ViewCompiler.Forest.mem_labels_pruned_iff` — what is left lies below no node that was pruned;
* `ViewCompiler.Tree.Accounted.follows` — the document is followed by looking up children;
* `ViewCompiler.Tree.Accounted.mem_labels_children_iff` — below a node are those from which going up
  leads to it;
* `ViewCompiler.Tree.Accounted.descendants_eq` — the nodes below a node are visited in document
  order.
-/

import Mathlib.Data.List.Perm.Subperm
import ViewCompiler.Proofs.Markup.Relabelling
import ViewCompiler.Proofs.Markup.WellFormed

set_option relaxedAutoImplicit false
set_option autoImplicit false

namespace ViewCompiler

variable {σ α : Type}

/-- Behind every node is found what the forest has as its children. -/
def Forest.Follows (found : α → List α) (f : Forest α) : Prop :=
  ∀ row ∈ f.records, found row.1 = row.2.children

namespace Forest

variable {found : α → List α} {label : α} {name : String} {attributes : Attributes}
  {children rest f g : Forest α} {kind : LeafKind} {content : String}

theorem follows_nil : (nil : Forest α).Follows found :=
  List.forall_mem_nil _

theorem follows_element : (element label name attributes children rest).Follows found ↔
    found label = children.roots ∧ children.Follows found ∧ rest.Follows found :=
  List.forall_mem_cons.trans (and_congr_right fun _ => List.forall_mem_append)

theorem follows_leaf : (leaf label kind content rest).Follows found ↔
    found label = [] ∧ rest.Follows found :=
  List.forall_mem_cons

theorem follows_append : (f ++ g).Follows found ↔ f.Follows found ∧ g.Follows found := by
  rw [Follows, records_append, List.forall_mem_append]
  rfl

end Forest

/-- An invariant is stated of the labels that are still to visit, in document order.  If a visit to
the first of them keeps it, and there is fuel for all of them, then it holds at the end, when none
is left. -/
theorem depthFirst_invariant {visit : σ → α → σ × List α} {found : α → List α}
    {I : List α → σ → Prop}
    (hvisit : ∀ x more s, I (x :: more) s → ∃ s', visit s x = (s', found x) ∧ I more s')
    {f : Forest α} (hf : f.Follows found) {fuel : Nat} (hfuel : f.labels.length ≤ fuel) {s : σ}
    (hs : I f.labels s) : I [] (depthFirst visit fuel f.roots s) := by
  induction fuel generalizing f s with
  | zero =>
      rw [List.eq_nil_of_length_eq_zero (Nat.le_zero.1 hfuel)] at hs
      exact hs
  | succ fuel ih =>
      cases f with
      | nil => exact hs
      | leaf label kind content rest =>
          obtain ⟨hrow, hrest⟩ := Forest.follows_leaf.1 hf
          obtain ⟨s', hstep, hs'⟩ := hvisit label rest.labels s hs
          rw [Forest.roots, depthFirst, hstep, hrow]
          exact ih hrest (Nat.le_of_succ_le_succ hfuel) hs'
      | element label name attributes children rest =>
          obtain ⟨hrow, hchildren, hrest⟩ := Forest.follows_element.1 hf
          obtain ⟨s', hstep, hs'⟩ := hvisit label (children.labels ++ rest.labels) s hs
          rw [Forest.roots, depthFirst, hstep, hrow]
          -- what is left is one forest: the children in front of the siblings
          dsimp only
          rw [← Forest.labels_append] at hs'
          rw [← Forest.roots_append]
          refine ih (Forest.follows_append.2 ⟨hchildren, hrest⟩) ?_ hs'
          rw [Forest.labels_append]
          exact Nat.le_of_succ_le_succ hfuel

/-- If what is found does not depend on the state, all visits together are one fold over the labels
in document order. -/
theorem depthFirst_eq_foldl {visit : σ → α → σ × List α} {found : α → List α} {step : σ → α → σ}
    (hvisit : ∀ s x, visit s x = (step s x, found x)) {f : Forest α} (hf : f.Follows found)
    {fuel : Nat} (hfuel : f.labels.length ≤ fuel) (s : σ) :
    depthFirst visit fuel f.roots s = f.labels.foldl step s :=
  -- the fold over what is still to visit leads from every state on the way to the same end
  depthFirst_invariant (I := fun todo s' => todo.foldl step s' = f.labels.foldl step s)
    (fun x _ s' h => ⟨step s' x, hvisit s' x, h⟩) hf hfuel rfl

/-! ### Visits that do not go on -/

namespace Forest

/-- The forest with nothing below the elements where `stop` holds. -/
def pruned (stop : α → Bool) : Forest α → Forest α
  | nil => nil
  | element label name attributes children rest =>
      element label name attributes (if stop label then nil else children.pruned stop)
        (rest.pruned stop)
  | leaf label kind content rest => leaf label kind content (rest.pruned stop)

variable {f : Forest α} {stop : α → Bool} {x : α}

theorem roots_pruned (f : Forest α) (stop : α → Bool) : (f.pruned stop).roots = f.roots := by
  induction f with
  | nil => rfl
  | element label _ _ _ _ _ ih => exact congrArg (label :: ·) ih
  | leaf label _ _ _ ih => exact congrArg (label :: ·) ih

theorem labels_pruned_sublist (f : Forest α) (stop : α → Bool) :
    (f.pruned stop).labels.Sublist f.labels := by
  induction f with
  | nil => exact List.Sublist.refl _
  | element label name attributes children rest ihc ihr =>
      rw [pruned, labels, labels]
      refine (List.Sublist.append ?_ ihr).cons_cons _
      split
      · exact List.nil_sublist _
      · exact ihc
  | leaf _ _ _ _ ih => exact ih.cons_cons _

/-- Where a visit does not go on, it finds nothing. -/
theorem Follows.pruned {found : α → List α} (h : f.Follows found) (stop : α → Bool) :
    (f.pruned stop).Follows fun x => if stop x then [] else found x := by
  induction f with
  | nil => exact follows_nil
  | element label name attributes children rest ihc ihr =>
      obtain ⟨hself, hchildren, hrest⟩ := follows_element.1 h
      refine follows_element.2 ⟨?_, ?_, ihr hrest⟩
      · split
        · rfl
        · rw [hself, roots_pruned]
      · split
        · exact follows_nil
        · exact ihc hchildren
  | leaf label kind content rest ih =>
      obtain ⟨hself, hrest⟩ := follows_leaf.1 h
      exact follows_leaf.2 ⟨by rw [hself, ite_self], ih hrest⟩

theorem labels_children_subset {e : Element α} (he : e ∈ f.elements) :
    e.children.labels ⊆ f.labels := by
  induction f with
  | nil => cases he
  | element label name attributes children rest ihc ihr =>
      intro x hx
      refine List.mem_cons_of_mem _ (List.mem_append.2 ?_)
      rcases List.mem_cons.1 he with rfl | he
      · exact .inl hx
      · exact (List.mem_append.1 he).imp (fun he => ihc he hx) fun he => ihr he hx
  | leaf label kind content rest ih => exact fun x hx => List.mem_cons_of_mem _ (ih he hx)

/-- **What is left lies below no node that was pruned.** -/
theorem mem_labels_pruned_iff (hf : f.labels.Nodup) :
    x ∈ (f.pruned stop).labels ↔
      x ∈ f.labels ∧ ∀ e ∈ f.elements, stop e.label = true → x ∉ e.children.labels := by
  induction f with
  | nil => simp [pruned, labels]
  | leaf label kind content rest ih =>
      obtain ⟨hlabel, hrest⟩ := List.nodup_cons.1 hf
      rw [pruned, labels, labels, List.mem_cons, List.mem_cons, ih hrest]
      constructor
      · rintro (rfl | ⟨hx, hbelow⟩)
        · exact ⟨.inl rfl, fun e he _ hx => hlabel (labels_children_subset (f := rest) he hx)⟩
        · exact ⟨.inr hx, hbelow⟩
      · rintro ⟨hx, hbelow⟩
        exact hx.imp_right fun hx => ⟨hx, hbelow⟩
  | element label name attributes children rest ihc ihr =>
      obtain ⟨hlabel, hbelow⟩ := List.nodup_cons.1 hf
      obtain ⟨hchildren, hrest, hdisjoint⟩ := List.nodup_append'.1 hbelow
      -- a label below the siblings is not one below the element, and the other way round
      have hinside : ∀ e ∈ children.elements, e.children.labels ⊆ children.labels :=
        fun e he => labels_children_subset he
      have hbeside : ∀ e ∈ rest.elements, e.children.labels ⊆ rest.labels :=
        fun e he => labels_children_subset he
      have hleft : x ∈ (if stop label then nil else children.pruned stop).labels ↔
          stop label = false ∧ x ∈ children.labels ∧
            ∀ e ∈ children.elements, stop e.label = true → x ∉ e.children.labels := by
        rw [← ihc hchildren]
        cases stop label <;> simp [labels]
      rw [pruned, labels, labels, List.mem_cons, List.mem_cons, List.mem_append, List.mem_append,
        hleft, ihr hrest, elements, List.forall_mem_cons, List.forall_mem_append]
      constructor
      · rintro (rfl | ⟨hgo, hx, hclear⟩ | ⟨hx, hclear⟩)
        · refine ⟨.inl rfl, fun _ hx => hlabel (List.mem_append_left _ hx), ?_, ?_⟩
          · exact fun e he _ hx => hlabel (List.mem_append_left _ (hinside e he hx))
          · exact fun e he _ hx => hlabel (List.mem_append_right _ (hbeside e he hx))
        · refine ⟨.inr (.inl hx), fun hstop => ?_, hclear, ?_⟩
          · rw [hgo] at hstop
            cases hstop
          · exact fun e he _ hx' => hdisjoint hx (hbeside e he hx')
        · refine ⟨.inr (.inr hx), fun _ hx' => hdisjoint hx' hx, ?_, hclear⟩
          exact fun e he _ hx' => hdisjoint (hinside e he hx') hx
      · rintro ⟨hx, hself, hclear, hclear'⟩
        rcases hx with rfl | hx | hx
        · exact .inl rfl
        · refine .inr (.inl ⟨Bool.eq_false_iff.2 fun hstop => hself hstop hx, hx, hclear⟩)
        · exact .inr (.inr ⟨hx, hclear'⟩)

end Forest

/-! ### The document -/

namespace Tree

variable {t : Tree}

/-- The document as a forest of one node. -/
def document (t : Tree) : Forest NodeId :=
  .single t.asNode

@[simp] theorem roots_document (t : Tree) : t.document.roots = [root] := rfl

@[simp] theorem labels_document (t : Tree) : t.document.labels = root :: t.content.labels :=
  Forest.labels_single _

/-- In the document the children of a node are found by looking them up. -/
theorem Accounted.follows (ht : t.Accounted) :
    t.document.Follows fun id => (t.children id).roots := by
  intro row hrow
  refine ht.roots_children_of_mem ?_
  rw [whole, Forest.records_append]
  exact List.mem_append_left _ hrow

/-- There are not more nodes in the document than numbers. -/
theorem Accounted.length_document_le (ht : t.Accounted) :
    t.document.labels.length ≤ t.size := by
  have hlength : t.whole.labels.length = t.size := by
    rw [ht.length_eq, List.length_range]
  rw [← hlength, whole, Forest.labels_append, List.length_append]
  exact Nat.le_add_right _ _

theorem Accounted.children_of_mem_elements (ht : t.Accounted) {e : Element NodeId}
    (he : e ∈ t.content.elements) : t.children e.label = e.children := by
  have hne : e.label ≠ root := fun heq =>
    ht.not_mem_loose.1 (heq ▸ Forest.label_mem_labels he)
  rw [children, if_neg hne, find?, Forest.find?_of_mem_elements ht.nodup_content he,
    Option.some_or]

/-- A node other than the document with nodes of the document below it is one of its elements. -/
theorem Accounted.exists_element_of_below (ht : t.Accounted) {id ancestor : NodeId}
    (hid : id ∈ t.content.labels) (hne : ancestor ≠ root)
    (hbelow : id ∈ (t.children ancestor).labels) :
    ∃ e ∈ t.content.elements, e.label = ancestor ∧ id ∈ e.children.labels := by
  rw [children, if_neg hne] at hbelow
  cases hn : t.find? ancestor with
  | none =>
      rw [hn] at hbelow
      cases hbelow
  | some n =>
      rw [hn] at hbelow
      cases n with
      | leaf => cases hbelow
      | element e =>
          rw [find?, Option.or_eq_some_iff] at hn
          rcases hn with hn | ⟨-, hn⟩
          · exact ⟨e, Forest.mem_elements_of_find? hn, Forest.label_of_find? hn, hbelow⟩
          · -- below a loose piece there is nothing of the document
            have hloose := Forest.labels_children_subset (Forest.mem_elements_of_find? hn) hbelow
            exact absurd (List.mem_cons_of_mem _ hid) (ht.not_mem_nodes hloose)

/-- A walk that does not go on below some nodes arrives at what lies below none of them. -/
theorem Accounted.mem_labels_pruned_iff (ht : t.Accounted) {stop : NodeId → Bool}
    (hstop : stop root = false) {id : NodeId} :
    id ∈ (t.content.pruned stop).labels ↔
      id ∈ t.content.labels ∧ ∀ ancestor, stop ancestor = true →
        id ∉ (t.children ancestor).labels := by
  rw [Forest.mem_labels_pruned_iff ht.nodup_content]
  refine and_congr_right fun hid => ⟨fun hclear ancestor hancestor hmem => ?_, ?_⟩
  · have hne : ancestor ≠ root := by
      rintro rfl
      rw [hstop] at hancestor
      cases hancestor
    obtain ⟨e, he, rfl, hbelow⟩ := ht.exists_element_of_below hid hne hmem
    exact hclear e he hancestor hbelow
  · intro hclear e he hancestor hmem
    refine hclear e.label hancestor ?_
    rw [ht.children_of_mem_elements he]
    exact hmem

/-! ### Parts of a tree -/

/-- `ancestor` is the parent of the node, or the parent of that, and so on. -/
def StrictlyAbove (t : Tree) (ancestor id : NodeId) : Prop :=
  Relation.TransGen (fun child parent => t.parent? child = some parent) id ancestor

theorem Accounted.root_lt_size (ht : t.Accounted) : root < t.size :=
  ht.mem_labels_iff.1 List.mem_cons_self

/-- The numbers of the tree are those around a node, its own, and those below it. -/
theorem Accounted.exists_around (ht : t.Accounted) {id : NodeId} (hid : id < t.size) :
    ∃ others, t.whole.labels.Perm (others ++ id :: (t.children id).labels) := by
  obtain ⟨n, hn⟩ := Forest.exists_find?_iff.2 (ht.mem_labels_iff.2 hid)
  obtain ⟨others, hothers⟩ := Forest.exists_splicedTable ht.nodup hn
  refine ⟨others.map (·.1), hothers.labels_perm.trans (.of_eq ?_)⟩
  rw [Forest.labels_single, Forest.label_of_find? hn, children_eq, hn]
  rfl

theorem Accounted.nodup_labels_children (ht : t.Accounted) {id : NodeId} (hid : id < t.size) :
    (id :: (t.children id).labels).Nodup := by
  obtain ⟨others, hothers⟩ := ht.exists_around hid
  exact (List.nodup_append.1 (hothers.nodup_iff.1 ht.nodup)).2.1

/-- Going up leads to what stands before in document order. -/
theorem Accounted.idxOf_lt_of_strictlyAbove (ht : t.Accounted) {ancestor id : NodeId}
    (h : t.StrictlyAbove ancestor id) :
    t.whole.labels.idxOf ancestor < t.whole.labels.idxOf id := by
  induction h with
  | single hparent => exact ht.idxOf_parent_lt hparent
  | tail _ hparent ih => exact Nat.lt_trans (ht.idxOf_parent_lt hparent) ih

theorem Accounted.lt_size_of_mem_labels_children (ht : t.Accounted) {id x : NodeId}
    (hx : x ∈ (t.children id).labels) : id < t.size := by
  refine ht.mem_labels_iff.1 (Forest.exists_find?_iff.1 ?_)
  rw [children_eq] at hx
  cases hn : t.whole.find? id with
  | none =>
      rw [hn] at hx
      cases hx
  | some n => exact ⟨n, rfl⟩

/-- **Below a node are those from which going up leads to it.** -/
theorem Accounted.mem_labels_children_iff (ht : t.Accounted) {id x : NodeId} :
    x ∈ (t.children id).labels ↔ t.StrictlyAbove id x := by
  have hbelow : x = id ∨ x ∈ (t.children id).labels ↔ t.Above id x := by
    rw [← ht.isAncestorOrSelf_iff, isAncestorOrSelf_eq_true]
  constructor
  · intro hx
    have hne : id ≠ x := by
      rintro rfl
      have hid := ht.lt_size_of_mem_labels_children hx
      exact (List.nodup_cons.1 (ht.nodup_labels_children hid)).1 hx
    exact (Relation.reflTransGen_iff_eq_or_transGen.1 (hbelow.1 (.inr hx))).resolve_left hne
  · intro hup
    refine (hbelow.2 hup.to_reflTransGen).resolve_left ?_
    rintro rfl
    exact Nat.lt_irrefl _ (ht.idxOf_lt_of_strictlyAbove hup)

/-- Some nodes of a tree, not the document among them, with everything below them. -/
structure PartOf (t : Tree) (f : Forest NodeId) : Prop where
  records_subset : f.records ⊆ t.whole.records
  nodup : f.labels.Nodup
  root_not_mem : root ∉ f.labels

namespace PartOf

variable {f g : Forest NodeId}

/-- Fewer nodes of the tree. -/
theorem mono (hf : t.PartOf f) (h : g.records.Sublist f.records) : t.PartOf g := by
  have hlabels : g.labels.Sublist f.labels := by
    rw [← Forest.map_fst_records, ← Forest.map_fst_records]
    exact h.map _
  exact ⟨fun _ hrow => hf.records_subset (h.subset hrow), hlabels.nodup hf.nodup,
    fun hmem => hf.root_not_mem (hlabels.subset hmem)⟩

theorem left (hf : t.PartOf (f ++ g)) : t.PartOf f := by
  refine hf.mono ?_
  rw [Forest.records_append]
  exact List.sublist_append_left _ _

theorem right (hf : t.PartOf (f ++ g)) : t.PartOf g := by
  refine hf.mono ?_
  rw [Forest.records_append]
  exact List.sublist_append_right _ _

variable {label : NodeId} {name : String} {attributes : Attributes}
  {children rest : Forest NodeId} {kind : LeafKind} {content : String}

theorem inside (hf : t.PartOf (.element label name attributes children rest)) :
    t.PartOf children :=
  hf.mono ((List.sublist_append_left _ _).cons _)

theorem behind (hf : t.PartOf (.element label name attributes children rest)) : t.PartOf rest :=
  hf.mono ((List.sublist_append_right _ _).cons _)

theorem behind_leaf (hf : t.PartOf (.leaf label kind content rest)) : t.PartOf rest :=
  hf.mono ((List.Sublist.refl _).cons _)

/-- There are fewer nodes than numbers, since the document has one as well. -/
theorem length_labels_lt (hf : t.PartOf f) (ht : t.Accounted) : f.labels.length < t.size := by
  have hnodup : (root :: f.labels).Nodup := List.nodup_cons.2 ⟨hf.root_not_mem, hf.nodup⟩
  have hsub : root :: f.labels ⊆ List.range t.size := by
    refine List.cons_subset.2 ⟨List.mem_range.2 ht.root_lt_size, fun x hx => ?_⟩
    obtain ⟨r, hr⟩ := Forest.exists_record hx
    exact ht.mem_iff.1 (Forest.mem_labels_of_mem_records (hf.records_subset hr))
  have hlength := (hnodup.subperm hsub).length_le
  rwa [List.length_cons, List.length_range] at hlength

/-- The children of the nodes are found by looking them up. -/
theorem follows (hf : t.PartOf f) (ht : t.Accounted) :
    f.Follows fun x => (t.children x).roots := fun _ hrow =>
  ht.roots_children_of_mem (hf.records_subset hrow)

/-- What the nodes are is found by looking them up. -/
theorem find?_of_mem (hf : t.PartOf f) (ht : t.Accounted) {row : NodeId × Record NodeId}
    (hrow : row ∈ f.records) :
    ∃ n, t.find? row.1 = some n ∧ n.label = row.1 ∧ n.record = row.2 := by
  have hne : row.1 ≠ root := by
    intro heq
    exact hf.root_not_mem (heq ▸ Forest.mem_labels_of_mem_records hrow)
  obtain ⟨n, hn, hrecord⟩ := Option.map_eq_some_iff.1
    (ht.record?_eq_some_iff.2 (hf.records_subset hrow))
  exact ⟨n, by rw [← t.find?_whole hne, hn], Forest.label_of_find? hn, hrecord⟩

theorem roots_children (hf : t.PartOf (.element label name attributes children rest))
    (ht : t.Accounted) : (t.children label).roots = children.roots :=
  hf.follows ht _ List.mem_cons_self

theorem roots_children_leaf (hf : t.PartOf (.leaf label kind content rest)) (ht : t.Accounted) :
    (t.children label).roots = [] :=
  hf.follows ht _ List.mem_cons_self

theorem ne_root (hf : t.PartOf (.element label name attributes children rest)) : label ≠ root :=
  fun h => hf.root_not_mem (h ▸ List.mem_cons_self)

theorem ne_root_leaf (hf : t.PartOf (.leaf label kind content rest)) : label ≠ root :=
  fun h => hf.root_not_mem (h ▸ List.mem_cons_self)

theorem find?_element (hf : t.PartOf (.element label name attributes children rest))
    (ht : t.Accounted) : ∃ below, t.find? label = some (.element ⟨label, name, attributes, below⟩) ∧
      below.roots = children.roots := by
  obtain ⟨n, hn, rfl, hrecord⟩ := hf.find?_of_mem ht List.mem_cons_self
  obtain ⟨hkind, hroots⟩ := Record.mk.inj hrecord
  cases n with
  | element e =>
      obtain ⟨rfl, rfl⟩ := Kind.element.inj hkind
      exact ⟨e.children, hn, hroots⟩
  | leaf => cases hkind

theorem find?_leaf (hf : t.PartOf (.leaf label kind content rest)) (ht : t.Accounted) :
    t.find? label = some (.leaf label kind content) := by
  obtain ⟨n, hn, rfl, hrecord⟩ := hf.find?_of_mem ht List.mem_cons_self
  have hkind := (Record.mk.inj hrecord).1
  cases n with
  | element => cases hkind
  | leaf l k c =>
      obtain ⟨rfl, rfl⟩ := Kind.leaf.inj hkind
      exact hn

end PartOf

/-- What is below a node is part of the tree. -/
theorem Accounted.partOf_children (ht : t.Accounted) {id : NodeId} (hid : id < t.size) :
    t.PartOf (t.children id) where
  records_subset := ht.records_children_subset id
  nodup := (List.nodup_cons.1 (ht.nodup_labels_children hid)).2
  root_not_mem hroot := by
    obtain ⟨parent, hparent, -⟩ :=
      Relation.TransGen.head'_iff.1 (ht.mem_labels_children_iff.1 hroot)
    exact ht.ne_root_of_parent? hparent rfl

theorem Accounted.partOf_content (ht : t.Accounted) : t.PartOf t.content :=
  ht.partOf_children ht.root_lt_size

/-- Visiting the nodes below a node, one by one, in document order. -/
theorem PartOf.descendants_eq {f : Forest NodeId} (hf : t.PartOf f) (ht : t.Accounted)
    {id : NodeId} (hroots : (t.children id).roots = f.roots) : t.descendants id = f.labels := by
  have hrun : depthFirst (fun visited x => (x :: visited, (t.children x).roots)) t.size
      f.roots [] = f.labels.foldl (fun visited x => x :: visited) [] :=
    depthFirst_eq_foldl (fun _ _ => rfl) (hf.follows ht) (Nat.le_of_lt (hf.length_labels_lt ht)) []
  rw [descendants, hroots, hrun, List.foldl_eq_foldr_reverse, List.foldr_cons_nil,
    List.reverse_reverse]

/-- **The nodes below a node are visited in document order.** -/
theorem Accounted.descendants_eq (ht : t.Accounted) {id : NodeId} (hid : id < t.size) :
    t.descendants id = (t.children id).labels :=
  (ht.partOf_children hid).descendants_eq ht rfl

end Tree

end ViewCompiler
