/-
**The outermost fragments of a document.**

Fragments are searched for with a stack on which only elements are put, and nothing of what is below
a fragment.  So the search goes through the forest without leaves and without what is below
fragments, and of its elements it keeps those that are fragments.  In terms of parents these are the
fragments with no fragment above them.  Since going up is a chain, a node does not lie below two of
them; and going up from a fragment of the document, the last fragment on the way is one of them.

Main definitions:

* `ViewCompiler.Tree.IsFragment` — the node is an element named as fragments are;
* `ViewCompiler.Forest.searched` — the forest that the search goes through;
* `ViewCompiler.Tree.FindsOutermost` — what the search has to find.

Main results:

* `ViewCompiler.Tree.Accounted.fragmentRoots_eq` — the search finds the fragments of the walk that
  does not go on below fragments;
* `ViewCompiler.Tree.Accounted.mem_fragmentRoots_iff` — these are the ones with no fragment above
  them;
* `ViewCompiler.Tree.Accounted.findsOutermost` — **the search finds the outermost fragments**, each
  once and in document order.
-/

import ViewCompiler.Inheritance.Fragment
import ViewCompiler.Proofs.Markup.Walking

set_option relaxedAutoImplicit false
set_option autoImplicit false

namespace ViewCompiler

variable {ι : Type}

/-- The forest that the search goes through: its elements, but none below a fragment. -/
def Forest.searched : Forest ι → Forest ι
  | nil => nil
  | element label name attributes children rest =>
      element label name attributes (if isFragmentTag name then nil else children.searched)
        rest.searched
  | leaf _ _ _ rest => rest.searched

/-- The fragments are among the elements. -/
theorem Forest.fragments_subset (f : Forest ι) : f.fragments ⊆ f.elements := by
  induction f with
  | nil => exact List.nil_subset _
  | element label name attributes children rest ihc ihr =>
      rw [fragments, elements]
      split
      · exact List.cons_subset_cons _ fun e he => List.mem_append_right _ (ihr he)
      · exact fun e he => List.mem_cons_of_mem _ (List.mem_append.2
          ((List.mem_append.1 he).imp (fun he => ihc he) fun he => ihr he))
  | leaf _ _ _ _ ih => exact ih

namespace Tree

variable {t : Tree} {id : NodeId}

/-- The node is an element named as fragments are. -/
def IsFragment (t : Tree) (id : NodeId) : Prop :=
  t.name? id = some viewTag ∨ t.name? id = some templateTag

instance (t : Tree) (id : NodeId) : Decidable (t.IsFragment id) :=
  inferInstanceAs (Decidable (_ ∨ _))

theorem isFragmentRoot_iff : t.isFragmentRoot id = true ↔ t.IsFragment id := by
  rw [isFragmentRoot, IsFragment]
  cases t.name? id with
  | none => simp
  | some name => simp [isFragmentTag]

namespace PartOf

variable {f : Forest NodeId} {label : NodeId} {name : String} {attributes : Attributes}
  {children rest : Forest NodeId} {kind : LeafKind} {content : String}

theorem name?_element (hf : t.PartOf (.element label name attributes children rest))
    (ht : t.Accounted) : t.name? label = some name := by
  obtain ⟨below, hfind, -⟩ := hf.find?_element ht
  rw [name?, hfind]

theorem name?_leaf (hf : t.PartOf (.leaf label kind content rest)) (ht : t.Accounted) :
    t.name? label = none := by
  rw [name?, hf.find?_leaf ht]

theorem isFragmentRoot_element (hf : t.PartOf (.element label name attributes children rest))
    (ht : t.Accounted) : t.isFragmentRoot label = isFragmentTag name := by
  rw [isFragmentRoot, hf.name?_element ht]
  rfl

theorem isFragmentRoot_leaf (hf : t.PartOf (.leaf label kind content rest)) (ht : t.Accounted) :
    t.isFragmentRoot label = false := by
  rw [isFragmentRoot, hf.name?_leaf ht]
  rfl

theorem roots_searched (hf : t.PartOf f) (ht : t.Accounted) :
    f.searched.roots = f.roots.filter fun x => (t.name? x).isSome := by
  induction f with
  | nil => rfl
  | element label name attributes children rest _ ihr =>
      rw [Forest.searched, Forest.roots, Forest.roots,
        List.filter_cons_of_pos (by rw [hf.name?_element ht]; rfl), ihr hf.behind]
  | leaf label kind content rest ih =>
      rw [Forest.searched, Forest.roots,
        List.filter_cons_of_neg (by rw [hf.name?_leaf ht]; exact Bool.false_ne_true),
        ih hf.behind_leaf]

/-- The search arrives at the elements of the walk that does not go on below fragments. -/
theorem labels_searched (hf : t.PartOf f) (ht : t.Accounted) :
    f.searched.labels =
      (f.pruned t.isFragmentRoot).labels.filter fun x => (t.name? x).isSome := by
  induction f with
  | nil => rfl
  | element label name attributes children rest ihc ihr =>
      rw [Forest.searched, Forest.pruned, Forest.labels, Forest.labels, ihr hf.behind,
        hf.isFragmentRoot_element ht,
        List.filter_cons_of_pos (by rw [hf.name?_element ht]; rfl), List.filter_append]
      cases isFragmentTag name with
      | true => rfl
      | false => rw [if_neg Bool.false_ne_true, if_neg Bool.false_ne_true, ihc hf.inside]
  | leaf label kind content rest ih =>
      rw [Forest.searched, Forest.pruned, Forest.labels,
        List.filter_cons_of_neg (by rw [hf.name?_leaf ht]; exact Bool.false_ne_true),
        ih hf.behind_leaf]

/-- The fragments at which that walk arrives are those of the forest. -/
theorem filter_labels_pruned (hf : t.PartOf f) (ht : t.Accounted) :
    (f.pruned t.isFragmentRoot).labels.filter t.isFragmentRoot = f.fragments.map (·.label) := by
  induction f with
  | nil => rfl
  | element label name attributes children rest ihc ihr =>
      have hself := hf.isFragmentRoot_element ht
      rw [Forest.pruned, Forest.labels, Forest.fragments, List.filter_cons, List.filter_append,
        ihr hf.behind, hself]
      cases isFragmentTag name with
      | true => rfl
      | false =>
          rw [if_neg Bool.false_ne_true, if_neg Bool.false_ne_true, if_neg Bool.false_ne_true,
            ihc hf.inside, List.map_append]
  | leaf label kind content rest ih =>
      have hself : ¬t.isFragmentRoot label = true := by
        rw [hf.isFragmentRoot_leaf ht]
        exact Bool.false_ne_true
      rw [Forest.pruned, Forest.labels, Forest.fragments, List.filter_cons_of_neg hself,
        ih hf.behind_leaf]

theorem follows_searched (hf : t.PartOf f) (ht : t.Accounted) :
    f.searched.Follows fun x => (t.searchVisit [] x).2 := by
  induction f with
  | nil => exact Forest.follows_nil
  | element label name attributes children rest ihc ihr =>
      refine Forest.follows_element.2 ⟨?_, ?_, ihr hf.behind⟩
      · rw [searchVisit, hf.isFragmentRoot_element ht, hf.roots_children ht, ← hf.inside.roots_searched ht]
        cases isFragmentTag name <;> rfl
      · split
        · exact Forest.follows_nil
        · exact ihc hf.inside
  | leaf label kind content rest ih => exact ih hf.behind_leaf

end PartOf

/-- What is found does not depend on what was found before. -/
theorem searchVisit_eq (t : Tree) (roots : List NodeId) (id : NodeId) :
    t.searchVisit roots id =
      (if t.isFragmentRoot id then roots ++ [id] else roots, (t.searchVisit [] id).2) := by
  rw [searchVisit, searchVisit]
  split <;> rfl

theorem foldl_search (t : Tree) (ids roots : List NodeId) :
    ids.foldl (fun roots id => if t.isFragmentRoot id then roots ++ [id] else roots) roots =
      roots ++ ids.filter t.isFragmentRoot := by
  induction ids generalizing roots with
  | nil => exact (List.append_nil _).symm
  | cons id more ih =>
      rw [List.foldl_cons, ih, List.filter_cons]
      split
      · exact List.append_assoc ..
      · rfl

namespace Accounted

theorem not_isFragmentRoot_root (ht : t.Accounted) : t.isFragmentRoot root = false := by
  rw [isFragmentRoot, name?, ht.find?_root]
  rfl

/-- **The search finds the fragments of the walk that does not go on below fragments.** -/
theorem fragmentRoots_eq (ht : t.Accounted) :
    t.fragmentRoots = (t.content.pruned t.isFragmentRoot).labels.filter t.isFragmentRoot := by
  have hf := ht.partOf_content
  have hroot := ht.not_isFragmentRoot_root
  let work : Forest NodeId := .element root "" [] t.content.searched .nil
  have hfollows : work.Follows fun x => (t.searchVisit [] x).2 := by
    refine Forest.follows_element.2 ⟨?_, hf.follows_searched ht, Forest.follows_nil⟩
    rw [searchVisit, hroot, hf.roots_searched ht]
    rfl
  have hfuel : work.labels.length ≤ t.size := by
    have hsearched : t.content.searched.labels.Sublist t.content.labels := by
      rw [hf.labels_searched ht]
      exact List.filter_sublist.trans (Forest.labels_pruned_sublist _ _)
    have hlength := Nat.lt_of_le_of_lt hsearched.length_le (hf.length_labels_lt ht)
    rw [Forest.labels, Forest.labels, List.append_nil, List.length_cons]
    exact hlength
  have hkeep : ∀ x, t.isFragmentRoot x = true → (t.name? x).isSome = true := by
    intro x hx
    rw [isFragmentRoot] at hx
    cases hname : t.name? x with
    | none => rw [hname] at hx; cases hx
    | some name => rfl
  have hrun := depthFirst_eq_foldl t.searchVisit_eq hfollows hfuel []
  refine hrun.trans ?_
  rw [foldl_search, List.nil_append, Forest.labels, Forest.labels, List.append_nil,
    List.filter_cons_of_neg (by rw [hroot]; exact Bool.false_ne_true), hf.labels_searched ht,
    List.filter_filter]
  refine List.filter_congr fun x _ => ?_
  cases hx : t.isFragmentRoot x with
  | true => exact (hkeep x hx).symm ▸ rfl
  | false => rfl

end Accounted

/-! ### In terms of parents -/

/-- A node has one parent, so going up is a chain. -/
theorem parent?_rightUnique (t : Tree) :
    Relator.RightUnique fun child parent => t.parent? child = some parent :=
  fun _ _ _ hparent hother => Option.some.inj (hparent.symm.trans hother)

namespace Accounted

/-- The search keeps document order. -/
theorem fragmentRoots_sublist (ht : t.Accounted) :
    t.fragmentRoots.Sublist (t.descendants root) := by
  rw [ht.fragmentRoots_eq, ht.descendants_eq ht.root_lt_size]
  exact List.filter_sublist.trans (Forest.labels_pruned_sublist _ _)

/-- What lies above a node of the document lies in the document. -/
theorem above_root_of_strictlyAbove (ht : t.Accounted) {ancestor : NodeId}
    (hid : t.Above root id) (hup : t.StrictlyAbove ancestor id) : t.Above root ancestor := by
  rcases Relation.ReflTransGen.total_of_right_unique t.parent?_rightUnique hid
    hup.to_reflTransGen with hroot | hup
  · -- nothing is above the document
    rcases Relation.ReflTransGen.cases_head hroot with rfl | ⟨parent, hparent, -⟩
    · exact .refl
    · exact absurd rfl (ht.ne_root_of_parent? hparent)
  · exact hup

theorem ne_root_of_isFragment (ht : t.Accounted) (h : t.IsFragment id) : id ≠ root := by
  rintro rfl
  have hroot := ht.not_isFragmentRoot_root
  rw [isFragmentRoot_iff.2 h] at hroot
  cases hroot

/-- **The search finds the fragments of the document that have no fragment above them.** -/
theorem mem_fragmentRoots_iff (ht : t.Accounted) :
    id ∈ t.fragmentRoots ↔
      t.Above root id ∧ t.IsFragment id ∧
        ∀ ancestor, t.StrictlyAbove ancestor id → ¬t.IsFragment ancestor := by
  have hcontent : id ∈ t.content.labels ↔ t.StrictlyAbove root id :=
    @mem_labels_children_iff t ht root id
  rw [ht.fragmentRoots_eq, List.mem_filter, ht.mem_labels_pruned_iff ht.not_isFragmentRoot_root,
    isFragmentRoot_iff, hcontent]
  constructor
  · rintro ⟨⟨hid, hclear⟩, hself⟩
    refine ⟨hid.to_reflTransGen, hself, fun ancestor hup hfragment => ?_⟩
    exact hclear ancestor (isFragmentRoot_iff.2 hfragment) (ht.mem_labels_children_iff.2 hup)
  · rintro ⟨hid, hself, hclear⟩
    have hdown := (Relation.reflTransGen_iff_eq_or_transGen.1 hid).resolve_left
      (ht.ne_root_of_isFragment hself).symm
    refine ⟨⟨hdown, fun ancestor hfragment hup => ?_⟩, hself⟩
    exact hclear ancestor (ht.mem_labels_children_iff.1 hup) (isFragmentRoot_iff.1 hfragment)

/-- Going up from a fragment, the last one on the way is found. -/
theorem exists_fragmentRoot_above (ht : t.Accounted) (hid : t.Above root id)
    (hfragment : t.IsFragment id) : ∃ r ∈ t.fragmentRoots, t.Above r id := by
  induction id using (measure t.whole.labels.idxOf).wf.induction with
  | h id ih =>
      by_cases hclear : ∀ ancestor, t.StrictlyAbove ancestor id → ¬t.IsFragment ancestor
      · exact ⟨id, ht.mem_fragmentRoots_iff.2 ⟨hid, hfragment, hclear⟩, .refl⟩
      · push Not at hclear
        obtain ⟨ancestor, hup, hancestor⟩ := hclear
        obtain ⟨r, hr, hover⟩ := ih ancestor (ht.idxOf_lt_of_strictlyAbove hup)
          (ht.above_root_of_strictlyAbove hid hup) hancestor
        exact ⟨r, hr, hup.to_reflTransGen.trans hover⟩

/-- A node does not lie in the subtrees of two of the fragments that are found. -/
theorem fragmentRoots_eq_of_above (ht : t.Accounted) {r s : NodeId} (hr : r ∈ t.fragmentRoots)
    (hs : s ∈ t.fragmentRoots) (hrid : t.Above r id) (hsid : t.Above s id) : r = s := by
  obtain ⟨-, hfragment, hclear⟩ := ht.mem_fragmentRoots_iff.1 hr
  obtain ⟨-, hfragment', hclear'⟩ := ht.mem_fragmentRoots_iff.1 hs
  -- going up is a chain: one of them would lie above the other
  rcases Relation.ReflTransGen.total_of_right_unique t.parent?_rightUnique hrid hsid with hup | hup
  · refine ((Relation.reflTransGen_iff_eq_or_transGen.1 hup).resolve_right fun hup => ?_).symm
    exact hclear s hup hfragment'
  · refine (Relation.reflTransGen_iff_eq_or_transGen.1 hup).resolve_right fun hup => ?_
    exact hclear' r hup hfragment

end Accounted

/-- What the search has to find. -/
structure FindsOutermost (t : Tree) : Prop where
  /-- The fragments of the document with no fragment above them. -/
  mem_iff : ∀ id, id ∈ t.fragmentRoots ↔
    t.Above root id ∧ t.IsFragment id ∧
      ∀ ancestor, t.StrictlyAbove ancestor id → ¬t.IsFragment ancestor
  /-- They come in document order. -/
  sublist : t.fragmentRoots.Sublist (t.descendants root)
  nodup : t.fragmentRoots.Nodup
  /-- Every fragment of the document lies in the subtree of one of them. -/
  covers : ∀ id, t.Above root id → t.IsFragment id →
    ∃! r, r ∈ t.fragmentRoots ∧ id ∈ r :: t.descendants r
  /-- Their subtrees have no node in common. -/
  disjoint : t.fragmentRoots.Pairwise fun r s =>
    (r :: t.descendants r).Disjoint (s :: t.descendants s)
  /-- They are the elements that are loaded from the document. -/
  elements : t.fragmentRoots.map t.find? = t.content.fragments.map fun e => some (.element e)

namespace Accounted

theorem lt_size_of_mem_fragmentRoots (ht : t.Accounted) (hid : id ∈ t.fragmentRoots) :
    id < t.size := by
  have hmem := ht.fragmentRoots_sublist.subset hid
  rw [ht.descendants_eq ht.root_lt_size, ht.mem_labels_children_iff] at hmem
  obtain ⟨parent, hparent, -⟩ := Relation.TransGen.head'_iff.1 hmem
  exact (ht.lt_size_of_parent? hparent).1

theorem mem_subtree_iff (ht : t.Accounted) {r : NodeId} (hr : r ∈ t.fragmentRoots) :
    id ∈ r :: t.descendants r ↔ t.Above r id := by
  rw [ht.descendants_eq (ht.lt_size_of_mem_fragmentRoots hr), List.mem_cons,
    ht.mem_labels_children_iff]
  exact (Relation.reflTransGen_iff_eq_or_transGen.trans (or_congr_left eq_comm)).symm

theorem fragmentRoots_nodup (ht : t.Accounted) : t.fragmentRoots.Nodup := by
  refine ht.fragmentRoots_sublist.nodup ?_
  rw [ht.descendants_eq ht.root_lt_size]
  exact ht.nodup_content

theorem map_find?_fragmentRoots (ht : t.Accounted) :
    t.fragmentRoots.map t.find? = t.content.fragments.map fun e => some (.element e) := by
  have hf := ht.partOf_content
  rw [ht.fragmentRoots_eq, hf.filter_labels_pruned ht, List.map_map]
  refine List.map_congr_left fun e he => ?_
  have hfind := Forest.find?_of_mem_elements ht.nodup_content (Forest.fragments_subset _ he)
  rw [Function.comp_apply, find?, hfind, Option.some_or]

/-- **The search finds the outermost fragments.** -/
theorem findsOutermost (ht : t.Accounted) : t.FindsOutermost where
  mem_iff _ := ht.mem_fragmentRoots_iff
  sublist := ht.fragmentRoots_sublist
  nodup := ht.fragmentRoots_nodup
  covers id hid hfragment := by
    obtain ⟨r, hr, hover⟩ := ht.exists_fragmentRoot_above hid hfragment
    refine ⟨r, ⟨hr, (ht.mem_subtree_iff hr).2 hover⟩, fun s ⟨hs, hmem⟩ => ?_⟩
    exact ht.fragmentRoots_eq_of_above hs hr ((ht.mem_subtree_iff hs).1 hmem) hover
  disjoint := by
    refine ht.fragmentRoots_nodup.pairwise_of_forall_ne fun r hr s hs hne x hx hx' => hne ?_
    exact ht.fragmentRoots_eq_of_above hr hs ((ht.mem_subtree_iff hr).1 hx)
      ((ht.mem_subtree_iff hs).1 hx')
  elements := ht.map_find?_fragmentRoots

end Accounted

/-- A view in a container, another one below two containers, with a view inside it, and a loose
one. -/
def nestedViews : Tree where
  content := .element 1 "odoo" []
    (.element 2 "view" [] (.leaf 3 .text "a" .nil)
      (.leaf 4 .comment "b" (.element 5 "data" [] (.element 6 "data" []
        (.element 7 "template" [] (.element 8 "view" [] .nil .nil) .nil) .nil) .nil))) .nil
  loose := .element 9 "view" [] .nil .nil
  size := 10

theorem nestedViews_findsOutermost :
    nestedViews.FindsOutermost ∧ nestedViews.fragmentRoots = [2, 7] ∧ nestedViews.IsFragment 8 ∧
      nestedViews.IsFragment 9 := by
  have ht : nestedViews.Accounted := .refl _
  exact ⟨ht.findsOutermost, by decide +kernel, by decide +kernel, by decide +kernel⟩

end Tree

end ViewCompiler
