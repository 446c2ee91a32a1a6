/-
**The branches of a tree.**

Every node that a path can lead to is the document or an element in it, and has its children from
there: looking it up by its number finds these children, its parent is the branch that it stands
right below, and what lies below it are the elements among its children and below them.

Main results:

* `ViewCompiler.Tree.Branch.children_eq` — looking up the children of a branch;
* `ViewCompiler.Tree.Branch.parent?_eq_some_iff`, `ViewCompiler.Tree.Branch.parent?_eq_none_iff` —
  looking up its parent;
* `ViewCompiler.Tree.Branch.below_iff` — what lies below it;
* `ViewCompiler.Step.mem_reach_iff` — **what a step finds is what it leads to**.
-/

import ViewCompiler.Proofs.Locator.Meaning
import ViewCompiler.Proofs.Markup.Editing
import ViewCompiler.Proofs.Markup.Relabelling

set_option relaxedAutoImplicit false
set_option autoImplicit false

namespace ViewCompiler

/-- What holds of the elements at the top, and of the children of elements that it holds of, holds of
all elements. -/
theorem Forest.elements_induction {ι : Type} {P : Element ι → Prop} {f : Forest ι}
    (top : ∀ e ∈ f.topElements, P e)
    (below : ∀ d e : Element ι, P d → e ∈ d.children.topElements → P e) :
    ∀ e ∈ f.elements, P e := by
  induction f with
  | nil => simp [elements]
  | element label name attributes children rest ihc ihr =>
      obtain ⟨hself, hrest⟩ := List.forall_mem_cons.1 top
      exact List.forall_mem_cons.2 ⟨hself,
        List.forall_mem_append.2 ⟨ihc fun e he => below _ e hself he, ihr hrest⟩⟩
  | leaf label kind content rest ih => exact ih top

namespace Tree

variable {t : Tree} {x y z : NodeId} {children : Forest NodeId}

namespace Branch

theorem children_eq (h : t.Branch x children) (ht : t.Accounted) : t.children x = children := by
  cases h with
  | document => exact if_pos rfl
  | @element e he =>
      have hfind : t.find? e.label = some (.element e) := by
        rw [Tree.find?, Forest.find?_of_mem_elements ht.nodup_content he, Option.some_or]
      rw [Tree.children, if_neg (ht.ne_root_of_find? hfind), hfind]

theorem unique {others : Forest NodeId} (h : t.Branch x children) (h' : t.Branch x others)
    (ht : t.Accounted) : children = others := by
  rw [← h.children_eq ht, h'.children_eq ht]

theorem mem_content (h : t.Branch x children) {e : Element NodeId} (he : e ∈ children.elements) :
    e ∈ t.content.elements := by
  cases h with
  | document => exact he
  | element hd => exact Forest.mem_elements_of_mem_children hd he

/-- An element among the children of a branch is a branch itself. -/
theorem below (h : t.Branch x children) {e : Element NodeId} (he : e ∈ children.elements) :
    t.Branch e.label e.children :=
  .element (h.mem_content he)

/-- Every branch is a node of the document. -/
theorem mem_nodes (h : t.Branch x children) : x ∈ root :: t.content.labels := by
  cases h with
  | document => exact List.mem_cons_self
  | element he => exact List.mem_cons_of_mem _ (Forest.label_mem_labels he)

end Branch

/-! ### Parents -/

theorem Child.branch (h : t.Child x y) : ∃ children, t.Branch y children := by
  obtain ⟨children, hx, e, he, rfl⟩ := h
  exact ⟨e.children, hx.below (Forest.mem_elements_of_mem_topElements he)⟩

theorem Child.parent?_eq (h : t.Child x y) (ht : t.Accounted) : t.parent? y = some x := by
  obtain ⟨children, hx, e, he, rfl⟩ := h
  rw [ht.parent?_eq_some_iff, hx.children_eq ht]
  exact Forest.label_mem_roots he

/-- Every branch but the document stands right below a branch. -/
theorem Branch.exists_child (h : t.Branch x children) : x = root ∨ ∃ y, t.Child y x := by
  cases h with
  | document => exact .inl rfl
  | @element e he =>
      right
      rcases Forest.mem_elements_cases he with htop | ⟨d, hd, hchild⟩
      · exact ⟨root, _, .document, e, htop, rfl⟩
      · exact ⟨d.label, _, .element hd, e, hchild, rfl⟩

theorem Branch.parent?_eq_some_iff (h : t.Branch x children) (ht : t.Accounted) :
    t.parent? x = some y ↔ t.Child y x := by
  refine ⟨fun hparent => ?_, fun hchild => hchild.parent?_eq ht⟩
  rcases h.exists_child with rfl | ⟨z, hz⟩
  · exact absurd rfl (ht.ne_root_of_parent? hparent)
  · rw [hz.parent?_eq ht] at hparent
    obtain rfl := Option.some.inj hparent
    exact hz

/-- Only the document has no parent. -/
theorem Branch.parent?_eq_none_iff (h : t.Branch x children) (ht : t.Accounted) :
    t.parent? x = none ↔ x = root := by
  constructor
  · intro hnone
    refine h.exists_child.resolve_right ?_
    rintro ⟨y, hy⟩
    rw [hy.parent?_eq ht] at hnone
    cases hnone
  · rintro rfl
    exact Option.eq_none_iff_forall_ne_some.2 fun p hp => ht.ne_root_of_parent? hp rfl

/-! ### Below a branch -/

/-- What lies below a branch are the elements among its children and below them. -/
theorem Branch.below_iff (h : t.Branch x children) (ht : t.Accounted) :
    Relation.ReflTransGen t.Child x z ↔ z = x ∨ ∃ d ∈ children.elements, d.label = z := by
  constructor
  · intro hbelow
    induction hbelow with
    | refl => exact .inl rfl
    | tail _ hchild ih =>
        obtain ⟨others, hothers, e, he, rfl⟩ := hchild
        refine .inr ⟨e, ?_, rfl⟩
        rcases ih with rfl | ⟨d, hd, rfl⟩
        · obtain rfl := h.unique hothers ht
          exact Forest.mem_elements_of_mem_topElements he
        · obtain rfl := (h.below hd).unique hothers ht
          exact Forest.mem_elements_of_mem_children hd (Forest.mem_elements_of_mem_topElements he)
  · rintro (rfl | ⟨d, hd, rfl⟩)
    · exact .refl
    · -- from the branch down: every element on the way is a branch
      refine (Forest.elements_induction (P := fun e =>
        t.Branch e.label e.children ∧ Relation.ReflTransGen t.Child x e.label) ?_ ?_ d hd).2
      · intro e he
        exact ⟨h.below (Forest.mem_elements_of_mem_topElements he),
          .single ⟨children, h, e, he, rfl⟩⟩
      · rintro d e ⟨hbranch, hreach⟩ he
        exact ⟨hbranch.below (Forest.mem_elements_of_mem_topElements he),
          hreach.tail ⟨d.children, hbranch, e, he, rfl⟩⟩

end Tree

/-! ### Steps -/

section

variable {t : Tree} {s : Step} {x y : NodeId} {children : Forest NodeId}

theorem Step.Keeps.mem_topElements {contains : Containment} {e : Element NodeId}
    (h : s.Keeps contains children e) : e ∈ children.topElements := by
  obtain ⟨i, hi, -⟩ := h
  exact List.mem_of_getElem? hi

/-- A step leads from branches to branches. -/
theorem Step.Finds.branch {contains : Containment} (h : s.Finds contains t x y)
    (hx : t.Branch x children) : ∃ others, t.Branch y others := by
  have hkept : ∀ {z : NodeId} {f : Forest NodeId} {e : Element NodeId}, t.Branch z f →
      s.Keeps contains f e → ∃ others, t.Branch e.label others := fun hz he =>
    ⟨_, hz.below (Forest.mem_elements_of_mem_topElements he.mem_topElements)⟩
  cases h with
  | self => exact ⟨children, hx⟩
  | parent _ hchild =>
      obtain ⟨others, hy, -⟩ := hchild
      exact ⟨others, hy⟩
  | child _ hx he => exact hkept hx he
  | descendant _ _ hz he => exact hkept hz he

/-- **What a step finds from a branch is what it leads to.** -/
theorem Step.mem_reach_iff (hs : s.Positioned) (ht : t.Accounted) (hx : t.Branch x children) :
    y ∈ s.reach t x ↔ s.Finds .present t x y := by
  rw [reach]
  split
  · next haxis =>
      rw [List.mem_singleton]
      constructor
      · rintro rfl
        exact .self haxis
      · intro hfinds
        cases hfinds <;> simp_all
  · next haxis =>
      rw [Option.mem_toList, hx.parent?_eq_some_iff ht]
      constructor
      · exact .parent haxis
      · intro hfinds
        cases hfinds <;> simp_all
  · next haxis =>
      rw [hx.children_eq ht, List.mem_map]
      simp only [Step.mem_pick_iff hs]
      constructor
      · rintro ⟨e, he, rfl⟩
        exact .child haxis hx he
      · intro hfinds
        cases hfinds with
        | child _ hx' he =>
            obtain rfl := hx.unique hx' ht
            exact ⟨_, he, rfl⟩
        | self h | parent h | descendant h => simp [haxis] at h
  · next haxis =>
      simp only [hx.children_eq ht, List.mem_map, List.mem_append, List.mem_flatMap,
        Step.mem_pick_iff hs]
      constructor
      · rintro ⟨e, he | ⟨d, hd, he⟩, rfl⟩
        · exact .descendant haxis .refl hx he
        · exact .descendant haxis ((hx.below_iff ht).2 (.inr ⟨d, hd, rfl⟩)) (hx.below hd) he
      · intro hfinds
        cases hfinds with
        | @descendant z others e _ hbelow hz he =>
            refine ⟨e, ?_, rfl⟩
            rcases (hx.below_iff ht).1 hbelow with rfl | ⟨d, hd, rfl⟩
            · obtain rfl := hx.unique hz ht
              exact .inl he
            · obtain rfl := (hx.below hd).unique hz ht
              exact .inr ⟨d, hd, he⟩
        | self h | parent h | child h => simp [haxis] at h

end

end ViewCompiler
