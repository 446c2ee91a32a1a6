/-
**Copying node by node.**

A node is copied first, without its children, and put on a stack with its copy.  Whoever is taken
off the stack gets the copies of all its children, and these are put on the stack in turn.  So while
a forest of siblings waits on the stack, their bare copies stand in the tree already, and what is
around them is either finished or waits further down.  What is around is described by a function
that puts siblings into their place; all that matters of it is that replacing a node of the siblings
leaves it alone.  When the siblings and all below them are taken off the stack again, the bare
copies have become the copy that the recursion numbers.

Main definitions:

* `ViewCompiler.Forest.bare`, `ViewCompiler.Forest.withCopies` — siblings without what is below
  them, numbered, and siblings with the numbers of their copies;
* `ViewCompiler.LeavesAlone` — replacing a node does not touch what is around its place.

Main results:

* `ViewCompiler.Tree.PartOf.depthFirst_copyVisit` — **what waits on the stack is copied with all
  below it**;
* `ViewCompiler.Tree.Accounted.importSubtree_eq`, `ViewCompiler.Tree.Accounted.importChildren_eq` —
  copying node by node is copying by recursion;
* `ViewCompiler.Tree.Accounted.copyDocument_eq` — and so is copying a document.
-/

import ViewCompiler.Proofs.Markup.Construction
import ViewCompiler.Proofs.Markup.Pieces
import ViewCompiler.Proofs.Markup.Traversal

set_option relaxedAutoImplicit false
set_option autoImplicit false

namespace ViewCompiler

variable {ι : Type}

/-! ### Bare copies -/

namespace Forest

/-- The siblings without what is below them, numbered from `here` on. -/
def bare (here : Nat) : Forest ι → Forest NodeId
  | nil => nil
  | element _ name attributes _ rest => element here name attributes nil (rest.bare (here + 1))
  | leaf _ kind content rest => leaf here kind content (rest.bare (here + 1))

/-- The siblings, each with the number of its copy. -/
def withCopies (here : Nat) : Forest ι → List (ι × NodeId)
  | nil => []
  | element label _ _ _ rest => (label, here) :: rest.withCopies (here + 1)
  | leaf label _ _ rest => (label, here) :: rest.withCopies (here + 1)

/-- Copies take numbers below the next one that is free. -/
theorem lt_of_mem_labels_numberBelow {f : Forest ι} {here next x : Nat}
    (hnext : here + f.width ≤ next) (hx : x ∈ (f.numberBelow here next).1.labels) :
    here ≤ x ∧ x < (f.numberBelow here next).2 := by
  obtain ⟨below, hafter, hlabels⟩ := f.labels_numberBelow here next
  have hmem := hlabels.mem_iff.1 hx
  rw [List.mem_append, List.mem_range'_1, List.mem_range'_1] at hmem
  omega

theorem next_le_numberBelow {f : Forest ι} {here next : Nat} :
    next ≤ (f.numberBelow here next).2 := by
  obtain ⟨below, hafter, -⟩ := f.labels_numberBelow here next
  omega

end Forest

/-! ### Places -/

/-- `place` puts siblings somewhere.  Replacing the node with the given label among them does not
touch what is around the place. -/
def LeavesAlone (place : Forest NodeId → Forest NodeId) (label : NodeId) : Prop :=
  ∀ f g, (place f).splice label g = place (f.splice label g)

namespace LeavesAlone

variable {place : Forest NodeId → Forest NodeId} {label here : NodeId} {name : String}
  {attributes : Attributes}

theorem behind_element (h : LeavesAlone place label) (hne : label ≠ here) (name : String)
    (attributes : Attributes) :
    LeavesAlone (fun f => place (.element here name attributes .nil f)) label := by
  intro f g
  rw [h, Forest.splice, if_neg hne.symm]
  rfl

theorem behind_leaf (h : LeavesAlone place label) (hne : label ≠ here) (kind : LeafKind)
    (content : String) : LeavesAlone (fun f => place (.leaf here kind content f)) label := by
  intro f g
  rw [h, Forest.splice, if_neg hne.symm]

theorem inside (h : LeavesAlone place label) (hne : label ≠ here) (name : String)
    (attributes : Attributes) {rest : Forest NodeId} (hrest : label ∉ rest.labels) :
    LeavesAlone (fun f => place (.element here name attributes f rest)) label := by
  intro f g
  rw [h, Forest.splice, if_neg hne.symm, Forest.splice_of_not_mem hrest]

end LeavesAlone

/-! ### Taking copies off the stack -/

namespace Tree

/-- A tree in which siblings stand at a place among the loose pieces. -/
def placed (content : Forest NodeId) (place : Forest NodeId → Forest NodeId) (f : Forest NodeId)
    (size : Nat) : Tree :=
  ⟨content, place f, size⟩

variable {content : Forest NodeId} {place : Forest NodeId → Forest NodeId} {here : NodeId}
  {name : String} {attributes : Attributes} {t u : Tree}

/-- More children are put below an element at a place. -/
theorem replace_placed (hcontent : here ∉ content.labels) (hplace : LeavesAlone place here)
    {children rest : Forest NodeId} (hrest : here ∉ rest.labels) (piece : Forest NodeId)
    (size next : Nat) :
    { (placed content place (.element here name attributes children rest) size).replace here
        (appendBelow piece) with size := next } =
      placed content place (.element here name attributes (children ++ piece) rest) next := by
  have hspliced : (Forest.element here name attributes children rest).splice here
      (appendBelow piece) = .element here name attributes (children ++ piece) rest := by
    rw [Forest.splice, if_pos rfl, Forest.splice_of_not_mem hrest]
    rfl
  simp only [placed, replace, Forest.splice_of_not_mem hcontent, hplace _ _, hspliced]

namespace PartOf

variable {f : Forest NodeId}

theorem bareCopy_element {label : NodeId} {children rest : Forest NodeId}
    (hf : u.PartOf (.element label name attributes children rest)) (hu : u.Accounted)
    (copy : NodeId) : u.bareCopy label copy = .element copy name attributes .nil .nil := by
  obtain ⟨below, hfind, -⟩ := hf.find?_element hu
  rw [bareCopy, hfind]

theorem bareCopy_leaf {label : NodeId} {kind : LeafKind} {text : String} {rest : Forest NodeId}
    (hf : u.PartOf (.leaf label kind text rest)) (hu : u.Accounted) (copy : NodeId) :
    u.bareCopy label copy = .leaf copy kind text .nil := by
  rw [bareCopy, hf.find?_leaf hu]

/-- Copying siblings below an element puts their bare copies behind its children, and them on the
list, the last of them first. -/
theorem foldl_copyChild (hf : u.PartOf f) (hu : u.Accounted) (hcontent : here ∉ content.labels)
    (hplace : LeavesAlone place here) {children rest : Forest NodeId}
    (hrest : here ∉ rest.labels) (next : Nat) (found : List (NodeId × NodeId)) :
    f.roots.foldl (u.copyChild here)
        (placed content place (.element here name attributes children rest) next, found) =
      (placed content place (.element here name attributes (children ++ f.bare next) rest)
        (next + f.width), (f.withCopies next).reverse ++ found) := by
  induction f generalizing children next found with
  | nil =>
      rw [Forest.bare, Forest.append_nil]
      rfl
  | element label name' attributes' below more _ ih =>
      rw [Forest.roots, List.foldl_cons, copyChild]
      dsimp only
      rw [hf.bareCopy_element hu, replace_placed hcontent hplace hrest, ih hf.behind,
        Forest.append_assoc, Forest.width, Forest.withCopies, List.reverse_cons,
        List.append_assoc, Nat.add_assoc, Nat.add_comm 1]
      rfl
  | leaf label kind text more ih =>
      rw [Forest.roots, List.foldl_cons, copyChild]
      dsimp only
      rw [hf.bareCopy_leaf hu, replace_placed hcontent hplace hrest, ih hf.behind_leaf,
        Forest.append_assoc, Forest.width, Forest.withCopies, List.reverse_cons,
        List.append_assoc, Nat.add_assoc, Nat.add_comm 1]
      rfl

/-- **What waits on the stack is copied with all below it.** -/
theorem depthFirst_copyVisit (hf : u.PartOf f) (hu : u.Accounted)
    (place : Forest NodeId → Forest NodeId) (here next : Nat) (hnext : here + f.width ≤ next)
    (haround : ∀ x : Nat, here ≤ x → x ∉ content.labels ∧ LeavesAlone place x) (fuel : Nat)
    (waiting : List (NodeId × NodeId)) :
    depthFirst u.copyVisit (f.labels.length + fuel) ((f.withCopies here).reverse ++ waiting)
        (placed content place (f.bare here) next) =
      depthFirst u.copyVisit fuel waiting
        (placed content place (f.numberBelow here next).1 (f.numberBelow here next).2) := by
  induction f generalizing place here next fuel waiting with
  | nil => rw [Forest.labels, List.length_nil, Nat.zero_add]; rfl
  | element label name attributes children rest ihc ihr =>
      rw [Forest.width] at hnext
      -- the siblings behind are taken off the stack first
      have hbehind := ihr hf.behind (fun g => place (.element here name attributes .nil g))
        (here + 1) next (by omega)
        (fun x hx => ⟨(haround x (by omega)).1,
          (haround x (by omega)).2.behind_element (Nat.ne_of_gt hx) name attributes⟩)
        (children.labels.length + fuel + 1) ((label, here) :: waiting)
      have hlengths : (Forest.element label name attributes children rest).labels.length + fuel =
          rest.labels.length + (children.labels.length + fuel + 1) := by
        rw [Forest.labels, List.length_cons, List.length_append]
        omega
      rw [hlengths, Forest.withCopies, List.reverse_cons, List.append_assoc]
      refine hbehind.trans ?_
      generalize hcopied : rest.numberBelow (here + 1) next = copied
      have hbounds : ∀ x : Nat, x ∈ copied.1.labels → here + 1 ≤ x ∧ x < copied.2 := by
        intro x hx
        rw [← hcopied] at hx ⊢
        exact Forest.lt_of_mem_labels_numberBelow (by omega) hx
      have hafter : next ≤ copied.2 := hcopied ▸ Forest.next_le_numberBelow
      have hhere := haround here (Nat.le_refl _)
      -- then the element, whose children are copied and wait in its place
      have hvisit : u.copyVisit
          (placed content place (.element here name attributes .nil copied.1) copied.2)
            (label, here) =
          (placed content place (.element here name attributes (children.bare copied.2) copied.1)
            (copied.2 + children.width), (children.withCopies copied.2).reverse) := by
        rw [copyVisit, hf.roots_children hu, hf.inside.foldl_copyChild hu hhere.1 hhere.2
          (fun hmem => absurd (hbounds here hmem).1 (Nat.not_succ_le_self here)),
          List.append_nil]
        rfl
      -- and last, all that is below it
      have hinside := ihc hf.inside
        (fun g => place (.element here name attributes g copied.1)) copied.2
        (copied.2 + children.width) (Nat.le_refl _)
        (fun x hx => ⟨(haround x (by omega)).1,
          (haround x (by omega)).2.inside (Nat.ne_of_gt (by omega)) name attributes
            fun hmem => absurd (hbounds x hmem).2 (Nat.not_lt.2 hx)⟩) fuel waiting
      rw [Forest.numberBelow, hcopied]
      refine Eq.trans ?_ hinside
      rw [depthFirst]
      exact congrArg (fun visited : Tree × List (NodeId × NodeId) =>
        depthFirst u.copyVisit (children.labels.length + fuel) (visited.2 ++ waiting) visited.1)
          hvisit
  | leaf label kind text rest ih =>
      rw [Forest.width] at hnext
      have hbehind := ih hf.behind_leaf (fun g => place (.leaf here kind text g)) (here + 1)
        next (by omega)
        (fun x hx => ⟨(haround x (by omega)).1,
          (haround x (by omega)).2.behind_leaf (Nat.ne_of_gt hx) kind text⟩)
        (fuel + 1) ((label, here) :: waiting)
      have hlengths : (Forest.leaf label kind text rest).labels.length + fuel =
          rest.labels.length + (fuel + 1) := by
        rw [Forest.labels, List.length_cons]
        omega
      rw [hlengths, Forest.withCopies, List.reverse_cons, List.append_assoc]
      refine hbehind.trans ?_
      -- below a leaf there is nothing to copy
      have hvisit : ∀ t, u.copyVisit t (label, here) = (t, []) := by
        intro t
        rw [copyVisit, hf.roots_children_leaf hu]
        rfl
      rw [depthFirst, hvisit]
      rfl

end PartOf

/-! ### Copying subtrees -/

theorem depthFirst_nil {σ α : Type} (visit : σ → α → σ × List α) (fuel : Nat) (s : σ) :
    depthFirst visit fuel [] s = s := by
  cases fuel <;> rfl

variable {id : NodeId} {n : Node NodeId}

/-- A number that was not handed out is no label. -/
theorem Accounted.not_mem_of_size_le (ht : t.Accounted) {x : NodeId} (hx : t.size ≤ x) :
    x ∉ t.content.labels ∧ x ∉ t.loose.labels := by
  have hwhole : x ∉ t.whole.labels := fun hmem =>
    absurd (ht.mem_labels_iff.1 hmem) (Nat.not_lt.2 hx)
  rw [whole, Forest.labels_append, Forest.labels_single, List.mem_append, List.mem_cons,
    not_or, not_or] at hwhole
  exact ⟨hwhole.1.2, hwhole.2⟩

/-- **Copying a subtree node by node is copying it by recursion.** -/
theorem PartOf.importSubtree_eq (hn : u.PartOf (.single n)) (hu : u.Accounted)
    (ht : t.Accounted) : t.importSubtree u n.label = t.importNode n := by
  have hbare : u.bareCopy n.label t.size = (Forest.single n).bare t.size := by
    cases n with
    | element e => exact hn.bareCopy_element hu _
    | leaf label kind text => exact hn.bareCopy_leaf hu _
  have hwaiting : [(n.label, t.size)] = ((Forest.single n).withCopies t.size).reverse ++ [] := by
    cases n <;> rfl
  have hwidth : (Forest.single n).width = 1 := by
    cases n <;> rfl
  have hcopy : (Forest.single n).numberEach t.size =
      (Forest.single n).numberBelow t.size (t.size + 1) := by
    cases n <;> rfl
  have hfuel : u.size = (Forest.single n).labels.length +
      (u.size - (Forest.single n).labels.length) :=
    (Nat.add_sub_of_le (Nat.le_of_lt (hn.length_labels_lt hu))).symm
  have haround : ∀ x : Nat, t.size ≤ x →
      x ∉ t.content.labels ∧ LeavesAlone (fun f => f ++ t.loose) x := by
    intro x hx
    obtain ⟨hcontent, hloose⟩ := ht.not_mem_of_size_le hx
    refine ⟨hcontent, fun f g => ?_⟩
    rw [Forest.splice_append, Forest.splice_of_not_mem hloose]
  have hrun := hn.depthFirst_copyVisit hu (fun f => f ++ t.loose) t.size (t.size + 1)
    (Nat.le_of_eq (by rw [hwidth])) haround (u.size - (Forest.single n).labels.length) []
  rw [depthFirst_nil, ← hwaiting, ← hfuel, ← hbare, ← hcopy] at hrun
  exact congrArg (Prod.mk t.size) hrun

theorem Accounted.importSubtree_eq (ht : t.Accounted) (hu : u.Accounted)
    (hn : u.find? id = some n) : t.importSubtree u id = t.importNode n := by
  have hroot := (hu.lt_size_of_find? hn).1
  rw [← Forest.label_of_find? ((u.find?_whole hroot).trans hn)]
  exact (hu.partOf_single hn).importSubtree_eq hu ht

/-- Copying siblings one by one is copying them by recursion. -/
theorem PartOf.foldl_importSubtree {f : Forest NodeId} (hf : u.PartOf f) (hu : u.Accounted)
    (ht : t.Accounted) (copies : List NodeId) :
    f.roots.foldl
        (fun s child => (s.1 ++ [(s.2.importSubtree u child).1], (s.2.importSubtree u child).2))
        (copies, t) =
      (copies ++ (f.numberEach t.size).1.roots,
        ⟨t.content, (f.numberEach t.size).1.reverseOnto t.loose, (f.numberEach t.size).2⟩) := by
  induction f using Forest.siblings_induction generalizing t copies with
  | nil => rw [Forest.numberEach, Forest.roots, List.append_nil]; rfl
  | cons n rest ih =>
      have hcopy : t.importSubtree u n.label = t.importNode n :=
        PartOf.importSubtree_eq hf.left hu ht
      have hmore := ih hf.right (ht.importNode n) (copies ++ [t.size])
      rw [Forest.roots_append, Forest.roots_single, List.singleton_append, List.foldl_cons]
      dsimp only
      rw [hcopy]
      refine hmore.trans ?_
      rw [List.append_assoc]
      -- the copy of the first sibling is one node, in front of the others
      cases n <;> rfl

/-- **Copying the children of a node one by one is copying them by recursion.** -/
theorem Accounted.importChildren_eq (ht : t.Accounted) (hu : u.Accounted) (hid : id < u.size) :
    t.importChildren u id =
      (((u.children id).numberEach t.size).1.roots,
        ⟨t.content, ((u.children id).numberEach t.size).1.reverseOnto t.loose,
          ((u.children id).numberEach t.size).2⟩) :=
  (hu.partOf_children hid).foldl_importSubtree hu ht []

/-! ### Copying a document -/

/-- The last loose piece is put into the document. -/
theorem addToContent_last {rest : Forest NodeId} (hn : n.label ∉ rest.labels)
    (done : Forest NodeId) (size : Nat) :
    addToContent ⟨done, rest ++ .single n, size⟩ n.label = ⟨done ++ .single n, rest, size⟩ := by
  have hfind : (rest ++ .single n).find? n.label = some n := by
    rw [Forest.find?_append, Forest.find?_eq_none_iff.2 hn, Option.none_or,
      Forest.find?_single_self]
  have hremove : (rest ++ .single n).remove n.label = rest := by
    have hgone : (Forest.single n).splice n.label (fun _ => .nil) = .nil := by
      cases n <;> exact if_pos rfl
    rw [Forest.remove, Forest.splice_append, Forest.splice_of_not_mem hn, hgone, Forest.append_nil]
  rw [addToContent, takeLoose]
  simp only [hfind, hremove]
  rfl

/-- Loose pieces that wait in reverse order are put into the document one after the other. -/
theorem foldl_addToContent {f : Forest NodeId} (hf : f.labels.Nodup) (done : Forest NodeId)
    (size : Nat) :
    f.roots.foldl addToContent ⟨done, f.reverse, size⟩ = ⟨done ++ f, .nil, size⟩ := by
  induction f using Forest.siblings_induction generalizing done with
  | nil => rw [Forest.append_nil]; rfl
  | cons n rest ih =>
      rw [Forest.labels_append, List.nodup_append'] at hf
      obtain ⟨-, hrest, hdisjoint⟩ := hf
      have hn : n.label ∉ rest.reverse.labels := fun hmem =>
        hdisjoint (Forest.label_mem_single n) (rest.labels_reverse.mem_iff.1 hmem)
      rw [Forest.roots_append, Forest.roots_single, List.singleton_append, List.foldl_cons,
        Forest.reverse_single_append, addToContent_last hn, ih hrest, Forest.append_assoc]

/-- **Copying a document node by node is numbering it afresh.** -/
theorem Accounted.copyDocument_eq (ht : t.Accounted) : t.copyDocument = t.compacted := by
  have hnodup : (t.content.numberEach empty.size).1.labels.Nodup :=
    (t.content.labels_numberEach empty.size).nodup_iff.2 List.nodup_range'
  rw [copyDocument, accounted_empty.importChildren_eq ht ht.root_lt_size]
  exact foldl_addToContent hnodup .nil _

end Tree

end ViewCompiler
