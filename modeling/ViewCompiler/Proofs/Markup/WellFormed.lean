/-
**Parents and children in a tree.**

A tree hands out numbers, and each number stays with one node: it is the document's, or it occurs
once in the document or in a loose piece.  From this everything else follows that one expects of
parents and children.  A node has a parent exactly if it stands in the parent's child list, and it
stands there once; and since parents come before their children in document order, whoever goes from
parent to parent arrives at a node without one.

Main definitions:

* `ViewCompiler.Tree.whole`, `ViewCompiler.Tree.Accounted` — a tree as one forest, and a tree whose
  numbers are all accounted for;
* `ViewCompiler.Tree.climb`, `ViewCompiler.Tree.Above` — going from parent to parent;
* `ViewCompiler.Tree.WellFormed` — how parents and children fit together.

Main results:

* `ViewCompiler.Tree.Accounted.wellFormed` — **a tree whose numbers are accounted for is well
  formed**;
* `ViewCompiler.Tree.Accounted.isAncestorOrSelf_iff` — what lies below a node is what the node is
  reached from.
-/

import Mathlib.Data.List.Lattice
import Mathlib.Logic.Relation
import ViewCompiler.Proofs.Markup.Records

set_option relaxedAutoImplicit false
set_option autoImplicit false

namespace ViewCompiler.Tree

/-! ### A tree as one forest -/

/-- The document and the loose pieces. -/
def whole (t : Tree) : Forest NodeId :=
  .single t.asNode ++ t.loose

theorem parent?_eq_holder? (t : Tree) (id : NodeId) : t.parent? id = t.whole.holder? id := rfl

theorem find?_whole (t : Tree) {id : NodeId} (h : id ≠ root) : t.whole.find? id = t.find? id :=
  if_neg h.symm

theorem childrenOf_eq (n : Node NodeId) : childrenOf n = n.below := by
  cases n <;> rfl

/-- The children of a node, as the forest has them. -/
theorem children_eq (t : Tree) (id : NodeId) :
    t.children id = ((t.whole.find? id).map Node.below).getD .nil := by
  by_cases h : id = root
  · subst h
    rfl
  · rw [t.find?_whole h, children, if_neg h]
    cases t.find? id with
    | none => rfl
    | some n => cases n <;> rfl

/-- The row of a number in the table of the tree. -/
def record? (t : Tree) (id : NodeId) : Option (Record NodeId) :=
  (t.whole.find? id).map Node.record

theorem roots_children (t : Tree) (id : NodeId) :
    (t.children id).roots = ((t.record? id).map (·.children)).getD [] := by
  rw [children_eq, record?]
  cases t.whole.find? id with
  | none => rfl
  | some n => rfl

/-- What a node of the document or of a loose piece is. -/
def kind? (t : Tree) (id : NodeId) : Option Kind :=
  (t.find? id).map Node.kind

theorem kind?_eq (t : Tree) {id : NodeId} (h : id ≠ root) :
    t.kind? id = (t.record? id).map (·.kind) := by
  rw [kind?, record?, t.find?_whole h, Option.map_map]
  rfl

/-! ### Numbers -/

/-- Every number that was handed out is the number of one node. -/
def Accounted (t : Tree) : Prop :=
  t.whole.labels.Perm (List.range t.size)

namespace Accounted

variable {t : Tree} {id parent : NodeId}

theorem nodup (h : t.Accounted) : t.whole.labels.Nodup :=
  h.nodup_iff.2 List.nodup_range

theorem mem_labels_iff (h : t.Accounted) : id ∈ t.whole.labels ↔ id < t.size := by
  rw [h.mem_iff, List.mem_range]

theorem not_mem_loose (h : t.Accounted) : root ∉ t.content.labels ∧ root ∉ t.loose.labels := by
  have hroot : root ∉ t.content.labels ++ t.loose.labels := (List.nodup_cons.1 h.nodup).1
  simpa only [List.mem_append, not_or] using hroot

theorem nodup_content (h : t.Accounted) : t.content.labels.Nodup :=
  (List.nodup_append.1 (List.nodup_cons.1 h.nodup).2).1

/-- What is loose is not in the document. -/
theorem not_mem_nodes (h : t.Accounted) {x : NodeId} (hx : x ∈ t.loose.labels) :
    x ∉ root :: t.content.labels := by
  intro hmem
  rcases List.mem_cons.1 hmem with rfl | hmem
  · exact h.not_mem_loose.2 hx
  · exact (List.nodup_append.1 (List.nodup_cons.1 h.nodup).2).2.2 x hmem x hx rfl

/-- The table of a tree has the row of each of its nodes, and no other. -/
theorem record?_eq_some_iff (h : t.Accounted) {r : Record NodeId} :
    t.record? id = some r ↔ (id, r) ∈ t.whole.records := by
  have hrow : ∀ {n : Node NodeId}, t.whole.find? id = some n →
      (id, n.record) ∈ t.whole.records := Forest.mem_records_of_find? h.nodup
  constructor
  · intro hr
    obtain ⟨n, hn, rfl⟩ := Option.map_eq_some_iff.1 hr
    exact hrow hn
  · intro hr
    cases hn : t.whole.find? id with
    | none =>
        exact absurd (Forest.mem_labels_of_mem_records hr) (Forest.find?_eq_none_iff.1 hn)
    | some n =>
        have heq := Forest.eq_of_label h.nodup (hrow hn) hr rfl
        rw [record?, hn, Option.map_some, (Prod.mk.inj heq).2]

/-- The children of a node are those that its row names. -/
theorem roots_children_of_mem (h : t.Accounted) {row : NodeId × Record NodeId}
    (hrow : row ∈ t.whole.records) : (t.children row.1).roots = row.2.children := by
  rw [roots_children, h.record?_eq_some_iff.2 hrow]
  rfl

theorem mem_roots_children_iff (h : t.Accounted) :
    id ∈ (t.children parent).roots ↔
      ∃ r, (parent, r) ∈ t.whole.records ∧ id ∈ r.children := by
  rw [roots_children]
  constructor
  · intro hmem
    cases hr : t.record? parent with
    | none => simp [hr] at hmem
    | some r => exact ⟨r, h.record?_eq_some_iff.1 hr, by simpa [hr] using hmem⟩
  · rintro ⟨r, hr, hmem⟩
    rw [h.record?_eq_some_iff.2 hr]
    exact hmem

/-- **A node has a parent exactly if it stands in the parent's child list.** -/
theorem parent?_eq_some_iff (h : t.Accounted) :
    t.parent? id = some parent ↔ id ∈ (t.children parent).roots := by
  rw [parent?_eq_holder?, Forest.holder?_eq_some_iff h.nodup, h.mem_roots_children_iff]

theorem roots_children_nodup (h : t.Accounted) : (t.children id).roots.Nodup := by
  rw [roots_children]
  cases hr : t.record? id with
  | none => exact List.nodup_nil
  | some r => exact Forest.children_nodup h.nodup (h.record?_eq_some_iff.1 hr)

/-- The document and the first nodes of the loose pieces have no parent. -/
theorem parent?_eq_none_of_mem_roots (h : t.Accounted) (hid : id ∈ t.whole.roots) :
    t.parent? id = none := by
  cases hparent : t.parent? id with
  | none => rfl
  | some parent =>
      obtain ⟨r, hr, hmem⟩ :=
        h.mem_roots_children_iff.1 (h.parent?_eq_some_iff.1 hparent)
      exact absurd hmem (Forest.not_mem_children_of_mem_roots h.nodup hid hr)

theorem ne_root_of_parent? (h : t.Accounted) (hparent : t.parent? id = some parent) :
    id ≠ root := by
  rintro rfl
  rw [h.parent?_eq_none_of_mem_roots List.mem_cons_self] at hparent
  cases hparent

theorem lt_size_of_parent? (h : t.Accounted) (hparent : t.parent? id = some parent) :
    id < t.size ∧ parent < t.size := by
  obtain ⟨r, hr, hmem⟩ := h.mem_roots_children_iff.1 (h.parent?_eq_some_iff.1 hparent)
  exact ⟨h.mem_labels_iff.1 (Forest.mem_labels_of_mem_children hr hmem),
    h.mem_labels_iff.1 (Forest.mem_labels_of_mem_records hr)⟩

/-- The numbers besides the document's are those of the nodes. -/
theorem find?_ne_none_iff (h : t.Accounted) (hid : id ≠ root) :
    t.find? id ≠ none ↔ id < t.size := by
  rw [← t.find?_whole hid, Ne, Forest.find?_eq_none_iff, not_not, h.mem_labels_iff]

/-- The document is no node. -/
theorem find?_root (h : t.Accounted) : t.find? root = none :=
  Option.or_eq_none_iff.2 ⟨Forest.find?_eq_none_iff.2 h.not_mem_loose.1,
    Forest.find?_eq_none_iff.2 h.not_mem_loose.2⟩

theorem ne_root_of_find? (h : t.Accounted) {n : Node NodeId} (hn : t.find? id = some n) :
    id ≠ root := by
  rintro rfl
  rw [h.find?_root] at hn
  cases hn

end Accounted

/-! ### Going up -/

/-- The node that is reached by going up that many times. -/
def climb (t : Tree) : Nat → NodeId → Option NodeId
  | 0, id => some id
  | n + 1, id => (t.parent? id).bind (t.climb n)

/-- `ancestor` is the node itself, or its parent, or the parent of that, and so on. -/
def Above (t : Tree) (ancestor id : NodeId) : Prop :=
  Relation.ReflTransGen (fun child parent => t.parent? child = some parent) id ancestor

theorem isAncestorOrSelf_eq_true {t : Tree} {ancestor id : NodeId} :
    t.isAncestorOrSelf ancestor id = true ↔
      id = ancestor ∨ id ∈ (t.children ancestor).labels := by
  simp [isAncestorOrSelf]

theorem idxOf_lt_of_sublist {x y : NodeId} {l : List NodeId} (h : [x, y].Sublist l)
    (hl : l.Nodup) : l.idxOf x < l.idxOf y := by
  induction l with
  | nil => cases h
  | cons z l ih =>
      obtain ⟨hz, hl⟩ := List.nodup_cons.1 hl
      cases h with
      | cons _ h =>
          have hx : z ≠ x := fun heq => hz (heq ▸ h.subset (by simp))
          have hy : z ≠ y := fun heq => hz (heq ▸ h.subset (by simp))
          rw [List.idxOf_cons_ne _ hx, List.idxOf_cons_ne _ hy]
          exact Nat.succ_lt_succ (ih h hl)
      | cons_cons _ h =>
          have hy : x ≠ y := fun heq => hz (heq ▸ h.subset (by simp))
          rw [List.idxOf_cons_self, List.idxOf_cons_ne _ hy]
          exact Nat.succ_pos _

namespace Accounted

variable {t : Tree} {id parent ancestor : NodeId}

/-- A parent comes before its children in document order. -/
theorem idxOf_parent_lt (h : t.Accounted) (hparent : t.parent? id = some parent) :
    t.whole.labels.idxOf parent < t.whole.labels.idxOf id := by
  obtain ⟨r, hr, hmem⟩ := h.mem_roots_children_iff.1 (h.parent?_eq_some_iff.1 hparent)
  exact idxOf_lt_of_sublist (Forest.sublist_of_mem_children hr hmem) h.nodup

/-- What holds of a node if it holds of its parent holds of every node. -/
theorem upward_induction (h : t.Accounted) {P : NodeId → Prop}
    (step : ∀ id, (∀ parent, t.parent? id = some parent → P parent) → P id) (id : NodeId) :
    P id :=
  (measure t.whole.labels.idxOf).wf.induction id fun id ih =>
    step id fun parent hparent => ih parent (h.idxOf_parent_lt hparent)

/-- Going up ends. -/
theorem climb_ends (h : t.Accounted) (id : NodeId) : ∃ n, t.climb n id = none := by
  induction id using h.upward_induction with
  | step id ih =>
      cases hparent : t.parent? id with
      | none => exact ⟨1, by rw [climb, hparent]; rfl⟩
      | some parent =>
          obtain ⟨n, hn⟩ := ih parent hparent
          exact ⟨n + 1, by rw [climb, hparent]; exact hn⟩

theorem records_children_subset (h : t.Accounted) (id : NodeId) :
    (t.children id).records ⊆ t.whole.records := by
  rw [children_eq]
  cases hn : t.whole.find? id with
  | none => exact List.nil_subset _
  | some n =>
      obtain ⟨others, hothers, -⟩ := Forest.exists_splicedTable h.nodup hn
      intro row hrow
      refine hothers.mem_iff.2 (List.mem_append_right _ ?_)
      rw [Forest.records_single]
      exact List.mem_cons_of_mem _ hrow

/-- **A node lies below another exactly if going up from it leads there.** -/
theorem isAncestorOrSelf_iff (h : t.Accounted) :
    t.isAncestorOrSelf ancestor id = true ↔ t.Above ancestor id := by
  rw [isAncestorOrSelf_eq_true]
  constructor
  · intro hid
    induction id using h.upward_induction with
    | step id ih =>
        rcases hid with rfl | hid
        · exact .refl
        · rcases List.mem_append.1 ((Forest.labels_perm _).mem_iff.1 hid) with hroots | hchild
          · exact .single (h.parent?_eq_some_iff.2 hroots)
          · obtain ⟨row, hrow, hmem⟩ := List.mem_flatMap.1 hchild
            have hparent : t.parent? id = some row.1 := by
              rw [h.parent?_eq_some_iff, h.mem_roots_children_iff]
              exact ⟨row.2, h.records_children_subset _ hrow, hmem⟩
            exact .head hparent
              (ih row.1 hparent (.inr (Forest.mem_labels_of_mem_records hrow)))
  · intro habove
    induction habove using Relation.ReflTransGen.head_induction_on with
    | refl => exact .inl rfl
    | @head id parent hparent _ ih =>
        right
        rcases ih with rfl | hmem
        · exact Forest.mem_labels_of_mem_roots (h.parent?_eq_some_iff.1 hparent)
        · obtain ⟨r, hr⟩ := Forest.exists_record hmem
          have hrow := h.records_children_subset _ hr
          refine Forest.mem_labels_of_mem_children hr ?_
          rw [← h.roots_children_of_mem hrow]
          exact h.parent?_eq_some_iff.1 hparent

end Accounted

/-! ### Well-formed trees -/

/-- Parents and children fit together. -/
structure WellFormed (t : Tree) : Prop where
  parent?_root : t.parent? root = none
  parent?_eq_some_iff : ∀ id parent,
    t.parent? id = some parent ↔ id ∈ (t.children parent).roots
  roots_children_nodup : ∀ id, (t.children id).roots.Nodup
  lt_size : ∀ id parent, t.parent? id = some parent → id < t.size ∧ parent < t.size
  /-- The numbers that were handed out are those of the document and of the nodes. -/
  lt_size_iff : ∀ id, id < t.size ↔ id = root ∨ (t.find? id).isSome
  allowsChildren : ∀ id, (t.children id).roots ≠ [] → t.allowsChildren id = true
  climb_ends : ∀ id, ∃ n, t.climb n id = none

/-- Only the document and elements have children. -/
theorem allowsChildren_of_roots_children (t : Tree) {id : NodeId}
    (h : (t.children id).roots ≠ []) : t.allowsChildren id = true := by
  rw [children] at h
  rw [allowsChildren]
  split at h
  · next hid => simp [hid]
  · split at h
    · simp
    · exact absurd rfl h

/-- **A tree whose numbers are accounted for is well formed.** -/
theorem Accounted.wellFormed {t : Tree} (h : t.Accounted) : t.WellFormed where
  parent?_root := h.parent?_eq_none_of_mem_roots List.mem_cons_self
  parent?_eq_some_iff _ _ := h.parent?_eq_some_iff
  roots_children_nodup _ := h.roots_children_nodup
  lt_size _ _ := h.lt_size_of_parent?
  lt_size_iff id := by
    by_cases hid : id = root
    · simp only [hid, true_or, iff_true]
      exact h.mem_labels_iff.1 List.mem_cons_self
    · rw [← h.find?_ne_none_iff hid, ← Option.isSome_iff_ne_none]
      simp [hid]
  allowsChildren _ := t.allowsChildren_of_roots_children
  climb_ends := h.climb_ends

end ViewCompiler.Tree
