/-
**The records of a tree.**

A tree whose numbers are accounted for has a record for each of them: what the node is, its parent
and its children.  The edits of a tree move whole pieces at once, those of records change one link
after the other; both come to the same, refusals included.  Where records could be left half-way,
the node is always found among the children of its parent.

Main definitions:

* `ViewCompiler.Tree.arena` — the records of a tree.

Main results:

* `ViewCompiler.Tree.Accounted.isAncestorOrSelf_arena`,
  `ViewCompiler.Tree.Accounted.checkInsert_arena` — going up through the stored parents, and what is
  asked before a node is put somewhere;
* `ViewCompiler.Tree.Accounted.appendChild_arena`, `ViewCompiler.Tree.Accounted.insertBefore_arena`,
  `ViewCompiler.Tree.Accounted.insertAfter_arena` — **nodes put into place link by link**.
-/

import ViewCompiler.Markup.Arena
import ViewCompiler.Proofs.Markup.Placement

set_option relaxedAutoImplicit false
set_option autoImplicit false

namespace ViewCompiler

/-! ### Changing one record -/

namespace Arena

variable {a b : Arena} {id x : NodeId} {ids : List NodeId}

/-- Records are the same if they agree on every number. -/
theorem eq_of_record (hsize : a.size = b.size) (h : ∀ x, a.record x = b.record x) : a = b := by
  obtain ⟨l⟩ := a
  obtain ⟨l'⟩ := b
  refine congrArg Arena.mk (List.ext_getElem hsize fun x hx hx' => ?_)
  have hrecord := h x
  rwa [record, record, List.getElem?_eq_getElem hx, List.getElem?_eq_getElem hx'] at hrecord

@[simp] theorem size_modify (f : NodeRecord → NodeRecord) : (a.modify id f).size = a.size :=
  List.length_modify ..

theorem record_modify (hid : id < a.size) (f : NodeRecord → NodeRecord) :
    (a.modify id f).record x = if x = id then f (a.record x) else a.record x := by
  rw [record, modify, List.getElem?_modify, record]
  split
  · next heq =>
      subst heq
      rw [if_pos rfl, List.getElem?_eq_getElem hid]
      rfl
  · next hne =>
      rw [if_neg (Ne.symm hne)]
      cases a.nodes[x]? <;> rfl

/-- A change that keeps something of a record keeps it everywhere. -/
theorem record_modify_eq {α : Type} (field : NodeRecord → α) {f : NodeRecord → NodeRecord}
    (hf : ∀ r, field (f r) = field r) : field ((a.modify id f).record x) = field (a.record x) := by
  by_cases hid : id < a.size
  · rw [record_modify hid]
    split
    · exact hf _
    · rfl
  · rw [modify, List.modify_eq_self (Nat.le_of_not_lt hid)]

@[simp] theorem size_setParent {p : Option NodeId} : (a.setParent id p).size = a.size :=
  size_modify _

@[simp] theorem size_setChildren : (a.setChildren id ids).size = a.size :=
  size_modify _

@[simp] theorem size_pushChild {child : NodeId} : (a.pushChild id child).size = a.size :=
  size_modify _

section

variable {p : Option NodeId} {child : NodeId}

@[simp] theorem kind_setParent : (a.setParent id p).kind x = a.kind x :=
  record_modify_eq NodeRecord.kind fun _ => rfl

@[simp] theorem children_setParent : (a.setParent id p).children x = a.children x :=
  record_modify_eq NodeRecord.children fun _ => rfl

@[simp] theorem kind_setChildren : (a.setChildren id ids).kind x = a.kind x :=
  record_modify_eq NodeRecord.kind fun _ => rfl

@[simp] theorem parent?_setChildren : (a.setChildren id ids).parent? x = a.parent? x :=
  record_modify_eq NodeRecord.parent? fun _ => rfl

theorem parent?_setParent (hid : id < a.size) :
    (a.setParent id p).parent? x = if x = id then p else a.parent? x := by
  rw [parent?, setParent, record_modify hid]
  split <;> rfl

theorem children_setChildren (hid : id < a.size) :
    (a.setChildren id ids).children x = if x = id then ids else a.children x := by
  rw [children, setChildren, record_modify hid]
  split <;> rfl

/-- The two ends of a link are stored in any order. -/
theorem setChildren_setParent (hx : x < a.size) (hid : id < a.size) :
    (a.setParent x p).setChildren id ids = (a.setChildren id ids).setParent x p := by
  refine eq_of_record (by simp) fun y => ?_
  rw [setChildren, setParent, record_modify (by simpa using hid), record_modify hx, setParent,
    setChildren, record_modify (by simpa using hx), record_modify hid]
  split <;> split <;> rfl

/-- A last child is stored by storing all children. -/
theorem pushChild_eq (hid : id < a.size) :
    a.pushChild id child = a.setChildren id (a.children id ++ [child]) := by
  refine eq_of_record (by simp) fun x => ?_
  rw [pushChild, setChildren, record_modify hid, record_modify hid]
  split
  · next heq => rw [heq]; rfl
  · rfl

@[simp] theorem size_setEachParent : (a.setEachParent ids p).size = a.size := by
  induction ids generalizing a with
  | nil => rfl
  | cons y ids ih => exact ih.trans size_setParent

@[simp] theorem kind_setEachParent : (a.setEachParent ids p).kind x = a.kind x := by
  induction ids generalizing a with
  | nil => rfl
  | cons y ids ih => exact ih.trans kind_setParent

@[simp] theorem children_setEachParent : (a.setEachParent ids p).children x = a.children x := by
  induction ids generalizing a with
  | nil => rfl
  | cons y ids ih => exact ih.trans children_setParent

theorem parent?_setEachParent (hids : ∀ id ∈ ids, id < a.size) :
    (a.setEachParent ids p).parent? x = if x ∈ ids then p else a.parent? x := by
  induction ids generalizing a with
  | nil => rfl
  | cons y ids ih =>
      have hy := hids y List.mem_cons_self
      have hmore := ih (a := a.setParent y p) fun id hid => by
        rw [size_setParent]
        exact hids id (List.mem_cons_of_mem _ hid)
      rw [parent?_setParent hy] at hmore
      refine hmore.trans ?_
      simp only [List.mem_cons]
      by_cases hmem : x ∈ ids <;> simp [hmem]

end

/-- A new record is behind all others. -/
theorem record_push (kind : NodeKind) :
    (a.push kind).2.record x = if x = a.size then ⟨kind, none, []⟩ else a.record x := by
  rw [record, push, record, size]
  split
  · next heq => rw [heq, List.getElem?_concat_length]; rfl
  · next hne =>
      rcases Nat.lt_or_gt_of_ne hne with hlt | hgt
      · rw [List.getElem?_append_left hlt]
      · rw [List.getElem?_eq_none (Nat.le_of_lt hgt),
          List.getElem?_eq_none (by rw [List.length_append]; exact hgt)]

@[simp] theorem size_push (kind : NodeKind) : (a.push kind).2.size = a.size + 1 := by
  rw [size, push, List.length_append]
  rfl

end Arena

/-! ### The records of a tree -/

def Kind.nodeKind : Kind → NodeKind
  | .element name attributes => .element name attributes
  | .leaf kind content => .leaf kind content

namespace Tree

variable {t t' : Tree} {a : Arena} {id parent child : NodeId}

/-- What the node with the given number is; no node is the document. -/
def nodeKind (t : Tree) (id : NodeId) : NodeKind :=
  ((t.kind? id).map Kind.nodeKind).getD .document

def nodeRecord (t : Tree) (id : NodeId) : NodeRecord :=
  ⟨t.nodeKind id, t.parent? id, (t.children id).roots⟩

/-- The records of a tree. -/
def arena (t : Tree) : Arena :=
  ⟨(List.range t.size).map t.nodeRecord⟩

@[simp] theorem size_arena : t.arena.size = t.size := by
  rw [Arena.size, arena, List.length_map, List.length_range]

namespace Accounted

/-- A number that was not handed out is no node, and is linked to none. -/
theorem nodeRecord_of_size_le (h : t.Accounted) (hid : t.size ≤ id) :
    t.nodeRecord id = ⟨.document, none, []⟩ := by
  have hlabels : id ∉ t.whole.labels := fun hmem =>
    absurd (h.mem_labels_iff.1 hmem) (Nat.not_lt.2 hid)
  have hfind := Forest.find?_eq_none_iff.2 hlabels
  have hne : id ≠ root := by
    rintro rfl
    exact hlabels (h.mem_labels_iff.2 (h.mem_labels_iff.1 List.mem_cons_self))
  have hparent : t.parent? id = none := by
    cases hparent : t.parent? id with
    | none => rfl
    | some parent => exact absurd (h.lt_size_of_parent? hparent).1 (Nat.not_lt.2 hid)
  rw [nodeRecord, nodeKind, t.kind?_eq hne, hparent, roots_children, record?, hfind]
  rfl

theorem record_arena (h : t.Accounted) (id : NodeId) : t.arena.record id = t.nodeRecord id := by
  rw [Arena.record, arena, List.getElem?_map]
  rcases Nat.lt_or_ge id t.size with hid | hid
  · rw [List.getElem?_range hid]
    rfl
  · rw [List.getElem?_eq_none (by simpa using hid), h.nodeRecord_of_size_le hid]
    rfl

@[simp] theorem kind_arena (h : t.Accounted) : t.arena.kind id = t.nodeKind id :=
  congrArg NodeRecord.kind (h.record_arena id)

@[simp] theorem parent?_arena (h : t.Accounted) : t.arena.parent? id = t.parent? id :=
  congrArg NodeRecord.parent? (h.record_arena id)

@[simp] theorem children_arena (h : t.Accounted) : t.arena.children id = (t.children id).roots :=
  congrArg NodeRecord.children (h.record_arena id)

/-- Records that say the same as the tree are the records of the tree. -/
theorem eq_arena (h : t.Accounted) (hsize : a.size = t.size)
    (hkind : ∀ x, a.kind x = t.nodeKind x) (hparent : ∀ x, a.parent? x = t.parent? x)
    (hchildren : ∀ x, a.children x = (t.children x).roots) : a = t.arena := by
  refine Arena.eq_of_record (hsize.trans size_arena.symm) fun x => ?_
  rw [h.record_arena, nodeRecord, ← hkind, ← hparent, ← hchildren]
  rfl

end Accounted

theorem nodeKind_eq (h : t'.kind? id = t.kind? id) : t'.nodeKind id = t.nodeKind id := by
  rw [nodeKind, h, nodeKind]

/-! ### Going up -/

namespace Accounted

variable {ancestor : NodeId}

/-- Parents come first in document order, so going up takes no more steps than there are nodes
before. -/
theorem climbsTo_arena (h : t.Accounted) (fuel : Nat) (hid : t.whole.labels.idxOf id < fuel) :
    t.arena.climbsTo ancestor fuel (some id) = true ↔ t.Above ancestor id := by
  induction fuel generalizing id with
  | zero => exact absurd hid (Nat.not_lt_zero _)
  | succ fuel ih =>
      rw [Above, Relation.ReflTransGen.cases_head_iff, Arena.climbsTo, Bool.or_eq_true, beq_iff_eq,
        h.parent?_arena]
      refine or_congr_right ?_
      cases hparent : t.parent? id with
      | none =>
          cases fuel <;> simp [Arena.climbsTo]
      | some parent =>
          have hlt := h.idxOf_parent_lt hparent
          rw [ih (by omega)]
          simp [Above]

theorem isAncestorOrSelf_arena (h : t.Accounted) (hid : id < t.size) :
    t.arena.isAncestorOrSelf ancestor id = t.isAncestorOrSelf ancestor id := by
  have hindex : t.whole.labels.idxOf id < t.size := by
    have hlength : t.whole.labels.length = t.size := by
      rw [h.length_eq, List.length_range]
    rw [← hlength]
    exact List.idxOf_lt_length_of_mem (h.mem_labels_iff.2 hid)
  rw [Bool.eq_iff_iff, h.isAncestorOrSelf_iff, Arena.isAncestorOrSelf, size_arena]
  exact h.climbsTo_arena t.size hindex

theorem allowsChildren_arena (h : t.Accounted) (hid : id < t.size) :
    (t.arena.kind id).allowsChildren = t.allowsChildren id := by
  rw [h.kind_arena, nodeKind, kind?, allowsChildren]
  by_cases hroot : id = root
  · rw [hroot, h.find?_root]
    rfl
  · obtain ⟨n, hn⟩ := Option.ne_none_iff_exists'.1 ((h.find?_ne_none_iff hroot).2 hid)
    rw [hn, decide_eq_false hroot]
    cases n <;> rfl

/-- **The same is asked of the stored links.** -/
theorem checkInsert_arena (h : t.Accounted) (hparent : parent < t.size) :
    t.arena.checkInsert parent child = t.checkInsert parent child := by
  rw [Arena.checkInsert, h.allowsChildren_arena hparent, h.parent?_arena,
    h.isAncestorOrSelf_arena hparent]
  rfl

end Accounted

/-! ### Nodes put into place -/

/-- What comes of an edit that may be refused: no error and a new tree, or an error and the tree as
it was. -/
def attempt (t : Tree) : Except TreeError Tree → Option TreeError × Tree
  | .ok t' => (none, t')
  | .error e => (some e, t)

theorem Placed.nodeKind_eq {before after : List NodeId}
    (hplaced : Placed t t' parent child before after) (x : NodeId) :
    t'.nodeKind x = t.nodeKind x :=
  Tree.nodeKind_eq (hplaced.kind?_eq x)

/-- The two links by which a node is put into place. -/
theorem Placed.arena_eq {before after : List NodeId}
    (hplaced : Placed t t' parent child before after) (h : t.Accounted) (h' : t'.Accounted)
    (hparent : parent < t.size) (hchild : child < t.size) :
    (t.arena.setChildren parent (before ++ child :: after)).setParent child (some parent) =
      t'.arena := by
  refine h'.eq_arena (by simp [hplaced.size_eq]) (fun x => ?_) (fun x => ?_) fun x => ?_
  · rw [Arena.kind_setParent, Arena.kind_setChildren, h.kind_arena, hplaced.nodeKind_eq]
  · rw [Arena.parent?_setParent (by simpa using hchild), Arena.parent?_setChildren,
      h.parent?_arena]
    split
    · next heq => rw [heq, hplaced.parent?_child]
    · next hne => rw [hplaced.parent?_eq x hne]
  · rw [Arena.children_setParent, Arena.children_setChildren (by simpa using hparent),
      h.children_arena]
    split
    · next heq => rw [heq, hplaced.children_after]
    · next hne => rw [hplaced.children_eq x hne]

/-- Insertion at the end of the siblings before. -/
theorem insertIdx_length {α : Type} (front back : List α) (x : α) :
    (front ++ back).insertIdx front.length x = front ++ x :: back := by
  induction front with
  | nil => rfl
  | cons y front ih => exact congrArg (y :: ·) ih

namespace Accounted

variable {reference : NodeId}

/-- **Appending link by link comes to the same.** -/
theorem appendChild_arena (h : t.Accounted) (hparent : parent < t.size) (hchild : child < t.size) :
    t.arena.appendChild parent child =
      ((t.attempt (t.appendChild parent child)).1,
        (t.attempt (t.appendChild parent child)).2.arena) := by
  rw [Arena.appendChild, h.checkInsert_arena hparent]
  cases hok : t.appendChild parent child with
  | error e =>
      rw [h.checkInsert_eq_error_iff.2 (h.appendChild_eq_error_iff.1 hok)]
      rfl
  | ok t' =>
      obtain ⟨h', hplaced⟩ := h.placed_appendChild hchild hok
      cases hcheck : t.checkInsert parent child with
      | error e =>
          rw [h.appendChild_eq_error_iff.2 (h.checkInsert_eq_error_iff.1 hcheck)] at hok
          cases hok
      | ok u =>
          refine congrArg (Prod.mk none) (.trans ?_ (hplaced.arena_eq h h' hparent hchild))
          rw [Arena.pushChild_eq (by simpa using hparent), h.children_arena]

/-- A node stands behind those before it. -/
theorem findIdx?_children (h : t.Accounted) {before after : List NodeId}
    (hchildren : (t.children parent).roots = before ++ id :: after) :
    (before ++ id :: after).findIdx? (· = id) = some before.length := by
  have hnodup : (before ++ id :: after).Nodup := hchildren ▸ h.roots_children_nodup
  have hbefore : id ∉ before := fun hmem =>
    (List.nodup_append'.1 hnodup).2.2 hmem List.mem_cons_self
  rw [List.findIdx?_append, List.findIdx?_eq_none_iff.2, List.findIdx?_cons]
  · simp
  · intro x hx
    exact decide_eq_false fun heq => hbefore (heq ▸ hx)

/-- **Insertion link by link comes to the same**: the reference is always found among the children of
its parent. -/
theorem insertRelative_arena (h : t.Accounted) (hchild : child < t.size) {offset : Nat}
    {g : Forest NodeId → Forest NodeId → Forest NodeId}
    (hplaced : ∀ t', t.insertBeside reference child g = .ok t' →
      t'.Accounted ∧ ∃ parent before after front back, t.parent? reference = some parent ∧
        front ++ back = before ++ reference :: after ∧ front.length = before.length + offset ∧
        Placed t t' parent child front back) :
    t.arena.insertRelative reference child offset =
      ((t.attempt (t.insertBeside reference child g)).1,
        (t.attempt (t.insertBeside reference child g)).2.arena) := by
  rw [Arena.insertRelative, h.parent?_arena]
  cases hok : t.insertBeside reference child g with
  | error e =>
      cases (h.insertBeside_eq_error_iff g).1 hok with
      | detached hreference =>
          rw [hreference]
          rfl
      | parent hreference hforbids =>
          rw [hreference]
          simp only
          rw [h.checkInsert_arena (h.lt_size_of_parent? hreference).2,
            h.checkInsert_eq_error_iff.2 hforbids]
          rfl
  | ok t' =>
      obtain ⟨h', parent, before, after, front, back, hreference, hlists, hlength, hplaced⟩ :=
        hplaced t' hok
      have hparent := (h.lt_size_of_parent? hreference).2
      have hchildren := hplaced.children_before.trans hlists
      rw [hreference]
      simp only
      rw [h.checkInsert_arena hparent]
      cases hcheck : t.checkInsert parent child with
      | error e =>
          rw [(h.insertBeside_eq_error_iff g).2
            (.parent hreference (h.checkInsert_eq_error_iff.1 hcheck))] at hok
          cases hok
      | ok u =>
          simp only
          rw [h.children_arena, hchildren, h.findIdx?_children hchildren]
          refine congrArg (Prod.mk none) (.trans ?_ (hplaced.arena_eq h h' hparent hchild))
          rw [← hlists, ← hlength, insertIdx_length]

theorem insertBefore_arena (h : t.Accounted) (hchild : child < t.size) :
    t.arena.insertBefore reference child =
      ((t.attempt (t.insertBefore reference child)).1,
        (t.attempt (t.insertBefore reference child)).2.arena) :=
  h.insertRelative_arena hchild fun t' hok => by
    obtain ⟨h', parent, before, after, hparent, hplaced⟩ := h.placed_insertBefore hchild hok
    exact ⟨h', parent, before, after, before, reference :: after, hparent, rfl, rfl, hplaced⟩

theorem insertAfter_arena (h : t.Accounted) (hchild : child < t.size) :
    t.arena.insertAfter reference child =
      ((t.attempt (t.insertAfter reference child)).1,
        (t.attempt (t.insertAfter reference child)).2.arena) :=
  h.insertRelative_arena hchild fun t' hok => by
    obtain ⟨h', parent, before, after, hparent, hplaced⟩ := h.placed_insertAfter hchild hok
    exact ⟨h', parent, before, after, before ++ [reference], after, hparent, by simp, by simp,
      hplaced⟩

end Accounted

end Tree

end ViewCompiler
