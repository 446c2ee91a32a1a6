/-
**Trees that are built by editing.**

A tree starts without content or is read from a source, and is edited from then on: nodes are
created, copied from other trees, moved, taken out and changed, in any order, loose pieces as well
as the document.  Parents and child lists are stored apart, and each edit changes them one by one.
The records of every tree that comes about in this way fit together nevertheless, and an edit that
is refused leaves them as they are: they are the records of a tree whose numbers are accounted for,
and its edits come to the same.

Main definitions:

* `ViewCompiler.Edit`, `ViewCompiler.Tree.edit`, `ViewCompiler.Arena.edit` — the edits of a tree,
  and what comes of them;
* `ViewCompiler.Arena.Built` — trees that are built by edits of nodes that they have;
* `ViewCompiler.Arena.WellFormed` — how the records fit together;
* `ViewCompiler.Arena.Refuses` — which edits are refused, and why;
* `ViewCompiler.Arena.Placed`, `ViewCompiler.Arena.Editable` — how the edits of a tree come out.

Main results:

* `ViewCompiler.Tree.Accounted.edit_arena` — editing link by link comes to the same;
* `ViewCompiler.Arena.Built.exists_tree` — what is built by editing are the records of a tree;
* `ViewCompiler.Arena.Built.wellFormed_editable` — **a tree that is built by editing is well formed,
  and can be edited further**.
-/

import ViewCompiler.Proofs.Markup.LinkedCopies

set_option relaxedAutoImplicit false
set_option autoImplicit false

namespace ViewCompiler

/-! ### Edits -/

/-- The edits of a tree.  Nodes are copied from another tree. -/
inductive Edit (σ : Type) where
  | createElement (name : String) (attributes : Attributes)
  | createLeaf (kind : LeafKind) (content : String)
  | appendChild (parent child : NodeId)
  | insertBefore (reference child : NodeId)
  | insertAfter (reference child : NodeId)
  | detach (id : NodeId)
  | takeChildren (id : NodeId)
  | unwrap (id : NodeId)
  | setAttribute (id : NodeId) (name value : String)
  | removeAttribute (id : NodeId) (name : String)
  | setText (id : NodeId) (content : String)
  | importSubtree (other : σ) (id : NodeId)
  | importChildren (other : σ) (id : NodeId)
  | compact

namespace Edit

variable {σ τ : Type}

/-- The numbers of the tree's own nodes that an edit is about. -/
def ids : Edit σ → List NodeId
  | appendChild parent child => [parent, child]
  | insertBefore reference child | insertAfter reference child => [reference, child]
  | detach id | takeChildren id | unwrap id => [id]
  | setAttribute id _ _ | removeAttribute id _ | setText id _ => [id]
  | createElement .. | createLeaf .. | importSubtree .. | importChildren .. | compact => []

/-- The trees that an edit copies from, each with the number of the node. -/
def sources : Edit σ → List (σ × NodeId)
  | importSubtree other id | importChildren other id => [(other, id)]
  | _ => []

/-- The same edit with other trees to copy from. -/
def map (f : σ → τ) : Edit σ → Edit τ
  | createElement name attributes => createElement name attributes
  | createLeaf kind content => createLeaf kind content
  | appendChild parent child => appendChild parent child
  | insertBefore reference child => insertBefore reference child
  | insertAfter reference child => insertAfter reference child
  | detach id => detach id
  | takeChildren id => takeChildren id
  | unwrap id => unwrap id
  | setAttribute id name value => setAttribute id name value
  | removeAttribute id name => removeAttribute id name
  | setText id content => setText id content
  | importSubtree other id => importSubtree (f other) id
  | importChildren other id => importChildren (f other) id
  | compact => compact

@[simp] theorem ids_map (f : σ → τ) (e : Edit σ) : (e.map f).ids = e.ids := by
  cases e <;> rfl

theorem exists_map {f : τ → σ} {P : τ → Prop} (e : Edit σ)
    (h : ∀ s ∈ e.sources, ∃ u, P u ∧ s.1 = f u) :
    ∃ e' : Edit τ, e = e'.map f ∧ ∀ s ∈ e'.sources, P s.1 := by
  cases e with
  | importSubtree other id =>
      obtain ⟨u, hu, rfl⟩ := h (other, id) List.mem_cons_self
      exact ⟨importSubtree u id, rfl, by simpa [sources] using hu⟩
  | importChildren other id =>
      obtain ⟨u, hu, rfl⟩ := h (other, id) List.mem_cons_self
      exact ⟨importChildren u id, rfl, by simpa [sources] using hu⟩
  | createElement name attributes => exact ⟨createElement name attributes, rfl, by simp [sources]⟩
  | createLeaf kind content => exact ⟨createLeaf kind content, rfl, by simp [sources]⟩
  | appendChild parent child => exact ⟨appendChild parent child, rfl, by simp [sources]⟩
  | insertBefore reference child => exact ⟨insertBefore reference child, rfl, by simp [sources]⟩
  | insertAfter reference child => exact ⟨insertAfter reference child, rfl, by simp [sources]⟩
  | detach id => exact ⟨detach id, rfl, by simp [sources]⟩
  | takeChildren id => exact ⟨takeChildren id, rfl, by simp [sources]⟩
  | unwrap id => exact ⟨unwrap id, rfl, by simp [sources]⟩
  | setAttribute id name value => exact ⟨setAttribute id name value, rfl, by simp [sources]⟩
  | removeAttribute id name => exact ⟨removeAttribute id name, rfl, by simp [sources]⟩
  | setText id content => exact ⟨setText id content, rfl, by simp [sources]⟩
  | compact => exact ⟨compact, rfl, by simp [sources]⟩

end Edit

/-- The error of an edit, if it is refused, and the records that it leaves. -/
def Arena.edit (a : Arena) : Edit Arena → Option TreeError × Arena
  | .createElement name attributes => (none, (a.createElement name attributes).2)
  | .createLeaf kind content => (none, (a.createLeaf kind content).2)
  | .appendChild parent child => a.appendChild parent child
  | .insertBefore reference child => a.insertBefore reference child
  | .insertAfter reference child => a.insertAfter reference child
  | .detach id => (none, a.detach id)
  | .takeChildren id => (none, (a.takeChildren id).2)
  | .unwrap id => a.unwrap id
  | .setAttribute id name value => (none, a.setAttribute id name value)
  | .removeAttribute id name => (none, (a.removeAttribute id name).2)
  | .setText id content => (none, a.setText id content)
  | .importSubtree other id => (none, (a.importSubtree other id).2)
  | .importChildren other id => (none, (a.importChildren other id).2)
  | .compact => (none, a.compacted)

/-- The same for a tree. -/
def Tree.edit (t : Tree) : Edit Tree → Option TreeError × Tree
  | .createElement name attributes => (none, (t.createElement name attributes).2)
  | .createLeaf kind content => (none, (t.createLeaf kind content).2)
  | .appendChild parent child => t.attempt (t.appendChild parent child)
  | .insertBefore reference child => t.attempt (t.insertBefore reference child)
  | .insertAfter reference child => t.attempt (t.insertAfter reference child)
  | .detach id => (none, t.detach id)
  | .takeChildren id => (none, (t.takeChildren id).2)
  | .unwrap id => t.attempt (t.unwrap id)
  | .setAttribute id name value => (none, t.setAttribute id name value)
  | .removeAttribute id name => (none, (t.removeAttribute id name).2)
  | .setText id content => (none, t.setText id content)
  | .importSubtree other id => (none, (t.importSubtree other id).2)
  | .importChildren other id => (none, (t.importChildren other id).2)
  | .compact => (none, t.compacted)

/-! ### Editing link by link -/

namespace Tree

variable {t : Tree}

@[simp] theorem attempt_error {x : Except TreeError Tree} {e : TreeError} :
    (t.attempt x).1 = some e ↔ x = .error e := by
  cases x <;> simp [attempt]

theorem attempt_eq_ok {x : Except TreeError Tree} (h : (t.attempt x).1 = none) :
    x = .ok (t.attempt x).2 := by
  cases x with
  | ok t' => rfl
  | error e => cases h

/-- An edit that may be refused keeps numbers accounted for if it does so when it is not. -/
theorem Accounted.attempt (h : t.Accounted) {x : Except TreeError Tree}
    (hx : ∀ t', x = .ok t' → t'.Accounted) : (t.attempt x).2.Accounted := by
  cases x with
  | ok t' => exact hx t' rfl
  | error e => exact h

/-- **Editing keeps numbers accounted for, and comes to the same link by link.** -/
theorem Accounted.edit_arena (h : t.Accounted) (e : Edit Tree) (hids : ∀ id ∈ e.ids, id < t.size)
    (hsources : ∀ s ∈ e.sources, s.1.Accounted) :
    t.arena.edit (e.map arena) = ((t.edit e).1, (t.edit e).2.arena) ∧
      (t.edit e).2.Accounted := by
  cases e with
  | createElement name attributes =>
      have hpush := h.push_arena (n := .element ⟨t.size, name, attributes, .nil⟩) rfl rfl
      exact ⟨congrArg (fun x : NodeId × Arena => (none, x.2)) hpush,
        h.createElement name attributes⟩
  | createLeaf kind content =>
      have hpush := h.push_arena (n := .leaf t.size kind content) rfl rfl
      exact ⟨congrArg (fun x : NodeId × Arena => (none, x.2)) hpush, h.createLeaf kind content⟩
  | appendChild parent child =>
      have hchild := hids child (by simp [Edit.ids])
      exact ⟨h.appendChild_arena (hids parent (by simp [Edit.ids])) hchild,
        h.attempt fun t' hok => (h.placed_appendChild hchild hok).1⟩
  | insertBefore reference child =>
      have hchild := hids child (by simp [Edit.ids])
      exact ⟨h.insertBefore_arena hchild,
        h.attempt fun t' hok => (h.placed_insertBefore hchild hok).1⟩
  | insertAfter reference child =>
      have hchild := hids child (by simp [Edit.ids])
      exact ⟨h.insertAfter_arena hchild,
        h.attempt fun t' hok => (h.placed_insertAfter hchild hok).1⟩
  | detach id => exact ⟨congrArg (Prod.mk none) h.detach_arena, h.detach id⟩
  | takeChildren id =>
      have htaken := h.takeChildren_arena (hids id (by simp [Edit.ids]))
      exact ⟨congrArg (fun x : List NodeId × Arena => (none, x.2)) htaken, h.takeChildren id⟩
  | unwrap id => exact ⟨h.unwrap_arena, h.attempt fun t' hok => h.unwrap hok⟩
  | setAttribute id name value =>
      exact ⟨congrArg (Prod.mk none) (h.mapAttributes_arena (hids id (by simp [Edit.ids])) _),
        h.mapAttributes id _⟩
  | removeAttribute id name =>
      have hremoved := h.removeAttribute_arena (hids id (by simp [Edit.ids])) name
      exact ⟨congrArg (fun x : Option String × Arena => (none, x.2)) hremoved,
        h.mapAttributes id _⟩
  | setText id content =>
      exact ⟨congrArg (Prod.mk none) (h.setText_arena (hids id (by simp [Edit.ids])) content),
        h.setText id content⟩
  | importSubtree other id =>
      obtain ⟨himport, h'⟩ := h.importSubtree_arena (hsources (other, id) List.mem_cons_self) id
      exact ⟨congrArg (fun x : NodeId × Arena => (none, x.2)) himport, h'⟩
  | importChildren other id =>
      obtain ⟨himport, h'⟩ := h.importChildren_arena (hsources (other, id) List.mem_cons_self) id
      exact ⟨congrArg (fun x : List NodeId × Arena => (none, x.2)) himport, h'⟩
  | compact => exact ⟨congrArg (Prod.mk none) h.compacted_arena, accounted_ofPlain t.content⟩

end Tree

/-! ### Trees that are built -/

namespace Arena

/-- A tree that is built by edits of nodes that it has.  What it copies from is built as well. -/
inductive Built : Arena → Prop where
  | new : Built new
  | parse {source : String} {a : Arena} (h : parse source = .ok a) : Built a
  | edit {a : Arena} (h : Built a) (e : Edit Arena) (hids : ∀ id ∈ e.ids, id < a.size)
      (hbuilt : ∀ s ∈ e.sources, Built s.1) (hsources : ∀ s ∈ e.sources, s.2 < s.1.size) :
      Built (a.edit e).2

/-- **What is built by editing are the records of a tree whose numbers are accounted for.** -/
theorem Built.exists_tree {a : Arena} (h : a.Built) : ∃ t : Tree, t.Accounted ∧ a = t.arena := by
  induction h with
  | new => exact ⟨Tree.empty, Tree.accounted_empty, rfl⟩
  | @parse source a h =>
      rw [parse_eq] at h
      obtain ⟨t, ht, rfl⟩ := map_eq_ok_iff.1 h
      exact ⟨t, parse_accounted ht, rfl⟩
  | @edit a _ e hids _ _ ih ihs =>
      obtain ⟨t, ht, rfl⟩ := ih
      obtain ⟨e, rfl, hsources⟩ := e.exists_map ihs
      obtain ⟨hedit, h'⟩ := ht.edit_arena e (by simpa using hids) hsources
      exact ⟨(t.edit e).2, h', congrArg Prod.snd hedit⟩

/-! ### Records that fit together -/

/-- The node that is reached by going up that many times. -/
def climb (a : Arena) : Nat → NodeId → Option NodeId
  | 0, id => some id
  | n + 1, id => (a.parent? id).bind (a.climb n)

/-- The records fit together. -/
structure WellFormed (a : Arena) : Prop where
  parent?_root : a.parent? Tree.root = none
  kind_eq_document_iff : ∀ id < a.size, a.kind id = .document ↔ id = Tree.root
  /-- Both ends of a link are stored. -/
  parent?_eq_some_iff : ∀ id parent, a.parent? id = some parent ↔ id ∈ a.children parent
  children_nodup : ∀ id, (a.children id).Nodup
  lt_size : ∀ id parent, a.parent? id = some parent → id < a.size ∧ parent < a.size
  allowsChildren : ∀ id, a.children id ≠ [] → (a.kind id).allowsChildren = true
  /-- Going up ends before there were more steps than there are nodes. -/
  climb_ends : ∀ id, a.climb a.size id = none

/-! ### How edits come out -/

/-- `ancestor` is the node itself, or its parent, or the parent of that, and so on. -/
def Above (a : Arena) (ancestor id : NodeId) : Prop :=
  Relation.ReflTransGen (fun child parent => a.parent? child = some parent) id ancestor

/-- Why `child` may not become a child of `parent`: the first reason that there is. -/
inductive Forbids (a : Arena) (parent child : NodeId) : TreeError → Prop where
  | invalidParent (hparent : (a.kind parent).allowsChildren = false) :
      Forbids a parent child (.invalidParent parent)
  | alreadyAttached (hparent : (a.kind parent).allowsChildren = true)
      (hchild : child = Tree.root ∨ a.parent? child ≠ none) :
      Forbids a parent child (.alreadyAttached child)
  | cycle (hparent : (a.kind parent).allowsChildren = true) (hchild : child ≠ Tree.root)
      (hloose : a.parent? child = none) (habove : a.Above child parent) :
      Forbids a parent child (.cycle parent child)

/-- The edits that are refused, each with its error. -/
def Refuses (a : Arena) : Edit Arena → TreeError → Prop
  | .appendChild parent child, e => a.Forbids parent child e
  | .insertBefore reference child, e | .insertAfter reference child, e =>
      match a.parent? reference with
      | none => e = .detached reference
      | some parent => a.Forbids parent child e
  | .unwrap id, e => a.parent? id = none ∧ e = .detached id
  | _, _ => False

/-- `child` is put into place among the children of `parent`, between `before` and `after`, and
nothing else is changed. -/
structure Placed (a a' : Arena) (parent child : NodeId) (before after : List NodeId) : Prop where
  size_eq : a'.size = a.size
  children_before : a.children parent = before ++ after
  children_after : a'.children parent = before ++ child :: after
  children_eq : ∀ id ≠ parent, a'.children id = a.children id
  parent?_child : a'.parent? child = some parent
  parent?_eq : ∀ id ≠ child, a'.parent? id = a.parent? id
  kind_eq : ∀ id, a'.kind id = a.kind id

/-- How the edits of a tree come out, if they are about nodes that it has. -/
structure Editable (a : Arena) : Prop where
  refuses_iff : ∀ (e : Edit Arena) (error : TreeError), (∀ id ∈ e.ids, id < a.size) →
    ((a.edit e).1 = some error ↔ a.Refuses e error)
  /-- An edit that is refused changes nothing. -/
  unchanged : ∀ (e : Edit Arena) (error : TreeError), (∀ id ∈ e.ids, id < a.size) →
    (a.edit e).1 = some error → (a.edit e).2 = a
  appended : ∀ parent child, parent < a.size → child < a.size →
    (a.edit (.appendChild parent child)).1 = none →
    Placed a (a.edit (.appendChild parent child)).2 parent child (a.children parent) []
  insertedBefore : ∀ reference child, reference < a.size → child < a.size →
    (a.edit (.insertBefore reference child)).1 = none →
    ∃ parent before after, a.parent? reference = some parent ∧
      Placed a (a.edit (.insertBefore reference child)).2 parent child before (reference :: after)
  insertedAfter : ∀ reference child, reference < a.size → child < a.size →
    (a.edit (.insertAfter reference child)).1 = none →
    ∃ parent before after, a.parent? reference = some parent ∧
      Placed a (a.edit (.insertAfter reference child)).2 parent child (before ++ [reference]) after

end Arena

namespace Tree.Accounted

variable {t t' : Tree} {parent reference child id : NodeId} {error : TreeError}

/-! ### The records of a tree -/

theorem climb_arena (h : t.Accounted) (n : Nat) (hid : t.whole.labels.idxOf id < n) :
    t.arena.climb n id = none := by
  induction n generalizing id with
  | zero => exact absurd hid (Nat.not_lt_zero _)
  | succ n ih =>
      rw [Arena.climb, h.parent?_arena]
      cases hparent : t.parent? id with
      | none => rfl
      | some parent =>
          have hlt := h.idxOf_parent_lt hparent
          exact ih (by omega)

/-- **The records of a tree fit together.** -/
theorem wellFormed_arena (h : t.Accounted) : t.arena.WellFormed where
  parent?_root := by rw [h.parent?_arena, h.wellFormed.parent?_root]
  kind_eq_document_iff id hid := by
    rw [h.kind_arena, nodeKind, kind?]
    by_cases hroot : id = root
    · simp [hroot, h.find?_root]
    · obtain ⟨n, hn⟩ := Option.ne_none_iff_exists'.1
        ((h.find?_ne_none_iff hroot).2 (by simpa using hid))
      rw [hn]
      cases n <;> simp [hroot, Node.kind, Kind.nodeKind]
  parent?_eq_some_iff id parent := by
    rw [h.parent?_arena, h.children_arena, h.parent?_eq_some_iff]
  children_nodup id := by
    rw [h.children_arena]
    exact h.roots_children_nodup
  lt_size id parent hparent := by
    rw [h.parent?_arena] at hparent
    simpa using h.lt_size_of_parent? hparent
  allowsChildren id hchildren := by
    rw [h.children_arena] at hchildren
    obtain ⟨x, hx⟩ := List.exists_mem_of_ne_nil _ hchildren
    rw [h.allowsChildren_arena (h.lt_size_of_parent? (h.parent?_eq_some_iff.2 hx)).2]
    exact t.allowsChildren_of_roots_children hchildren
  climb_ends id := by
    rw [size_arena]
    have hlength : t.whole.labels.length = t.size := by
      rw [h.length_eq, List.length_range]
    by_cases hid : id < t.size
    · refine h.climb_arena t.size ?_
      rw [← hlength]
      exact List.idxOf_lt_length_of_mem (h.mem_labels_iff.2 hid)
    · -- what was not handed out has no parent
      obtain ⟨n, hn⟩ := Nat.exists_eq_succ_of_ne_zero (Nat.ne_of_gt h.root_lt_size)
      have hfree : t.parent? id = none :=
        congrArg NodeRecord.parent? (h.nodeRecord_of_size_le (Nat.le_of_not_lt hid))
      rw [hn, Arena.climb, h.parent?_arena, hfree]
      rfl

/-! ### How the edits of its records come out -/

theorem above_arena (h : t.Accounted) : t.arena.Above child parent ↔ t.Above child parent := by
  have hparents : t.arena.parent? = t.parent? := funext fun _ => h.parent?_arena
  rw [Arena.Above, hparents, Above]

theorem forbids_arena (h : t.Accounted) (hparent : parent < t.size) :
    t.arena.Forbids parent child error ↔ t.Forbids parent child error := by
  have hkind := h.allowsChildren_arena hparent
  constructor
  · intro hforbids
    cases hforbids with
    | invalidParent hinvalid => exact .invalidParent (hkind.symm.trans hinvalid)
    | alreadyAttached hallows hchild =>
        exact .alreadyAttached (hkind.symm.trans hallows) (by rwa [← h.parent?_arena])
    | cycle hallows hchild hloose habove =>
        exact .cycle (hkind.symm.trans hallows) hchild (by rwa [← h.parent?_arena])
          (h.above_arena.1 habove)
  · intro hforbids
    cases hforbids with
    | invalidParent hinvalid => exact .invalidParent (hkind.trans hinvalid)
    | alreadyAttached hallows hchild =>
        exact .alreadyAttached (hkind.trans hallows) (by rwa [h.parent?_arena])
    | cycle hallows hchild hloose habove =>
        exact .cycle (hkind.trans hallows) hchild (by rwa [h.parent?_arena])
          (h.above_arena.2 habove)

theorem placed_arena {before after : List NodeId} (hplaced : Placed t t' parent child before after)
    (h : t.Accounted) (h' : t'.Accounted) :
    t.arena.Placed t'.arena parent child before after where
  size_eq := by rw [size_arena, size_arena, hplaced.size_eq]
  children_before := by rw [h.children_arena, hplaced.children_before]
  children_after := by rw [h'.children_arena, hplaced.children_after]
  children_eq id hid := by rw [h.children_arena, h'.children_arena, hplaced.children_eq id hid]
  parent?_child := by rw [h'.parent?_arena, hplaced.parent?_child]
  parent?_eq id hid := by rw [h.parent?_arena, h'.parent?_arena, hplaced.parent?_eq id hid]
  kind_eq id := by rw [h.kind_arena, h'.kind_arena, hplaced.nodeKind_eq]

theorem refuses_beside (h : t.Accounted) :
    (match t.arena.parent? reference with
      | none => error = .detached reference
      | some parent => t.arena.Forbids parent child error) ↔
        t.ForbidsBeside reference child error := by
  rw [h.parent?_arena]
  cases hreference : t.parent? reference with
  | none =>
      constructor
      · rintro rfl
        exact .detached hreference
      · intro hforbids
        cases hforbids with
        | detached => rfl
        | parent hparent => simp [hreference] at hparent
  | some parent =>
      have hlt := (h.lt_size_of_parent? hreference).2
      constructor
      · exact fun hforbids => .parent hreference ((h.forbids_arena hlt).1 hforbids)
      · intro hforbids
        cases hforbids with
        | detached hdetached => simp [hreference] at hdetached
        | parent hparent hforbids =>
            obtain rfl := Option.some.inj (hreference.symm.trans hparent)
            exact (h.forbids_arena hlt).2 hforbids

/-- **An edit of records is refused just when it should be.** -/
theorem edit_refuses_iff (h : t.Accounted) (e : Edit Arena) (hids : ∀ id ∈ e.ids, id < t.size) :
    (t.arena.edit e).1 = some error ↔ t.arena.Refuses e error := by
  cases e with
  | appendChild parent child =>
      have hparent := hids parent (by simp [Edit.ids])
      rw [Arena.edit, h.appendChild_arena hparent (hids child (by simp [Edit.ids])),
        attempt_error, h.appendChild_eq_error_iff, Arena.Refuses, h.forbids_arena hparent]
  | insertBefore reference child =>
      rw [Arena.edit, h.insertBefore_arena (hids child (by simp [Edit.ids])), attempt_error,
        Tree.insertBefore, h.insertBeside_eq_error_iff, ← h.refuses_beside]
      rfl
  | insertAfter reference child =>
      rw [Arena.edit, h.insertAfter_arena (hids child (by simp [Edit.ids])), attempt_error,
        Tree.insertAfter, h.insertBeside_eq_error_iff, ← h.refuses_beside]
      rfl
  | unwrap id =>
      rw [Arena.edit, h.unwrap_arena, attempt_error, h.unwrap_eq_error_iff, Arena.Refuses,
        h.parent?_arena]
  | createElement | createLeaf | detach | takeChildren | setAttribute | removeAttribute
  | setText | importSubtree | importChildren | compact => simp [Arena.edit, Arena.Refuses]

theorem attempt_unchanged {x : Except TreeError Tree} (hx : (t.attempt x).1 = some error) :
    (t.attempt x).2.arena = t.arena := by
  rw [attempt_error.1 hx]
  rfl

/-- **An edit of records that is refused changes nothing.** -/
theorem edit_unchanged (h : t.Accounted) (e : Edit Arena) (hids : ∀ id ∈ e.ids, id < t.size)
    (herror : (t.arena.edit e).1 = some error) : (t.arena.edit e).2 = t.arena := by
  cases e with
  | appendChild parent child =>
      rw [Arena.edit, h.appendChild_arena (hids parent (by simp [Edit.ids]))
        (hids child (by simp [Edit.ids]))] at herror ⊢
      exact attempt_unchanged herror
  | insertBefore reference child =>
      rw [Arena.edit, h.insertBefore_arena (hids child (by simp [Edit.ids]))] at herror ⊢
      exact attempt_unchanged herror
  | insertAfter reference child =>
      rw [Arena.edit, h.insertAfter_arena (hids child (by simp [Edit.ids]))] at herror ⊢
      exact attempt_unchanged herror
  | unwrap id =>
      rw [Arena.edit, h.unwrap_arena] at herror ⊢
      exact attempt_unchanged herror
  | createElement | createLeaf | detach | takeChildren | setAttribute | removeAttribute
  | setText | importSubtree | importChildren | compact => cases herror

/-- **The edits of records come out as they should.** -/
theorem editable_arena (h : t.Accounted) : t.arena.Editable where
  refuses_iff e error hids := h.edit_refuses_iff e (by simpa using hids)
  unchanged e error hids := h.edit_unchanged e (by simpa using hids)
  appended parent child hparent hchild hnone := by
    rw [size_arena] at hparent hchild
    rw [Arena.edit, h.appendChild_arena hparent hchild] at hnone ⊢
    obtain ⟨h', hplaced⟩ := h.placed_appendChild hchild (attempt_eq_ok hnone)
    rw [h.children_arena]
    exact placed_arena hplaced h h'
  insertedBefore reference child _ hchild hnone := by
    rw [size_arena] at hchild
    rw [Arena.edit, h.insertBefore_arena hchild] at hnone ⊢
    obtain ⟨h', parent, before, after, hparent, hplaced⟩ :=
      h.placed_insertBefore hchild (attempt_eq_ok hnone)
    exact ⟨parent, before, after, h.parent?_arena.trans hparent, placed_arena hplaced h h'⟩
  insertedAfter reference child _ hchild hnone := by
    rw [size_arena] at hchild
    rw [Arena.edit, h.insertAfter_arena hchild] at hnone ⊢
    obtain ⟨h', parent, before, after, hparent, hplaced⟩ :=
      h.placed_insertAfter hchild (attempt_eq_ok hnone)
    exact ⟨parent, before, after, h.parent?_arena.trans hparent, placed_arena hplaced h h'⟩

end Tree.Accounted

namespace Arena

/-- **A tree that is built by editing is well formed, and can be edited further.** -/
theorem Built.wellFormed_editable {a : Arena} (h : a.Built) : a.WellFormed ∧ a.Editable := by
  obtain ⟨t, ht, rfl⟩ := h.exists_tree
  exact ⟨ht.wellFormed_arena, ht.editable_arena⟩

/-- A paragraph with an element and a text, as it is read. -/
def paragraph : Arena where
  nodes := [⟨.document, none, [1]⟩, ⟨.element "p" [], some 0, [2, 3]⟩,
    ⟨.element "b" [], some 1, []⟩, ⟨.leaf .text "x", some 1, []⟩]

/-- A new element is put behind the first one, and the paragraph is taken out. -/
def looseParagraph : Arena :=
  (((paragraph.edit (.createElement "i" [])).2.edit (.insertAfter 2 4)).2.edit (.detach 1)).2

/-- The loose paragraph is built by editing, and can go back into the document, but not below the
element in it. -/
theorem looseParagraph_wellFormed_editable :
    looseParagraph.Built ∧ looseParagraph.WellFormed ∧ looseParagraph.Editable ∧
      looseParagraph.children 1 = [2, 4, 3] ∧
      (looseParagraph.edit (.appendChild Tree.root 1)).1 = none ∧
      (looseParagraph.edit (.appendChild 4 1)).1 = some (.cycle 4 1) := by
  have hparse : parse "<p><b/>x</p>" = .ok paragraph := by decide +kernel
  have hcreated := (Built.parse hparse).edit (.createElement "i" []) (by decide)
    (by simp [Edit.sources]) (by simp [Edit.sources])
  have hinserted := hcreated.edit (.insertAfter 2 4) (by decide)
    (by simp [Edit.sources]) (by simp [Edit.sources])
  have hbuilt : looseParagraph.Built := hinserted.edit (.detach 1) (by decide)
    (by simp [Edit.sources]) (by simp [Edit.sources])
  exact ⟨hbuilt, (Built.wellFormed_editable hbuilt).1, (Built.wellFormed_editable hbuilt).2,
    by decide, by decide, by decide⟩

end Arena

end ViewCompiler
