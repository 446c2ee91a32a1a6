/-
**Links cut, and records changed.**

Taking a node out of its parent cuts the link to the parent and then the link from there, and so
does taking out all its children; unwrapping links the children to the parent before the node is
looked up among its siblings.  Seen as tables, the trees before and after differ in one row, or in
two; and as a link is stored at both ends, the parents follow from the child lists.

Main definitions:

* `ViewCompiler.Tree.Rewritten` — trees that differ in one row of their tables.

Main results:

* `ViewCompiler.Tree.Accounted.detach_arena`, `ViewCompiler.Tree.Accounted.takeChildren_arena`,
  `ViewCompiler.Tree.Accounted.unwrap_arena` — **nodes taken out link by link**;
* `ViewCompiler.Tree.Accounted.mapAttributes_arena`, `ViewCompiler.Tree.Accounted.setText_arena` —
  nodes changed in their records;
* `ViewCompiler.Tree.Accounted.push_arena` — new nodes.
-/

import ViewCompiler.Proofs.Markup.Linking

set_option relaxedAutoImplicit false
set_option autoImplicit false

namespace ViewCompiler

/-- Only elements have attributes to change. -/
theorem Arena.mapAttributes_of_not_element {a : Arena} {id : NodeId}
    (h : ∀ name attributes, a.kind id ≠ .element name attributes) (f : Attributes → Attributes) :
    a.mapAttributes id f = a := by
  refine eq_of_record (size_modify _) fun x => ?_
  by_cases hid : id < a.size
  · rw [mapAttributes, record_modify hid]
    split
    · next heq =>
        subst heq
        split
        · next name attributes hkind => exact absurd hkind (h name attributes)
        · rfl
    · rfl
  · rw [mapAttributes, modify, List.modify_eq_self (Nat.le_of_not_lt hid)]

namespace Tree

variable {t t' : Tree} {id parent : NodeId}

/-! ### Nodes taken out -/

/-- **A node that is taken out** could be put back between the same siblings. -/
theorem Accounted.gains_detach (h : t.Accounted) (hparent : t.parent? id = some parent) :
    ∃ before after, Gains (t.detach id) t parent id before after := by
  obtain ⟨r, hr, hmem⟩ := h.mem_roots_children_iff.1 (h.parent?_eq_some_iff.1 hparent)
  have hne := h.ne_root_of_parent? hparent
  obtain ⟨n, hn⟩ : ∃ n, t.find? id = some n :=
    Option.ne_none_iff_exists'.1 ((h.find?_ne_none_iff hne).2 (h.lt_size_of_parent? hparent).1)
  have hwhole : t.whole.find? id = some n := by rw [t.find?_whole hne, hn]
  obtain ⟨spliced, hspliced⟩ := h.exists_splicedTable hn
  obtain ⟨before, after, others, hchildren, hold, hnew⟩ :=
    hspliced.exists_named h.nodup (Forest.label_of_find? hwhole) hr hmem
  have hdetach : t.detach id = { t.replace id (fun _ => .nil) with
      loose := .single n ++ (t.replace id fun _ => .nil).loose } := by
    rw [Tree.detach, hparent, hn]
  refine ⟨before, after, by rw [hdetach]; rfl, r.kind, others ++ (Forest.single n).records, ?_, ?_⟩
  · have hrecords := hnew fun _ => .nil
    rw [← t.whole_replace hne] at hrecords
    simp only [Forest.roots, Forest.records, List.append_nil] at hrecords
    rw [hdetach]
    refine (records_addLoose (t.replace id fun _ => .nil) (.single n)).trans ?_
    exact (hrecords.append_left _).trans (List.perm_middle.trans (.cons _ List.perm_append_comm))
  · rwa [← hchildren]

/-- **Taking a node out link by link comes to the same.** -/
theorem Accounted.detach_arena (h : t.Accounted) : t.arena.detach id = (t.detach id).arena := by
  rw [Arena.detach, h.parent?_arena]
  cases hparent : t.parent? id with
  | none => rw [Tree.detach, hparent]
  | some parent =>
      have h' := h.detach id
      obtain ⟨hid, hlt⟩ := h.lt_size_of_parent? hparent
      obtain ⟨before, after, hgains⟩ := h.gains_detach hparent
      have hplaced := hgains.placed h'
      have hnodup : (before ++ id :: after).Nodup := hplaced.children_after ▸ h.roots_children_nodup
      rw [List.nodup_middle, List.nodup_cons] at hnodup
      have hchildren : ((t.children parent).roots).filter (· ≠ id) = before ++ after := by
        rw [hplaced.children_after, List.filter_append, List.filter_cons_of_neg (by simp),
          ← List.filter_append, List.filter_eq_self]
        intro x hx
        exact decide_eq_true fun heq => hnodup.1 (heq ▸ hx)
      have hloose : (t.detach id).parent? id = none := by
        cases hp : (t.detach id).parent? id with
        | none => rfl
        | some p =>
            have hmem := h'.parent?_eq_some_iff.1 hp
            by_cases heq : p = parent
            · rw [heq, hplaced.children_before] at hmem
              exact absurd hmem hnodup.1
            · rw [← hplaced.children_eq p heq, ← h.parent?_eq_some_iff, hparent] at hmem
              exact absurd (Option.some.inj hmem).symm heq
      refine h'.eq_arena ?_ (fun x => ?_) (fun x => ?_) fun x => ?_
      · simp [hplaced.size_eq]
      · simp only [Arena.kind_setChildren, Arena.kind_setParent]
        rw [h.kind_arena, hplaced.nodeKind_eq]
      · simp only [Arena.parent?_setChildren]
        rw [Arena.parent?_setParent (by simpa using hid), h.parent?_arena]
        split
        · next heq => rw [heq, hloose]
        · next hne => rw [hplaced.parent?_eq x hne]
      · simp only [Arena.children_setParent]
        rw [Arena.children_setChildren (by simpa using hlt), h.children_arena]
        split
        · next heq => rw [heq, hchildren, hplaced.children_before]
        · next hne => rw [Arena.children_setParent, h.children_arena, hplaced.children_eq x hne]

/-! ### One row -/

/-- The tables of two trees differ in one row. -/
def Rewritten (t t' : Tree) (id : NodeId) (r r' : Record NodeId) : Prop :=
  t'.size = t.size ∧ ∃ others,
    t.whole.records.Perm ((id, r) :: others) ∧ t'.whole.records.Perm ((id, r') :: others)

namespace Rewritten

variable {r r' : Record NodeId}

theorem accounted (hrow : Rewritten t t' id r r') (h : t.Accounted) : t'.Accounted := by
  obtain ⟨hsize, others, ht, ht'⟩ := hrow
  have hlabels : t'.whole.labels.Perm t.whole.labels := by
    simpa using (ht'.map (·.1)).trans (ht.map (·.1)).symm
  rw [Accounted, hsize]
  exact hlabels.trans h

theorem record?_eq (hrow : Rewritten t t' id r r') (h : t.Accounted) (x : NodeId) :
    t'.record? x = if x = id then some r' else t.record? x := by
  have h' := hrow.accounted h
  obtain ⟨-, others, ht, ht'⟩ := hrow
  split
  · next heq => exact heq ▸ h'.record?_eq_some_iff.2 (ht'.mem_iff.2 List.mem_cons_self)
  · next hne =>
      ext row
      rw [h.record?_eq_some_iff, h'.record?_eq_some_iff, ht.mem_iff, ht'.mem_iff]
      simp [hne]

theorem record?_self (hrow : Rewritten t t' id r r') (h : t.Accounted) : t.record? id = some r := by
  obtain ⟨-, others, ht, -⟩ := hrow
  exact h.record?_eq_some_iff.2 (ht.mem_iff.2 List.mem_cons_self)

theorem roots_children (hrow : Rewritten t t' id r r') (h : t.Accounted) (x : NodeId) :
    (t'.children x).roots = if x = id then r'.children else (t.children x).roots := by
  rw [Tree.roots_children, hrow.record?_eq h]
  split
  · rfl
  · rw [Tree.roots_children]

theorem kind?_eq (hrow : Rewritten t t' id r r') (h : t.Accounted) (x : NodeId) :
    t'.kind? x = if x = id ∧ x ≠ root then some r'.kind else t.kind? x := by
  by_cases hroot : x = root
  · rw [if_neg fun hx => hx.2 hroot, hroot, kind?, kind?, h.find?_root,
      (hrow.accounted h).find?_root]
  · rw [t'.kind?_eq hroot, t.kind?_eq hroot, hrow.record?_eq h]
    simp only [hroot, ne_eq, not_false_eq_true, and_true]
    split <;> rfl

/-- Links to a parent follow the child lists. -/
theorem parent?_eq_some_iff (hrow : Rewritten t t' id r r') (h : t.Accounted) {x : NodeId} :
    t'.parent? x = some parent ↔
      if parent = id then x ∈ r'.children else t.parent? x = some parent := by
  rw [(hrow.accounted h).parent?_eq_some_iff, hrow.roots_children h, h.parent?_eq_some_iff]
  split <;> rfl

end Rewritten

/-- A node is replaced by one with the same number and with the same below it. -/
theorem Accounted.rewritten_replace (h : t.Accounted) {n : Node NodeId} (hn : t.find? id = some n)
    {g : Node NodeId → Forest NodeId} (kind : Kind)
    (hg : (g n).records = (id, ⟨kind, n.below.roots⟩) :: n.below.records)
    (hroots : (g n).roots = [id]) :
    Rewritten t (t.replace id g) id n.record ⟨kind, n.below.roots⟩ := by
  have hne := h.ne_root_of_find? hn
  have hlabel : n.label = id := Forest.label_of_find? ((t.find?_whole hne).trans hn)
  obtain ⟨others, hold, hnew⟩ := h.exists_splicedTable hn
  have hreplaced := (hnew g).2
  rw [← t.whole_replace hne, hroots] at hreplaced
  simp only [Record.spliced_self, List.map_id', hg] at hreplaced
  rw [Forest.records_single, hlabel] at hold
  exact ⟨rfl, others ++ n.below.records, hold.trans List.perm_middle,
    hreplaced.trans List.perm_middle⟩

/-- A row whose children stay the same is another kind of node. -/
theorem Rewritten.arena_eq {r : Record NodeId} {kind : Kind} {f : NodeRecord → NodeRecord}
    (hrow : Rewritten t t' id r ⟨kind, r.children⟩) (h : t.Accounted) (hid : id < t.size)
    (hroot : id ≠ root) (hf : ∀ p,
      f ⟨r.kind.nodeKind, p, r.children⟩ = ⟨kind.nodeKind, p, r.children⟩) :
    t.arena.modify id f = t'.arena := by
  have h' := hrow.accounted h
  have hself := hrow.record?_self h
  have hchildren : (t.children id).roots = r.children := by
    rw [Tree.roots_children, hself]
    rfl
  have hkind : t.nodeKind id = r.kind.nodeKind := by
    rw [nodeKind, t.kind?_eq hroot, hself]
    rfl
  have hparent : ∀ x, t'.parent? x = t.parent? x := by
    intro x
    ext p
    rw [hrow.parent?_eq_some_iff h]
    split
    · next heq => rw [heq, h.parent?_eq_some_iff, hchildren]
    · rfl
  refine Arena.eq_of_record (by simp [hrow.1]) fun x => ?_
  rw [Arena.record_modify (by simpa using hid), h.record_arena, h'.record_arena]
  split
  · next heq =>
      rw [heq, nodeRecord, hkind, hchildren, hf, nodeRecord, hparent, hrow.roots_children h,
        if_pos rfl, nodeKind, hrow.kind?_eq h, if_pos ⟨rfl, hroot⟩]
      rfl
  · next hne =>
      rw [nodeRecord, nodeRecord, hparent, hrow.roots_children h, if_neg hne, nodeKind, nodeKind,
        hrow.kind?_eq h, if_neg fun hx => hne hx.1]

namespace Accounted

/-- The document is no element and no leaf. -/
theorem modify_root (h : t.Accounted) {f : NodeRecord → NodeRecord}
    (hf : ∀ r, r.kind = .document → f r = r) : t.arena.modify root f = t.arena := by
  have hzero : root < t.size := h.mem_labels_iff.1 List.mem_cons_self
  refine Arena.eq_of_record (by simp) fun x => ?_
  rw [Arena.record_modify (by simpa using hzero)]
  split
  · next heq =>
      refine hf _ ?_
      rw [heq, h.record_arena, nodeRecord, nodeKind, kind?, h.find?_root]
      rfl
  · rfl

theorem replace_root (h : t.Accounted) (g : Node NodeId → Forest NodeId) :
    t.replace root g = t :=
  replace_of_find?_eq_none h.find?_root g

/-- **Attributes are changed in the record.** -/
theorem mapAttributes_arena (h : t.Accounted) (hid : id < t.size) (f : Attributes → Attributes) :
    t.arena.mapAttributes id f = (t.mapAttributes id f).arena := by
  rw [Arena.mapAttributes, Tree.mapAttributes]
  by_cases hroot : id = root
  · subst hroot
    rw [h.replace_root]
    exact h.modify_root fun r hr => by rw [hr]
  · obtain ⟨n, hn⟩ := Option.ne_none_iff_exists'.1 ((h.find?_ne_none_iff hroot).2 hid)
    have hlabel : n.label = id := Forest.label_of_find? ((t.find?_whole hroot).trans hn)
    cases n with
    | element e =>
        obtain rfl : e.label = id := hlabel
        refine (h.rewritten_replace hn (.element e.name (f e.attributes)) ?_ rfl).arena_eq h
          hid hroot fun p => rfl
        simp [Forest.records, Node.below]
    | leaf label kind content =>
        obtain rfl : label = id := hlabel
        exact (h.rewritten_replace hn (.leaf kind content) rfl rfl).arena_eq h hid hroot
          fun p => rfl

theorem removeAttribute_arena (h : t.Accounted) (hid : id < t.size) (name : String) :
    t.arena.removeAttribute id name =
      ((t.removeAttribute id name).1, (t.removeAttribute id name).2.arena) := by
  have hmap := h.mapAttributes_arena hid (·.remove name)
  have hvalue : (t.removeAttribute id name).1 = ((t.attributes id).get? name) := rfl
  have hkind : t.arena.kind id = ((t.find? id).map fun n => n.kind.nodeKind).getD .document := by
    rw [h.kind_arena, nodeKind, kind?, Option.map_map]
    rfl
  have hkeep : (∀ key attributes, t.arena.kind id ≠ .element key attributes) →
      t.arena = (t.removeAttribute id name).2.arena := fun hother =>
    (Arena.mapAttributes_of_not_element hother _).symm.trans hmap
  rw [Arena.removeAttribute, hvalue, attributes]
  rw [hkind] at hkeep ⊢
  generalize t.find? id = found at hkeep ⊢
  rcases found with - | ⟨e⟩ | ⟨label, kind, content⟩
  · exact congrArg (Prod.mk none) (hkeep (by simp [Node.kind, Kind.nodeKind]))
  · exact congrArg (Prod.mk _) hmap
  · exact congrArg (Prod.mk none) (hkeep (by simp [Node.kind, Kind.nodeKind]))

/-- **The text of a leaf is changed in the record.** -/
theorem setText_arena (h : t.Accounted) (hid : id < t.size) (content : String) :
    t.arena.setText id content = (t.setText id content).arena := by
  rw [Arena.setText, Tree.setText]
  by_cases hroot : id = root
  · subst hroot
    rw [h.replace_root]
    exact h.modify_root fun r hr => by rw [hr]
  · obtain ⟨n, hn⟩ := Option.ne_none_iff_exists'.1 ((h.find?_ne_none_iff hroot).2 hid)
    have hlabel : n.label = id := Forest.label_of_find? ((t.find?_whole hroot).trans hn)
    cases n with
    | element e =>
        obtain rfl : e.label = id := hlabel
        refine (h.rewritten_replace hn (.element e.name e.attributes) ?_ rfl).arena_eq h
          hid hroot fun p => rfl
        simp [Forest.single, Forest.records, Node.below]
    | leaf label kind old =>
        obtain rfl : label = id := hlabel
        exact (h.rewritten_replace hn (.leaf kind content) rfl rfl).arena_eq h hid hroot
          fun p => rfl

/-! ### Children taken out -/

/-- A node whose children are taken out is left without any. -/
theorem rewritten_takeChildren (h : t.Accounted) (hid : id < t.size) :
    ∃ r, r.children = (t.children id).roots ∧
      Rewritten t (t.takeChildren id).2 id r ⟨r.kind, []⟩ := by
  by_cases hroot : id = root
  · subst hroot
    refine ⟨⟨.element "" [], t.content.roots⟩, rfl, rfl, t.content.records ++ t.loose.records,
      .refl _, ?_⟩
    rw [Tree.takeChildren, if_pos rfl, records_whole, children, if_pos rfl, Forest.records_append]
    exact .refl _
  · obtain ⟨n, hn⟩ := Option.ne_none_iff_exists'.1 ((h.find?_ne_none_iff hroot).2 hid)
    have hwhole := (t.find?_whole hroot).trans hn
    have hlabel : n.label = id := Forest.label_of_find? hwhole
    have hchildren : t.children id = n.below := by
      rw [children_eq, hwhole]
      rfl
    have htaken : (t.takeChildren id).2 = { t.replace id childless with
        loose := n.below ++ (t.replace id childless).loose } := by
      rw [Tree.takeChildren, if_neg hroot, hchildren]
    obtain ⟨others, hold, hnew⟩ := h.exists_splicedTable hn
    have hrows := (hnew childless).2
    rw [← t.whole_replace hroot, records_childless, hlabel] at hrows
    have hnames : (childless n).roots = [id] := by
      rw [← hlabel]
      cases n <;> rfl
    simp only [hnames, Record.spliced_self, List.map_id'] at hrows
    rw [Forest.records_single, hlabel] at hold
    refine ⟨n.record, by rw [hchildren]; rfl, by rw [htaken]; rfl, others ++ n.below.records,
      hold.trans List.perm_middle, ?_⟩
    rw [htaken]
    refine (records_addLoose (t.replace id childless) n.below).trans ?_
    refine (hrows.append_left _).trans ?_
    exact (List.perm_append_comm_assoc ..).trans
      ((List.perm_append_singleton _ _).append_left _ |>.trans
        (List.perm_middle.trans (.cons _ (.refl _))))

/-- **Taking children out link by link comes to the same.** -/
theorem takeChildren_arena (h : t.Accounted) (hid : id < t.size) :
    t.arena.takeChildren id = ((t.takeChildren id).1, (t.takeChildren id).2.arena) := by
  obtain ⟨r, hr, hrow⟩ := h.rewritten_takeChildren hid
  have h' := h.takeChildren id
  have htaken : (t.takeChildren id).1 = (t.children id).roots := by
    rw [Tree.takeChildren]
    split <;> rfl
  have hlt : ∀ x ∈ (t.children id).roots, x < t.size := fun x hx =>
    (h.lt_size_of_parent? (h.parent?_eq_some_iff.2 hx)).1
  rw [Arena.takeChildren, h.children_arena, htaken]
  refine congrArg (Prod.mk _) (h'.eq_arena (by simp [hrow.1]) (fun x => ?_) (fun x => ?_)
    fun x => ?_)
  · rw [Arena.kind_setEachParent, Arena.kind_setChildren, h.kind_arena, nodeKind, nodeKind,
      hrow.kind?_eq h]
    split
    · next hx =>
        rw [hx.1, t.kind?_eq (hx.1 ▸ hx.2), hrow.record?_self h]
        rfl
    · rfl
  · rw [Arena.parent?_setEachParent (by simpa using hlt), Arena.parent?_setChildren,
      h.parent?_arena]
    ext p
    rw [hrow.parent?_eq_some_iff h]
    split
    · next hmem =>
        rw [← h.parent?_eq_some_iff] at hmem
        rw [hmem]
        by_cases hp : p = id
        · simp [hp]
        · simp [hp, Ne.symm hp]
    · next hmem =>
        split
        · next hp => rw [hp, h.parent?_eq_some_iff]; simp [hmem]
        · rfl
  · rw [Arena.children_setEachParent, Arena.children_setChildren (by simpa using hid),
      h.children_arena, hrow.roots_children h]

/-! ### Unwrapping -/

/-- **Unwrapping link by link comes to the same**: the node is always found among the children of its
parent, so that no link is left half-way. -/
theorem unwrap_arena (h : t.Accounted) :
    t.arena.unwrap id =
      ((t.attempt (t.unwrap id)).1, (t.attempt (t.unwrap id)).2.arena) := by
  rw [Arena.unwrap, h.parent?_arena]
  cases hparent : t.parent? id with
  | none =>
      rw [h.unwrap_eq_error_iff.2 ⟨hparent, rfl⟩]
      rfl
  | some parent =>
      obtain ⟨t', before, after, hunwrap, hspec⟩ := h.exists_unwrapped hparent
      have h' := h.unwrap hunwrap
      obtain ⟨hid, hlt⟩ := h.lt_size_of_parent? hparent
      have hchild : ∀ x ∈ (t.children id).roots, x < t.size := fun x hx =>
        (h.lt_size_of_parent? (h.parent?_eq_some_iff.2 hx)).1
      have hsiblings : (((t.arena.setChildren id []).setEachParent (t.children id).roots
          none).setEachParent (t.children id).roots (some parent)).children parent =
            before ++ id :: after := by
        simp only [Arena.children_setEachParent]
        rw [Arena.children_setChildren (by simpa using hid), if_neg hspec.ne.symm,
          h.children_arena, hspec.children_before]
      simp only [Arena.takeChildren, h.children_arena, hsiblings,
        h.findIdx?_children hspec.children_before]
      rw [hunwrap]
      have hsplice : (before ++ id :: after).take before.length ++ (t.children id).roots ++
          (before ++ id :: after).drop (before.length + 1) =
            before ++ (t.children id).roots ++ after := by
        simp [List.drop_append]
      rw [hsplice]
      refine congrArg (Prod.mk none) (h'.eq_arena (by simp [hspec.size_eq]) (fun x => ?_)
        (fun x => ?_) fun x => ?_)
      · simp only [Arena.kind_setParent, Arena.kind_setChildren, Arena.kind_setEachParent]
        rw [h.kind_arena, nodeKind_eq (hspec.kind?_eq x)]
      · rw [Arena.parent?_setParent (by simpa using hid), Arena.parent?_setChildren,
          Arena.parent?_setEachParent (by simpa using hchild),
          Arena.parent?_setEachParent (by simpa using hchild), Arena.parent?_setChildren,
          h.parent?_arena, hspec.parent?_eq h h']
        split
        · rfl
        · split <;> rfl
      · rw [Arena.children_setParent, Arena.children_setChildren (by simpa using hlt)]
        simp only [Arena.children_setEachParent]
        rw [Arena.children_setChildren (by simpa using hid), h.children_arena]
        split
        · next hx => rw [hx, hspec.children_after]
        · next hx =>
            split
            · next hx' => rw [hx', hspec.children_own]
            · next hx' => rw [hspec.children_eq x hx hx']

/-! ### New nodes -/

/-- **A new node gets a new record.** -/
theorem push_arena (h : t.Accounted) {n : Node NodeId} (hlabel : n.label = t.size)
    (hbelow : n.below = .nil) :
    t.arena.push n.kind.nodeKind =
      (t.size, arena ⟨t.content, .single n ++ t.loose, t.size + 1⟩) := by
  have hrecords : (Forest.single n).records = [(t.size, ⟨n.kind, []⟩)] := by
    rw [Forest.records_single, Node.record, hlabel, hbelow]
    rfl
  have hlabels : (Forest.single n).labels = List.range' t.size 1 := by
    rw [← Forest.map_fst_records, hrecords]
    rfl
  have h' := h.addNumbered (n := 1) (.of_eq hlabels)
  generalize ht' : (⟨t.content, .single n ++ t.loose, t.size + 1⟩ : Tree) = t' at *
  have hrows : t'.whole.records.Perm ((t.size, ⟨n.kind, []⟩) :: t.whole.records) := by
    rw [← ht', ← List.singleton_append, ← hrecords]
    exact records_addLoose t (.single n)
  have hrecord : ∀ x, t'.record? x =
      if x = t.size then some ⟨n.kind, []⟩ else t.record? x := by
    intro x
    split
    · next heq => exact heq ▸ h'.record?_eq_some_iff.2 (hrows.mem_iff.2 List.mem_cons_self)
    · next hne =>
        ext row
        rw [h.record?_eq_some_iff, h'.record?_eq_some_iff, hrows.mem_iff]
        simp [hne]
  have hnone : t.record? t.size = none := by
    rw [record?, Forest.find?_eq_none_iff.2 fun hmem =>
      absurd (h.mem_labels_iff.1 hmem) (Nat.lt_irrefl _)]
    rfl
  have hchildren : ∀ x, (t'.children x).roots = (t.children x).roots := by
    intro x
    rw [roots_children, roots_children, hrecord]
    split
    · next heq => rw [heq, hnone]; rfl
    · rfl
  have hparent : ∀ x, t'.parent? x = t.parent? x := by
    intro x
    ext p
    rw [h.parent?_eq_some_iff, h'.parent?_eq_some_iff, hchildren]
  have hzero : root ≠ t.size := Nat.ne_of_lt (h.mem_labels_iff.1 List.mem_cons_self)
  refine Prod.ext size_arena
    (Arena.eq_of_record (a := (t.arena.push n.kind.nodeKind).2) ?_ fun x => ?_)
  · rw [Arena.size_push, size_arena, size_arena, ← ht']
  · rw [Arena.record_push, size_arena, h.record_arena, h'.record_arena, nodeRecord, nodeRecord,
      hparent, hchildren, nodeKind, nodeKind]
    by_cases hroot : x = root
    · rw [hroot, if_neg hzero, kind?, kind?, h.find?_root, h'.find?_root]
    · rw [t'.kind?_eq hroot, t.kind?_eq hroot, hrecord]
      split
      · next heq =>
          have hlone := h.nodeRecord_of_size_le (Nat.le_refl _)
          have hfree : t.parent? t.size = none := congrArg NodeRecord.parent? hlone
          have hbare : (t.children t.size).roots = [] := congrArg NodeRecord.children hlone
          rw [heq, hfree, hbare]
          rfl
      · rfl

end Accounted

end Tree

end ViewCompiler
