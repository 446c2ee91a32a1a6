/-
**Where an edit takes place.**

While a document is gone through, the siblings that are still to be visited stand at some place in
the content, or in a loose piece that was taken out of it.  An edit of the first of them changes
what stands at that place and leaves everything around it alone.

Main definitions:

* `ViewCompiler.Hole` — a forest with a place left open;
* `ViewCompiler.Site` — a tree with a place left open.

Main results:

* `ViewCompiler.Hole.splice_eq`, `ViewCompiler.Hole.find?_eq` — replacing and finding at the place;
* `ViewCompiler.Site.Open.replace_head` — **an edit of the first node at the place**;
* `ViewCompiler.Site.Open.accounted` — what may be put there instead.
-/

import ViewCompiler.Proofs.Markup.Pieces

set_option relaxedAutoImplicit false
set_option autoImplicit false

namespace ViewCompiler

variable {ι : Type}

theorem Frame.fill_append (outer inner : List (Frame ι)) (f : Forest ι) :
    fill (outer ++ inner) f = fill outer (fill inner f) := by
  induction outer with
  | nil => rfl
  | cons k outer ih => exact congrArg k.around ih

theorem Forest.label_mem_head (n : Node ι) (rest : Forest ι) :
    n.label ∈ (Forest.single n ++ rest).labels := by
  rw [labels_append]
  exact List.mem_append_left _ (label_mem_single n)

theorem Forest.label_mem_element (label : ι) (name : String) (attributes : Attributes)
    (children rest : Forest ι) :
    label ∈ (Forest.element label name attributes children rest).labels :=
  List.mem_cons_self

/-! ### Forests with a place left open -/

/-- `K` puts a forest between siblings at a fixed place. -/
def Hole (K : Forest ι → Forest ι) : Prop :=
  ∃ frames before after, K = fun x => Frame.fill frames (before ++ (x ++ after))

namespace Hole

variable {K : Forest ι → Forest ι}

theorem whole : Hole fun x : Forest ι => x :=
  ⟨[], .nil, .nil, funext fun x => (Forest.append_nil x).symm⟩

/-- The place between siblings at the place. -/
theorem between (h : Hole K) (before after : Forest ι) :
    Hole fun x => K (before ++ (x ++ after)) := by
  obtain ⟨frames, b, a, rfl⟩ := h
  exact ⟨frames, b ++ before, after ++ a, funext fun x => by simp only [Forest.append_assoc]⟩

/-- The place behind siblings at the place. -/
theorem behind (h : Hole K) (before : Forest ι) : Hole fun x => K (before ++ x) := by
  simpa using h.between before .nil

/-- The place below an element at the place. -/
theorem below (h : Hole K) (before : Forest ι) (label : ι) (name : String)
    (attributes : Attributes) (after : Forest ι) :
    Hole fun x => K (before ++ .element label name attributes x after) := by
  obtain ⟨frames, b, a, rfl⟩ := h
  refine ⟨frames ++ [⟨b ++ before, label, name, attributes, after ++ a⟩], .nil, .nil,
    funext fun x => ?_⟩
  rw [Frame.fill_append]
  simp [Frame.fill, Frame.around, Forest.append_assoc]

/-- Siblings in front of everything. -/
theorem after (h : Hole K) (front : Forest ι) : Hole fun x => front ++ K x := by
  obtain ⟨frames, b, a, rfl⟩ := h
  obtain ⟨frames', b', hfill⟩ := Frame.exists_append_fill front frames b
  exact ⟨frames', b', a, funext fun x => hfill _⟩

theorem labels_perm (h : Hole K) : ∃ own, ∀ x, (K x).labels.Perm (own ++ x.labels) := by
  obtain ⟨frames, b, a, rfl⟩ := h
  induction frames with
  | nil =>
      refine ⟨a.labels ++ b.labels, fun x => ?_⟩
      simp only [Frame.fill, Forest.labels_append]
      exact ((List.perm_append_comm.append_left _).trans (List.perm_append_comm_assoc ..)).trans
        (.of_eq (List.append_assoc ..).symm)
  | cons k frames ih =>
      obtain ⟨own, hown⟩ := ih
      refine ⟨k.before.labels ++ k.label :: (k.after.labels ++ own), fun x => ?_⟩
      simp only [Frame.fill, Frame.around, Forest.labels_append, Forest.labels, List.append_assoc,
        List.cons_append]
      exact (((List.perm_append_comm.trans ((hown x).append_left _))).cons _).append_left _

variable [DecidableEq ι] {x : Forest ι} {label : ι}

/-- **Replacing at the place.** -/
theorem splice_eq (h : Hole K) (hnodup : (K x).labels.Nodup) (hlabel : label ∈ x.labels)
    (g : Node ι → Forest ι) : (K x).splice label g = K (x.splice label g) := by
  obtain ⟨frames, b, a, rfl⟩ := h
  induction frames with
  | nil =>
      simp only [Frame.fill, Forest.labels_append, List.nodup_append', List.disjoint_append_right]
        at hnodup ⊢
      obtain ⟨-, ⟨-, -, hafter⟩, hbefore, -⟩ := hnodup
      rw [Forest.splice_append, Forest.splice_append,
        Forest.splice_of_not_mem fun hmem => hbefore hmem hlabel,
        Forest.splice_of_not_mem fun hmem => hafter hlabel hmem]
  | cons k frames ih =>
      have hin : label ∈ (Frame.fill frames (b ++ (x ++ a))).labels := by
        obtain ⟨own, hown⟩ := labels_perm ⟨frames, b, a, rfl⟩
        exact (hown x).mem_iff.2 (List.mem_append_right _ hlabel)
      simp only [Frame.fill, Frame.around, Forest.labels_append, Forest.labels, List.nodup_append',
        List.nodup_cons, List.disjoint_cons_right, List.disjoint_append_right,
        List.mem_append, not_or] at hnodup ⊢
      obtain ⟨-, ⟨⟨hk, -⟩, hinner, -, hafter⟩, -, hbefore, -⟩ := hnodup
      rw [Forest.splice_append, Forest.splice_of_not_mem fun hmem => hbefore hmem hin,
        Forest.splice, if_neg (ne_of_mem_of_not_mem hin hk).symm, ih hinner,
        Forest.splice_of_not_mem fun hmem => hafter hin hmem]

/-- **Finding at the place.** -/
theorem find?_eq (h : Hole K) (hnodup : (K x).labels.Nodup) (hlabel : label ∈ x.labels) :
    (K x).find? label = x.find? label := by
  obtain ⟨n, hn⟩ := Forest.exists_find?_iff.2 hlabel
  obtain ⟨frames, b, a, rfl⟩ := h
  induction frames with
  | nil =>
      simp only [Frame.fill, Forest.labels_append, List.nodup_append', List.disjoint_append_right]
        at hnodup ⊢
      obtain ⟨-, -, hbefore, -⟩ := hnodup
      rw [Forest.find?_append, Forest.find?_append,
        Forest.find?_eq_none_iff.2 fun hmem => hbefore hmem hlabel, Option.none_or, hn,
        Option.some_or]
  | cons k frames ih =>
      have hin : label ∈ (Frame.fill frames (b ++ (x ++ a))).labels := by
        obtain ⟨own, hown⟩ := labels_perm ⟨frames, b, a, rfl⟩
        exact (hown x).mem_iff.2 (List.mem_append_right _ hlabel)
      simp only [Frame.fill, Frame.around, Forest.labels_append, Forest.labels, List.nodup_append',
        List.nodup_cons, List.disjoint_cons_right, List.disjoint_append_right,
        List.mem_append, not_or] at hnodup ⊢
      obtain ⟨-, ⟨⟨hk, -⟩, hinner, -, -⟩, -, hbefore, -⟩ := hnodup
      rw [Forest.find?_append, Forest.find?_eq_none_iff.2 fun hmem => hbefore hmem hin,
        Option.none_or, Forest.find?, if_neg (ne_of_mem_of_not_mem hin hk).symm, ih hinner, hn,
        Option.some_or]

end Hole

/-! ### Trees with a place left open -/

/-- What stands in the document and what is loose, depending on what is put at a place. -/
structure Site where
  content : Forest NodeId → Forest NodeId
  loose : Forest NodeId → Forest NodeId

namespace Site

/-- The tree with a forest at the place. -/
def tree (s : Site) (x : Forest NodeId) (size : Nat) : Tree :=
  ⟨s.content x, s.loose x, size⟩

/-- A place in the document. -/
def inContent (K : Forest NodeId → Forest NodeId) (loose : Forest NodeId) : Site :=
  ⟨K, fun _ => loose⟩

/-- A place in the loose pieces. -/
def inLoose (content : Forest NodeId) (K : Forest NodeId → Forest NodeId) : Site :=
  ⟨fun _ => content, K⟩

/-- There is one place, in the document or in the loose pieces. -/
inductive Open : Site → Prop
  | inContent {K : Forest NodeId → Forest NodeId} (h : Hole K) (loose : Forest NodeId) :
      Open (inContent K loose)
  | inLoose (content : Forest NodeId) {K : Forest NodeId → Forest NodeId} (h : Hole K) :
      Open (inLoose content K)

/-- More loose pieces. -/
def addLoose (s : Site) (junk : Forest NodeId) : Site :=
  { s with loose := fun x => junk ++ s.loose x }

/-- The place behind siblings at the place. -/
def behind (s : Site) (before : Forest NodeId) : Site :=
  ⟨fun x => s.content (before ++ x), fun x => s.loose (before ++ x)⟩

/-- The place below an element at the place. -/
def below (s : Site) (before : Forest NodeId) (id : NodeId) (name : String)
    (attributes : Attributes) (after : Forest NodeId) : Site :=
  ⟨fun x => s.content (before ++ .element id name attributes x after),
    fun x => s.loose (before ++ .element id name attributes x after)⟩

namespace Open

variable {s : Site} {x y junk before rest : Forest NodeId} {id : NodeId} {size k : Nat}
  {n : Node NodeId}

theorem addLoose (h : s.Open) (junk : Forest NodeId) : (s.addLoose junk).Open := by
  cases h with
  | inContent hK loose => exact .inContent hK (junk ++ loose)
  | inLoose content hK => exact .inLoose content (hK.after junk)

theorem behind (h : s.Open) (before : Forest NodeId) : (s.behind before).Open := by
  cases h with
  | inContent hK loose => exact .inContent (hK.behind before) loose
  | inLoose content hK => exact .inLoose content (hK.behind before)

theorem below (h : s.Open) (before : Forest NodeId) (id : NodeId) (name : String)
    (attributes : Attributes) (after : Forest NodeId) :
    (s.below before id name attributes after).Open := by
  cases h with
  | inContent hK loose => exact .inContent (hK.below before id name attributes after) loose
  | inLoose content hK => exact .inLoose content (hK.below before id name attributes after)

/-- The whole tree, with the document as one of its nodes. -/
theorem hole (h : s.Open) (size : Nat) : Hole fun x => (s.tree x size).whole := by
  cases h with
  | inContent hK loose =>
      obtain ⟨frames, b, a, rfl⟩ := hK
      exact ⟨⟨.nil, Tree.root, "", [], loose⟩ :: frames, b, a, rfl⟩
  | inLoose content hK => exact hK.after (.element Tree.root "" [] content .nil)

/-- **What may be put at the place instead**: the same numbers and the ones that come next, with
some of them in a loose piece. -/
theorem accounted (h : s.Open) (ht : (s.tree x size).Accounted) (junk : Forest NodeId) (k : Nat)
    (hlabels : (junk.labels ++ y.labels).Perm (List.range' size k ++ x.labels)) :
    ((s.addLoose junk).tree y (size + k)).Accounted := by
  obtain ⟨own, hown⟩ := (h.hole (size + k)).labels_perm
  have hold : (own ++ x.labels).Perm (List.range size) := (hown x).symm.trans ht
  have hnew := Tree.Accounted.labels_addLoose (s.tree y (size + k)) junk
  refine hnew.trans (((hown y).append_left _).trans ?_)
  have hsize : ((s.addLoose junk).tree y (size + k)).size = size + k := rfl
  rw [hsize, List.range_add, ← List.range'_eq_map_range]
  calc (junk.labels ++ (own ++ y.labels)).Perm (own ++ (junk.labels ++ y.labels)) :=
        List.perm_append_comm_assoc ..
    List.Perm _ (own ++ (List.range' size k ++ x.labels)) := hlabels.append_left _
    List.Perm _ (List.range' size k ++ (own ++ x.labels)) := List.perm_append_comm_assoc ..
    List.Perm _ (List.range' size k ++ List.range size) := hold.append_left _
    List.Perm _ (List.range size ++ List.range' size k) := List.perm_append_comm

theorem mem_labels (h : s.Open) (hid : id ∈ x.labels) :
    id ∈ (s.content x).labels ∨ id ∈ (s.loose x).labels := by
  cases h with
  | inContent hK loose =>
      obtain ⟨own, hown⟩ := hK.labels_perm
      exact .inl ((hown x).mem_iff.2 (List.mem_append_right _ hid))
  | inLoose content hK =>
      obtain ⟨own, hown⟩ := hK.labels_perm
      exact .inr ((hown x).mem_iff.2 (List.mem_append_right _ hid))

theorem ne_root (h : s.Open) (ht : (s.tree x size).Accounted) (hid : id ∈ x.labels) :
    id ≠ Tree.root := by
  rintro rfl
  exact (h.mem_labels hid).elim ht.not_mem_loose.1 ht.not_mem_loose.2

/-- The numbers at the place are all different. -/
theorem nodup (h : s.Open) (ht : (s.tree x size).Accounted) : x.labels.Nodup := by
  obtain ⟨own, hown⟩ := (h.hole size).labels_perm
  exact (List.nodup_append'.1 ((hown x).nodup_iff.1 ht.nodup)).2.1

theorem find?_eq (h : s.Open) (ht : (s.tree x size).Accounted) (hid : id ∈ x.labels) :
    (s.tree x size).find? id = x.find? id := by
  rw [← Tree.find?_whole _ (h.ne_root ht hid), (h.hole size).find?_eq ht.nodup hid]

theorem replace_eq (h : s.Open) (ht : (s.tree x size).Accounted) (hid : id ∈ x.labels)
    (g : Node NodeId → Forest NodeId) :
    (s.tree x size).replace id g = s.tree (x.splice id g) size := by
  have hwhole := Tree.whole_replace (s.tree x size) (h.ne_root ht hid) g
  rw [(h.hole size).splice_eq ht.nodup hid] at hwhole
  have hboth := Forest.element.inj hwhole
  have hcontent : ((s.tree x size).replace id g).content = s.content (x.splice id g) :=
    hboth.2.2.2.1
  have hloose : ((s.tree x size).replace id g).loose = s.loose (x.splice id g) := hboth.2.2.2.2
  exact congrArg₂ (fun content loose => (⟨content, loose, size⟩ : Tree)) hcontent hloose

/-- **An edit of the first node at the place.** -/
theorem replace_head (h : s.Open) (ht : (s.tree (.single n ++ rest) size).Accounted)
    (g : Node NodeId → Forest NodeId) :
    (s.tree (.single n ++ rest) size).replace n.label g = s.tree (g n ++ rest) size := by
  have hnodup := h.nodup ht
  rw [Forest.labels_append, List.nodup_append'] at hnodup
  rw [h.replace_eq ht (Forest.label_mem_head n rest), Forest.splice_append,
    Forest.splice_single_self, Forest.splice_of_not_mem (hnodup.2.2 (Forest.label_mem_single n))]

theorem find?_head (h : s.Open) (ht : (s.tree (.single n ++ rest) size).Accounted) :
    (s.tree (.single n ++ rest) size).find? n.label = some n := by
  rw [h.find?_eq ht (Forest.label_mem_head n rest), Forest.find?_append,
    Forest.find?_single_self, Option.some_or]

/-- What is in the document has a parent. -/
theorem parent?_ne_none {K : Forest NodeId → Forest NodeId} {loose : Forest NodeId} (hK : Hole K)
    (ht : (Tree.mk (K x) loose size).Accounted) (hid : id ∈ x.labels) :
    (Tree.mk (K x) loose size).parent? id ≠ none := by
  obtain ⟨own, hown⟩ := hK.labels_perm
  obtain ⟨parent, -, hparent⟩ :=
    ht.exists_parent ((hown x).mem_iff.2 (List.mem_append_right _ hid))
  exact hparent ▸ Option.some_ne_none parent

end Open

end Site

/-! ### New leaves -/

namespace Tree

variable {t : Tree} {id parent : NodeId} {kind : LeafKind} {content : String}

/-- A new leaf may be put below every node that can have children. -/
theorem Accounted.checkInsert_new (ht : t.Accounted) (hparent : parent < t.size)
    (hallows : (t.createLeaf kind content).2.allowsChildren parent = true) :
    (t.createLeaf kind content).2.checkInsert parent t.size = .ok () := by
  refine (ht.createLeaf kind content).checkInsert_outside (D := .nil)
    (m := .leaf t.size kind content) (E := t.loose) rfl ?_ hallows
  simpa [Forest.single, Forest.labels] using Nat.ne_of_lt hparent

theorem find?_createLeaf (hid : id < t.size) :
    (t.createLeaf kind content).2.find? id = t.find? id :=
  congrArg (t.content.find? id).or (if_neg (Nat.ne_of_gt hid))

theorem Accounted.takeLoose_new (ht : t.Accounted) (kind : LeafKind) (content : String) :
    (t.createLeaf kind content).2.takeLoose t.size =
      (.leaf t.size kind content .nil, { t with size := t.size + 1 }) :=
  (ht.createLeaf kind content).takeLoose_eq (D := .nil) (m := .leaf t.size kind content)
    (E := t.loose) rfl

/-- **A new leaf is put beside a node that has a parent.** -/
theorem Accounted.insertBeside_new (ht : t.Accounted) (kind : LeafKind) (content : String)
    (hparent : t.parent? id ≠ none) (g : Forest NodeId → Forest NodeId → Forest NodeId) :
    (t.createLeaf kind content).2.insertBeside id t.size g =
      .ok { t.replace id fun n => g (.leaf t.size kind content .nil) (.single n) with
        size := t.size + 1 } := by
  obtain ⟨parent, hfound⟩ := Option.ne_none_iff_exists'.1 hparent
  have hthere : (t.createLeaf kind content).2.parent? id = some parent := hfound
  have hallows := allowsChildren_of_roots_children _
    (List.ne_nil_of_mem ((ht.createLeaf kind content).parent?_eq_some_iff.1 hthere))
  rw [Tree.insertBeside, hthere]
  simp only [ht.checkInsert_new (ht.lt_size_of_parent? hfound).2 hallows, ht.takeLoose_new]
  rfl

/-- **A new leaf is put behind the children of an element.** -/
theorem Accounted.appendChild_new (ht : t.Accounted) (kind : LeafKind) (content : String)
    {e : Element NodeId} (he : t.find? id = some (.element e)) :
    (t.createLeaf kind content).2.appendChild id t.size =
      .ok { t.replace id (appendBelow (.leaf t.size kind content .nil)) with
        size := t.size + 1 } := by
  have hroot := ht.ne_root_of_find? he
  have hlt : id < t.size := (ht.find?_ne_none_iff hroot).1 (by simp [he])
  have hallows : (t.createLeaf kind content).2.allowsChildren id = true := by
    rw [allowsChildren, find?_createLeaf hlt, he]
    exact Bool.or_true _
  rw [Tree.appendChild]
  simp only [ht.checkInsert_new hlt hallows, ht.takeLoose_new, if_neg hroot]
  rfl

end Tree

end ViewCompiler
