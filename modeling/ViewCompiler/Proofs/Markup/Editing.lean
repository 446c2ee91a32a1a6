/-
**Editing keeps numbers accounted for.**

A source is read into a tree whose numbers are accounted for, copies take the numbers that come
next, and whatever else is done to a tree moves numbers about, but neither loses nor repeats one.

Main definitions:

* `ViewCompiler.Reading.labels` — the numbers of what has been read so far.

Main results:

* `ViewCompiler.Forest.labels_numberEach` — copies take the numbers that come next;
* `ViewCompiler.parse_accounted` — the numbers of a tree that was read are accounted for;
* `ViewCompiler.Tree.Accounted.labels_replace` — what replacing a node does to the numbers;
* `ViewCompiler.Tree.Accounted.detach`, `ViewCompiler.Tree.Accounted.takeChildren`,
  `ViewCompiler.Tree.Accounted.unwrap`, `ViewCompiler.Tree.Accounted.importEach` — **editing keeps
  numbers accounted for**.
-/

import ViewCompiler.Markup.Reader
import ViewCompiler.Outcome
import ViewCompiler.Proofs.Markup.WellFormed

set_option relaxedAutoImplicit false
set_option autoImplicit false

namespace ViewCompiler

/-! ### Numbers of copies -/

namespace Forest

variable {ι : Type}

/-- The siblings take the numbers that are kept for them, and what is below them takes the numbers
that come next. -/
theorem labels_numberBelow (here next : Nat) (f : Forest ι) :
    ∃ below, (f.numberBelow here next).2 = next + below ∧
      (f.numberBelow here next).1.labels.Perm
        (List.range' here f.width ++ List.range' next below) := by
  induction f generalizing here next with
  | nil => exact ⟨0, rfl, .refl _⟩
  | element label name attributes children rest ihc ihr =>
      obtain ⟨restBelow, hrest, hrestLabels⟩ := ihr (here + 1) next
      obtain ⟨below, hbelow, hlabels⟩ :=
        ihc (next + restBelow) (next + restBelow + children.width)
      refine ⟨restBelow + (children.width + below), ?_, ?_⟩
      · simp only [numberBelow, hrest, hbelow]
        omega
      · simp only [numberBelow, hrest, labels, width]
        rw [List.range'_succ, ← List.range'_append_1, ← List.range'_append_1, List.cons_append]
        refine .cons _ (List.perm_iff_count.2 fun x => ?_)
        have hcount := hlabels.count_eq x
        have hrestCount := hrestLabels.count_eq x
        simp only [List.count_append] at hcount hrestCount ⊢
        omega
  | leaf label kind content rest ih =>
      obtain ⟨below, hbelow, hlabels⟩ := ih (here + 1) next
      refine ⟨below, hbelow, ?_⟩
      simp only [numberBelow, labels, width, List.range'_succ]
      exact hlabels.cons _

/-- **Copies take the numbers that come next.** -/
theorem labels_numberEach (next : Nat) (f : Forest ι) :
    (f.numberEach next).1.labels.Perm (List.range' next f.size) := by
  induction f generalizing next with
  | nil => exact .refl _
  | element label name attributes children rest _ ihr =>
      obtain ⟨below, hbelow, hlabels⟩ :=
        children.labels_numberBelow (next + 1) (next + 1 + children.width)
      rw [List.range'_append_1] at hlabels
      have hsize : children.width + below = children.size := by
        have := children.numberBelow_next (next + 1) (next + 1 + children.width)
        omega
      rw [hsize] at hlabels
      have hafter : next + 1 + children.width + below = next + 1 + children.size := by omega
      simp only [numberEach, hbelow, hafter, labels, size]
      rw [List.range'_succ, ← List.range'_append_1]
      exact .cons _ (hlabels.append (ihr _))
  | leaf label kind content rest ih =>
      simp only [numberEach, labels, size, List.range'_succ]
      exact .cons _ (ih _)

/-! ### Numbers of siblings in reverse order -/

theorem labels_reverseOnto (f g : Forest ι) :
    (f.reverseOnto g).labels.Perm (f.labels ++ g.labels) := by
  induction f generalizing g with
  | nil => exact .refl _
  | element label name attributes children rest _ ih =>
      refine (ih _).trans ?_
      simp only [labels, List.cons_append]
      refine List.perm_middle.trans (.cons _ ?_)
      rw [← List.append_assoc]
      exact List.perm_append_comm.append_right _
  | leaf label kind content rest ih =>
      exact (ih _).trans List.perm_middle

theorem labels_reverse (f : Forest ι) : f.reverse.labels.Perm f.labels :=
  (f.labels_reverseOnto nil).trans (.of_eq (List.append_nil _))

end Forest

/-! ### Numbers of a source -/

namespace Reading

/-- The numbers of all that has been read. -/
def labels (r : Reading) : List NodeId :=
  r.done.labels ++ r.opened.flatMap fun e => e.label :: e.before.labels

/-- With the number of the document there are all that were handed out. -/
def Accounted (r : Reading) : Prop :=
  (Tree.root :: r.labels).Perm (List.range r.next)

theorem Accounted.add {r s : Reading} (hr : r.Accounted) (hnext : s.next = r.next + 1)
    (hlabels : s.labels.Perm (r.next :: r.labels)) : s.Accounted := by
  rw [Accounted, hnext, List.range_succ]
  refine (hlabels.cons _).trans ((List.Perm.swap _ _ _).trans ?_)
  exact (hr.cons _).trans (List.perm_append_singleton _ _).symm

theorem Accounted.step {r s : Reading} {token : Token} (hr : r.Accounted)
    (h : r.step token = .ok s) : s.Accounted := by
  cases token with
  | text content | comment content =>
      obtain rfl := Except.ok.inj h
      exact hr.add rfl (.refl _)
  | startTag name attributes closed position =>
      cases closed with
      | true =>
          obtain rfl := Except.ok.inj h
          exact hr.add rfl (.refl _)
      | false =>
          obtain rfl := Except.ok.inj h
          exact hr.add rfl (.refl _)
  | endTag name position =>
      rw [Reading.step] at h
      split at h
      · cases h
      · next e opened hopened =>
          split at h
          · obtain rfl := Except.ok.inj h
            refine List.Perm.trans (.cons _ (List.perm_iff_count.2 fun x => ?_)) hr
            have hcount := r.done.labels_reverse.count_eq x
            simp only [labels, hopened, Forest.labels, List.flatMap_cons, List.count_append,
              List.count_cons]
            omega
          · cases h

theorem Accounted.steps {r s : Reading} {tokens : List Token} (hr : r.Accounted)
    (h : r.steps tokens = .ok s) : s.Accounted := by
  induction tokens generalizing r with
  | nil =>
      obtain rfl := Except.ok.inj h
      exact hr
  | cons token more ih =>
      rw [Reading.steps] at h
      split at h
      · cases h
      · next hstep => exact ih (hr.step hstep) h

end Reading

/-- **The numbers of a tree that was read are accounted for.** -/
theorem parse_accounted {source : String} {t : Tree} (h : parse source = .ok t) :
    t.Accounted := by
  obtain ⟨tokens, -, htree⟩ := bind_eq_ok_iff.1 h
  obtain ⟨r, hsteps, hfinish⟩ := bind_eq_ok_iff.1 htree
  have hstart : Reading.start.Accounted := List.Perm.refl [Tree.root]
  have hr := hstart.steps hsteps
  rw [Reading.finish] at hfinish
  split at hfinish
  · next hopened =>
      obtain rfl := Except.ok.inj hfinish
      refine List.Perm.trans (.cons _ ?_) hr
      simp only [Reading.labels, hopened, List.flatMap_nil]
      exact r.done.labels_reverse.append_right _
  · cases hfinish

namespace Tree

variable {t : Tree} {id : NodeId}

/-! ### Replacing a node of a tree -/

theorem whole_replace (t : Tree) (h : id ≠ root) (g : Node NodeId → Forest NodeId) :
    (t.replace id g).whole = t.whole.splice id g := by
  simp [whole, replace, Forest.single, asNode, Forest.splice, h.symm]

/-- Where there is no node, nothing is replaced. -/
theorem replace_of_not_mem (hcontent : id ∉ t.content.labels) (hloose : id ∉ t.loose.labels)
    (g : Node NodeId → Forest NodeId) : t.replace id g = t := by
  rw [replace, Forest.splice_of_not_mem hcontent, Forest.splice_of_not_mem hloose]

theorem replace_of_find?_eq_none (h : t.find? id = none) (g : Node NodeId → Forest NodeId) :
    t.replace id g = t := by
  obtain ⟨hcontent, hloose⟩ := Option.or_eq_none_iff.1 h
  exact replace_of_not_mem (Forest.find?_eq_none_iff.1 hcontent)
    (Forest.find?_eq_none_iff.1 hloose) g

namespace Accounted

/-- **What replacing a node does to the table of a tree.** -/
theorem exists_splicedTable (h : t.Accounted) {n : Node NodeId} (hn : t.find? id = some n) :
    ∃ others, Forest.SplicedTable t.whole id n others :=
  Forest.exists_splicedTable h.nodup (by rw [t.find?_whole (h.ne_root_of_find? hn), hn])

/-- What replacing a node does to the numbers. -/
theorem labels_replace (h : t.Accounted) {n : Node NodeId} (hn : t.find? id = some n) :
    ∃ others : List NodeId, t.whole.labels.Perm (others ++ (Forest.single n).labels) ∧
      ∀ g, (t.replace id g).whole.labels.Perm (others ++ (g n).labels) := by
  obtain ⟨others, hothers⟩ := h.exists_splicedTable hn
  refine ⟨others.map (·.1), hothers.labels_perm, fun g => ?_⟩
  rw [whole_replace t (h.ne_root_of_find? hn)]
  exact hothers.labels_splice g

/-- Replacing a node by one of the same numbers keeps them accounted for. -/
theorem replace (h : t.Accounted) {g : Node NodeId → Forest NodeId}
    (hg : ∀ n, (g n).labels.Perm (Forest.single n).labels) (id : NodeId) :
    (t.replace id g).Accounted := by
  cases hn : t.find? id with
  | none =>
      rw [replace_of_find?_eq_none hn]
      exact h
  | some n =>
      obtain ⟨others, hothers, hreplace⟩ := h.labels_replace hn
      exact (hreplace g).trans (((hg n).append_left _).trans (hothers.symm.trans h))

/-! ### Taking nodes out -/

/-- What is added to the loose pieces adds its rows. -/
theorem records_addLoose (t : Tree) (f : Forest NodeId) :
    (whole { t with loose := f ++ t.loose }).records.Perm (f.records ++ t.whole.records) := by
  simp only [whole, Forest.records_append]
  exact List.perm_append_comm_assoc ..

theorem labels_addLoose (t : Tree) (f : Forest NodeId) :
    (whole { t with loose := f ++ t.loose }).labels.Perm (f.labels ++ t.whole.labels) := by
  simpa using (records_addLoose t f).map (·.1)

theorem detach (h : t.Accounted) (id : NodeId) : (t.detach id).Accounted := by
  unfold Tree.detach
  split
  · next node _ hnode =>
      obtain ⟨others, hothers, hreplace⟩ := h.labels_replace hnode
      have hrest := hreplace fun _ => .nil
      refine (labels_addLoose (t.replace id fun _ => .nil) (.single node)).trans ?_
      refine ((hrest.append_left _).trans ?_).trans (hothers.symm.trans h)
      rw [Forest.labels, List.append_nil]
      exact List.perm_append_comm
  · exact h

theorem records_childless (n : Node NodeId) :
    (childless n).records = [(n.label, ⟨n.kind, []⟩)] := by
  cases n <;> rfl

theorem labels_childless (n : Node NodeId) :
    (Forest.single n).labels.Perm (n.below.labels ++ (childless n).labels) := by
  rw [Forest.labels_single, ← Forest.map_fst_records (childless n), records_childless]
  exact (List.perm_append_singleton _ _).symm

theorem takeChildren (h : t.Accounted) (id : NodeId) : (t.takeChildren id).2.Accounted := by
  by_cases hid : id = root
  · subst hid
    refine List.Perm.trans (.of_eq ?_) h
    simp [Tree.takeChildren, children, whole, Forest.single, asNode, Forest.labels]
  · have hloose : (t.takeChildren id).2 = { t.replace id childless with
        loose := t.children id ++ (t.replace id childless).loose } := by
      rw [Tree.takeChildren, if_neg hid]
    rw [hloose, Accounted]
    refine (labels_addLoose (t.replace id childless) (t.children id)).trans ?_
    rw [children_eq, t.find?_whole hid]
    cases hn : t.find? id with
    | none =>
        rw [replace_of_find?_eq_none hn]
        exact h
    | some n =>
        obtain ⟨others, hothers, hreplace⟩ := h.labels_replace hn
        refine ((hreplace childless).append_left _).trans (.trans ?_ (hothers.symm.trans h))
        exact (List.perm_append_comm_assoc ..).trans ((labels_childless n).symm.append_left _)

theorem unwrap {t' : Tree} (h : t.Accounted) (hunwrap : t.unwrap id = .ok t') : t'.Accounted := by
  unfold Tree.unwrap at hunwrap
  split at hunwrap
  · next node _ hnode =>
      obtain rfl := Except.ok.inj hunwrap
      obtain ⟨others, hothers, hreplace⟩ := h.labels_replace hnode
      refine (labels_addLoose (t.replace id childrenOf) (childless node)).trans ?_
      refine ((hreplace childrenOf).append_left _).trans (.trans ?_ (hothers.symm.trans h))
      refine List.Perm.trans ?_ ((labels_childless node).symm.append_left _)
      rw [childrenOf_eq]
      exact List.perm_append_comm.trans (.of_eq (List.append_assoc ..))
  · cases hunwrap

/-! ### Changing one node -/

theorem mapAttributes (h : t.Accounted) (id : NodeId) (f : Attributes → Attributes) :
    (t.mapAttributes id f).Accounted :=
  h.replace (fun n => by cases n <;> exact .refl _) id

theorem setText (h : t.Accounted) (id : NodeId) (content : String) :
    (t.setText id content).Accounted :=
  h.replace (fun n => by cases n <;> exact .refl _) id

/-! ### New nodes -/

/-- New loose nodes take the numbers that come next. -/
theorem addNumbered (h : t.Accounted) {f : Forest NodeId} {n : Nat}
    (hf : f.labels.Perm (List.range' t.size n)) :
    Accounted ⟨t.content, f ++ t.loose, t.size + n⟩ := by
  refine (labels_addLoose t f).trans ((hf.append h).trans ?_)
  rw [List.range_add, ← List.range'_eq_map_range]
  exact List.perm_append_comm

theorem createElement (h : t.Accounted) (name : String) (attributes : Attributes) :
    (t.createElement name attributes).2.Accounted :=
  h.addNumbered (f := .element t.size name attributes .nil .nil) (n := 1) (.refl _)

theorem createLeaf (h : t.Accounted) (kind : LeafKind) (content : String) :
    (t.createLeaf kind content).2.Accounted :=
  h.addNumbered (f := .leaf t.size kind content .nil) (n := 1) (.refl _)

variable {ι : Type}

theorem importEach (h : t.Accounted) (siblings : Forest ι) :
    (t.importEach siblings).2.Accounted := by
  have hnext := siblings.numberEach_next t.size
  have hcopy := h.addNumbered (siblings.labels_numberEach t.size)
  rwa [← hnext] at hcopy

theorem importNode (h : t.Accounted) (node : Node ι) : (t.importNode node).2.Accounted :=
  h.importEach (.single node)

end Accounted

theorem accounted_empty : empty.Accounted :=
  .refl _

theorem accounted_ofPlain {ι : Type} (content : Forest ι) : (ofPlain content).Accounted := by
  have hnext := content.numberEach_next 1
  have hlabels := content.labels_numberEach 1
  have hall : Forest.labels (whole (ofPlain content)) =
      root :: (content.numberEach 1).1.labels := by
    simp [ofPlain, whole, Forest.single, asNode, Forest.labels]
  have hsize : (ofPlain content).size = content.size + 1 := hnext.trans (Nat.add_comm ..)
  rw [Accounted, hall, hsize, List.range_eq_range', List.range'_succ]
  exact hlabels.cons _

end Tree

end ViewCompiler
