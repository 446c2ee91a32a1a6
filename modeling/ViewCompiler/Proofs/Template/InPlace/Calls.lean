/-
**Calls in place.**

What a step of the pass for calls needs to know of the tree is where the elements on the list stand.
Those inside an assignment that a call has taken out are no part of the document any more: only the
directives themselves are checked.  A step at one element leaves the others where they are.

Main definitions:

* `ViewCompiler.Awaits` — siblings on the list are as they were, in the document or outside of it;
* `ViewCompiler.Untouched` — a step leaves all nodes alone but some;
* `ViewCompiler.Advanced` — a step takes calls off the list.

Main results:

* `ViewCompiler.ends_lowerCall` — a step of the pass;
* `ViewCompiler.ends_calls` — **the pass for calls**.
-/

import ViewCompiler.Proofs.Template.InPlace.Pending

set_option relaxedAutoImplicit false
set_option autoImplicit false

namespace ViewCompiler

variable {table : DirectiveTable} {φ : NodeId → Mark} {K : Forest NodeId → Forest NodeId}
  {o : CompilerOptions} {placeholder template : String}
  {f x y loose junk children rest : Forest NodeId}
  {ids ids' touched : List NodeId} {size k k' count count' : Nat}
  {id a : NodeId} {name : String} {attributes : Attributes} {t u v : Tree} {inCall attached : Bool}

/-! ### What a step leaves alone -/

/-- A node that was found is found again, if its part of the tree holds none of the given
numbers. -/
def Untouched (touched : List NodeId) (t u : Tree) : Prop :=
  ∀ l n, t.find? l = some n → (∀ z ∈ (Forest.single n).labels, z ∉ touched) →
    u.find? l = some n ∧ u.isAttached l = t.isAttached l

theorem Untouched.refl (touched : List NodeId) (t : Tree) : Untouched touched t t :=
  fun _ _ hn _ => ⟨hn, rfl⟩

theorem Untouched.trans {own : List NodeId} (h : Untouched touched t u) (h' : Untouched own u v) :
    Untouched (touched ++ own) t v := by
  intro l n hn hfree
  obtain ⟨hfind, hattached⟩ := h l n hn fun z hz hmem => hfree z hz (List.mem_append_left _ hmem)
  obtain ⟨hfind', hattached'⟩ :=
    h' l n hfind fun z hz hmem => hfree z hz (List.mem_append_right _ hmem)
  exact ⟨hfind', hattached'.trans hattached⟩

theorem Untouched.mono {own : List NodeId} (h : Untouched own t u) (hsub : own ⊆ touched) :
    Untouched touched t u :=
  fun l n hn hfree => h l n hn fun z hz hmem => hfree z hz (hsub hmem)

/-- A change at a place leaves what is found elsewhere alone. -/
theorem Hole.find?_outside {n : Node NodeId} (hK : Hole K) (ha : a ∈ x.labels)
    (hid : id ∉ y.labels) (hn : (K x).find? id = some n)
    (hfree : ∀ z ∈ (Forest.single n).labels, z ∉ x.labels) : (K y).find? id = some n := by
  have hx : id ∉ x.labels := hfree id (Forest.label_of_find? hn ▸ Forest.label_mem_single n)
  obtain ⟨frames, before, after, rfl⟩ := hK
  induction frames with
  | nil =>
      simp only [Frame.fill, Forest.find?_append] at hn ⊢
      rw [Forest.find?_eq_none_iff.2 hx] at hn
      rw [Forest.find?_eq_none_iff.2 hid]
      exact hn
  | cons k frames ih =>
      simp only [Frame.fill, Frame.around, Forest.find?_append, Forest.find?] at hn ⊢
      obtain ⟨own, hown⟩ := labels_perm ⟨frames, before, after, rfl⟩
      cases hbefore : k.before.find? id with
      | some m =>
          rw [hbefore] at hn
          exact hn
      | none =>
          rw [hbefore, Option.none_or] at hn
          rw [Option.none_or]
          by_cases hk : k.label = id
          · -- the element around the place is not left alone
            rw [if_pos hk] at hn
            cases hn
            exact absurd ha (hfree a (List.mem_cons_of_mem _ (List.mem_append_left _
              ((hown x).mem_iff.2 (List.mem_append_right _ ha)))))
          · rw [if_neg hk] at hn ⊢
            cases hinside : (Frame.fill frames (before ++ (x ++ after))).find? id with
            | some m =>
                rw [hinside, Option.some_or] at hn
                rw [ih (hinside.trans hn), Option.some_or]
            | none =>
                have hout : id ∉ (Frame.fill frames (before ++ (y ++ after))).labels := by
                  rw [Forest.find?_eq_none_iff, (hown x).mem_iff, List.mem_append] at hinside
                  rw [(hown y).mem_iff, List.mem_append]
                  exact fun h => h.elim (fun h => hinside (.inl h)) hid
                rw [hinside, Option.none_or] at hn
                rw [Forest.find?_eq_none_iff.2 hout, Option.none_or, hn]

/-- A change at a place, where something may be taken out, touches nothing else. -/
theorem untouched_change (hK : Hole K) (ha : a ∈ x.labels)
    (ht : Tree.Accounted ⟨K x, loose, k⟩) (hu : Tree.Accounted ⟨K y, junk ++ loose, k'⟩) :
    Untouched x.labels ⟨K x, loose, k⟩ ⟨K y, junk ++ loose, k'⟩ := by
  intro l n hn hfree
  have hx : l ∉ x.labels := hfree l (Forest.label_of_find?
    ((Tree.find?_whole _ (ht.ne_root_of_find? hn)).trans hn) ▸ Forest.label_mem_single n)
  obtain ⟨own, hown⟩ := hK.labels_perm
  have hnodup : (Tree.root :: ((K y).labels ++ (junk ++ loose).labels)).Nodup := hu.nodup
  simp only [Forest.labels_append, List.nodup_cons, List.nodup_append',
    List.disjoint_append_right] at hnodup
  obtain ⟨-, hcontent, ⟨-, -, hjunk⟩, -, -⟩ := hnodup
  rw [Tree.find?] at hn ⊢
  cases hin : (K x).find? l with
  | some m =>
      rw [hin, Option.some_or] at hn
      have hmem := Forest.exists_find?_iff.1 ⟨m, hin⟩
      have hl : l ∈ own := (List.mem_append.1 ((hown x).mem_iff.1 hmem)).resolve_right hx
      have hy : l ∉ y.labels := fun h =>
        (List.nodup_append'.1 ((hown y).nodup_iff.1 hcontent)).2.2 hl h
      refine ⟨by rw [hK.find?_outside ha hy (hin.trans hn) hfree, Option.some_or], ?_⟩
      exact (isAttached_of_mem ((hown y).mem_iff.2 (List.mem_append_left _ hl))).trans
        (isAttached_of_mem hmem).symm
  | none =>
      rw [hin, Option.none_or] at hn
      have hmem := Forest.exists_find?_iff.1 ⟨n, hn⟩
      have hmem' : l ∈ (junk ++ loose).labels :=
        Forest.labels_append junk loose ▸ List.mem_append_right _ hmem
      have hy : l ∉ (K y).labels := fun h => hu.not_mem_nodes hmem' (List.mem_cons_of_mem _ h)
      refine ⟨?_, ?_⟩
      · rw [Forest.find?_eq_none_iff.2 hy, Option.none_or, Forest.find?_append,
          Forest.find?_eq_none_iff.2 fun h => hjunk h hmem, Option.none_or, hn]
      · rw [isAttached_of_not_mem ht hmem, isAttached_of_not_mem hu hmem']

/-! ### What is still on the list -/

theorem Forest.labels_head_subset (id : NodeId) (name : String) (attributes : Attributes)
    (children rest : Forest NodeId) :
    (single (.element ⟨id, name, attributes, children⟩)).labels ⊆
      (element id name attributes children rest).labels := by
  have happend := labels_append (single (.element ⟨id, name, attributes, children⟩)) rest
  exact fun z hz => happend ▸ List.mem_append_left _ hz

/-- The calls among siblings and below them are as they were.  `inCall` says that the siblings were
inside a call that is lowered, `attached` that they are still part of the document: what is inside an
assignment that has become a binding is not. -/
def Awaits (table : DirectiveTable) (t : Tree) : Bool → Bool → Forest NodeId → Prop
  | _, _, .nil => True
  | inCall, attached, .leaf _ _ _ rest => Awaits table t inCall attached rest
  | inCall, attached, .element id name attributes children rest =>
      let stays := attached &&
        !(inCall && (table.asks id).set.isSome && (table.asks id).value.isSome)
      ((table.asks id).call ≠ none →
        t.find? id = some (.element ⟨id, name, attributes, children⟩) ∧ t.isAttached id = stays) ∧
      Awaits table t false stays children ∧ Awaits table t inCall attached rest

namespace Awaits

theorem of_found (h : ∀ e ∈ f.elements,
    t.find? e.label = some (.element e) ∧ t.isAttached e.label = attached) :
    Awaits table t false attached f := by
  induction f with
  | nil => trivial
  | leaf _ _ _ _ ih => exact ih h
  | element id name attributes children rest ihc ihr =>
      obtain ⟨hown, hbelow⟩ := List.forall_mem_cons.1 h
      obtain ⟨hinside, hbehind⟩ := List.forall_mem_append.1 hbelow
      simp only [Awaits, Bool.false_and, Bool.not_false, Bool.and_true]
      exact ⟨fun _ => hown, ihc hinside, ihr hbehind⟩

theorem untouched (h : Awaits table t inCall attached f) (hu : Untouched touched t u)
    (hfree : ∀ l ∈ f.labels, l ∉ touched) : Awaits table u inCall attached f := by
  induction f generalizing inCall attached with
  | nil => trivial
  | leaf _ _ _ _ ih => exact ih h fun l hl => hfree l (List.mem_cons_of_mem _ hl)
  | element id name attributes children rest ihc ihr =>
      obtain ⟨hown, hinside, hbehind⟩ := h
      refine ⟨fun hcall => ?_, ihc hinside fun l hl => hfree l ?_, ihr hbehind fun l hl =>
        hfree l ?_⟩
      · obtain ⟨hfind, hattached⟩ := hown hcall
        obtain ⟨hfind', hsame⟩ := hu id _ hfind fun z hz =>
          hfree z (Forest.labels_head_subset id name attributes children rest hz)
        exact ⟨hfind', hsame.trans hattached⟩
      · exact List.mem_cons_of_mem _ (List.mem_append_left _ hl)
      · exact List.mem_cons_of_mem _ (List.mem_append_right _ hl)

end Awaits

/-- The calls among some elements stand in parts of the tree that hold none of the given numbers. -/
def StandApart (table : DirectiveTable) (t : Tree) (later ids : List NodeId) : Prop :=
  ∀ l ∈ later, (table.asks l).call ≠ none →
    ∃ n, t.find? l = some n ∧ ∀ z ∈ (Forest.single n).labels, z ∉ ids

namespace StandApart

variable {later : List NodeId}

theorem mono (h : StandApart table t later ids) (hsub : ids' ⊆ ids) :
    StandApart table t later ids' := by
  intro l hl hcall
  obtain ⟨n, hn, hfree⟩ := h l hl hcall
  exact ⟨n, hn, fun z hz hmem => hfree z hz (hsub hmem)⟩

theorem append {more : List NodeId} (h : StandApart table t later ids)
    (h' : StandApart table t more ids) : StandApart table t (later ++ more) ids := fun l hl =>
  (List.mem_append.1 hl).elim (h l) (h' l)

theorem untouched (h : StandApart table t later ids) (hu : Untouched touched t u)
    (hsub : touched ⊆ ids) : StandApart table u later ids := by
  intro l hl hcall
  obtain ⟨n, hn, hfree⟩ := h l hl hcall
  exact ⟨n, (hu l n hn fun z hz hmem => hfree z hz (hsub hmem)).1, hfree⟩

end StandApart

/-- What is on the list stands apart from what is not. -/
theorem Awaits.apart (h : Awaits table t inCall attached f)
    (hleaf : f.LeavesSatisfy fun x _ _ => table.asks x = {}) (hfree : ∀ l ∈ f.labels, l ∉ ids) :
    StandApart table t f.labels ids := by
  induction f generalizing inCall attached with
  | nil => exact fun l hl => absurd hl List.not_mem_nil
  | leaf id kind content rest ih =>
      have hbehind := ih h hleaf.2 fun l hl => hfree l (List.mem_cons_of_mem _ hl)
      intro l hl hcall
      rcases List.mem_cons.1 hl with rfl | hl
      · exact absurd (congrArg Directives.call hleaf.1) hcall
      · exact hbehind l hl hcall
  | element id name attributes children rest ihc ihr =>
      obtain ⟨hown, hinside, hbehind⟩ := h
      have hc := ihc hinside hleaf.1 fun l hl =>
        hfree l (List.mem_cons_of_mem _ (List.mem_append_left _ hl))
      have hr := ihr hbehind hleaf.2 fun l hl =>
        hfree l (List.mem_cons_of_mem _ (List.mem_append_right _ hl))
      intro l hl hcall
      rcases List.mem_cons.1 hl with rfl | hl
      · exact ⟨_, (hown hcall).1, fun z hz =>
          hfree z (Forest.labels_head_subset l name attributes children rest hz)⟩
      · exact (List.mem_append.1 hl).elim (hc l · hcall) (hr l · hcall)

/-! ### Steps -/

/-- A step takes some calls off the list. -/
structure Advanced (table : DirectiveTable) (placeholder : String) (φ : NodeId → Mark)
    (ids touched : List NodeId) (count : Nat) (t u : Tree) : Prop where
  accounted : u.Accounted
  untouched : Untouched touched t u
  content : ∀ later, StandApart table t later ids →
    structureAfter placeholder φ later u.content =
      structureAfter placeholder φ (ids ++ later) t.content
  size : u.size = t.size + count

namespace Advanced

/-- One step after another. -/
theorem trans (h : Advanced table placeholder φ ids touched count t u)
    (h' : Advanced table placeholder φ ids' ids' count' u v)
    (hsub : touched ⊆ ids ++ ids') (hapart : StandApart table t ids' ids) :
    Advanced table placeholder φ (ids ++ ids') (ids ++ ids') (count + count') t v where
  accounted := h'.accounted
  untouched := (h.untouched.trans h'.untouched).mono
    (List.append_subset.2 ⟨hsub, List.subset_append_right _ _⟩)
  content later hlater := by
    have hafter := (hlater.untouched h.untouched hsub).mono (List.subset_append_right ids ids')
    rw [h'.content later hafter,
      h.content _ (hapart.append (hlater.mono (List.subset_append_left ids ids'))),
      List.append_assoc]
  size := by rw [h'.size, h.size, Nat.add_assoc]

end Advanced

theorem Forest.elements_eq_nil {f : Forest NodeId} (h : f.hasContent = false) :
    f.elements = [] := by
  induction f with
  | nil => rfl
  | element => cases h
  | leaf id kind content rest ih =>
      rw [hasContent, Bool.or_eq_false_iff] at h
      exact ih h.2

/-- What stands in the document is found there. -/
theorem found_inside (hK : Hole K) (ht : Tree.Accounted ⟨K f, loose, size⟩) {e : Element NodeId}
    (he : e ∈ f.elements) :
    Tree.find? ⟨K f, loose, size⟩ e.label = some (.element e) ∧
      Tree.isAttached ⟨K f, loose, size⟩ e.label = true := by
  have hs := Site.Open.inContent hK loose
  have hlabel := Forest.label_mem_labels he
  obtain ⟨own, hown⟩ := hK.labels_perm
  exact ⟨(hs.find?_eq ht hlabel).trans (Forest.find?_of_mem_elements (hs.nodup ht) he),
    isAttached_of_mem ((hown f).mem_iff.2 (List.mem_append_right _ hlabel))⟩

/-- What has been taken out is found outside of the document. -/
theorem found_outside {content : Forest NodeId} (hK : Hole K)
    (ht : Tree.Accounted ⟨content, K f, size⟩) {e : Element NodeId} (he : e ∈ f.elements) :
    Tree.find? ⟨content, K f, size⟩ e.label = some (.element e) ∧
      Tree.isAttached ⟨content, K f, size⟩ e.label = false := by
  have hs := Site.Open.inLoose content hK
  have hlabel := Forest.label_mem_labels he
  obtain ⟨own, hown⟩ := hK.labels_perm
  exact ⟨(hs.find?_eq ht hlabel).trans (Forest.find?_of_mem_elements (hs.nodup ht) he),
    isAttached_of_not_mem ht ((hown f).mem_iff.2 (List.mem_append_right _ hlabel))⟩

theorem elements_numberedScope {bindings : List (String × String)} (h : f.hasContent = true) :
    (numberedScope placeholder template bindings size f).elements = f.elements := by
  rw [numberedScope, if_pos h]
  simp [Forest.elements]

/-- Where the children of a lowered call stand. -/
theorem awaits_children (hφ : ∀ x, (φ x).directives = table.asks x) (next : Nat)
    (hmisused : misusedBinding? (f.map φ) = none)
    (hkept : ∀ e ∈ (table.kept f).elements,
      u.find? e.label = some (.element e) ∧ u.isAttached e.label = true)
    (hhoisted : ∀ e ∈ (table.hoisted next f).elements,
      u.find? e.label = some (.element e) ∧ u.isAttached e.label = true)
    (hbound : ∀ e ∈ (table.bound f).elements,
      u.find? e.label = some (.element e) ∧ u.isAttached e.label = false) :
    Awaits table u true true f := by
  induction f generalizing next with
  | nil => trivial
  | leaf id kind content rest ih => exact ih _ hmisused hkept hhoisted hbound
  | element id name attributes children rest _ ih =>
      obtain ⟨hcall, hmisused⟩ := misusedBinding?_cons hmisused
      rw [hφ] at hcall
      rw [DirectiveTable.kept] at hkept
      rw [DirectiveTable.hoisted] at hhoisted
      rw [DirectiveTable.bound] at hbound
      rw [Awaits]
      cases hset : (table.asks id).set with
      | none =>
          simp only [hset, Option.isSome_none, Bool.false_eq_true, if_false, Bool.false_and,
            Forest.elements, List.forall_mem_cons, List.forall_mem_append] at hkept hhoisted hbound
          obtain ⟨hown, hinside, hkept⟩ := hkept
          exact ⟨fun _ => hown, Awaits.of_found hinside, ih _ hmisused hkept hhoisted hbound⟩
      | some key =>
          have hcall := hcall (by simp [hset])
          cases hvalue : (table.asks id).value with
          | none =>
              simp only [hset, hvalue, Option.isSome_some, Option.isSome_none, if_true,
                Bool.and_false, Bool.false_eq_true, if_false, Forest.elements,
                Forest.elements_append, List.append_nil, List.forall_mem_cons, List.forall_mem_append]
                at hkept hhoisted hbound
              obtain ⟨-, hinside, hhoisted⟩ := hhoisted
              exact ⟨fun h => absurd hcall h, Awaits.of_found hinside,
                ih _ hmisused hkept hhoisted hbound⟩
          | some value =>
              simp only [hset, hvalue, Option.isSome_some, if_true, Bool.and_true,
                Forest.elements, Forest.elements_append, List.append_nil, List.forall_mem_append,
                List.forall_mem_cons] at hkept hhoisted hbound
              obtain ⟨hbound, -, hinside⟩ := hbound
              exact ⟨fun h => absurd hcall h, Awaits.of_found hinside,
                ih _ hmisused hkept hhoisted hbound⟩

theorem hasContent_kept (hφ : ∀ x, (φ x).directives = table.asks x) (f : Forest NodeId) :
    (table.kept f).hasContent = (callContent (f.map φ)).hasContent := by
  induction f with
  | nil => rfl
  | leaf id kind content rest ih =>
      rw [DirectiveTable.kept, Forest.map, callContent, Forest.hasContent, Forest.hasContent, ih]
  | element id name attributes children rest _ ih =>
      rw [DirectiveTable.kept, Forest.map, callContent, hφ]
      split
      · exact ih
      · rfl

/-- Lowering the call at a place takes it off the list. -/
theorem Advanced.of_change (hφ : ∀ x, (φ x).directives = table.asks x) (hK : Hole K)
    (ht : Tree.Accounted ⟨K x, loose, size⟩)
    (hu : Tree.Accounted ⟨K y, junk ++ loose, size + count⟩) (hid : id ∈ x.labels) (hcall : (table.asks id).call ≠ none)
    (hread : ∀ ids, id ∉ ids →
      structureAfter placeholder φ (id :: ids) x = structureAfter placeholder φ ids y) :
    Advanced table placeholder φ [id] x.labels count ⟨K x, loose, size⟩
      ⟨K y, junk ++ loose, size + count⟩ where
  accounted := hu
  untouched := untouched_change hK hid ht hu
  size := rfl
  content later hlater := by
    have hself : ∀ n, Tree.find? ⟨K x, loose, size⟩ id = some n →
        id ∈ (Forest.single n).labels := by
      intro n hn
      have hlabel : n.label = id :=
        Forest.label_of_find? ((Tree.find?_whole _ (ht.ne_root_of_find? hn)).trans hn)
      exact hlabel ▸ Forest.label_mem_single n
    have hnew : id ∉ later := by
      intro hmem
      obtain ⟨n, hn, hfree⟩ := hlater id hmem hcall
      exact hfree id (hself n hn) (List.mem_singleton_self id)
    refine (hK.structureAfter_eq hid ht.nodup_content (fun l hl => ?_)
      (fun l hl hout hcall' n hn => ?_) (hread later hnew)).symm
    · exact or_iff_right (ne_of_mem_of_not_mem hid hl).symm |> List.mem_cons.trans
    · rw [hφ] at hcall'
      have hmem := (List.mem_cons.1 hl).resolve_left (ne_of_mem_of_not_mem hid hout).symm
      obtain ⟨m, hm, hfree⟩ := hlater l hmem hcall'
      have hsame : Tree.find? ⟨K x, loose, size⟩ l = some n := by
        rw [Tree.find?, hn, Option.some_or]
      obtain rfl : n = m := Option.some.inj (hsame.symm.trans hm)
      exact fun h => hfree id h (List.mem_singleton_self id)

/-- A call is lowered where it stands, and its children are still on the list. -/
theorem ends_lowered_at (hφ : ∀ x, (φ x).directives = table.asks x)
    (hleaf : children.LeavesSatisfy fun x _ _ => table.asks x = {}) (hK : Hole K)
    (ht : Tree.Accounted ⟨K (.element id name attributes children rest), loose, size⟩)
    (hcall : (table.asks id).call = some template) :
    Ends (misusedBinding? (children.map φ))
      (fun u => Advanced table placeholder φ [id] (id :: children.labels)
        (3 + 2 * contentSets (children.map φ) +
          if (callContent (children.map φ)).hasContent then 2 else 0)
        ⟨K (.element id name attributes children rest), loose, size⟩ u ∧
        Awaits table u true true children)
      (Tree.writeCall table placeholder template
        ⟨K (.element id name attributes children rest), loose, size⟩ id) := by
  have hlowered := ends_writeCall hφ hleaf hK ht placeholder template
  cases hmisused : misusedBinding? (children.map φ) with
  | some e =>
      rw [hmisused] at hlowered
      exact hlowered
  | none =>
      rw [hmisused] at hlowered
      obtain ⟨_, hwrite, hu, rfl⟩ := hlowered
      have hsize : size + 2 * contentSets (children.map φ) +
            (if (table.kept children).hasContent then 5 else 3) =
          size + (3 + 2 * contentSets (children.map φ) +
            if (callContent (children.map φ)).hasContent then 2 else 0) := by
        rw [hasContent_kept hφ]
        split <;> omega
      have hsplit : ∀ scope : Forest NodeId, table.hoisted size children ++
            .element id name attributes scope rest =
          table.hoisted size children ++ .element id name attributes scope .nil ++ rest := by
        intro scope
        rw [Forest.append_assoc]
        rfl
      have hlabels : (Forest.element id name attributes children .nil).labels =
          id :: children.labels := congrArg (id :: ·) (List.append_nil _)
      have hplace := hK.between .nil rest
      have hchildren : id ∉ children.labels := by
        have hnodup := (Site.Open.inContent hplace loose).nodup
          (x := .element id name attributes children .nil) ht
        rw [hlabels] at hnodup
        exact (List.nodup_cons.1 hnodup).1
      refine ⟨_, hwrite, ?_⟩
      rw [hsplit, ← Forest.append_assoc, hsize] at hu ⊢
      refine ⟨hlabels ▸ Advanced.of_change hφ hplace ht hu List.mem_cons_self (by simp [hcall])
        fun ids hids =>
          structureAfter_call hφ ((hφ id).symm ▸ hcall) hids hchildren hmisused size _,
        awaits_children hφ size hmisused (fun e he => ?_)
          (fun e he => found_inside hplace hu ?_) fun e he => ?_⟩
      · by_cases hany : (table.kept children).hasContent = true
        · refine found_inside hplace hu ?_
          simp [Forest.elements, elements_numberedScope hany, he]
        · rw [Forest.elements_eq_nil (Bool.eq_false_iff.2 hany)] at he
          exact absurd he List.not_mem_nil
      · simp [he]
      · simp only [Forest.append_assoc] at hu ⊢
        exact found_outside (Hole.whole.between _ loose) hu he

/-- **A call is lowered**, and its children are still on the list. -/
theorem ends_lowered (hφ : ∀ x, (φ x).directives = table.asks x)
    (hleaf : children.LeavesSatisfy fun x _ _ => table.asks x = {}) (ht : t.Accounted)
    (hcall : (table.asks id).call = some template)
    (hfind : t.find? id = some (.element ⟨id, name, attributes, children⟩))
    (hattached : t.isAttached id = true) :
    Ends (misusedBinding? (children.map φ))
      (fun u => Advanced table placeholder φ [id] (id :: children.labels)
        (3 + 2 * contentSets (children.map φ) +
          if (callContent (children.map φ)).hasContent then 2 else 0) t u ∧
        Awaits table u true true children)
      (t.writeCall table placeholder template id) := by
  obtain ⟨content, loose, size⟩ := t
  have hroot := ht.ne_root_of_find? hfind
  have hmem : id ∈ content.labels :=
    (Tree.isAncestorOrSelf_eq_true.1 hattached).resolve_left hroot
  obtain ⟨n, hn⟩ := Forest.exists_find?_iff.2 hmem
  obtain rfl : n = .element ⟨id, name, attributes, children⟩ := by
    rw [Tree.find?, hn, Option.some_or] at hfind
    exact Option.some.inj hfind
  obtain ⟨frames, before, after, rfl, -⟩ := Forest.exists_fill ht.nodup_content hn
  have hK : Hole fun z => Frame.fill frames (before ++ z) :=
    ⟨frames, before, .nil, funext fun z => by rw [Forest.append_nil]⟩
  exact ends_lowered_at hφ hleaf hK ht hcall

/-! ### The pass -/

/-- What is no call, or no part of the document, is taken off the list as it is. -/
theorem Advanced.pass (hφ : ∀ x, (φ x).directives = table.asks x) (ht : t.Accounted)
    (touched : List NodeId) (h : (table.asks id).call = none ∨ id ∉ t.content.labels) :
    Advanced table placeholder φ [id] touched 0 t t where
  accounted := ht
  untouched := Untouched.refl touched t
  size := rfl
  content later _ := by
    refine structureAfter_congr fun l hl hcall => ?_
    have hne : l ≠ id := by
      rintro rfl
      rw [hφ] at hcall
      exact h.elim hcall fun hout => hout hl
    exact ((or_iff_right hne) |> List.mem_cons.trans).symm

/-- **A step of the pass.** -/
theorem ends_lowerCall (hφ : ∀ x, (φ x).directives = table.asks x) {stays : Bool}
    (hleaf : children.LeavesSatisfy fun x _ _ => table.asks x = {}) (ht : t.Accounted)
    (hstands : (table.asks id).call ≠ none →
      t.find? id = some (.element ⟨id, name, attributes, children⟩) ∧ t.isAttached id = stays)
    (hinside : Awaits table t false stays children) :
    Ends (if (table.asks id).call.isSome && name ≠ o.reservedTag then some (.callOnWrongTag name)
        else if (table.asks id).call.isSome && stays then misusedBinding? (children.map φ)
        else none)
      (fun u => Advanced table o.placeholder φ [id] (id :: children.labels)
        (if (table.asks id).call.isSome && stays then
          3 + 2 * contentSets (children.map φ) +
            if (callContent (children.map φ)).hasContent then 2 else 0
        else 0) t u ∧
        Awaits table u ((table.asks id).call.isSome && stays) stays children)
      (t.lowerCall o table id) := by
  have hasks : (table.get? id).bind (·.call) = (table.asks id).call := by
    rw [DirectiveTable.asks]
    cases table.get? id <;> rfl
  rw [Tree.lowerCall, hasks]
  cases hcall : (table.asks id).call with
  | none => exact .ok ⟨.pass hφ ht _ (.inl hcall), hinside⟩
  | some template =>
      obtain ⟨hfind, hattached⟩ := hstands (by simp [hcall])
      have hname : t.name? id = some name := by rw [Tree.name?, hfind]
      have htag : t.tag id = name := congrArg (Option.getD · "") hname
      simp only [Tree.isReserved, hname, htag, hattached, Option.isSome_some, Bool.true_and]
      by_cases hreserved : name = o.reservedTag
      · cases stays with
        | false =>
            have hout : id ∉ t.content.labels := fun hmem =>
              Bool.false_ne_true (hattached.symm.trans (isAttached_of_mem hmem))
            simp only [hreserved, decide_true, Bool.not_true, Bool.false_eq_true, if_false,
              Bool.not_false, if_true, ne_eq, not_true_eq_false, decide_false]
            exact .ok ⟨.pass hφ ht _ (.inr hout), hinside⟩
        | true =>
            simp only [hreserved, decide_true, Bool.not_true, Bool.false_eq_true, if_false, if_true,
              ne_eq, not_true_eq_false, decide_false]
            exact ends_lowered hφ hleaf ht hcall hfind hattached
      · simp only [hreserved, Option.some.injEq, decide_false, Bool.not_false, if_true, ne_eq,
          not_false_eq_true, decide_true]
        exact .error _

/-- The share of an element in what is written for calls, of what is inside it, and of what is behind
it. -/
theorem callCount_element (mark : Mark) (attributes : Attributes) (children rest : Forest Mark)
    (inCall attached : Bool) :
    (if attached then callCount inCall (.element mark name attributes children rest) else 0) =
      (if mark.directives.call.isSome && (attached &&
          !(inCall && mark.directives.set.isSome && mark.directives.value.isSome)) then
        3 + 2 * contentSets children + if (callContent children).hasContent then 2 else 0
      else 0) +
      (if attached && !(inCall && mark.directives.set.isSome && mark.directives.value.isSome) then
        callCount (mark.directives.call.isSome && (attached &&
          !(inCall && mark.directives.set.isSome && mark.directives.value.isSome))) children
      else 0) +
      if attached then callCount inCall rest else 0 := by
  cases attached with
  | false => simp
  | true =>
      rw [callCount]
      cases hgone : inCall && mark.directives.set.isSome && mark.directives.value.isSome with
      | true => simp
      | false => cases mark.directives.call <;> simp

/-- **The pass for calls.** -/
theorem ends_calls (hφ : ∀ x, (φ x).directives = table.asks x) (f : Forest NodeId)
    (hleaf : f.LeavesSatisfy fun x _ _ => table.asks x = {}) (hnodup : f.labels.Nodup)
    (ht : t.Accounted) (hawaits : Awaits table t inCall attached f) :
    Ends (misusedCall? o inCall attached (f.map φ))
      (Advanced table o.placeholder φ f.labels f.labels
        (if attached then callCount inCall (f.map φ) else 0) t)
      (f.elementLabels.foldlM (Tree.lowerCall o table) t) := by
  induction f generalizing t inCall attached with
  | nil =>
      refine .ok ⟨ht, .refl _ t, fun _ _ => rfl, ?_⟩
      rw [Forest.map, callCount, ite_self, Nat.add_zero]
  | leaf id kind content rest ih =>
      obtain ⟨hid, hnodup⟩ := List.nodup_cons.1 hnodup
      have hcall : (table.asks id).call = none := by rw [hleaf.1]
      refine (ih hleaf.2 hnodup ht hawaits).mono fun u h => ?_
      have hpass : Advanced table o.placeholder φ [id] [id] 0 t t := .pass hφ ht [id] (.inl hcall)
      have hboth := hpass.trans h (List.subset_append_left _ _)
        (Awaits.apart (f := rest) hawaits hleaf.2 fun l hl => by
          simpa using ne_of_mem_of_not_mem hl hid)
      rw [Nat.zero_add] at hboth
      exact hboth
  | element id name attributes children rest ihc ihr =>
      obtain ⟨hstands, hinside, hbehind⟩ := hawaits
      simp only [Forest.labels, List.nodup_cons, List.mem_append, not_or,
        List.nodup_append'] at hnodup
      obtain ⟨⟨hchildren, hrest⟩, hnodupc, hnodupr, hdisjoint⟩ := hnodup
      have hstep := ends_lowerCall (o := o) hφ hleaf.1 ht hstands hinside
      rw [Forest.elementLabels_element, List.foldlM_cons, Forest.map, misusedCall?, hφ]
      refine hstep.bind fun u hu => ?_
      obtain ⟨hadvanced, hwaiting⟩ := hu
      rw [List.foldlM_append]
      refine (ihc hleaf.1 hnodupc hadvanced.accounted hwaiting).bind fun v hv => ?_
      have hapart : ∀ l ∈ rest.labels, l ∉ [id] ++ children.labels := by
        intro l hl hmem
        rcases List.mem_cons.1 hmem with rfl | hmem
        · exact hrest hl
        · exact hdisjoint hmem hl
      have hlater := (hbehind.untouched hadvanced.untouched hapart).untouched hv.untouched
        fun l hl hmem => hdisjoint hmem hl
      refine (ihr hleaf.2 hnodupr hv.accounted hlater).mono fun w hw => ?_
      have hfirst := hadvanced.trans hv (List.Subset.refl _)
        (hinside.apart hleaf.1 fun l hl => by simpa using ne_of_mem_of_not_mem hl hchildren)
      have hboth := hfirst.trans hw (List.subset_append_left _ _) (hbehind.apart hleaf.2 hapart)
      rw [callCount_element, hφ]
      exact hboth

end ViewCompiler
