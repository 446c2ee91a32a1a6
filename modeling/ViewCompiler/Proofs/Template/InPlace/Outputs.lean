/-
**Outputs in place.**

The pass for outputs also goes through what it has taken out: an element that gives up its children
comes before them on the list.  Those children have no parent any more, and one of them that is to
be replaced by an output of its own cannot be.  What lies deeper still has its parent.

Main definitions:

* `ViewCompiler.Site.Stands` — a place whose nodes have a parent, or have lost it.

Main results:

* `ViewCompiler.tracks_outputs` — **the pass for outputs**.
-/

import ViewCompiler.Proofs.Template.Blocks
import ViewCompiler.Proofs.Template.InPlace.Steps

set_option relaxedAutoImplicit false
set_option autoImplicit false

namespace ViewCompiler

variable {table : DirectiveTable} {s : Site} {x rest children : Forest NodeId} {size : Nat}
  {id : NodeId} {name : String} {attributes : Attributes} {orphaned : Bool}

namespace Site

/-- What stands at the place has a parent, or has lost it. -/
inductive Stands : Bool → Site → Prop
  | document {K : Forest NodeId → Forest NodeId} (hK : Hole K) (loose : Forest NodeId) :
      Stands false (inContent K loose)
  | pieces (content after : Forest NodeId) : Stands true (inLoose content fun x => x ++ after)
  | inside {s : Site} (h : s.Open) (before : Forest NodeId) (id : NodeId) (name : String)
      (attributes : Attributes) (after : Forest NodeId) :
      Stands false (s.below before id name attributes after)
  | next {orphaned : Bool} {s : Site} (h : Stands orphaned s) (before : Forest NodeId) :
      Stands orphaned (s.behind before)
  | beside {orphaned : Bool} {s : Site} (h : Stands orphaned s) (junk : Forest NodeId) :
      Stands orphaned (s.addLoose junk)

theorem open_pieces (content after : Forest NodeId) :
    Open (inLoose content fun x => x ++ after) :=
  .inLoose content (Hole.whole.between .nil after)

/-- Below an element nothing shows at the top of the loose pieces. -/
theorem Open.exists_roots (h : s.Open) (before : Forest NodeId) (id : NodeId) (name : String)
    (attributes : Attributes) (after : Forest NodeId) :
    ∃ r, ∀ x, ((s.below before id name attributes after).loose x).roots = r := by
  cases h with
  | inContent hK loose => exact ⟨loose.roots, fun x => rfl⟩
  | inLoose content hK =>
      obtain ⟨frames, b, a, rfl⟩ := hK
      cases frames with
      | nil =>
          refine ⟨b.roots ++ ((before.roots ++ id :: after.roots) ++ a.roots), fun x => ?_⟩
          change (b ++ ((before ++ .element id name attributes x after) ++ a)).roots = _
          simp [Forest.roots]
      | cons k frames =>
          exact ⟨k.before.roots ++ k.label :: k.after.roots, fun x => Forest.roots_append ..⟩

namespace Stands

theorem isOpen (h : Stands orphaned s) : s.Open := by
  induction h with
  | document hK loose => exact .inContent hK loose
  | pieces content after => exact open_pieces content after
  | inside h before id name attributes after => exact h.below before id name attributes after
  | next _ before ih => exact ih.behind before
  | beside _ junk ih => exact ih.addLoose junk

/-- Where the parent is lost, the nodes are at the top of the loose pieces. -/
theorem roots_subset (h : Stands true s) : x.roots ⊆ (s.loose x).roots := by
  generalize hb : true = b at h
  induction h generalizing x with
  | document | inside => cases hb
  | pieces content after =>
      intro y hy
      exact Forest.roots_append x after ▸ List.mem_append_left _ hy
  | next _ before ih =>
      intro y hy
      exact ih hb (Forest.roots_append before x ▸ List.mem_append_right _ hy)
  | @beside _ s _ junk ih =>
      intro y hy
      exact (Forest.roots_append junk (s.loose x)).symm ▸ List.mem_append_right _ (ih hb hy)

/-- Elsewhere, what is at the top of the loose pieces does not depend on the place. -/
theorem exists_roots (h : Stands false s) : ∃ r, ∀ x, (s.loose x).roots = r := by
  generalize hb : false = b at h
  induction h with
  | document hK loose => exact ⟨loose.roots, fun x => rfl⟩
  | pieces => cases hb
  | inside h before id name attributes after => exact h.exists_roots before id name attributes after
  | next _ before ih =>
      obtain ⟨r, hr⟩ := ih hb
      exact ⟨r, fun x => hr (before ++ x)⟩
  | @beside _ s _ junk ih =>
      obtain ⟨r, hr⟩ := ih hb
      exact ⟨junk.roots ++ r, fun x => (Forest.roots_append junk (s.loose x)).trans (by rw [hr])⟩

/-- **What has lost its parent has none, and everything else has one.** -/
theorem parent?_eq_none_iff (h : Stands orphaned s) (ht : (s.tree x size).Accounted)
    (hid : id ∈ x.roots) : (s.tree x size).parent? id = none ↔ orphaned = true := by
  cases orphaned with
  | true =>
      exact iff_of_true
        (ht.parent?_eq_none_of_mem_roots (List.mem_cons_of_mem _ (h.roots_subset hid))) rfl
  | false =>
      refine iff_of_false (fun hfree => ?_) Bool.false_ne_true
      have hlabel := Forest.mem_labels_of_mem_roots hid
      have hroot := h.isOpen.ne_root ht hlabel
      obtain ⟨own, hown⟩ := (h.isOpen.hole size).labels_perm
      have hlt : id < size :=
        ht.mem_labels_iff.1 ((hown x).mem_iff.2 (List.mem_append_right _ hlabel))
      obtain ⟨r, hr⟩ := h.exists_roots
      -- the top of the loose pieces is the same with nothing at the place
      have htop : id ∈ (s.loose .nil).roots := by
        rw [hr, ← hr x]
        exact ht.mem_roots_loose hlt hroot hfree
      have howned : id ∈ own := by
        have hwhole := (hown .nil).mem_iff.1 (List.mem_cons_of_mem _
          (List.mem_append_right _ (Forest.mem_labels_of_mem_roots htop)))
        simpa [Forest.labels] using hwhole
      exact (List.nodup_append'.1 ((hown x).nodup_iff.1 ht.nodup)).2.2 howned hlabel

end Stands

end Site

/-- Next to a node without a parent nothing is written. -/
theorem Tree.writeBefore_detached {t : Tree} (hparent : t.parent? id = none) (w : Statement) :
    t.writeBefore id w = .error (.tree (.detached id)) := by
  have hnew : (t.createLeaf .raw w.text).2.parent? id = none := hparent
  have hinsert : (t.createLeaf .raw w.text).2.insertBefore id t.size = .error (.detached id) := by
    rw [Tree.insertBefore, Tree.insertBeside, hnew]
  exact congrArg (Except.mapError CompileError.tree) hinsert

/-- What the pass for outputs does at one element. -/
theorem lowerOutput_eq (o : CompilerOptions) (t : Tree) (id : NodeId) :
    Tree.lowerOutput o table t id =
      match (table.asks id).output with
      | none => .ok t
      | some output =>
          if !t.isReserved o id || (table.asks id).hasControl then
            (t.takeChildren id).2.writeLast id (o.outputOf output)
          else (t.writeBefore id (o.outputOf output)).map (·.detach id) := by
  rw [Tree.lowerOutput, DirectiveTable.asks]
  cases table.get? id <;> rfl

theorem lowerOutputs_element_eq (o : CompilerOptions) (orphaned : Bool) (id : NodeId)
    (d : Directives) (name : String) (attributes : Attributes)
    (children rest : Forest (NodeId × Directives)) :
    lowerOutputs o orphaned (.element (id, d) name attributes children rest) =
      match d.output with
      | none =>
          lowerOutputs o false children >>= fun m => lowerOutputs o orphaned rest >>= fun m' =>
            .ok (.element (.source d) name attributes m m')
      | some output =>
          if o.keepsElement name d then
            lowerOutputs o true children >>= fun _ => lowerOutputs o orphaned rest >>= fun m' =>
              .ok (.element (.source d) name attributes (o.outputOf output).alone m')
          else if orphaned then .error (.tree (.detached id))
          else
            lowerOutputs o false children >>= fun _ => lowerOutputs o orphaned rest >>= fun m' =>
              .ok ((o.outputOf output).before m') := by
  rw [lowerOutputs]
  cases d.output with
  | none =>
      cases lowerOutputs o false children with
      | error e => rfl
      | ok m => cases lowerOutputs o orphaned rest <;> rfl
  | some output =>
      cases o.keepsElement name d with
      | true =>
          cases lowerOutputs o true children with
          | error e => rfl
          | ok m => cases lowerOutputs o orphaned rest <;> rfl
      | false =>
          cases orphaned with
          | true => rfl
          | false =>
              cases lowerOutputs o false children with
              | error e => rfl
              | ok m => cases lowerOutputs o false rest <;> rfl

section OneElement

variable {step : Tree → NodeId → Except CompileError Tree}
  {inside outside : Except CompileError (Forest Mark)} {k k' : Nat}

/-- An element that stays as it is, then what is inside it, then what is behind it. -/
theorem tracks_output_none (hs : s.Stands orphaned)
    (ht : (s.tree (.element id name attributes children rest) size).Accounted)
    (hinside : ∀ {u : Site}, u.Stands false → (u.tree children size).Accounted →
      Tracks (LandsBeside table u k) inside
        (children.elementLabels.foldlM step (u.tree children size)))
    (houtside : ∀ {u : Site}, u.Stands orphaned → (u.tree rest k).Accounted →
      Tracks (LandsBeside table u k') outside (rest.elementLabels.foldlM step (u.tree rest k))) :
    Tracks (LandsBeside table s k')
      (inside >>= fun m => outside >>= fun m' =>
        .ok (.element (.source (table.asks id)) name attributes m m'))
      ((children.elementLabels ++ rest.elementLabels).foldlM step
        (s.tree (.element id name attributes children rest) size)) := by
  refine tracks_beside (J := fun junk _ => junk)
    (B := fun _ g => .element id name attributes g .nil)
    (M := .element (.source (table.asks id)) name attributes)
    (u := s.below .nil id name attributes rest) (fun _ _ => rfl)
    (hinside (.inside hs.isOpen ..) ht) (fun _ _ => houtside ((hs.beside _).next _))
    fun _ g g' m m' hg hg' => ?_
  simp only [Forest.element_append, Forest.nil_append, Forest.map, hg, hg', Mark.directives]

/-- An element whose content gives way to an output, then the children it has given up, which have
no parent any more, then what is behind it. -/
theorem tracks_output_inside (hs : s.Stands orphaned) (hbelow : table.Below size)
    (ht : (s.tree (.element id name attributes children rest) size).Accounted) (w : Statement)
    (hinside : ∀ {u : Site}, u.Stands true → (u.tree children (size + 1)).Accounted →
      Tracks (LandsBeside table u k) inside
        (children.elementLabels.foldlM step (u.tree children (size + 1))))
    (houtside : ∀ {u : Site}, u.Stands orphaned → (u.tree rest k).Accounted →
      Tracks (LandsBeside table u k') outside (rest.elementLabels.foldlM step (u.tree rest k))) :
    Tracks (LandsBeside table s k')
      (inside >>= fun _ => outside >>= fun m' =>
        .ok (.element (.source (table.asks id)) name attributes w.alone m'))
      (((s.tree (.element id name attributes children rest) size).takeChildren id).2.writeLast id w
        >>= (children.elementLabels ++ rest.elementLabels).foldlM step) := by
  obtain ⟨htake, ht⟩ := hs.isOpen.takeChildren_head ht
  obtain ⟨hwrite, ht⟩ := (hs.beside children).isOpen.writeLast ht w
  rw [htake, hwrite]
  refine tracks_beside (J := fun junk g => junk ++ g)
    (B := fun _ _ => .element id name attributes (.leaf size .raw w.text .nil) .nil)
    (M := fun _ => .element (.source (table.asks id)) name attributes w.alone)
    (u := Site.inLoose _ fun x => x ++ s.loose (.element id name attributes _ rest))
    (fun junk g => congrArg (Tree.mk _ · _) (Forest.append_assoc junk g _).symm)
    (hinside (.pieces _ _) ht) (fun _ _ => houtside ((hs.beside _).next _))
    fun _ g g' m m' hg hg' => ?_
  simp only [Forest.element_append, Forest.nil_append, Forest.map, hg', Mark.directives,
    Statement.alone, Statement.map_before, hbelow.asks_eq (Nat.le_refl size)]

/-- An element that gives way to an output, then what is still inside it, then what is behind it. -/
theorem tracks_output_instead (hs : s.Stands false) (hbelow : table.Below size)
    (ht : (s.tree (.element id name attributes children rest) size).Accounted) (w : Statement)
    (hinside : ∀ {u : Site}, u.Stands false → (u.tree children (size + 1)).Accounted →
      Tracks (LandsBeside table u k) inside
        (children.elementLabels.foldlM step (u.tree children (size + 1))))
    (houtside : ∀ {u : Site}, u.Stands false → (u.tree rest k).Accounted →
      Tracks (LandsBeside table u k') outside (rest.elementLabels.foldlM step (u.tree rest k))) :
    Tracks (LandsBeside table s k')
      (inside >>= fun _ => outside >>= fun m' => .ok (w.before m'))
      (((s.tree (.element id name attributes children rest) size).writeBefore id w).map
          (·.detach id) >>= (children.elementLabels ++ rest.elementLabels).foldlM step) := by
  obtain ⟨hstep, ht⟩ := hs.isOpen.writeInPlace (n := .element ⟨id, name, attributes, children⟩) ht
    (fun before _ ht h => Bool.false_ne_true
      (((hs.next before).parent?_eq_none_iff ht List.mem_cons_self).1 h)) w
  have hstep : (Tree.writeBefore (s.tree (.element id name attributes children rest) size) id w).map
      (·.detach id) = .ok _ := hstep
  rw [hstep]
  refine tracks_beside (J := fun junk g => junk ++ .element id name attributes g .nil)
    (B := fun _ _ => .leaf size .raw w.text .nil) (M := fun _ => w.before)
    (u := Site.below (Site.inLoose _ fun x => x ++ s.loose (.leaf size .raw _ rest)) .nil id name
      attributes .nil)
    (fun junk g => congrArg (Tree.mk _ · _)
      (Forest.append_assoc junk (.element id name attributes g .nil) _).symm)
    (hinside (.inside (Site.open_pieces _ _) ..) ht) (fun _ _ => houtside ((hs.beside _).next _))
    fun _ g g' m m' hg hg' => ?_
  simp only [Forest.leaf_append, Forest.nil_append, Forest.map, hg', Statement.map_before,
    hbelow.asks_eq (Nat.le_refl size)]

end OneElement

/-- **The pass for outputs.** -/
theorem tracks_outputs (o : CompilerOptions) (f : Forest NodeId)
    (hleaf : f.LeavesSatisfy fun x _ _ => table.asks x = {}) (hs : s.Stands orphaned)
    (hbelow : table.Below size) (ht : (s.tree f size).Accounted) :
    Tracks (LandsBeside table s (size + outputCount (f.map fun x => (x, table.asks x))))
      (lowerOutputs o orphaned (f.map fun x => (x, table.asks x)))
      (f.elementLabels.foldlM (Tree.lowerOutput o table) (s.tree f size)) := by
  induction f generalizing s orphaned size with
  | nil => exact .ok ⟨.nil, .nil, rfl, ht, rfl⟩
  | leaf id kind content rest ih =>
      rw [Forest.map, lowerOutputs]
      exact (ih hleaf.2 (hs.next (.leaf id kind content .nil)) hbelow ht).map fun m t h =>
        h.leaf hleaf.1.symm
  | element id name attributes children rest ihc ihr =>
      have hname := hs.isOpen.name?_head ht
      have hfree := hs.parent?_eq_none_iff ht (List.mem_cons_self : id ∈ id :: rest.roots)
      have hkeeps : (!(s.tree (.element id name attributes children rest) size).isReserved o id ||
          (table.asks id).hasControl) = o.keepsElement name (table.asks id) := by
        rw [Tree.isReserved, hname, CompilerOptions.keepsElement]
        simp
      rw [Forest.elementLabels_element, List.foldlM_cons, lowerOutput_eq, hkeeps, Forest.map,
        lowerOutputs_element_eq, outputCount]
      cases (table.asks id).output with
      | none =>
          simp only [Option.isSome_none, Bool.false_eq_true, if_false, Nat.zero_add,
            ← Nat.add_assoc]
          exact tracks_output_none hs ht (fun hu ht => ihc hleaf.1 hu hbelow ht)
            fun hu ht => ihr hleaf.2 hu (hbelow.mono (Nat.le_add_right _ _)) ht
      | some output =>
          simp only [Option.isSome_some, if_true, ← Nat.add_assoc]
          have hbelow' := hbelow.mono (Nat.le_succ size)
          cases o.keepsElement name (table.asks id) with
          | true =>
              exact tracks_output_inside hs hbelow ht (o.outputOf output)
                (fun hu ht => ihc hleaf.1 hu hbelow' ht)
                fun hu ht => ihr hleaf.2 hu (hbelow'.mono (Nat.le_add_right _ _)) ht
          | false =>
              cases orphaned with
              | true =>
                  rw [if_neg Bool.false_ne_true, Tree.writeBefore_detached (hfree.2 rfl)]
                  exact rfl
              | false =>
                  exact tracks_output_instead hs hbelow ht (o.outputOf output)
                    (fun hu ht => ihc hleaf.1 hu hbelow' ht)
                    fun hu ht => ihr hleaf.2 hu (hbelow'.mono (Nat.le_add_right _ _)) ht

end ViewCompiler
