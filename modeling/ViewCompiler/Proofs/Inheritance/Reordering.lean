/-
**Passes over reordered queues.**

Two queues may hold the same patches in different orders, and two stores the same documents, all
under different places in the order of loading.  If only the patches on each single document stand
in one order, a pass does the same work on both: it leaves the same patches, it makes the same
documents and it reports the same outcomes.  Places in the order of loading play no part in this,
so they are taken away first, and what a pass makes of documents and patches without them is a
function of two lists.

Main definitions:

* `ViewCompiler.PendingPatch.unnumbered` — a patch without its place in the order of loading;
* `ViewCompiler.documentsAfter`, `ViewCompiler.queueAfter` — what a pass leaves;
* `ViewCompiler.SameWork` — the same documents, and the same patches in the same order on each.

Main results:

* `ViewCompiler.Progress.pass_unnumbered` — a pass does not depend on places in the order of
  loading;
* `ViewCompiler.SameWork.pass`, `ViewCompiler.SameWork.outcomes_perm` — one pass over reordered queues;
* `ViewCompiler.Progress.passes_sameWork` — **all passes over reordered queues**.
-/

import ViewCompiler.Proofs.Inheritance.Outcomes

set_option relaxedAutoImplicit false
set_option autoImplicit false

namespace ViewCompiler

/-! ### Without places in the order of loading -/

/-- A patch without its place in the order of loading. -/
def PendingPatch.unnumbered (p : PendingPatch) : PendingPatch :=
  { p with sequence := 0 }

/-- A settled patch without its place in the order of loading. -/
def Settled.unnumbered (x : Settled) : Settled :=
  { x with patch := x.patch.unnumbered }

theorem ids_unnumbered (ds : List Document) :
    (ds.map Document.unnumbered).map (·.id) = ds.map (·.id) := by
  rw [List.map_map]
  rfl

theorem patchesOn_unnumbered (queue : List PendingPatch) (id : DocumentId) :
    patchesOn (queue.map PendingPatch.unnumbered) id =
      (patchesOn queue id).map PendingPatch.unnumbered :=
  List.filter_map

theorem withPatches_unnumbered (queue : List PendingPatch) (d : Document) :
    (d.withPatches queue).unnumbered =
      d.unnumbered.withPatches (queue.map PendingPatch.unnumbered) := by
  have harch : fullArch (queue.map PendingPatch.unnumbered) d.unnumbered = fullArch queue d := by
    rw [fullArch, patchesOn_unnumbered, List.foldl_map]
    rfl
  rw [Document.withPatches, Document.withPatches, harch]
  rfl

theorem map_withPatches_unnumbered (queue : List PendingPatch) (ds : List Document) :
    (ds.map (Document.withPatches queue)).map Document.unnumbered =
      (ds.map Document.unnumbered).map
        (Document.withPatches (queue.map PendingPatch.unnumbered)) := by
  rw [List.map_map, List.map_map]
  exact List.map_congr_left fun d _ => withPatches_unnumbered queue d

theorem find?_unnumbered (ds : List Document) (id : DocumentId) :
    (ds.map Document.unnumbered).find? (·.id = id) =
      (ds.find? (·.id = id)).map Document.unnumbered :=
  List.find?_map

theorem derivedOn?_unnumbered (bases : List Document) (p : PendingPatch) :
    derivedOn? (bases.map Document.unnumbered) p.unnumbered = derivedOn? bases p := by
  have hfind : (bases.map Document.unnumbered).find? (·.id = p.unnumbered.target) = _ :=
    find?_unnumbered bases p.target
  have hid : p.unnumbered.newId = p.newId := rfl
  rw [derivedOn?, derivedOn?, hfind, hid]
  cases p.newId <;> cases bases.find? (·.id = p.target) <;> rfl

theorem outcomeOn?_unnumbered (bases : List Document) (p : PendingPatch) :
    outcomeOn? (bases.map Document.unnumbered) p.unnumbered =
      (outcomeOn? bases p).map Settled.unnumbered := by
  have hfind : (bases.map Document.unnumbered).find? (·.id = p.unnumbered.target) = _ :=
    find?_unnumbered bases p.target
  have hid : p.unnumbered.newId = p.newId := rfl
  rw [outcomeOn?, outcomeOn?, hfind, hid]
  cases p.newId <;> cases bases.find? (·.id = p.target) <;> rfl

theorem outcomesOn_unnumbered (ps : List PendingPatch) (arch : Forest Unit) :
    outcomesOn (ps.map PendingPatch.unnumbered) arch =
      (outcomesOn ps arch).map Settled.unnumbered := by
  induction ps generalizing arch with
  | nil => rfl
  | cons p more ih => exact congrArg _ (ih (p.change arch))

theorem outcomes_unnumbered (ds : List Document) (queue : List PendingPatch) :
    outcomes (ds.map Document.unnumbered) (queue.map PendingPatch.unnumbered) =
      (outcomes ds queue).map Settled.unnumbered := by
  have hshare : ∀ d : Document,
      outcomesOn (patchesOn (queue.map PendingPatch.unnumbered) d.unnumbered.id)
          d.unnumbered.arch =
        (outcomesOn (patchesOn queue d.id) d.arch).map Settled.unnumbered := fun d => by
    rw [← outcomesOn_unnumbered, ← patchesOn_unnumbered]
    rfl
  rw [outcomes, outcomes, ← map_withPatches_unnumbered, List.map_append, List.map_flatMap,
    List.map_filterMap, List.flatMap_map, List.filterMap_map]
  congr 1
  · exact List.flatMap_congr fun d _ => hshare d
  · exact List.filterMap_congr fun p _ => outcomeOn?_unnumbered _ p

/-- Counts and reports of settled patches do not depend on their places in the order of loading. -/
theorem Progress.Records.unnumbered {r t : Progress} {settled : List Settled}
    (h : r.Records settled t) : r.Records (settled.map Settled.unnumbered) t := by
  have happlied : appliedIn (settled.map Settled.unnumbered) =
      (appliedIn settled).map PendingPatch.unnumbered := by
    rw [appliedIn, List.filter_map, List.map_map, appliedIn, List.map_map]
    rfl
  have hreported : reportedIn (settled.map Settled.unnumbered) = reportedIn settled :=
    List.filterMap_map
  have hannounced : announcedBy ((appliedIn settled).map PendingPatch.unnumbered) =
      announcedBy (appliedIn settled) := List.filterMap_map
  exact
    { applied := by rw [happlied, List.length_map, h.applied]
      created := by rw [happlied, hannounced, h.created]
      errors := by rw [hreported, h.errors] }

/-! ### A pass as a function of two lists -/

/-- The documents that a pass leaves: the old ones with all patches on them applied, and those that
patches with a new id make. -/
def documentsAfter (ds : List Document) (queue : List PendingPatch) : List Document :=
  ds.map (Document.withPatches queue) ++
    queue.filterMap (derivedOn? (ds.map (Document.withPatches queue)))

/-- The patches that a pass leaves in the queue. -/
def queueAfter (ds : List Document) (queue : List PendingPatch) : List PendingPatch :=
  queue.filter fun p => p.target ∉ ds.map (·.id)

/-- A pass does not depend on places in the order of loading. -/
theorem Progress.pass_unnumbered {r : Progress} {pending : List PendingPatch}
    (h : (r.store.withQueue pending).Sound) :
    (r.pass pending).1.map PendingPatch.unnumbered =
        queueAfter (r.store.stored.map Document.unnumbered)
          (pending.map PendingPatch.unnumbered) ∧
      (r.pass pending).2.store.stored.map Document.unnumbered =
        documentsAfter (r.store.stored.map Document.unnumbered)
          (pending.map PendingPatch.unnumbered) ∧
      ∃ settled, r.Records settled (r.pass pending).2 ∧
        settled.Perm (outcomes (r.store.stored.map Document.unnumbered)
          (pending.map PendingPatch.unnumbered)) := by
  obtain ⟨hqueue, made, hstored, hmade⟩ :=
    @pass_eq r pending h.ids_nodup h.announced_nodup h.free
  obtain ⟨settled, hrecords, hperm⟩ := pass_outcomes h
  refine ⟨?_, ?_, settled.map Settled.unnumbered, hrecords.unnumbered, ?_⟩
  · rw [hqueue, queueAfter, List.filter_map, ids_unnumbered]
    refine congrArg _ (List.filter_congr fun p _ => ?_)
    rw [Bool.eq_iff_iff, Bool.not_eq_true', Bool.eq_false_iff, ne_eq, Store.contains_iff]
    exact decide_eq_true_iff.symm
  · rw [hstored, List.map_append, hmade, documentsAfter, ← map_withPatches_unnumbered,
      List.filterMap_map]
    congr 1
    refine List.filterMap_congr fun p _ => ?_
    exact (derivedOn?_unnumbered _ p).symm
  · rw [outcomes_unnumbered]
    exact hperm.map _

/-! ### Reordered queues -/

/-- The same documents and the same patches, and in the same order those that change one document. -/
structure SameWork (ds ds' : List Document) (queue queue' : List PendingPatch) : Prop where
  documents : ds.Perm ds'
  patches : queue.Perm queue'
  order : ∀ id, patchesOn queue id = patchesOn queue' id

/-- Documents with ids that are used once are found in any order of them. -/
theorem find?_eq_of_perm {ds ds' : List Document} (hperm : ds.Perm ds')
    (hids : (ds.map (·.id)).Nodup) (id : DocumentId) :
    ds.find? (·.id = id) = ds'.find? (·.id = id) := by
  have hids' : (ds'.map (·.id)).Nodup := (hperm.map _).nodup_iff.1 hids
  cases hfind : ds.find? (·.id = id) with
  | none =>
      symm
      rw [List.find?_eq_none] at hfind ⊢
      exact fun d hd => hfind d (hperm.mem_iff.2 hd)
  | some d =>
      obtain rfl : d.id = id := by simpa using List.find?_some hfind
      have hd : d ∈ ds' := hperm.mem_iff.1 (List.mem_of_find?_eq_some hfind)
      exact (Store.find?_eq_some_of_mem hids' hd).symm

namespace SameWork

variable {ds ds' : List Document} {queue queue' : List PendingPatch}

theorem withPatches_eq (h : SameWork ds ds' queue queue') :
    Document.withPatches queue = Document.withPatches queue' := by
  funext d
  rw [Document.withPatches, Document.withPatches, fullArch, fullArch, h.order]

/-- Targets are found alike with all patches on them applied. -/
theorem find?_withPatches (h : SameWork ds ds' queue queue') (hids : (ds.map (·.id)).Nodup)
    (id : DocumentId) :
    (ds.map (Document.withPatches queue)).find? (·.id = id) =
      (ds'.map (Document.withPatches queue')).find? (·.id = id) := by
  rw [← h.withPatches_eq]
  refine find?_eq_of_perm (h.documents.map _) ?_ id
  rwa [ids_withPatches]

theorem documentsAfter_perm (h : SameWork ds ds' queue queue') (hids : (ds.map (·.id)).Nodup) :
    (documentsAfter ds queue).Perm (documentsAfter ds' queue') := by
  refine .append ?_ ?_
  · rw [h.withPatches_eq]
    exact h.documents.map _
  · have hmade : ∀ p, derivedOn? (ds.map (Document.withPatches queue)) p =
        derivedOn? (ds'.map (Document.withPatches queue')) p := fun p => by
      rw [derivedOn?, h.find?_withPatches hids, derivedOn?]
    rw [List.filterMap_congr fun p _ => hmade p]
    exact h.patches.filterMap _

/-- **The outcomes of a pass** do not depend on the order of the queue. -/
theorem outcomes_perm (h : SameWork ds ds' queue queue') (hids : (ds.map (·.id)).Nodup) :
    (outcomes ds queue).Perm (outcomes ds' queue') := by
  refine .append ?_ ?_
  · simp only [h.order]
    exact h.documents.flatMap_right _
  · have hmade : ∀ p, outcomeOn? (ds.map (Document.withPatches queue)) p =
        outcomeOn? (ds'.map (Document.withPatches queue')) p := fun p => by
      rw [outcomeOn?, h.find?_withPatches hids, outcomeOn?]
    rw [List.filterMap_congr fun p _ => hmade p]
    exact h.patches.filterMap _

/-- **What a pass leaves** is the same work again. -/
theorem pass (h : SameWork ds ds' queue queue') (hids : (ds.map (·.id)).Nodup) :
    SameWork (documentsAfter ds queue) (documentsAfter ds' queue') (queueAfter ds queue)
      (queueAfter ds' queue') := by
  have hsame : (fun p : PendingPatch => decide (p.target ∉ ds.map (·.id))) =
      fun p => decide (p.target ∉ ds'.map (·.id)) := by
    funext p
    rw [decide_eq_decide, (h.documents.map _).mem_iff]
  refine ⟨h.documentsAfter_perm hids, ?_, fun id => ?_⟩
  · rw [queueAfter, queueAfter, hsame]
    exact h.patches.filter _
  · have hcomm : ∀ (ds : List Document) (queue : List PendingPatch),
        patchesOn (queueAfter ds queue) id = queueAfter ds (patchesOn queue id) := fun ds queue => by
      rw [patchesOn, queueAfter, List.filter_comm]
      rfl
    rw [hcomm, hcomm, h.order, queueAfter, queueAfter, hsame]

end SameWork

namespace Progress

/-- The work that two stores have left is the same but for places in the order of loading. -/
def SameWork (r r' : Progress) (pending pending' : List PendingPatch) : Prop :=
  ViewCompiler.SameWork (r.store.stored.map Document.unnumbered)
    (r'.store.stored.map Document.unnumbered) (pending.map PendingPatch.unnumbered)
    (pending'.map PendingPatch.unnumbered)

/-- A pass keeps the books. -/
theorem pass_sound {r : Progress} {pending : List PendingPatch}
    (h : (r.store.withQueue pending).Sound) :
    ((r.pass pending).2.store.withQueue (r.pass pending).1).Sound := by
  obtain ⟨_, _, _, _, hchanges, hmakings⟩ := r.pass_walks pending
  exact (h.run (.walk hchanges (.walk hmakings (.refl _ _)))).1

/-- One pass over reordered queues. -/
theorem pass_sameWork {r r' : Progress} {pending pending' : List PendingPatch}
    (h : r.SameWork r' pending pending') (hr : (r.store.withQueue pending).Sound)
    (hr' : (r'.store.withQueue pending').Sound) :
    (r.pass pending).2.SameWork (r'.pass pending').2 (r.pass pending).1 (r'.pass pending').1 ∧
      ∃ settled settled', r.Records settled (r.pass pending).2 ∧
        r'.Records settled' (r'.pass pending').2 ∧ settled.Perm settled' := by
  obtain ⟨hqueue, hstored, settled, hrecords, hsettled⟩ := pass_unnumbered hr
  obtain ⟨hqueue', hstored', settled', hrecords', hsettled'⟩ := pass_unnumbered hr'
  have hids : ((r.store.stored.map Document.unnumbered).map (·.id)).Nodup := by
    rw [ids_unnumbered]
    exact hr.ids_nodup
  refine ⟨?_, settled, settled', hrecords, hrecords',
    hsettled.trans ((h.outcomes_perm hids).trans hsettled'.symm)⟩
  rw [SameWork, hqueue, hqueue', hstored, hstored']
  exact h.pass hids

/-- **All passes over reordered queues**: there are as many of them, they settle the same patches
with the same errors, and leave the same work. -/
theorem passes_sameWork {r r' : Progress} {pending pending' : List PendingPatch}
    (h : r.SameWork r' pending pending') (hr : (r.store.withQueue pending).Sound)
    (hr' : (r'.store.withQueue pending').Sound) (bound : Nat) :
    (r.passes pending bound).1 = (r'.passes pending' bound).1 ∧
      (r.passes pending bound).2.2.SameWork (r'.passes pending' bound).2.2
        (r.passes pending bound).2.1 (r'.passes pending' bound).2.1 ∧
      ∃ settled settled', r.Records settled (r.passes pending bound).2.2 ∧
        r'.Records settled' (r'.passes pending' bound).2.2 ∧ settled.Perm settled' := by
  induction bound generalizing r r' pending pending' with
  | zero => exact ⟨rfl, h, [], [], .refl r, .refl r', .refl _⟩
  | succ bound ih =>
      have hlength : pending.length = pending'.length := by
        simpa using h.patches.length_eq
      obtain ⟨hpass, settled, settled', hrecords, hrecords', hsettled⟩ := pass_sameWork h hr hr'
      have hleft : (r.pass pending).1.length = (r'.pass pending').1.length := by
        simpa using hpass.patches.length_eq
      cases hempty : pending.isEmpty with
      | true =>
          have hempty' : pending'.isEmpty = true := by
            rw [List.isEmpty_iff_length_eq_zero] at hempty ⊢
            omega
          simp only [passes, hempty, hempty', if_true]
          exact ⟨trivial, h, [], [], .refl r, .refl r', .refl _⟩
      | false =>
          have hempty' : pending'.isEmpty = false := by
            rw [← Bool.not_eq_true, List.isEmpty_iff_length_eq_zero] at hempty ⊢
            omega
          by_cases hstop : (r.pass pending).1.length = pending.length
          · have hstop' : (r'.pass pending').1.length = pending'.length := by omega
            simp only [passes, hempty, hempty', hstop, hstop', Bool.false_eq_true, if_false,
              if_true]
            exact ⟨trivial, hpass, settled, settled', hrecords, hrecords', hsettled⟩
          · have hstop' : (r'.pass pending').1.length ≠ pending'.length := by omega
            obtain ⟨hcount, hwork, later, later', hlater, hlater', hrest⟩ :=
              ih hpass (pass_sound hr) (pass_sound hr')
            simp only [passes, hempty, hempty', hstop, hstop', Bool.false_eq_true, if_false]
            exact ⟨congrArg (· + 1) hcount, hwork, settled ++ later, settled' ++ later',
              hrecords.append hlater, hrecords'.append hlater', hsettled.append hrest⟩

end Progress

end ViewCompiler
