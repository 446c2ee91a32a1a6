/-
**What a pass reports, document by document.**

A pass reports on patches in the order of the queue, where patches on different documents stand in
any order.  What is reported on the patches of one document depends on that document and on the
order of its own patches alone.  So the reports of a pass are, but for their order, those on each
stored document and those on each patch with a new id, and the walk through the queue is gone from
their description.

Main definitions:

* `ViewCompiler.outcomesOn` — what becomes of patches that change one arch, one after the other;
* `ViewCompiler.outcomeOn?` — what becomes of a patch with a new id;
* `ViewCompiler.outcomes` — what becomes of the patches that a pass settles.

Main results:

* `ViewCompiler.Progress.pass_outcomes` — **a pass reports document by document**.
-/

import ViewCompiler.Proofs.Inheritance.Accounting

set_option relaxedAutoImplicit false
set_option autoImplicit false

namespace ViewCompiler

/-- What becomes of patches that change an arch, each applied to what the ones before it have
left. -/
def outcomesOn : List PendingPatch → Forest Unit → List Settled
  | [], _ => []
  | p :: more, arch => ⟨p, p.fault? arch⟩ :: outcomesOn more (p.change arch)

/-- What becomes of a patch with a new id, if its target is one of `bases`. -/
def outcomeOn? (bases : List Document) (p : PendingPatch) : Option Settled :=
  match p.newId, bases.find? (·.id = p.target) with
  | some _, some base => some ⟨p, p.fault? base.arch⟩
  | _, _ => none

/-- What becomes of the queued patches that a pass over stored documents settles. -/
def outcomes (stored : List Document) (pending : List PendingPatch) : List Settled :=
  (stored.flatMap fun d => outcomesOn (patchesOn pending d.id) d.arch) ++
    pending.filterMap (outcomeOn? (stored.map (Document.withPatches pending)))

/-! ### Patches on one document among all -/

theorem patchesOn_cons_of_ne {p : PendingPatch} {id : DocumentId} (more : List PendingPatch)
    (h : p.newId = none → p.target ≠ id) : patchesOn (p :: more) id = patchesOn more id := by
  rw [patchesOn, List.filter_cons, if_neg, patchesOn]
  simpa using h

theorem patchesOn_cons_of_eq {p : PendingPatch} {id : DocumentId} (more : List PendingPatch)
    (hid : p.newId = none) (ht : p.target = id) :
    patchesOn (p :: more) id = p :: patchesOn more id := by
  simp [patchesOn, hid, ht]

/-- Something added to the share of one document is added to the whole. -/
theorem flatMap_perm_cons {ds : List Document} (hids : (ds.map (·.id)).Nodup) {base : Document}
    (hbase : base ∈ ds) {x : Settled} {f g : Document → List Settled} (hx : f base = x :: g base)
    (hne : ∀ d ∈ ds, d.id ≠ base.id → f d = g d) : (x :: ds.flatMap g).Perm (ds.flatMap f) := by
  obtain ⟨before, after, rfl⟩ := List.append_of_mem hbase
  rw [List.map_append, List.map_cons, List.nodup_middle, List.nodup_cons, List.mem_append] at hids
  have hother : ∀ ds' : List Document, (∀ d ∈ ds', d ∈ before ++ base :: after) →
      base.id ∉ ds'.map (·.id) → ds'.flatMap f = ds'.flatMap g := by
    intro ds' hsub hout
    exact List.flatMap_congr fun d hd =>
      hne d (hsub d hd) fun heq => hout (heq ▸ List.mem_map_of_mem hd)
  have hbefore := hother before (by simp +contextual) fun h => hids.1 (.inl h)
  have hafter := hother after (by simp +contextual) fun h => hids.1 (.inr h)
  rw [List.flatMap_append, List.flatMap_append, List.flatMap_cons, List.flatMap_cons, hx, hbefore,
    hafter]
  exact List.perm_middle.symm

namespace Progress

variable {r t : Progress} {pending left : List PendingPatch} {settled : List Settled}

/-- In a walk over the patches that change stored documents, what becomes of the patches on one
document is decided on that document alone. -/
theorem Walk.perm_outcomesOn (h : r.Walk pending settled left t) (hids : r.store.ids.Nodup)
    (hplain : ∀ x ∈ settled, x.patch.newId = none)
    (hleft : ∀ p ∈ left, p.newId = none → p.target ∉ r.store.ids) :
    settled.Perm (r.store.stored.flatMap fun d => outcomesOn (patchesOn pending d.id) d.arch) := by
  induction h with
  | nil => simp [patchesOn, outcomesOn]
  | @stay r t p more left settled _ ih =>
      obtain ⟨hp, hmore⟩ := List.forall_mem_cons.1 hleft
      have hsame : ∀ d ∈ r.store.stored, outcomesOn (patchesOn (p :: more) d.id) d.arch =
          outcomesOn (patchesOn more d.id) d.arch := by
        intro d hd
        rw [patchesOn_cons_of_ne more fun hid ht => hp hid (ht ▸ List.mem_map_of_mem hd)]
      rw [List.flatMap_congr hsame]
      exact ih hids hplain hmore
  | @settle r m t p error more left settled hp _ ih =>
      obtain ⟨hid, hlater⟩ := List.forall_mem_cons.1 hplain
      obtain ⟨base, hbase, hbid, rfl, hstore⟩ := hp.changes hid hids
      have hsame : m.store.ids = r.store.ids := by
        rw [hstore]
        exact ids_withPatches [p] r.store.stored
      have hrest := ih (hsame ▸ hids) hlater (hsame ▸ hleft)
      have hstored : m.store.stored = r.store.stored.map (Document.changedBy p) := by
        rw [hstore, storeAfter]
      rw [hstored, List.flatMap_map] at hrest
      refine (hrest.cons _).trans (flatMap_perm_cons hids hbase ?_ fun d _ hd => ?_)
      · -- the target: the patch comes first, and the others find what it has left
        rw [patchesOn_cons_of_eq more hid hbid.symm, outcomesOn, changedBy_of_eq hid hbid.symm]
      · have ht : p.target ≠ d.id := fun ht => hd (ht.symm.trans hbid.symm)
        rw [patchesOn_cons_of_ne more fun _ => ht, changedBy_of_ne fun _ => ht]

/-- In a walk over the patches with a new id, what becomes of a patch is decided on its target as
it was before the walk. -/
theorem Walk.eq_outcomeOn {bases new : List Document} {kept : List PendingPatch}
    (h : r.Walk pending settled left t) (hsound : (r.store.withQueue (pending ++ kept)).Sound)
    (hstored : r.store.stored = bases ++ new) (hnamed : ∀ x ∈ settled, x.patch.newId ≠ none)
    (hfound : ∀ x ∈ settled, (bases.find? (·.id = x.patch.target)).isSome = true)
    (hleft : ∀ p ∈ left, outcomeOn? bases p = none) :
    settled = pending.filterMap (outcomeOn? bases) := by
  induction h generalizing new kept with
  | nil => rfl
  | @stay r t p more left settled _ ih =>
      obtain ⟨hp, hmore⟩ := List.forall_mem_cons.1 hleft
      rw [List.filterMap_cons_none hp]
      exact ih (hsound.perm List.perm_middle.symm) hstored hnamed hfound hmore
  | @settle r m t p error more left settled hp _ ih =>
      obtain ⟨hid, hlater⟩ := List.forall_mem_cons.1 hnamed
      replace hid : p.newId ≠ none := hid
      obtain ⟨hfind, hfinds⟩ := List.forall_mem_cons.1 hfound
      have htarget : r.store.get? p.target = bases.find? (·.id = p.target) := by
        rw [Store.get?, hstored, List.find?_append, Option.or_of_isSome hfind]
      have hfree : ∀ id ∈ p.newId, id ∉ r.store.ids := fun id hnew =>
        hsound.free id (mem_announcedBy.2 ⟨p, List.mem_cons_self, hnew⟩)
      obtain ⟨base, made, hbase, rfl, hadded, _, _⟩ := hp.makes hid hfree htarget
      have hout : outcomeOn? bases p = some ⟨p, p.fault? base.arch⟩ := by
        obtain ⟨newId, hnew⟩ := Option.ne_none_iff_exists'.1 hid
        simp only [outcomeOn?, hnew, hbase]
      rw [List.filterMap_cons_some hout]
      have hstored' : m.store.stored = bases ++ (new ++ made) := by
        rw [hadded, hstored, List.append_assoc]
      exact congrArg _ (ih (hsound.settles hp).1 hstored' hlater hfinds hleft)

/-- What a walk leaves of a queue without repetitions is not settled in it. -/
theorem Walk.not_mem_left (h : r.Walk pending settled left t) (hnodup : pending.Nodup)
    {x : Settled} (hx : x ∈ settled) : x.patch ∈ pending ∧ x.patch ∉ left := by
  have hparts := h.perm.nodup_iff.2 hnodup
  have hmem : x.patch ∈ settled.map (·.patch) := List.mem_map_of_mem hx
  refine ⟨h.perm.subset (List.mem_append_left _ hmem), fun hleft => ?_⟩
  exact (List.nodup_append.1 hparts).2.2 _ hmem _ hleft rfl

/-- **A pass reports document by document.** -/
theorem pass_outcomes (h : (r.store.withQueue pending).Sound) :
    ∃ settled, r.Records settled (r.pass pending).2 ∧
      settled.Perm (outcomes r.store.stored pending) := by
  obtain ⟨changes, hchanges, hplain⟩ := r.applyInPlace_walk pending
  obtain ⟨makings, hmakings, hnamed⟩ :=
    (r.applyInPlace pending).2.derive_walk [] (r.applyInPlace pending).1
  obtain ⟨hrest, hstore⟩ := r.applyInPlace_eq pending h.ids_nodup
  have hmid := (Store.Sound.walk [] (by rwa [List.append_nil]) hchanges).1
  have hmid' : ((r.applyInPlace pending).2.store.withQueue (r.applyInPlace pending).1).Sound := by
    rwa [List.append_nil] at hmid
  have hbases : (r.applyInPlace pending).2.store.stored =
      r.store.stored.map (Document.withPatches pending) := by rw [hstore]
  obtain ⟨hleft, _⟩ := derive_eq (r.applyInPlace pending).2 []
    (r.store.stored.map (Document.withPatches pending)) [] (r.applyInPlace pending).1
    (by simp [hbases]) (by simp) hmid'.ids_nodup hmid'.announced_nodup hmid'.free
  refine ⟨changes ++ makings, hchanges.records.append hmakings.records, .append ?_ ?_⟩
  · refine hchanges.perm_outcomesOn h.ids_nodup hplain fun p hp hid => ?_
    rw [hrest, List.mem_filter] at hp
    simpa [hid, ← Store.contains_iff] using hp.2
  · have hmade := hmakings.eq_outcomeOn hmid (hbases.trans (List.append_nil _).symm) hnamed ?_ ?_
    · rw [hmade, hrest, List.filterMap_filter]
      refine .of_eq (List.filterMap_congr fun p _ => ?_)
      -- what the first half has taken out has no new id
      cases hid : p.newId <;> simp [outcomeOn?, hid]
    · intro x hx
      obtain ⟨hmem, hout⟩ := hmakings.not_mem_left hmid'.pending_nodup hx
      rw [hleft, List.mem_filter] at hout
      simpa [hmem, hnamed x hx, Option.isSome_iff_ne_none] using hout
    · intro p hp
      rw [hleft, List.mem_filter] at hp
      have hstay := hp.2
      rw [Bool.or_eq_true, Option.isNone_iff_eq_none, Option.isNone_iff_eq_none] at hstay
      rcases hstay with hid | hbase <;> simp [outcomeOn?, *]

end Progress

end ViewCompiler
