/-
**The two halves of a pass, in closed form.**

A pass walks through the queue twice, and the store changes under its hands.  Here each half is
described by what it leaves behind, without the walk: the patches that change their target leave
every stored document with all its patches applied, and the patches with a new id add one document
for each of them whose target was stored *before* the half began.

The second description rests on two facts about the queue that the first half does not touch: the
ids announced in it are pairwise different and none of them is stored.  That is why adding a
document never fails here, and why a document just added is never mistaken for an older one.

Main definitions:

* `ViewCompiler.patchesOn`, `ViewCompiler.fullArch` — the queued patches on a document, and its
  arch with all of them applied;
* `ViewCompiler.derivedOn?` — the document that a patch makes of the given documents;
* `ViewCompiler.Document.unnumbered` — a document without its place in the order of loading.

Main results:

* `ViewCompiler.Progress.applyInPlace_eq` — the first half of a pass;
* `ViewCompiler.Progress.derive_eq` — the second half of a pass;
* `ViewCompiler.Progress.pass_eq` — **a whole pass**.
-/

import Mathlib.Data.List.Basic
import ViewCompiler.Proofs.Inheritance.Settlement

set_option relaxedAutoImplicit false
set_option autoImplicit false

namespace ViewCompiler

/-! ### What patches make of a document -/

/-- An arch after one patch; a patch that fails changes nothing. -/
def PendingPatch.change (p : PendingPatch) (arch : Forest Unit) : Forest Unit :=
  match applyPatches arch p.specs with
  | .ok t => t.plain
  | .error _ => arch

/-- The error that a patch is reported with if it does not fit an arch. -/
def PendingPatch.fault? (p : PendingPatch) (arch : Forest Unit) : Option ResolveError :=
  match applyPatches arch p.specs with
  | .ok _ => none
  | .error source => some (.patch p.target p.newId source)

/-- The queued patches that change the document with the given id. -/
def patchesOn (queue : List PendingPatch) (id : DocumentId) : List PendingPatch :=
  queue.filter fun p => p.newId.isNone && p.target = id

/-- The arch of a document with all queued patches on it applied, in the order of the queue. -/
def fullArch (queue : List PendingPatch) (d : Document) : Forest Unit :=
  (patchesOn queue d.id).foldl (fun arch p => p.change arch) d.arch

/-- A document with all queued patches on it applied. -/
def Document.withPatches (queue : List PendingPatch) (d : Document) : Document :=
  { d with arch := fullArch queue d }

/-- A document without its place in the order of loading. -/
def Document.unnumbered (d : Document) : Document :=
  { d with sequence := 0 }

/-- The document that a patch with a new id makes of its target, if that is one of `bases`. -/
def derivedOn? (bases : List Document) (p : PendingPatch) : Option Document :=
  match p.newId, bases.find? (·.id = p.target) with
  | some newId, some base =>
      match Progress.patched base p.specs with
      | .ok arch => some (Progress.derived p newId base arch)
      | .error _ => none
  | _, _ => none

/-- What it takes for a patch to make a document. -/
theorem derivedOn?_eq_some {bases : List Document} {p : PendingPatch} {d : Document} :
    derivedOn? bases p = some d ↔ ∃ newId base t, p.newId = some newId ∧
      bases.find? (·.id = p.target) = some base ∧ applyPatches base.arch p.specs = .ok t ∧
      d = Progress.derived p newId base t.plain := by
  constructor
  · intro h
    simp only [derivedOn?] at h
    split at h
    · next newId base hid hfind =>
        split at h
        · next arch harch =>
            obtain ⟨t, ht, rfl⟩ := map_eq_ok_iff.1 harch
            exact ⟨newId, base, t, hid, hfind, ht, (Option.some.inj h).symm⟩
        · exact absurd h (by simp)
    · exact absurd h (by simp)
  · rintro ⟨newId, base, t, hid, hfind, ht, rfl⟩
    simp [derivedOn?, hid, hfind, Progress.patched, ht, Except.map]

/-- A document after one queued patch, which may be aimed at another. -/
def Document.changedBy (p : PendingPatch) (d : Document) : Document :=
  d.withPatches [p]

theorem changedBy_of_ne {p : PendingPatch} {d : Document}
    (h : p.newId = none → p.target ≠ d.id) : d.changedBy p = d := by
  have hp : (p.newId.isNone && decide (p.target = d.id)) = false := by
    cases hid : p.newId with
    | none => simpa using h hid
    | some newId => rfl
  simp [Document.changedBy, Document.withPatches, fullArch, patchesOn, hp]

theorem changedBy_of_eq {p : PendingPatch} {d : Document} (hid : p.newId = none)
    (ht : p.target = d.id) : d.changedBy p = { d with arch := p.change d.arch } := by
  simp [Document.changedBy, Document.withPatches, fullArch, patchesOn, hid, ht]

/-- Patches are applied one after the other. -/
theorem withPatches_cons (p : PendingPatch) (more : List PendingPatch) (d : Document) :
    d.withPatches (p :: more) = (d.changedBy p).withPatches more := by
  cases hp : p.newId.isNone && decide (p.target = d.id) <;>
    simp [Document.changedBy, Document.withPatches, fullArch, patchesOn, hp]

theorem withPatches_nil : Document.withPatches [] = id := rfl

theorem ids_withPatches (queue : List PendingPatch) (ds : List Document) :
    (ds.map (Document.withPatches queue)).map (·.id) = ds.map (·.id) := by
  rw [List.map_map]
  exact List.map_congr_left fun _ _ => rfl

/-! ### Looking up -/

namespace Store

theorem get?_eq_some {s : Store} {id : DocumentId} {d : Document} (h : s.get? id = some d) :
    d ∈ s.stored ∧ d.id = id :=
  ⟨List.mem_of_find?_eq_some h, by simpa using List.find?_some h⟩

/-- With ids that are used once, a document is determined by its id. -/
theorem eq_of_id {ds : List Document} (h : (ds.map (·.id)).Nodup) {d e : Document} (hd : d ∈ ds)
    (he : e ∈ ds) (hid : d.id = e.id) : d = e := by
  induction ds with
  | nil => exact absurd hd List.not_mem_nil
  | cons a more ih =>
      obtain ⟨ha, hmore⟩ := List.nodup_cons.1 h
      rcases List.mem_cons.1 hd with rfl | hd'
      · rcases List.mem_cons.1 he with rfl | he'
        · rfl
        · exact absurd (List.mem_map.2 ⟨e, he', hid.symm⟩) ha
      · rcases List.mem_cons.1 he with rfl | he'
        · exact absurd (List.mem_map.2 ⟨d, hd', hid⟩) ha
        · exact ih hmore hd' he'

theorem find?_eq_some_of_mem {ds : List Document} (h : (ds.map (·.id)).Nodup) {d : Document}
    (hd : d ∈ ds) : ds.find? (·.id = d.id) = some d := by
  cases hfind : ds.find? (·.id = d.id) with
  | none => simpa using List.find?_eq_none.1 hfind d hd
  | some e =>
      have heid : e.id = d.id := by simpa using List.find?_some hfind
      rw [eq_of_id h (List.mem_of_find?_eq_some hfind) hd heid]

end Store

/-! ### The first half -/

namespace Progress

/-- The store with every document changed by one patch. -/
def storeAfter (r : Progress) (p : PendingPatch) : Store :=
  { r.store with stored := r.store.stored.map (Document.changedBy p) }

private theorem storeAfter_of_kept {r : Progress} {p : PendingPatch}
    (h : p.newId = none → p.target ∉ r.store.ids) : r.storeAfter p = r.store := by
  have hsame : r.store.stored.map (Document.changedBy p) = r.store.stored := by
    refine (List.map_congr_left fun d hd => ?_).trans (List.map_id _)
    exact changedBy_of_ne fun hid ht => h hid (ht ▸ List.mem_map_of_mem hd)
  rw [storeAfter, hsame]

/-- A settled patch without a new id has changed its target; one that does not fit changes it to
what it was. -/
theorem Settles.changes {r t : Progress} {p : PendingPatch} {error : Option ResolveError}
    (hp : r.Settles p error t) (hid : p.newId = none) (hids : r.store.ids.Nodup) :
    ∃ base ∈ r.store.stored, base.id = p.target ∧ error = p.fault? base.arch ∧
      t.store = r.storeAfter p := by
  have htarget : ∀ {base d : Document}, r.store.get? p.target = some base → d ∈ r.store.stored →
      d.id = p.target → d = base := fun hbase hd ht =>
    Store.eq_of_id hids hd (Store.get?_eq_some hbase).1 (ht.trans (Store.get?_eq_some hbase).2.symm)
  cases hp with
  | @changed base arch _ hbase harch =>
      obtain ⟨tree, happlied, rfl⟩ := map_eq_ok_iff.1 harch
      obtain ⟨hmem, hbid⟩ := Store.get?_eq_some hbase
      refine ⟨base, hmem, hbid, by simp [PendingPatch.fault?, happlied], ?_⟩
      simp only [storeAfter, Store.setArch, Store.mk.injEq, and_true]
      refine List.map_congr_left fun d hd => ?_
      by_cases ht : p.target = d.id
      · rw [changedBy_of_eq hid ht, if_pos ht.symm, htarget hbase hd ht.symm]
        simp [PendingPatch.change, happlied]
      · rw [changedBy_of_ne fun _ => ht, if_neg (Ne.symm ht)]
  | @unfit base source _ hbase harch =>
      obtain ⟨hmem, hbid⟩ := Store.get?_eq_some hbase
      have happlied : applyPatches base.arch p.specs = .error source := map_eq_error_iff.1 harch
      refine ⟨base, hmem, hbid, by simp [PendingPatch.fault?, happlied, hid], ?_⟩
      have hsame : r.store.stored.map (Document.changedBy p) = r.store.stored := by
        refine (List.map_congr_left fun d hd => ?_).trans (List.map_id _)
        by_cases ht : p.target = d.id
        · rw [changedBy_of_eq hid ht, htarget hbase hd ht.symm]
          simp [PendingPatch.change, happlied]
        · exact changedBy_of_ne fun _ => ht
      rw [storeAfter, hsame]
      rfl
  | made hid' | released hid' | collided hid' => simp [hid] at hid'

/-- What the first half does about one patch: it stays in the queue, or its target is changed. -/
theorem applyInPlace_cons (r : Progress) (p : PendingPatch) (more : List PendingPatch)
    (h : r.store.ids.Nodup) :
    ∃ t : Progress, t.store = r.storeAfter p ∧ r.applyInPlace (p :: more) =
      ((if p.newId.isSome || !r.store.contains p.target then [p] else []) ++
        (t.applyInPlace more).1, (t.applyInPlace more).2) := by
  rcases r.applyInPlace_cons_cases p more with ⟨hstay, heq⟩ | ⟨error, t, hp, hid, heq⟩
  · have hkept : (p.newId.isSome || !r.store.contains p.target) = true := by
      cases hid : p.newId with
      | some newId => rfl
      | none => simp [Store.contains, hstay hid]
    refine ⟨r, (storeAfter_of_kept fun hid => ?_).symm, by rw [heq, if_pos hkept]; rfl⟩
    rw [← Store.contains_iff]
    simp [Store.contains, hstay hid]
  · obtain ⟨base, hmem, hbid, _, hstore⟩ := hp.changes hid h
    have hcontains : r.store.contains p.target = true :=
      Store.contains_iff.2 (hbid ▸ List.mem_map_of_mem hmem)
    exact ⟨t, hstore, by simp [heq, hid, hcontains]⟩

/-- The first half of a pass applies every patch to its target, if that is stored, and leaves all
others in the queue. -/
theorem applyInPlace_eq (r : Progress) (pending : List PendingPatch) (h : r.store.ids.Nodup) :
    (r.applyInPlace pending).1 =
        pending.filter (fun p => p.newId.isSome || !r.store.contains p.target) ∧
      (r.applyInPlace pending).2.store =
        { r.store with stored := r.store.stored.map (Document.withPatches pending) } := by
  induction pending generalizing r with
  | nil => simp [applyInPlace, withPatches_nil]
  | cons p more ih =>
      obtain ⟨t, hstore, hcons⟩ := r.applyInPlace_cons p more h
      have hids : t.store.ids = r.store.ids := by
        rw [hstore]
        exact ids_withPatches [p] r.store.stored
      have hcontains : ∀ id, t.store.contains id = r.store.contains id := by
        intro id
        rw [Bool.eq_iff_iff, Store.contains_iff, Store.contains_iff, hids]
      obtain ⟨hqueue, hrest⟩ := ih t (hids ▸ h)
      rw [hcons]
      constructor
      · rw [hqueue, List.filter_cons]
        simp only [hcontains]
        split <;> rfl
      · rw [hrest, hstore]
        simp only [storeAfter, List.map_map, Store.mk.injEq, and_true]
        exact List.map_congr_left fun d _ => (withPatches_cons p more d).symm

/-! ### The second half -/

/-- Documents added in this half are no targets, so a target is looked up among the documents that
were there before. -/
private theorem target_eq {r : Progress} {fresh : List DocumentId} {bases new : List Document}
    (hstored : r.store.stored = bases ++ new) (hfresh : ∀ id, id ∈ fresh ↔ id ∈ new.map (·.id))
    (hids : r.store.ids.Nodup) (id : DocumentId) :
    (if fresh.contains id then none else r.store.get? id) = bases.find? (·.id = id) := by
  have hget : r.store.get? id = (bases.find? (·.id = id)).or (new.find? (·.id = id)) := by
    rw [Store.get?, hstored, List.find?_append]
  cases hmem : fresh.contains id with
  | true =>
      have hnew : id ∈ new.map (·.id) := (hfresh id).1 (by simpa using hmem)
      rw [Store.ids, hstored, List.map_append] at hids
      have hbases : id ∉ bases.map (·.id) :=
        fun hb => (List.nodup_append.1 hids).2.2 id hb id hnew rfl
      symm
      rw [if_pos rfl, List.find?_eq_none]
      intro d hd
      simpa using fun heq : d.id = id => hbases (heq ▸ List.mem_map_of_mem hd)
  | false =>
      have hnew : new.find? (·.id = id) = none := by
        rw [List.find?_eq_none]
        intro d hd
        have hout : id ∉ fresh := by simpa using hmem
        simpa using fun heq : d.id = id => hout ((hfresh id).2 (heq ▸ List.mem_map_of_mem hd))
      rw [if_neg Bool.false_ne_true, hget, hnew, Option.or_none]

/-- A settled patch with a new id has added the document that it makes of its target, if it makes
one. -/
theorem Settles.makes {r t : Progress} {p : PendingPatch} {error : Option ResolveError}
    {bases : List Document} (hp : r.Settles p error t) (hid : p.newId ≠ none)
    (hfree : ∀ id ∈ p.newId, id ∉ r.store.ids)
    (htarget : r.store.get? p.target = bases.find? (·.id = p.target)) :
    ∃ (base : Document) (made : List Document), bases.find? (·.id = p.target) = some base ∧
      error = p.fault? base.arch ∧ t.store.stored = r.store.stored ++ made ∧
      made.map Document.unnumbered = [p].filterMap (derivedOn? bases) ∧
      made.map (·.id) = if error.isNone then p.newId.toList else [] := by
  cases hp with
  | changed hid' | unfit hid' => exact absurd hid' hid
  | @made newId base arch hid' hbase harch hnew =>
      rw [htarget] at hbase
      obtain ⟨tree, happlied, rfl⟩ := map_eq_ok_iff.1 harch
      refine ⟨base, [{ derived p newId base tree.plain with sequence := r.store.counter + 1 }],
        hbase, by simp [PendingPatch.fault?, happlied], rfl, ?_, by simp [derived, hid']⟩
      simp [derivedOn?, hid', hbase, harch, Document.unnumbered, derived]
  | @released newId base source hid' hbase harch =>
      rw [htarget] at hbase
      have happlied : applyPatches base.arch p.specs = .error source := map_eq_error_iff.1 harch
      exact ⟨base, [], hbase, by simp [PendingPatch.fault?, happlied, hid'],
        by simp [Store.release, fail], by simp [derivedOn?, hid', hbase, harch], rfl⟩
  | collided hid' _ _ htaken => exact absurd (Store.contains_iff.1 htaken) (hfree _ hid')

/-- What the second half does about one patch: it stays in the queue, or it is taken out and adds
the document that it makes, if it makes one. -/
theorem derive_cons {r : Progress} {fresh : List DocumentId} {p : PendingPatch}
    {bases new : List Document} (more : List PendingPatch)
    (hstored : r.store.stored = bases ++ new) (hfresh : ∀ id, id ∈ fresh ↔ id ∈ new.map (·.id))
    (hids : r.store.ids.Nodup) (hfree : ∀ id ∈ p.newId, id ∉ r.store.ids) :
    ∃ (t : Progress) (now : List DocumentId) (made : List Document),
      t.store.stored = r.store.stored ++ made ∧
      made.map Document.unnumbered = [p].filterMap (derivedOn? bases) ∧
      (∀ id, id ∈ now ↔ id ∈ (new ++ made).map (·.id)) ∧
      r.derive fresh (p :: more) =
        ([p].filter (fun p => p.newId.isNone || (bases.find? (·.id = p.target)).isNone) ++
          (t.derive now more).1, (t.derive now more).2) := by
  have htarget := target_eq hstored hfresh hids p.target
  rcases r.derive_cons_cases fresh p more with ⟨hstay, heq⟩ | ⟨error, t, hp, hid, hold, heq⟩
  · rw [htarget] at hstay
    have hkept : (p.newId.isNone || (bases.find? (·.id = p.target)).isNone) = true := by
      simpa using hstay
    refine ⟨r, fresh, [], by simp, ?_, by simpa using hfresh, ?_⟩
    · rcases hstay with hid | hbase <;> simp [derivedOn?, *]
    · rw [heq, List.filter_cons, if_pos hkept]
      rfl
  · rw [hold, if_neg Bool.false_ne_true] at htarget
    obtain ⟨base, made, hbase, _, hadded, hmade, hnew⟩ := hp.makes hid hfree htarget
    refine ⟨t, if error.isNone then p.newId.toList ++ fresh else fresh, made, hadded, hmade,
      fun id => ?_, ?_⟩
    · rw [List.map_append, List.mem_append, ← hfresh, hnew]
      split <;> simp [or_comm]
    · have hgone : (p.newId.isNone || (bases.find? (·.id = p.target)).isNone) = false := by
        simpa [hbase] using Option.isSome_iff_ne_none.2 hid
      simp only [heq, List.filter_cons, hgone, Bool.false_eq_true, if_false, List.filter_nil,
        List.nil_append]

/-- The ids of the documents that queued patches make are among the announced ones. -/
theorem ids_derivedOn_sublist (bases : List Document) (pending : List PendingPatch) :
    ((pending.filterMap (derivedOn? bases)).map (·.id)).Sublist (announcedBy pending) := by
  induction pending with
  | nil => exact List.Sublist.refl _
  | cons p more ih =>
      cases hid : p.newId with
      | none =>
          have hmade : derivedOn? bases p = none := by simp [derivedOn?, hid]
          simpa [announcedBy, hid, hmade] using ih
      | some newId =>
          cases hmade : derivedOn? bases p with
          | none => simpa [announcedBy, hid, hmade] using ih.cons newId
          | some d =>
              obtain ⟨_, _, _, hid', _, _, rfl⟩ := derivedOn?_eq_some.1 hmade
              have hd : newId = _ := Option.some.inj (hid.symm.trans hid')
              simpa [announcedBy, hid, hmade, Progress.derived, hd] using ih.cons_cons newId

/-- Whatever numbers they get, the documents made of queued patches have announced ids. -/
theorem ids_made_sublist {bases made : List Document} {pending : List PendingPatch}
    (h : made.map Document.unnumbered = pending.filterMap (derivedOn? bases)) :
    (made.map (·.id)).Sublist (announcedBy pending) := by
  have hids : made.map (·.id) = (made.map Document.unnumbered).map (·.id) := by
    rw [List.map_map]
    exact List.map_congr_left fun _ _ => rfl
  rw [hids, h]
  exact ids_derivedOn_sublist bases pending

/-- The second half of a pass adds the documents that patches make of the documents stored before,
and leaves in the queue what has no new id or no target among them. -/
theorem derive_eq (r : Progress) (fresh : List DocumentId) (bases new : List Document)
    (pending : List PendingPatch) (hstored : r.store.stored = bases ++ new)
    (hfresh : ∀ id, id ∈ fresh ↔ id ∈ new.map (·.id)) (hids : r.store.ids.Nodup)
    (hannounced : (announcedBy pending).Nodup)
    (hfree : ∀ id ∈ announcedBy pending, id ∉ r.store.ids) :
    (r.derive fresh pending).1 = pending.filter
        (fun p => p.newId.isNone || (bases.find? (·.id = p.target)).isNone) ∧
      ∃ made : List Document,
        (r.derive fresh pending).2.store.stored = r.store.stored ++ made ∧
        made.map Document.unnumbered = pending.filterMap (derivedOn? bases) := by
  induction pending generalizing r fresh new with
  | nil => exact ⟨by simp [derive], [], by simp [derive], by simp⟩
  | cons p more ih =>
      have hsplit : announcedBy (p :: more) = announcedBy [p] ++ announcedBy more :=
        announcedBy_append [p] more
      rw [hsplit] at hannounced hfree
      obtain ⟨hone, hlaterNodup, hdisjoint⟩ := List.nodup_append.1 hannounced
      have hown : ∀ id ∈ p.newId, id ∉ r.store.ids := by
        intro id hid
        have hannouncedBy : id ∈ announcedBy [p] :=
          mem_announcedBy.2 ⟨p, List.mem_singleton_self p, hid⟩
        exact hfree id (List.mem_append_left _ hannouncedBy)
      obtain ⟨t, now, made, htstored, hmade, hnow, hcons⟩ :=
        derive_cons more hstored hfresh hids hown
      -- the ids of what was added come from `p`, so they are free and not announced again
      have hsub : (made.map (·.id)).Sublist (announcedBy [p]) := ids_made_sublist hmade
      have htids : t.store.ids = r.store.ids ++ made.map (·.id) := by
        rw [Store.ids, htstored, List.map_append, Store.ids]
      have htnodup : t.store.ids.Nodup := by
        rw [htids]
        refine List.nodup_append.2 ⟨hids, hone.sublist hsub, ?_⟩
        intro a ha b hb hab
        exact hfree b (List.mem_append_left _ (hsub.subset hb)) (hab ▸ ha)
      have htfree : ∀ id ∈ announcedBy more, id ∉ t.store.ids := by
        intro id hid
        rw [htids, List.mem_append]
        rintro (hold | hnew)
        · exact hfree id (List.mem_append_right _ hid) hold
        · exact hdisjoint id (hsub.subset hnew) id hid rfl
      have htstored' : t.store.stored = bases ++ (new ++ made) := by
        rw [htstored, hstored, List.append_assoc]
      obtain ⟨hqueue, later, hlater, hunnumbered⟩ :=
        ih t now (new ++ made) htstored' hnow htnodup hlaterNodup htfree
      rw [hcons]
      refine ⟨?_, made ++ later, ?_, ?_⟩
      · rw [hqueue, ← List.filter_append]
        rfl
      · rw [hlater, htstored, List.append_assoc]
      · rw [List.map_append, hmade, hunnumbered, ← List.filterMap_append]
        rfl

/-! ### A whole pass -/

/-- A document is found by its id exactly when its id is among those of the documents. -/
private theorem isNone_find?_eq (s : Store) {bases : List Document}
    (h : bases.map (·.id) = s.ids) (id : DocumentId) :
    (bases.find? (·.id = id)).isNone = !s.contains id := by
  rw [Bool.eq_iff_iff, Bool.not_eq_true', Bool.eq_false_iff, ne_eq, Store.contains_iff, ← h,
    Option.isNone_iff_eq_none, List.find?_eq_none]
  simp

/-- **A pass** applies the queued patches to all stored documents, adds what the patches with a new
id make of the results, and takes out of the queue whatever is aimed at a stored document. -/
theorem pass_eq {r : Progress} {pending : List PendingPatch} (hids : r.store.ids.Nodup)
    (hannounced : (announcedBy pending).Nodup)
    (hfree : ∀ id ∈ announcedBy pending, id ∉ r.store.ids) :
    (r.pass pending).1 = pending.filter (fun p => !r.store.contains p.target) ∧
      ∃ made : List Document,
        (r.pass pending).2.store.stored =
          r.store.stored.map (Document.withPatches pending) ++ made ∧
        made.map Document.unnumbered =
          pending.filterMap (derivedOn? (r.store.stored.map (Document.withPatches pending))) := by
  obtain ⟨hqueue, hstore⟩ := r.applyInPlace_eq pending hids
  have hsame : (r.applyInPlace pending).2.store.ids = r.store.ids := by
    rw [hstore]
    exact ids_withPatches pending r.store.stored
  have hsub : (announcedBy (r.applyInPlace pending).1).Sublist (announcedBy pending) := by
    rw [hqueue]
    exact List.filter_sublist.filterMap _
  obtain ⟨hrest, made, hstored, hmade⟩ := derive_eq (r.applyInPlace pending).2 []
    (r.store.stored.map (Document.withPatches pending)) [] (r.applyInPlace pending).1
    (by simp [hstore]) (by simp) (hsame ▸ hids)
    (hannounced.sublist hsub) (by
      intro id hid
      rw [hsame]
      exact hfree id (hsub.subset hid))
  have hpass : r.pass pending =
      (r.applyInPlace pending).2.derive [] (r.applyInPlace pending).1 := rfl
  rw [hpass]
  refine ⟨?_, made, ?_, ?_⟩
  · rw [hrest, hqueue, List.filter_filter]
    refine List.filter_congr fun p _ => ?_
    rw [isNone_find?_eq r.store (ids_withPatches pending r.store.stored)]
    cases p.newId <;> cases r.store.contains p.target <;> rfl
  · rw [hstored, hstore]
  · rw [hmade, hqueue, List.filterMap_filter]
    refine List.filterMap_congr fun p _ => ?_
    -- what the first half has taken out has no new id, so it makes no document
    cases hid : p.newId <;> simp [derivedOn?, hid]

end Progress

end ViewCompiler
