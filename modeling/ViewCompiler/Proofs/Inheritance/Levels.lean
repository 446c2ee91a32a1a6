/-
**What resolution computes.**

Resolution discovers the dependencies between documents pass by pass.  What it arrives at can be
said without passes: the documents that are stored have level 0, and a patch with a new id makes a
document of level `k + 1` out of a target of level `k`, starting from the target's arch with all
patches on it applied.  A bound of `M` passes cuts this off: documents up to level `M` are made,
those of level `M` itself are left as they were made, and the patches aimed at them stay queued.

The proof ties the number of passes to the level.  After `k` passes the store holds the documents
up to level `k`, those below level `k` with all patches applied; the queue holds the patches whose
target has no level below `k`.  That a patch meets its target exactly once, in the pass after the
one that made it, comes from the level of a document being unique, and this from ids being unique.

Main definitions:

* `ViewCompiler.Store.queue` — the queue in the order of consideration;
* `ViewCompiler.Store.Level` — the documents of each level, as they are made;
* `ViewCompiler.Store.finalForm` — a document as resolution leaves it;
* `ViewCompiler.Store.ResolvesTo` — what a store resolves to;
* `ViewCompiler.Store.SettledAt` — the invariant of the passes.

Main results:

* `ViewCompiler.Store.Consistent.level_unique` — a document has one level;
* `ViewCompiler.Store.SettledAt.pass`, `ViewCompiler.Store.SettledAt.stop` — one pass, and an end
  before the bound;
* `ViewCompiler.Store.resolve_resolvesTo` — **resolution computes the documents level by level**.
-/

import ViewCompiler.Proofs.Inheritance.Phases

set_option relaxedAutoImplicit false
set_option autoImplicit false

namespace ViewCompiler

namespace Store

/-- The queued patches in the order of consideration: by priority, then in the order of loading. -/
def queue (s : Store) : List PendingPatch :=
  s.pending.mergeSort PendingPatch.le

theorem mem_queue {s : Store} {p : PendingPatch} : p ∈ s.queue ↔ p ∈ s.pending :=
  List.mem_mergeSort

/-- The documents of each level, as they are made.  A document that is stored has level 0.  A
patch with a new id makes a document of the next level out of its target: it starts from the arch
of the target with all patches on it applied, takes owner and priority from the patch or else from
the target, and its kind from the target. -/
inductive Level (s : Store) : Nat → Document → Prop
  | stored {d : Document} (h : d ∈ s.stored) : Level s 0 d
  | derived {k : Nat} {base : Document} {p : PendingPatch} {id : DocumentId} {t : Tree}
      (hbase : Level s k base) (hp : p ∈ s.pending) (hid : p.newId = some id)
      (htarget : p.target = base.id)
      (happlied : applyPatches (fullArch s.queue base) p.specs = .ok t) :
      Level s (k + 1)
        { id := id
          owner := p.owner.getD base.owner
          kind := base.kind
          priority := p.priority.getD base.priority
          base := some base.id
          arch := t.plain }

/-- A document of level `k` as resolution with the given bound leaves it: with all patches on it
applied below the bound, as it was made at the bound. -/
def finalForm (s : Store) (bound k : Nat) (d : Document) : Document :=
  if k < bound then d.withPatches s.queue else d

/-- What a store resolves to within a bound.  Documents are compared without their place in the
order of loading. -/
structure ResolvesTo (s : Store) (bound : Nat) (t : Store) : Prop where
  /-- A document has one level. -/
  level_unique : ∀ {j k : Nat} {d e : Document}, s.Level j d → s.Level k e → d.id = e.id →
    j = k ∧ d = e
  /-- The documents are those up to the bound, in their final form, and no others. -/
  documents : ∀ e : Document, (∃ d ∈ t.stored, d.unnumbered = e.unnumbered) ↔
    ∃ k d, k ≤ bound ∧ s.Level k d ∧ e.unnumbered = (s.finalForm bound k d).unnumbered
  /-- No two of them share an id. -/
  ids_nodup : t.ids.Nodup
  /-- A patch with a new id that applies to a target below the bound makes exactly one document. -/
  derives : ∀ {k : Nat} {base : Document} {p : PendingPatch} {id : DocumentId} {tree : Tree},
    k < bound → s.Level k base → p ∈ s.pending → p.newId = some id → p.target = base.id →
    applyPatches (fullArch s.queue base) p.specs = .ok tree → ∃! e, e ∈ t.stored ∧ e.id = id
  /-- The patches whose target has no level below the bound stay queued, and no others. -/
  pending : ∀ p, p ∈ t.pending ↔
    p ∈ s.pending ∧ ∀ k < bound, ∀ d, s.Level k d → d.id ≠ p.target

/-! ### Levels -/

theorem level_zero {s : Store} {d : Document} : s.Level 0 d ↔ d ∈ s.stored :=
  ⟨fun h => by cases h; assumption, .stored⟩

/-- A document is stored, or its id is announced by the patch that makes it. -/
theorem Level.announced {s : Store} {k : Nat} {d : Document} (h : s.Level (k + 1) d) :
    d.id ∈ announcedBy s.pending := by
  cases h with
  | derived _ hp hid _ _ => exact mem_announcedBy.2 ⟨_, hp, hid⟩

/-- **A document has one level**, and is the only one with its id. -/
theorem Consistent.level_unique {s : Store} (hs : s.Consistent) {j k : Nat} {d e : Document}
    (hd : s.Level j d) (he : s.Level k e) (hid : d.id = e.id) : j = k ∧ d = e := by
  induction hd generalizing k e with
  | @stored d h =>
      cases he with
      | stored h' => exact ⟨rfl, eq_of_id hs.ids_nodup h h' hid⟩
      | derived hbase hp hnew htarget happlied =>
          have hannounced := Level.announced (.derived hbase hp hnew htarget happlied)
          exact absurd (hid ▸ List.mem_map_of_mem h) (hs.free _ hannounced)
  | @derived j base p id t hbase hp hnew htarget happlied ih =>
      cases he with
      | stored h' =>
          have hannounced := Level.announced (.derived hbase hp hnew htarget happlied)
          exact absurd (hid.symm ▸ List.mem_map_of_mem h') (hs.free _ hannounced)
      | @derived k base' p' id' t' hbase' hp' hnew' htarget' happlied' =>
          -- the same id is announced by the same patch, which has one target
          obtain rfl : id = id' := hid
          obtain rfl := eq_of_announced hs.announced_nodup hp hp' hnew hnew'
          obtain ⟨rfl, rfl⟩ := ih hbase' (htarget.symm.trans htarget')
          obtain rfl := Except.ok.inj (happlied.symm.trans happlied')
          exact ⟨rfl, rfl⟩

/-! ### The invariant of the passes -/

/-- No document of a level below `k` is the target of the patch. -/
def Waits (s : Store) (k : Nat) (p : PendingPatch) : Prop :=
  ∀ j < k, ∀ d, s.Level j d → d.id ≠ p.target

theorem waits_zero (s : Store) (p : PendingPatch) : s.Waits 0 p :=
  fun _ hj => absurd hj (Nat.not_lt_zero _)

theorem waits_succ {s : Store} {k : Nat} {p : PendingPatch} :
    s.Waits (k + 1) p ↔ s.Waits k p ∧ ∀ d, s.Level k d → d.id ≠ p.target := by
  constructor
  · intro h
    exact ⟨fun j hj => h j (by omega), h k (by omega)⟩
  · rintro ⟨hbelow, hk⟩ j hj
    rcases Nat.lt_succ_iff_lt_or_eq.1 hj with hlt | rfl
    · exact hbelow j hlt
    · exact hk

/-- A patch waits for its target until the level of that. -/
theorem Consistent.waits_of_level {s : Store} (hs : s.Consistent) {k : Nat} {base : Document}
    {p : PendingPatch} (hbase : s.Level k base) (htarget : p.target = base.id) : s.Waits k p := by
  intro j hj d hd hid
  have := (hs.level_unique hd hbase (hid.trans htarget)).1
  omega

open scoped Classical in
/-- The invariant of the passes: what the store and the queue are after `k` of them. -/
structure SettledAt (s : Store) (k : Nat) (pending : List PendingPatch) (t : Store) : Prop where
  ids_nodup : t.ids.Nodup
  documents : ∀ e : Document, (∃ d ∈ t.stored, d.unnumbered = e.unnumbered) ↔
    ∃ j d, j ≤ k ∧ s.Level j d ∧ e.unnumbered = (s.finalForm k j d).unnumbered
  pending_eq : pending = s.queue.filter (fun p => s.Waits k p)

theorem id_finalForm (s : Store) (bound k : Nat) (d : Document) :
    (s.finalForm bound k d).id = d.id := by
  unfold finalForm
  split <;> rfl

/-- Equal documents have equal ids, whatever their place in the order of loading. -/
theorem id_eq_of_unnumbered {d e : Document} (h : d.unnumbered = e.unnumbered) : d.id = e.id :=
  (congrArg Document.id h : d.unnumbered.id = e.unnumbered.id)

/-- Before the first pass. -/
theorem settledAt_zero {s : Store} (hs : s.Consistent) (pending : List PendingPatch) :
    s.SettledAt 0 s.queue { s with pending := pending } where
  ids_nodup := hs.ids_nodup
  documents e := by
    constructor
    · rintro ⟨d, hd, heq⟩
      exact ⟨0, d, Nat.le_refl 0, .stored hd, heq.symm⟩
    · rintro ⟨j, d, hj, hd, heq⟩
      obtain rfl : j = 0 := by omega
      exact ⟨d, level_zero (s := s).1 hd, heq.symm⟩
  pending_eq := by
    symm
    rw [List.filter_eq_self]
    intro p _
    simpa using waits_zero s p

namespace SettledAt

variable {s t : Store} {k : Nat} {pending : List PendingPatch}

theorem mem_pending (h : s.SettledAt k pending t) {p : PendingPatch} :
    p ∈ pending ↔ p ∈ s.pending ∧ s.Waits k p := by
  simp [h.pending_eq, mem_queue]

/-- The ids in use are those of the documents up to level `k`. -/
theorem mem_ids (h : s.SettledAt k pending t) {id : DocumentId} :
    id ∈ t.ids ↔ ∃ j d, j ≤ k ∧ s.Level j d ∧ d.id = id := by
  constructor
  · intro hid
    obtain ⟨e, he, rfl⟩ := List.mem_map.1 hid
    obtain ⟨j, d, hj, hd, heq⟩ := (h.documents e).1 ⟨e, he, rfl⟩
    exact ⟨j, d, hj, hd, by rw [id_eq_of_unnumbered heq, id_finalForm]⟩
  · rintro ⟨j, d, hj, hd, rfl⟩
    obtain ⟨e, he, heq⟩ := (h.documents (s.finalForm k j d)).2 ⟨j, d, hj, hd, rfl⟩
    rw [← id_finalForm s k j d, ← id_eq_of_unnumbered heq]
    exact List.mem_map_of_mem he

theorem announced_sublist (h : s.SettledAt k pending t) :
    (announcedBy pending).Sublist (announcedBy s.queue) := by
  rw [h.pending_eq]
  exact List.filter_sublist.filterMap _

theorem announced_nodup (hs : s.Consistent) (h : s.SettledAt k pending t) :
    (announcedBy pending).Nodup := by
  refine List.Nodup.sublist h.announced_sublist ?_
  exact ((List.mergeSort_perm s.pending PendingPatch.le).filterMap _).nodup_iff.2 hs.announced_nodup

/-- What a queued patch announces is not stored yet: the only patch that can make a document with
that id is itself, and it still waits. -/
theorem free (hs : s.Consistent) (h : s.SettledAt k pending t) :
    ∀ id ∈ announcedBy pending, id ∉ t.ids := by
  intro id hid hmem
  obtain ⟨p, hp, hnew⟩ := mem_announcedBy.1 hid
  obtain ⟨hps, hwaits⟩ := h.mem_pending.1 hp
  obtain ⟨j, d, hj, hd, rfl⟩ := h.mem_ids.1 hmem
  cases hd with
  | stored hd => exact hs.free _ (mem_announcedBy.2 ⟨p, hps, hnew⟩) (List.mem_map_of_mem hd)
  | @derived j base q _ _ hbase hq hqnew htarget _ =>
      obtain rfl := eq_of_announced hs.announced_nodup hps hq hnew hqnew
      exact hwaits j (by omega) base hbase htarget.symm

/-- The patches that are left for a document of level `k` are all that are aimed at it. -/
theorem withPatches_of_level (hs : s.Consistent) (h : s.SettledAt k pending t) {d : Document}
    (hd : s.Level k d) : d.withPatches pending = d.withPatches s.queue := by
  have hsame : patchesOn pending d.id = patchesOn s.queue d.id := by
    rw [patchesOn, patchesOn, h.pending_eq, List.filter_filter]
    refine List.filter_congr fun p _ => ?_
    by_cases ht : p.target = d.id
    · simp [ht, hs.waits_of_level hd ht]
    · simp [ht]
  simp only [Document.withPatches, fullArch, hsame]

/-- A document that no patch of the queue is aimed at stays as it is. -/
theorem withPatches_of_none {d : Document} (h : ∀ p ∈ pending, d.id ≠ p.target) :
    d.withPatches pending = d := by
  have hnone : patchesOn pending d.id = [] := by
    rw [patchesOn, List.filter_eq_nil_iff]
    intro p hp
    simpa using fun _ => Ne.symm (h p hp)
  simp [Document.withPatches, fullArch, hnone]

/-- In the pass after `k` others, every document reaches its next form. -/
theorem withPatches_finalForm (hs : s.Consistent) (h : s.SettledAt k pending t) {j : Nat}
    (hj : j ≤ k) {d : Document} (hd : s.Level j d) :
    (s.finalForm k j d).withPatches pending = s.finalForm (k + 1) j d := by
  rcases Nat.lt_or_eq_of_le hj with hlt | rfl
  · have hnone : ∀ p ∈ pending, (s.finalForm k j d).id ≠ p.target := by
      intro p hp
      rw [id_finalForm]
      exact (h.mem_pending.1 hp).2 j hlt d hd
    rw [withPatches_of_none hnone]
    simp [finalForm, hlt, Nat.lt_succ_of_lt hlt]
  · simp [finalForm, h.withPatches_of_level hs hd]

/-- The stored documents once the first half of the pass after `k` others is through. -/
theorem documents_withPatches (hs : s.Consistent) (h : s.SettledAt k pending t) (e : Document) :
    (∃ d ∈ t.stored.map (Document.withPatches pending), d.unnumbered = e.unnumbered) ↔
      ∃ j d, j ≤ k ∧ s.Level j d ∧ e.unnumbered = (s.finalForm (k + 1) j d).unnumbered := by
  -- patches do not see the number of a document
  have hcongr : ∀ {d d' : Document}, d.unnumbered = d'.unnumbered →
      (d.withPatches pending).unnumbered = (d'.withPatches pending).unnumbered :=
    fun heq => congrArg (Document.withPatches pending) heq
  constructor
  · rintro ⟨_, hmem, heq⟩
    obtain ⟨d, hd, rfl⟩ := List.mem_map.1 hmem
    obtain ⟨j, d', hj, hlevel, hd'⟩ := (h.documents d).1 ⟨d, hd, rfl⟩
    refine ⟨j, d', hj, hlevel, ?_⟩
    rw [← heq, hcongr hd', h.withPatches_finalForm hs hj hlevel]
  · rintro ⟨j, d', hj, hlevel, heq⟩
    obtain ⟨d, hd, hd'⟩ := (h.documents (s.finalForm k j d')).2 ⟨j, d', hj, hlevel, rfl⟩
    refine ⟨_, List.mem_map_of_mem hd, ?_⟩
    rw [heq, hcongr hd', h.withPatches_finalForm hs hj hlevel]

/-- What the patches with a new id make in the pass after `k` others are the documents of level
`k + 1`. -/
theorem mem_derivedOn (hs : s.Consistent) (h : s.SettledAt k pending t) {e : Document} :
    e ∈ pending.filterMap (derivedOn? (t.stored.map (Document.withPatches pending))) ↔
      s.Level (k + 1) e := by
  constructor
  · intro he
    obtain ⟨p, hp, hmade⟩ := List.mem_filterMap.1 he
    obtain ⟨hps, hwaits⟩ := h.mem_pending.1 hp
    obtain ⟨id, base, tree, hid, hfind, happlied, rfl⟩ := derivedOn?_eq_some.1 hmade
    have hbid : base.id = p.target := by simpa using List.find?_some hfind
    obtain ⟨j, d, hj, hlevel, heq⟩ :=
      (h.documents_withPatches hs base).1 ⟨base, List.mem_of_find?_eq_some hfind, rfl⟩
    have htarget : p.target = d.id := by
      rw [← hbid, id_eq_of_unnumbered heq, id_finalForm]
    -- a patch that still waits has no target below level `k`
    obtain rfl : j = k := by
      rcases Nat.lt_or_eq_of_le hj with hlt | rfl
      · exact absurd htarget.symm (hwaits j hlt d hlevel)
      · rfl
    simp only [finalForm, Nat.lt_succ_self, if_true, Document.unnumbered, Document.withPatches,
      Document.mk.injEq] at heq
    obtain ⟨_, howner, hkind, hpriority, _, harch, _⟩ := heq
    rw [harch] at happlied
    have hderived := Level.derived hlevel hps hid htarget happlied
    simpa only [Progress.derived, howner, hkind, hpriority, htarget] using hderived
  · intro he
    cases he with
    | @derived _ d p id tree hlevel hps hid htarget happlied =>
        obtain ⟨base, hbase, heq⟩ := (h.documents_withPatches hs (s.finalForm (k + 1) k d)).2
          ⟨k, d, Nat.le_refl k, hlevel, rfl⟩
        simp only [finalForm, Nat.lt_succ_self, if_true, Document.unnumbered,
          Document.withPatches, Document.mk.injEq] at heq
        obtain ⟨hbid, howner, hkind, hpriority, _, harch, _⟩ := heq
        have hfind := find?_eq_some_of_mem (by rw [ids_withPatches]; exact h.ids_nodup) hbase
        rw [hbid, ← htarget] at hfind
        rw [← harch] at happlied
        refine List.mem_filterMap.2
          ⟨p, h.mem_pending.2 ⟨hps, hs.waits_of_level hlevel htarget⟩, ?_⟩
        refine derivedOn?_eq_some.2 ⟨id, base, tree, hid, hfind, happlied, ?_⟩
        simp only [Progress.derived, howner, hkind, hpriority, htarget]

/-- The documents up to level `k + 1`: the patched ones, and those made of them. -/
theorem documents_pass (hs : s.Consistent) (h : s.SettledAt k pending t) {made : List Document}
    (hmade : made.map Document.unnumbered =
      pending.filterMap (derivedOn? (t.stored.map (Document.withPatches pending)))) (e : Document) :
    (∃ d ∈ t.stored.map (Document.withPatches pending) ++ made, d.unnumbered = e.unnumbered) ↔
      ∃ j d, j ≤ k + 1 ∧ s.Level j d ∧
        e.unnumbered = (s.finalForm (k + 1) j d).unnumbered := by
  have hnew : (∃ d ∈ made, d.unnumbered = e.unnumbered) ↔ s.Level (k + 1) e.unnumbered := by
    rw [← h.mem_derivedOn hs, ← hmade, List.mem_map]
  have hold := h.documents_withPatches hs e
  constructor
  · rintro ⟨d, hd, heq⟩
    rcases List.mem_append.1 hd with hd | hd
    · obtain ⟨j, d', hj, hlevel, heq'⟩ := hold.1 ⟨d, hd, heq⟩
      exact ⟨j, d', by omega, hlevel, heq'⟩
    · refine ⟨k + 1, e.unnumbered, Nat.le_refl _, hnew.1 ⟨d, hd, heq⟩, ?_⟩
      simp [finalForm, Document.unnumbered]
  · rintro ⟨j, d, hj, hlevel, heq⟩
    rcases Nat.lt_or_eq_of_le hj with hlt | rfl
    · obtain ⟨d', hd', heq'⟩ := hold.2 ⟨j, d, by omega, hlevel, heq⟩
      exact ⟨d', List.mem_append_left _ hd', heq'⟩
    · -- a document that was made has no number, and the bound leaves it as it is
      have hd : d.unnumbered = d := by
        cases hlevel
        rfl
      have he : e.unnumbered = d := by simpa [finalForm, hd] using heq
      obtain ⟨d', hd', heq'⟩ := hnew.2 (he ▸ hlevel)
      exact ⟨d', List.mem_append_right _ hd', heq'⟩

open scoped Classical in
/-- The queue without the patches that have met their target in the pass after `k` others. -/
theorem pending_pass (h : s.SettledAt k pending t) :
    pending.filter (fun p => !t.contains p.target) =
      s.queue.filter (fun p => s.Waits (k + 1) p) := by
  rw [h.pending_eq, List.filter_filter]
  refine List.filter_congr fun p _ => ?_
  have hcontains : t.contains p.target = true ↔
      ∃ j d, j ≤ k ∧ s.Level j d ∧ d.id = p.target := contains_iff.trans h.mem_ids
  rw [Bool.eq_iff_iff, Bool.and_eq_true, Bool.not_eq_true', Bool.eq_false_iff, ne_eq, hcontains]
  simp only [decide_eq_true_eq]
  constructor
  · rintro ⟨hnone, _⟩ j hj d hlevel hid
    exact hnone ⟨j, d, by omega, hlevel, hid⟩
  · intro hwaits
    refine ⟨?_, (waits_succ.1 hwaits).1⟩
    rintro ⟨j, d, hj, hlevel, hid⟩
    exact hwaits j (by omega) d hlevel hid

/-- **One pass**, at a store that `k` passes have settled. -/
theorem pass (hs : s.Consistent) {r : Progress} (h : s.SettledAt k pending r.store) :
    s.SettledAt (k + 1) (r.pass pending).1 (r.pass pending).2.store := by
  obtain ⟨hqueue, made, hstored, hmade⟩ :=
    Progress.pass_eq h.ids_nodup (h.announced_nodup hs) (h.free hs)
  have hsub : (made.map (·.id)).Sublist (announcedBy pending) := Progress.ids_made_sublist hmade
  refine ⟨?_, ?_, ?_⟩
  · -- what is made has announced ids, and these are free
    rw [ids, hstored, List.map_append, ids_withPatches]
    refine List.nodup_append.2 ⟨h.ids_nodup, (h.announced_nodup hs).sublist hsub, ?_⟩
    intro a ha b hb hab
    exact h.free hs b (hsub.subset hb) (hab ▸ ha)
  · rw [hstored]
    exact h.documents_pass hs hmade
  · rw [hqueue]
    exact h.pending_pass

/-- If no patch of the queue is aimed at a document of level `k`, there are no documents of the
next level, and a further pass would change nothing. -/
theorem stop_succ (hs : s.Consistent) (h : s.SettledAt k pending t)
    (hnone : ∀ p ∈ pending, ∀ d, s.Level k d → d.id ≠ p.target) :
    s.SettledAt (k + 1) pending t ∧ ∀ d, ¬ s.Level (k + 1) d := by
  have hempty : ∀ d, ¬ s.Level (k + 1) d := by
    rintro _ (_ | @⟨_, base, p, _, _, hbase, hp, _, htarget, _⟩)
    have hmem := h.mem_pending.2 ⟨hp, hs.waits_of_level hbase htarget⟩
    exact hnone p hmem base hbase htarget.symm
  -- no patch is left for the documents of level `k`, so they have their final form already
  have hfinal : ∀ j d, j ≤ k → s.Level j d → s.finalForm (k + 1) j d = s.finalForm k j d := by
    intro j d hj hd
    rw [← h.withPatches_finalForm hs hj hd]
    refine withPatches_of_none fun p hp => ?_
    rw [id_finalForm]
    rcases Nat.lt_or_eq_of_le hj with hlt | rfl
    · exact (h.mem_pending.1 hp).2 j hlt d hd
    · exact hnone p hp d hd
  refine ⟨⟨h.ids_nodup, fun e => ?_, ?_⟩, hempty⟩
  · rw [h.documents e]
    constructor
    · rintro ⟨j, d, hj, hd, heq⟩
      exact ⟨j, d, by omega, hd, by rw [heq, hfinal j d hj hd]⟩
    · rintro ⟨j, d, hj, hd, heq⟩
      rcases Nat.lt_or_eq_of_le hj with hlt | rfl
      · exact ⟨j, d, by omega, hd, by rw [heq, hfinal j d (by omega) hd]⟩
      · exact absurd hd (hempty d)
  · rw [h.pending_eq]
    refine List.filter_congr fun p hp => ?_
    rw [Bool.eq_iff_iff]
    simp only [decide_eq_true_eq]
    rw [waits_succ]
    exact ⟨fun hw => ⟨hw, hnone p (h.mem_pending.2 ⟨mem_queue.1 hp, hw⟩)⟩, And.left⟩

/-- If no patch of the queue is aimed at a document of level `k`, no number of further passes would
change anything. -/
theorem stop (hs : s.Consistent) (h : s.SettledAt k pending t)
    (hnone : ∀ p ∈ pending, ∀ d, s.Level k d → d.id ≠ p.target) (more : Nat) :
    s.SettledAt (k + more) pending t := by
  induction more generalizing k with
  | zero => exact h
  | succ more ih =>
      obtain ⟨hnext, hempty⟩ := h.stop_succ hs hnone
      rw [← Nat.add_assoc, Nat.add_right_comm]
      exact ih hnext fun _ _ d hd => absurd hd (hempty d)

/-- **All passes** that a bound allows, from a store that `k` passes have settled. -/
theorem passes (hs : s.Consistent) {r : Progress} (h : s.SettledAt k pending r.store)
    (bound : Nat) :
    s.SettledAt (k + bound) (r.passes pending bound).2.1 (r.passes pending bound).2.2.store := by
  induction bound generalizing k pending r with
  | zero => exact h
  | succ bound ih =>
      unfold Progress.passes
      split
      · next hempty =>
          rw [List.isEmpty_iff] at hempty
          subst hempty
          exact h.stop hs (fun p hp => absurd hp List.not_mem_nil) (bound + 1)
      · have hpass := h.pass hs
        have hbound : k + (bound + 1) = k + 1 + bound := by omega
        rw [hbound]
        simp only
        split
        · next hlength =>
            -- a pass that takes nothing out leaves the queue as it was, so it has made nothing
            refine hpass.stop hs (fun p hp d hd => ?_) bound
            have hsame : (r.pass pending).1 = pending := by
              have hsub : (r.pass pending).1.Sublist pending := by
                obtain ⟨hqueue, _⟩ :=
                  Progress.pass_eq h.ids_nodup (h.announced_nodup hs) (h.free hs)
                rw [hqueue]
                exact List.filter_sublist
              exact hsub.eq_of_length hlength
            cases hd with
            | @derived _ base q _ _ hbase hq _ htarget _ =>
                have hmem := h.mem_pending.2 ⟨hq, hs.waits_of_level hbase htarget⟩
                rw [← hsame] at hmem
                exact absurd htarget.symm
                  ((waits_succ.1 (hpass.mem_pending.1 hmem).2).2 base hbase)
        · exact ih hpass

end SettledAt

/-! ### Resolution -/

/-- **Resolution computes the documents level by level**, for every store that loading builds up
and every bound on the passes. -/
theorem resolve_resolvesTo {s : Store} (hs : s.Reachable) (options : ResolverOptions) :
    s.ResolvesTo options.maxPasses (s.resolve options).2 := by
  have hc := hs.consistent
  have h := (settledAt_zero hc []).passes hc (r := { store := { s with pending := [] } })
    options.maxPasses
  rw [Nat.zero_add] at h
  refine ⟨hc.level_unique, h.documents, h.ids_nodup, ?_, fun p => h.mem_pending⟩
  intro k base p id tree hk hbase hp hid htarget happlied
  have hderived := Level.derived hbase hp hid htarget happlied
  obtain ⟨e, he, heq⟩ := (h.documents _).2 ⟨k + 1, _, hk, hderived, rfl⟩
  have heid : e.id = id := by rw [id_eq_of_unnumbered heq, id_finalForm]
  exact ⟨e, ⟨he, heid⟩, fun e' he' => eq_of_id h.ids_nodup he'.1 he (he'.2.trans heid.symm)⟩

/-- A view, a patch that derives a copy from it, a patch on the copy and a patch on the view, loaded
in this order. -/
def family : Store where
  stored := [{ id := "form", owner := "Partner", kind := .form
               arch := .element () "form" [] .nil .nil, sequence := 1 }]
  pending :=
    [{ target := "form", newId := some "copy", sequence := 2
       specs := [⟨.attributeEquals "field" "name" "a", .after, .leaf () .text "b" .nil⟩] },
      { target := "copy", sequence := 3
        specs := [⟨.attributeEquals "field" "name" "a", .replace, .nil⟩] },
      { target := "form", sequence := 4
        specs := [⟨⟨"/form", true, [⟨.child, .named "form", []⟩]⟩, .inside,
          .element () "field" [("name", "a")] .nil .nil⟩] }]
  reserved := ["copy"]
  counter := 4

theorem reachable_family : family.Reachable := by
  have hform : Reachable { family with pending := [], reserved := [], counter := 1 } :=
    .insert (d := { family.stored.head (by simp [family]) with sequence := 0 }) .empty rfl
  have hcopy : Reachable { family with pending := family.pending.take 1, counter := 2 } :=
    .enqueue (p := { family.pending[0] with sequence := 0 }) hform rfl
  have hfail : Reachable { family with pending := family.pending.take 2, counter := 3 } :=
    .enqueue (p := { family.pending[1] with sequence := 0 }) hcopy rfl
  exact .enqueue (p := { family.pending[2] with sequence := 0 }) hfail rfl

/-- One pass makes the copy from the patched form, and leaves the patch on the copy queued. -/
theorem family_resolvesTo :
    family.Reachable ∧ family.ResolvesTo 1 (family.resolve { maxPasses := 1 }).2 ∧
      (family.resolve { maxPasses := 1 }).2.stored.map (fun d => (d.id, d.base, d.arch.size)) =
        [("form", none, 2), ("copy", some "form", 3)] := by
  have hsorted : family.pending.mergeSort PendingPatch.le = family.pending :=
    List.mergeSort_of_pairwise (by decide)
  refine ⟨reachable_family, resolve_resolvesTo reachable_family { maxPasses := 1 }, ?_⟩
  rw [resolve, hsorted]
  decide +kernel

end Store

end ViewCompiler
