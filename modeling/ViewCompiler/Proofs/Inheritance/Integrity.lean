/-
**Stores that operations lead to.**

Documents and patches are taken in, archs are replaced, the queue is resolved, more documents are
taken in, the queue is resolved again.  Whatever the order, a store keeps its books: no id is in
use twice, the reserved ids are those that queued patches announce, and no two things have the
same place in the order of loading.

While the queue is being resolved it is not part of the store, so the invariant is stated of the
store with the queue put back.  It does not depend on the order of the queue, hence a patch that
stays may be thought of as standing behind those that are still to come, and all that is left to
show is that settling one patch keeps it.

Main definitions:

* `ViewCompiler.Store.Attained` — the stores that operations lead to;
* `ViewCompiler.Store.Numbered`, `ViewCompiler.Store.Sound` — the books of a store;
* `ViewCompiler.Store.Integrity` — the books, and what follows for look-up, loading and resolution.

Main results:

* `ViewCompiler.Store.Sound.settles`, `ViewCompiler.Store.Sound.run` — settling one patch, and any
  run of resolution, keep the books;
* `ViewCompiler.Store.Attained.sound`, `ViewCompiler.Store.Attained.integrity` — **operations keep
  the books of a store**.
-/

import ViewCompiler.Proofs.Inheritance.Levels
import ViewCompiler.Proofs.Inheritance.Settlement

set_option relaxedAutoImplicit false
set_option autoImplicit false

namespace ViewCompiler

namespace Store

/-! ### Operations and books -/

/-- The stores that operations lead to, in any order and number.  An operation that fails leaves
the store as it was. -/
inductive Attained : Store → Prop
  | empty : Attained .empty
  | insert {s t : Store} {d : Document} (hs : Attained s) (h : s.insert d = .ok t) : Attained t
  | enqueue {s t : Store} {p : PendingPatch} (hs : Attained s) (h : s.enqueue p = .ok t) :
      Attained t
  | load {ι : Type} {s t : Store} {e : Element ι} {loaded : Loaded} (hs : Attained s)
      (h : s.load e = .ok (loaded, t)) : Attained t
  | setArch {s : Store} (hs : Attained s) (id : DocumentId) (arch : Forest Unit) :
      Attained (s.setArch id arch)
  | resolve {s : Store} (hs : Attained s) (options : ResolverOptions) :
      Attained (s.resolve options).2

/-- The places in the order of loading that documents and queued patches have. -/
def numbers (s : Store) : List Nat :=
  s.stored.map (·.sequence) ++ s.pending.map (·.sequence)

/-- No place in the order of loading is given out twice, and none before its time. -/
structure Numbered (s : Store) : Prop where
  numbers_nodup : s.numbers.Nodup
  numbers_le : ∀ n ∈ s.numbers, n ≤ s.counter

/-- The books of a store. -/
structure Sound (s : Store) : Prop extends Consistent s, Numbered s

/-- The store with a queue put back. -/
def withQueue (s : Store) (queue : List PendingPatch) : Store :=
  { s with pending := queue }

theorem numbers_withQueue (s : Store) (queue : List PendingPatch) :
    (s.withQueue queue).numbers = s.stored.map (·.sequence) ++ queue.map (·.sequence) := rfl

theorem sound_empty : Sound .empty where
  toConsistent := consistent_empty
  toNumbered := ⟨List.nodup_nil, by simp [numbers, empty]⟩

/-! ### Taking in documents and patches -/

/-- Something new takes a place that nothing has. -/
theorem Numbered.next {s t : Store} (hs : s.Numbered) (hcounter : t.counter = s.counter + 1)
    (hnumbers : t.numbers.Perm ((s.counter + 1) :: s.numbers)) : t.Numbered where
  numbers_nodup := by
    rw [hnumbers.nodup_iff, List.nodup_cons]
    refine ⟨fun hmem => ?_, hs.numbers_nodup⟩
    have := hs.numbers_le _ hmem
    omega
  numbers_le n hn := by
    rw [hcounter]
    rcases List.mem_cons.1 (hnumbers.subset hn) with rfl | hn
    · exact Nat.le_refl _
    · exact Nat.le_succ_of_le (hs.numbers_le n hn)

theorem Numbered.add {s : Store} (hs : s.Numbered) (d : Document) : (s.add d).Numbered := by
  refine hs.next rfl ?_
  simp only [numbers, Store.add, List.map_append, List.map_cons, List.map_nil, List.append_assoc,
    List.singleton_append]
  exact List.perm_middle

theorem Sound.insert {s t : Store} {d : Document} (hs : s.Sound) (h : s.insert d = .ok t) :
    t.Sound where
  toConsistent := hs.toConsistent.insert h
  toNumbered := by
    obtain ⟨_, rfl⟩ := insert_eq_ok.1 h
    exact hs.toNumbered.add d

theorem counter_enqueue {s t : Store} {p : PendingPatch} (h : s.enqueue p = .ok t) :
    t.counter = s.counter + 1 := by
  unfold Store.enqueue at h
  split at h
  · obtain rfl := Except.ok.inj h
    rfl
  · split at h
    · cases h
    · obtain rfl := Except.ok.inj h
      rfl

theorem Sound.enqueue {s t : Store} {p : PendingPatch} (hs : s.Sound) (h : s.enqueue p = .ok t) :
    t.Sound where
  toConsistent := hs.toConsistent.enqueue h
  toNumbered := by
    obtain ⟨hstored, hpending, _, _⟩ := enqueue_eq_ok h
    refine hs.toNumbered.next (counter_enqueue h) ?_
    rw [numbers, numbers, hstored, hpending, List.map_append, ← List.append_assoc]
    exact List.perm_append_singleton _ _

/-- A document under an id that nothing claims. -/
theorem Sound.add {s : Store} (hs : s.Sound) {d : Document} (hid : d.id ∉ s.ids)
    (hannounced : d.id ∉ announcedBy s.pending) : (s.add d).Sound := by
  have htaken : s.taken d.id = false := by
    rw [Bool.eq_false_iff, ne_eq, taken, Bool.or_eq_true, contains_iff, List.contains_iff_mem,
      hs.mem_reserved]
    exact not_or.2 ⟨hid, hannounced⟩
  exact hs.insert (insert_eq_ok.2 ⟨htaken, rfl⟩)

/-! ### Replacing an arch -/

theorem ids_setArch (s : Store) (id : DocumentId) (arch : Forest Unit) :
    (s.setArch id arch).ids = s.ids := by
  simp only [ids, Store.setArch, List.map_map]
  refine List.map_congr_left fun d _ => ?_
  simp only [Function.comp_apply]
  split <;> rfl

theorem numbers_setArch (s : Store) (id : DocumentId) (arch : Forest Unit) :
    (s.setArch id arch).numbers = s.numbers := by
  simp only [numbers, Store.setArch, List.map_map]
  refine congrArg (· ++ _) (List.map_congr_left fun d _ => ?_)
  simp only [Function.comp_apply]
  split <;> rfl

theorem Sound.setArch {s : Store} (hs : s.Sound) (id : DocumentId) (arch : Forest Unit) :
    (s.setArch id arch).Sound where
  ids_nodup := by rw [ids_setArch]; exact hs.ids_nodup
  announced_nodup := hs.announced_nodup
  mem_reserved := hs.mem_reserved
  free new hnew := by rw [ids_setArch]; exact hs.free new hnew
  numbers_nodup := by rw [numbers_setArch]; exact hs.numbers_nodup
  numbers_le n hn := hs.numbers_le n (numbers_setArch s id arch ▸ hn)

/-! ### Settling patches -/

/-- The books do not depend on the order of the queue. -/
theorem Sound.perm {s : Store} {queue queue' : List PendingPatch}
    (h : (s.withQueue queue).Sound) (hperm : queue.Perm queue') : (s.withQueue queue').Sound := by
  have hannounced := announcedBy_perm hperm
  have hnumbers : (s.withQueue queue).numbers.Perm (s.withQueue queue').numbers := by
    rw [numbers_withQueue, numbers_withQueue]
    exact (hperm.map _).append_left _
  exact
    { ids_nodup := h.ids_nodup
      announced_nodup := hannounced.nodup_iff.1 h.announced_nodup
      mem_reserved := fun id => (h.mem_reserved id).trans hannounced.mem_iff
      free := fun id hid => h.free id (hannounced.mem_iff.2 hid)
      numbers_nodup := hnumbers.nodup_iff.1 h.numbers_nodup
      numbers_le := fun n hn => h.numbers_le n (hnumbers.mem_iff.2 hn) }

/-- The numbers of a store without the first patch of its queue. -/
theorem Numbered.tail {s : Store} {p : PendingPatch} {queue : List PendingPatch}
    (h : (s.withQueue (p :: queue)).Numbered) : (s.withQueue queue).Numbered := by
  have hsub : (s.withQueue queue).numbers.Sublist (s.withQueue (p :: queue)).numbers :=
    (List.sublist_cons_self _ _).append_left _
  exact ⟨h.numbers_nodup.sublist hsub, fun n hn => h.numbers_le n (hsub.subset hn)⟩

/-- A patch without a new id leaves the queue. -/
theorem Sound.tail_plain {s : Store} {p : PendingPatch} {queue : List PendingPatch}
    (h : (s.withQueue (p :: queue)).Sound) (hid : p.newId = none) : (s.withQueue queue).Sound := by
  have hsame : announcedBy (s.withQueue (p :: queue)).pending = announcedBy queue := by
    simp [announcedBy, withQueue, hid]
  exact
    { ids_nodup := h.ids_nodup
      announced_nodup := hsame ▸ h.announced_nodup
      mem_reserved := fun id => hsame ▸ h.mem_reserved id
      free := fun id hmem => h.free id (hsame ▸ hmem)
      toNumbered := h.toNumbered.tail }

/-- A patch with a new id leaves the queue and gives up its reservation; nothing claims the id any
more. -/
theorem Sound.tail_named {s : Store} {p : PendingPatch} {queue : List PendingPatch}
    {newId : DocumentId} (h : (s.withQueue (p :: queue)).Sound) (hid : p.newId = some newId) :
    ((s.release newId).withQueue queue).Sound ∧ newId ∉ s.ids ∧ newId ∉ announcedBy queue := by
  have hannounced : announcedBy (s.withQueue (p :: queue)).pending = newId :: announcedBy queue := by
    simp [announcedBy, withQueue, hid]
  have hnodup := h.announced_nodup
  rw [hannounced, List.nodup_cons] at hnodup
  refine ⟨?_, h.free newId (hannounced ▸ List.mem_cons_self), hnodup.1⟩
  exact
    { ids_nodup := h.ids_nodup
      announced_nodup := hnodup.2
      mem_reserved := fun id => by
        have hmem := h.mem_reserved id
        rw [hannounced, List.mem_cons] at hmem
        have hrelease : id ∈ (s.release newId).reserved ↔ id ∈ s.reserved ∧ id ≠ newId := by
          simp [release]
        refine hrelease.trans ⟨fun hin => (hmem.1 hin.1).resolve_left hin.2, fun hin => ?_⟩
        exact ⟨hmem.2 (.inr hin), fun heq => hnodup.1 (heq ▸ hin)⟩
      free := fun id hmem => h.free id (hannounced ▸ List.mem_cons_of_mem _ hmem)
      numbers_nodup := h.toNumbered.tail.numbers_nodup
      numbers_le := h.toNumbered.tail.numbers_le }

end Store

/-- A patch that is reported is reported as one that does not fit its target. -/
def Settled.ReportsPatch (x : Settled) : Prop :=
  ∀ e, x.error = some e → ∃ source, e = .patch x.patch.target x.patch.newId source

namespace Store

open Progress

variable {r t : Progress} {settled : List Settled} {pending left : List PendingPatch}

/-- **Settling a patch keeps the books**, and never finds its id taken. -/
theorem Sound.settles {p : PendingPatch} {error : Option ResolveError}
    (h : (r.store.withQueue (p :: pending)).Sound) (hp : r.Settles p error t) :
    (t.store.withQueue pending).Sound ∧ Settled.ReportsPatch ⟨p, error⟩ := by
  cases hp with
  | @changed base arch hid hbase harch =>
      exact ⟨(h.tail_plain hid).setArch p.target arch, by simp [Settled.ReportsPatch]⟩
  | unfit hid hbase harch =>
      exact ⟨h.tail_plain hid, by simp [Settled.ReportsPatch, hid]⟩
  | @made newId base arch hid hbase harch hfree =>
      obtain ⟨hrest, hids, hannounced⟩ := h.tail_named hid
      exact ⟨hrest.add (d := derived p newId base arch) hids hannounced,
        by simp [Settled.ReportsPatch]⟩
  | released hid hbase harch =>
      exact ⟨(h.tail_named hid).1, by simp [Settled.ReportsPatch, hid]⟩
  | collided hid hbase harch htaken =>
      exact absurd (contains_iff.1 htaken) (h.tail_named hid).2.1

/-- A walk keeps the books, whatever else is queued. -/
theorem Sound.walk (kept : List PendingPatch) (h : (r.store.withQueue (pending ++ kept)).Sound)
    (hwalk : r.Walk pending settled left t) :
    (t.store.withQueue (left ++ kept)).Sound ∧ ∀ x ∈ settled, x.ReportsPatch := by
  induction hwalk generalizing kept with
  | nil => exact ⟨h, by simp⟩
  | @stay _ _ p _ _ _ _ ih =>
      -- a patch that stays is put behind the others for the rest of the walk
      obtain ⟨hsound, hreports⟩ := ih (p :: kept) (h.perm List.perm_middle.symm)
      exact ⟨hsound.perm List.perm_middle, hreports⟩
  | settle hp _ ih =>
      obtain ⟨hnext, hreport⟩ := h.settles hp
      obtain ⟨hsound, hreports⟩ := ih kept hnext
      exact ⟨hsound, List.forall_mem_cons.2 ⟨hreport, hreports⟩⟩

/-- **A run keeps the books.** -/
theorem Sound.run (h : (r.store.withQueue pending).Sound) (hrun : r.Run pending settled left t) :
    (t.store.withQueue left).Sound ∧ ∀ x ∈ settled, x.ReportsPatch := by
  induction hrun with
  | refl => exact ⟨h, by simp⟩
  | @walk r _ _ pending rest _ _ _ hwalk _ ih =>
      obtain ⟨hnext, hreports⟩ := Sound.walk [] (by rwa [List.append_nil]) hwalk
      rw [List.append_nil] at hnext
      obtain ⟨hsound, hlater⟩ := ih hnext
      exact ⟨hsound, List.forall_mem_append.2 ⟨hreports, hlater⟩⟩

/-- Where a resolution starts: the queue is taken out, and nothing has been done. -/
def start (s : Store) : Progress where
  store := { s with pending := [] }

/-- The counts and reports of a resolution, read off the patches that it has settled. -/
structure Reports (s : Store) (options : ResolverOptions) (settled : List Settled) : Prop where
  applied : (s.resolve options).1.applied = (appliedIn settled).length
  created : (s.resolve options).1.created = announcedBy (appliedIn settled)
  errors : (s.resolve options).1.errors =
    reportedIn settled ++ options.unresolved.errors (s.resolve options).2.pending

theorem reports_of_records {s : Store} {options : ResolverOptions}
    (h : s.start.Records settled (s.start.passes s.queue options.maxPasses).2.2) :
    s.Reports options settled where
  applied := h.applied.trans (Nat.zero_add _)
  created := h.created
  errors := congrArg (· ++ _) h.errors

/-- A resolution is a run through the sorted queue. -/
theorem resolve_run (s : Store) (options : ResolverOptions) :
    ∃ (settled : List Settled) (t : Progress),
      s.start.Run s.queue settled (s.resolve options).2.pending t ∧
      (s.resolve options).2 = t.store.withQueue (s.resolve options).2.pending ∧
      s.Reports options settled := by
  obtain ⟨settled, hrun⟩ := passes_run s.start s.queue options.maxPasses
  exact ⟨settled, _, hrun, rfl, reports_of_records hrun.records⟩

/-- Before the first pass, the store with the sorted queue is the store as it was. -/
theorem Sound.sorted {s : Store} (hs : s.Sound) :
    (s.start.store.withQueue s.queue).Sound :=
  Sound.perm (s := s) hs (List.mergeSort_perm _ _).symm

/-- A resolution keeps the books, and no patch finds its id taken. -/
theorem Sound.resolve {s : Store} (hs : s.Sound) (options : ResolverOptions) :
    (s.resolve options).2.Sound ∧
      ∀ id, .duplicateId id ∉ (s.resolve options).1.errors := by
  obtain ⟨settled, t, hrun, hstore, hcounts⟩ := s.resolve_run options
  obtain ⟨hsound, hreports⟩ := hs.sorted.run hrun
  refine ⟨hstore ▸ hsound, ?_⟩
  intro id hmem
  rw [hcounts.errors, List.mem_append] at hmem
  rcases hmem with hmem | hmem
  · obtain ⟨x, hx, herror⟩ := List.mem_filterMap.1 hmem
    obtain ⟨source, hsource⟩ := hreports x hx _ herror
    exact ResolveError.noConfusion hsource
  · cases hpolicy : options.unresolved <;> simp [UnresolvedPolicy.errors, hpolicy] at hmem

/-- **Operations keep the books of a store.** -/
theorem Attained.sound {s : Store} (h : s.Attained) : s.Sound := by
  induction h with
  | empty => exact sound_empty
  | insert _ h ih => exact ih.insert h
  | enqueue _ h ih => exact ih.enqueue h
  | load _ h ih =>
      rcases load_eq_ok h with ⟨d, hd⟩ | ⟨p, hp⟩
      · exact ih.insert hd
      · exact ih.enqueue hp
  | setArch _ id arch ih => exact ih.setArch id arch
  | resolve _ options ih => exact (ih.resolve options).1

/-! ### What follows -/

/-- An id is in use: a document has it, or a queued patch announces it. -/
def Claims (s : Store) (id : DocumentId) : Prop :=
  (∃ d ∈ s.stored, d.id = id) ∨ ∃ p ∈ s.pending, p.newId = some id

theorem Consistent.taken_iff {s : Store} (hs : s.Consistent) {id : DocumentId} :
    s.taken id = true ↔ s.Claims id := by
  rw [taken, Bool.or_eq_true, contains_iff, List.contains_iff_mem, hs.mem_reserved,
    mem_announcedBy, ids, List.mem_map, Claims]

theorem insert_eq_error {s : Store} {d : Document} {error : LoadError} :
    s.insert d = .error error ↔ error = .duplicateId d.id ∧ s.taken d.id = true := by
  unfold Store.insert
  cases s.taken d.id with
  | false => simp
  | true => simpa using eq_comm

theorem enqueue_eq_error {s : Store} {p : PendingPatch} {error : LoadError} :
    s.enqueue p = .error error ↔
      ∃ id, p.newId = some id ∧ error = .duplicateId id ∧ s.taken id = true := by
  unfold Store.enqueue
  cases hid : p.newId with
  | none => simp
  | some id =>
      cases htaken : s.taken id with
      | false => simp [htaken]
      | true => simpa [htaken] using eq_comm

/-- With ids that are used once, looking up an id finds the document that has it. -/
theorem Consistent.get?_eq_some_iff {s : Store} (hs : s.Consistent) {id : DocumentId}
    {d : Document} : s.get? id = some d ↔ d ∈ s.stored ∧ d.id = id := by
  refine ⟨get?_eq_some, ?_⟩
  rintro ⟨hd, rfl⟩
  exact find?_eq_some_of_mem hs.ids_nodup hd

/-- The books of a store, and what follows from them for looking up, taking in and resolving. -/
structure Integrity (s : Store) : Prop extends Sound s where
  /-- Every document is stored under its own id, and nothing else is. -/
  get?_iff : ∀ id d, s.get? id = some d ↔ d ∈ s.stored ∧ d.id = id
  /-- The reserved ids are those that queued patches announce. -/
  reserved_iff : ∀ id, id ∈ s.reserved ↔ ∃ p ∈ s.pending, p.newId = some id
  /-- No document has a reserved id. -/
  get?_reserved : ∀ id ∈ s.reserved, s.get? id = none
  /-- A document is turned down exactly when its id is in use. -/
  insert_fails_iff : ∀ d error, s.insert d = .error error ↔
    error = .duplicateId d.id ∧ s.Claims d.id
  /-- A patch is turned down exactly when the id that it announces is in use. -/
  enqueue_fails_iff : ∀ p error, s.enqueue p = .error error ↔
    ∃ id, p.newId = some id ∧ error = .duplicateId id ∧ s.Claims id
  /-- Resolution never finds the id of a new document taken. -/
  no_collision : ∀ options id, .duplicateId id ∉ (s.resolve options).1.errors

/-- **The books of every store that operations lead to are in order**: look-up finds what is
stored, an id is turned down exactly when it is in use, and resolution never meets a taken one. -/
theorem Attained.integrity {s : Store} (h : s.Attained) : s.Integrity where
  toSound := h.sound
  get?_iff _ _ := h.sound.get?_eq_some_iff
  reserved_iff id := (h.sound.mem_reserved id).trans mem_announcedBy
  get?_reserved id hid := by
    rw [Option.eq_none_iff_forall_ne_some]
    intro d hd
    obtain ⟨hmem, rfl⟩ := get?_eq_some hd
    exact h.sound.free d.id ((h.sound.mem_reserved _).1 hid) (List.mem_map_of_mem hmem)
  insert_fails_iff d error := by rw [insert_eq_error, h.sound.taken_iff]
  enqueue_fails_iff p error := by simp only [enqueue_eq_error, h.sound.taken_iff]
  no_collision options := (h.sound.resolve options).2

/-- A form, a patch that fits it, one that announces a copy but does not fit, and one whose target
never turns up. -/
def backlog : Store where
  stored := [{ id := "form", owner := "Partner", kind := .form
               arch := .element () "form" [] .nil .nil, sequence := 1 }]
  pending :=
    [{ target := "form", sequence := 2
       specs := [⟨⟨"/form", true, [⟨.child, .named "form", []⟩]⟩, .inside,
         .leaf () .text "a" .nil⟩] },
      { target := "form", newId := some "copy", sequence := 3
        specs := [⟨.attributeEquals "field" "name" "a", .after, .nil⟩] },
      { target := "ghost", newId := some "shade", specs := [], sequence := 4 }]
  reserved := ["shade", "copy"]
  counter := 4

theorem attained_backlog : backlog.Attained := by
  have hform : Attained { backlog with pending := [], reserved := [], counter := 1 } :=
    .insert (d := { backlog.stored.head (by simp [backlog]) with sequence := 0 }) .empty rfl
  have hfit : Attained
      { backlog with pending := backlog.pending.take 1, reserved := [], counter := 2 } :=
    .enqueue (p := { backlog.pending[0] with sequence := 0 }) hform rfl
  have hcopy : Attained
      { backlog with pending := backlog.pending.take 2, reserved := ["copy"], counter := 3 } :=
    .enqueue (p := { backlog.pending[1] with sequence := 0 }) hfit rfl
  exact .enqueue (p := { backlog.pending[2] with sequence := 0 }) hcopy rfl

theorem queue_backlog : backlog.queue = backlog.pending :=
  List.mergeSort_of_pairwise (by decide)

/-- After a resolution the announced copy is free again, and the other id is still claimed. -/
theorem backlog_integrity :
    (backlog.resolve {}).2.Attained ∧ (backlog.resolve {}).2.Integrity ∧
      (backlog.resolve {}).2.ids = ["form"] ∧ (backlog.resolve {}).2.reserved = ["shade"] ∧
      (backlog.resolve {}).2.counter = 4 := by
  have hattained := attained_backlog.resolve {}
  refine ⟨hattained, hattained.integrity, ?_⟩
  rw [Store.resolve, ← queue, queue_backlog]
  decide +kernel

end Store

end ViewCompiler
