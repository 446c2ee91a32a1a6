/-
**The order of loading.**

Documents and patches may come in any order, and a patch may come before the document that it is
aimed at.  The order matters where several patches change one document under one priority, because
each is applied to what the ones before it have left.  It matters nowhere else: if these keep their
order, then everything else may be loaded in any order, and resolution comes to the same documents
and reports the same.

Sorting the queue keeps the order within a priority, so the patches on one document stand in a
sorted queue in an order that only depends on its lines, one for each priority.

Main definitions:

* `ViewCompiler.lineOf` — the patches on one document under one priority;
* `ViewCompiler.Store.Call`, `ViewCompiler.Store.callEach` — documents and patches one after the
  other;
* `ViewCompiler.Store.SameLines` — calls that keep the order within each line;
* `ViewCompiler.Store.SameResolution` — the same outcome but for places in the order of loading.

Main results:

* `ViewCompiler.eq_of_lines` — a list that is sorted by priority is determined by its lines;
* `ViewCompiler.Store.Attained.lineOf_queue` — sorting the queue keeps its lines;
* `ViewCompiler.Store.Attained.callEach_ok_iff` — whether calls succeed does not depend on
  their order;
* `ViewCompiler.Store.Attained.resolve_callEach` — **the order of loading does not matter**.
-/

import ViewCompiler.Proofs.Inheritance.Reordering

set_option relaxedAutoImplicit false
set_option autoImplicit false

namespace ViewCompiler

/-! ### Lines of a queue -/

/-- The queued patches that change one document under one priority; those that give no priority
have the default one. -/
def lineOf (queue : List PendingPatch) (id : DocumentId) (priority : Int) : List PendingPatch :=
  (patchesOn queue id).filter (·.sortKey.1 = priority)

theorem lineOf_unnumbered (queue : List PendingPatch) (id : DocumentId) (priority : Int) :
    lineOf (queue.map PendingPatch.unnumbered) id priority =
      (lineOf queue id priority).map PendingPatch.unnumbered := by
  rw [lineOf, patchesOn_unnumbered, lineOf]
  exact List.filter_map

theorem lineOf_append (queue more : List PendingPatch) (id : DocumentId) (priority : Int) :
    lineOf (queue ++ more) id priority = lineOf queue id priority ++ lineOf more id priority := by
  simp only [lineOf, patchesOn, List.filter_append]

/-- In a list that is sorted by priority, the line of a lower priority than that of the first patch
is empty. -/
theorem line_eq_nil {p : PendingPatch} {more : List PendingPatch} {priority : Int}
    (h : (p :: more).Pairwise fun p q => p.sortKey.1 ≤ q.sortKey.1)
    (hp : priority < p.sortKey.1) : (p :: more).filter (·.sortKey.1 = priority) = [] := by
  rw [List.filter_eq_nil_iff]
  intro q hq
  have hle : p.sortKey.1 ≤ q.sortKey.1 := by
    rcases List.mem_cons.1 hq with rfl | hq
    · exact Int.le_refl _
    · exact (List.pairwise_cons.1 h).1 q hq
  simp only [decide_eq_true_eq]
  omega

/-- A list of patches that is sorted by priority is determined by its lines. -/
theorem eq_of_lines {ps qs : List PendingPatch}
    (hps : ps.Pairwise fun p q => p.sortKey.1 ≤ q.sortKey.1)
    (hqs : qs.Pairwise fun p q => p.sortKey.1 ≤ q.sortKey.1)
    (hlines : ∀ priority : Int, ps.filter (·.sortKey.1 = priority) =
      qs.filter (·.sortKey.1 = priority)) : ps = qs := by
  induction ps generalizing qs with
  | nil =>
      cases qs with
      | nil => rfl
      | cons q more => simpa using hlines q.sortKey.1
  | cons p ps ih =>
      cases qs with
      | nil => simpa using hlines p.sortKey.1
      | cons q qs =>
          -- the first patches are the first of the same line
          have hkey : p.sortKey.1 = q.sortKey.1 := by
            rcases Int.lt_trichotomy p.sortKey.1 q.sortKey.1 with hlt | heq | hgt
            · have hline := hlines p.sortKey.1
              rw [line_eq_nil hqs hlt] at hline
              simp at hline
            · exact heq
            · have hline := hlines q.sortKey.1
              rw [line_eq_nil hps hgt] at hline
              simp at hline
          have hfirst : p = q ∧ ps.filter (·.sortKey.1 = p.sortKey.1) =
              qs.filter (·.sortKey.1 = p.sortKey.1) := by
            simpa [hkey] using hlines p.sortKey.1
          obtain ⟨rfl, hsame⟩ := hfirst
          refine congrArg _ (ih hps.of_cons hqs.of_cons fun priority => ?_)
          by_cases hp : p.sortKey.1 = priority
          · exact hp ▸ hsame
          · simpa [hp] using hlines priority

/-- Patches of one priority stand in the order of loading. -/
def Lined (queue : List PendingPatch) : Prop :=
  queue.Pairwise fun p q => p.sortKey.1 = q.sortKey.1 → p.sequence < q.sequence

theorem Lined.pairwise_lineOf {queue : List PendingPatch} (h : Lined queue) (id : DocumentId)
    (priority : Int) : (lineOf queue id priority).Pairwise fun p q => p.sequence < q.sequence := by
  have hline : (lineOf queue id priority).Pairwise
      fun p q => p.sortKey.1 = q.sortKey.1 → p.sequence < q.sequence :=
    List.Pairwise.sublist (List.filter_sublist.trans List.filter_sublist) h
  refine hline.imp_of_mem fun {p q} hp hq hlt => hlt ?_
  rw [lineOf, List.mem_filter, decide_eq_true_eq] at hp hq
  rw [hp.2, hq.2]

theorem lined_of_before {queue : List PendingPatch} (h : queue.Pairwise PendingPatch.Before) :
    Lined queue := by
  refine h.imp fun {p q} hbefore hkey => ?_
  simp only [PendingPatch.Before, PendingPatch.sortKey] at hbefore hkey ⊢
  omega

namespace Store

theorem Numbered.lined_enqueue {s t : Store} {p : PendingPatch} (hs : s.Numbered)
    (hlined : Lined s.pending) (h : s.enqueue p = .ok t) : Lined t.pending := by
  obtain ⟨_, hpending, _, _⟩ := enqueue_eq_ok h
  rw [hpending]
  refine List.pairwise_append.2 ⟨hlined, List.pairwise_singleton _ _, fun q hq new hnew _ => ?_⟩
  have hle : q.sequence ≤ s.counter :=
    hs.numbers_le _ (List.mem_append_right _ (List.mem_map_of_mem hq))
  rw [List.mem_singleton.1 hnew]
  exact Nat.lt_succ_of_le hle

/-- In every store that operations lead to, queued patches of one priority stand in the order of
loading. -/
theorem Attained.lined {s : Store} (h : s.Attained) : Lined s.pending := by
  induction h with
  | empty => exact List.Pairwise.nil
  | insert _ h ih =>
      obtain ⟨_, rfl⟩ := insert_eq_ok.1 h
      exact ih
  | enqueue hs h ih => exact hs.sound.lined_enqueue ih h
  | load hs h ih =>
      rcases load_eq_ok h with ⟨d, hd⟩ | ⟨p, hp⟩
      · obtain ⟨_, rfl⟩ := insert_eq_ok.1 hd
        exact ih
      · exact hs.sound.lined_enqueue ih hp
  | setArch _ _ _ ih => exact ih
  | @resolve s hs options _ =>
      obtain ⟨_, _, hrun, _⟩ := s.resolve_run options
      exact lined_of_before (hs.sound.queue_before.sublist hrun.sublist)

/-- **Sorting the queue keeps its lines.** -/
theorem Attained.lineOf_queue {s : Store} (h : s.Attained) (id : DocumentId) (priority : Int) :
    lineOf s.queue id priority = lineOf s.pending id priority := by
  have hperm : (lineOf s.queue id priority).Perm (lineOf s.pending id priority) :=
    ((List.mergeSort_perm s.pending PendingPatch.le).filter _).filter _
  have hqueue := (lined_of_before h.sound.queue_before).pairwise_lineOf id priority
  have hpending := h.lined.pairwise_lineOf id priority
  exact hperm.eq_of_pairwise (fun p q _ _ hpq hqp => absurd hpq (Nat.lt_asymm hqp)) hqueue hpending

/-! ### Calls -/

/-- A document or a patch that is handed to a store. -/
inductive Call where
  | insert (d : Document)
  | enqueue (p : PendingPatch)
  deriving DecidableEq, Repr

namespace Call

/-- The id that is taken if the call succeeds. -/
def id? : Call → Option DocumentId
  | insert d => some d.id
  | enqueue p => p.newId

def document? : Call → Option Document
  | insert d => some d
  | enqueue _ => none

def patch? : Call → Option PendingPatch
  | insert _ => none
  | enqueue p => some p

end Call

/-- Takes in a document or a patch. -/
def call (s : Store) : Call → Except LoadError Store
  | .insert d => s.insert d
  | .enqueue p => s.enqueue p

/-- Takes in documents and patches one after the other, up to the first that is turned down. -/
def callEach (s : Store) : List Call → Except LoadError Store
  | [] => .ok s
  | c :: more =>
      match s.call c with
      | .error error => .error error
      | .ok t => t.callEach more

theorem callEach_cons_eq_ok {s u : Store} {c : Call} {more : List Call} :
    s.callEach (c :: more) = .ok u ↔ ∃ t, s.call c = .ok t ∧ t.callEach more = .ok u := by
  rw [callEach]
  cases s.call c <;> simp

theorem Attained.call {s t : Store} {c : Call} (hs : s.Attained) (h : s.call c = .ok t) :
    t.Attained := by
  cases c with
  | insert d => exact hs.insert h
  | enqueue p => exact hs.enqueue h

theorem Attained.callEach {s t : Store} {calls : List Call} (hs : s.Attained)
    (h : s.callEach calls = .ok t) : t.Attained := by
  induction calls generalizing s with
  | nil => exact Except.ok.inj h ▸ hs
  | cons c more ih =>
      obtain ⟨u, hu, hmore⟩ := callEach_cons_eq_ok.1 h
      exact ih (hs.call hu) hmore

/-- A call succeeds exactly when nothing claims the id that it takes. -/
theorem Consistent.call_ok_iff {s : Store} (hs : s.Consistent) {c : Call} :
    (∃ t, s.call c = .ok t) ↔ ∀ id ∈ c.id?, ¬s.Claims id := by
  have herror : (∃ error, s.call c = .error error) ↔ ∃ id ∈ c.id?, s.Claims id := by
    cases c with
    | insert d => simp [Store.call, insert_eq_error, hs.taken_iff, Call.id?]
    | enqueue p => simp [Store.call, enqueue_eq_error, hs.taken_iff, Call.id?]
  have hok : (∃ t, s.call c = .ok t) ↔ ¬∃ error, s.call c = .error error := by
    cases s.call c <;> simp
  rw [hok, herror]
  simp

/-- After a call that succeeds, the id that it takes is claimed as well. -/
theorem claims_call {s t : Store} {c : Call} (h : s.call c = .ok t) {id : DocumentId} :
    t.Claims id ↔ s.Claims id ∨ id ∈ c.id? := by
  cases c with
  | insert d =>
      obtain ⟨_, rfl⟩ := insert_eq_ok.1 h
      simp [Claims, add, Call.id?, or_and_right, exists_or, or_right_comm]
  | enqueue p =>
      obtain ⟨hstored, hpending, _, _⟩ := enqueue_eq_ok h
      simp [Claims, hstored, hpending, Call.id?, or_and_right, exists_or, or_assoc]

/-- **Whether calls succeed** does not depend on their order: the ids that they take must be
different, and nothing may claim them. -/
theorem Attained.callEach_ok_iff {s : Store} (hs : s.Attained) (calls : List Call) :
    (∃ t, s.callEach calls = .ok t) ↔
      (calls.filterMap Call.id?).Nodup ∧ ∀ id ∈ calls.filterMap Call.id?, ¬s.Claims id := by
  induction calls generalizing s with
  | nil => simp [Store.callEach]
  | cons c more ih =>
      have hsplit : (∃ u, s.callEach (c :: more) = .ok u) ↔
          ∃ t, s.call c = .ok t ∧ ∃ u, t.callEach more = .ok u := by
        simp only [callEach_cons_eq_ok]
        exact exists_comm.trans (by simp)
      have hids : (c :: more).filterMap Call.id? = c.id?.toList ++ more.filterMap Call.id? := by
        cases hid : c.id? <;> simp [hid]
      rw [hsplit, hids]
      constructor
      · rintro ⟨t, ht, hmore⟩
        obtain ⟨hnodup, hfree⟩ := (ih (hs.call ht)).1 hmore
        have hown := hs.sound.call_ok_iff.1 ⟨t, ht⟩
        have hone : c.id?.toList.Nodup := by cases c.id? <;> simp
        refine ⟨List.nodup_append.2 ⟨hone, hnodup, ?_⟩, ?_⟩
        · rintro id hid _ hmem rfl
          exact hfree id hmem ((claims_call ht).2 (.inr (Option.mem_toList.1 hid)))
        · intro id hid hclaims
          rcases List.mem_append.1 hid with hid | hid
          · exact hown id (Option.mem_toList.1 hid) hclaims
          · exact hfree id hid ((claims_call ht).2 (.inl hclaims))
      · rintro ⟨hnodup, hfree⟩
        obtain ⟨_, hmore, hother⟩ := List.nodup_append.1 hnodup
        obtain ⟨t, ht⟩ := hs.sound.call_ok_iff.2 fun id hid =>
          hfree id (List.mem_append_left _ (Option.mem_toList.2 hid))
        refine ⟨t, ht, (ih (hs.call ht)).2 ⟨hmore, fun id hid hclaims => ?_⟩⟩
        rcases (claims_call ht).1 hclaims with hold | hnew
        · exact hfree id (List.mem_append_right _ hid) hold
        · exact hother id (Option.mem_toList.2 hnew) id hid rfl

/-- What calls have added to a store. -/
theorem callEach_eq_ok {s t : Store} {calls : List Call} (h : s.callEach calls = .ok t) :
    t.stored.map Document.unnumbered =
        (s.stored ++ calls.filterMap Call.document?).map Document.unnumbered ∧
      t.pending.map PendingPatch.unnumbered =
        (s.pending ++ calls.filterMap Call.patch?).map PendingPatch.unnumbered := by
  induction calls generalizing s with
  | nil =>
      obtain rfl := Except.ok.inj h
      simp
  | cons c more ih =>
      obtain ⟨u, hu, hmore⟩ := callEach_cons_eq_ok.1 h
      obtain ⟨hstored, hpending⟩ := ih hmore
      rw [hstored, hpending]
      cases c with
      | insert d =>
          obtain ⟨_, rfl⟩ := insert_eq_ok.1 hu
          have hpatches : (Call.insert d :: more).filterMap Call.patch? =
              more.filterMap Call.patch? := rfl
          simp [add, hpatches, Call.document?, Document.unnumbered]
      | enqueue p =>
          obtain ⟨hsame, hqueued, _, _⟩ := enqueue_eq_ok hu
          have hdocuments : (Call.enqueue p :: more).filterMap Call.document? =
              more.filterMap Call.document? := rfl
          simp [hsame, hqueued, hdocuments, Call.patch?, PendingPatch.unnumbered]

/-! ### The order of loading -/

/-- Any two patches of the calls that change one document under one priority keep their order. -/
def SameLines (calls calls' : List Call) : Prop :=
  ∀ id priority, lineOf (calls.filterMap Call.patch?) id priority =
    lineOf (calls'.filterMap Call.patch?) id priority

/-- The same outcome, but for the order in which things are listed and for places in the order of
loading. -/
structure SameResolution (x y : Resolution × Store) : Prop where
  ids : x.2.ids.Perm y.2.ids
  documents : ∀ id, (x.2.get? id).map Document.unnumbered = (y.2.get? id).map Document.unnumbered
  passes : x.1.passes = y.1.passes
  applied : x.1.applied = y.1.applied
  created : x.1.created.Perm y.1.created
  unresolved : x.1.unresolved.Perm y.1.unresolved
  errors : x.1.errors.Perm y.1.errors

/-- Patches on one document stand in sorted queues in one order, if each line of the queues does. -/
theorem Attained.patchesOn_queue {s t : Store} (hs : s.Attained) (ht : t.Attained)
    (hlines : ∀ id priority, lineOf (s.pending.map PendingPatch.unnumbered) id priority =
      lineOf (t.pending.map PendingPatch.unnumbered) id priority) (id : DocumentId) :
    patchesOn (s.queue.map PendingPatch.unnumbered) id =
      patchesOn (t.queue.map PendingPatch.unnumbered) id := by
  have hsorted : ∀ s : Store, (patchesOn (s.queue.map PendingPatch.unnumbered) id).Pairwise
      fun p q => p.sortKey.1 ≤ q.sortKey.1 := by
    intro s
    refine List.Pairwise.sublist List.filter_sublist (List.pairwise_map.2 ?_)
    refine s.queue_le.imp fun {p q} hle => ?_
    rw [PendingPatch.le_iff] at hle
    exact hle.elim Int.le_of_lt fun h => Int.le_of_eq h.1
  refine eq_of_lines (hsorted s) (hsorted t) fun priority => ?_
  have hline := hlines id priority
  rw [lineOf_unnumbered, lineOf_unnumbered, ← hs.lineOf_queue, ← ht.lineOf_queue,
    ← lineOf_unnumbered, ← lineOf_unnumbered] at hline
  exact hline

/-- Stores with the same documents and patches have the same work, if each line of their queues
does. -/
theorem Attained.sameWork {s t : Store} (hs : s.Attained) (ht : t.Attained)
    (hstored : (s.stored.map Document.unnumbered).Perm (t.stored.map Document.unnumbered))
    (hpending : (s.pending.map PendingPatch.unnumbered).Perm
      (t.pending.map PendingPatch.unnumbered))
    (hlines : ∀ id priority, lineOf (s.pending.map PendingPatch.unnumbered) id priority =
      lineOf (t.pending.map PendingPatch.unnumbered) id priority) :
    s.start.SameWork t.start s.queue t.queue where
  documents := hstored
  patches := by
    have hqueue : ∀ s : Store, (s.queue.map PendingPatch.unnumbered).Perm
        (s.pending.map PendingPatch.unnumbered) := by
      intro s
      exact (List.mergeSort_perm _ _).map _
    exact (hqueue s).trans (hpending.trans (hqueue t).symm)
  order := hs.patchesOn_queue ht hlines

/-- Stores with the same work have the same outcome. -/
theorem Sound.resolve_sameResolution {s t : Store} (hs : s.Sound) (ht : t.Sound)
    (h : s.start.SameWork t.start s.queue t.queue) (options : ResolverOptions) :
    SameResolution (s.resolve options) (t.resolve options) := by
  obtain ⟨hpasses, hwork, settled, settled', hrecords, hrecords', hsettled⟩ :=
    Progress.passes_sameWork h hs.sorted ht.sorted options.maxPasses
  have hreports := reports_of_records hrecords
  have hreports' := reports_of_records hrecords'
  have happlied : (appliedIn settled).Perm (appliedIn settled') := (hsettled.filter _).map _
  have hunresolved : (s.resolve options).1.unresolved.Perm (t.resolve options).1.unresolved := by
    have hentries := hwork.patches.map PendingPatch.unresolved
    rw [List.map_map, List.map_map] at hentries
    exact hentries
  refine
    { ids := ?_
      documents := ?_
      passes := hpasses
      applied := ?_
      created := ?_
      unresolved := hunresolved
      errors := ?_ }
  · have hperm := hwork.documents.map (·.id)
    rw [ids_unnumbered, ids_unnumbered] at hperm
    exact hperm
  · intro id
    rw [get?, get?, ← find?_unnumbered, ← find?_unnumbered]
    refine find?_eq_of_perm hwork.documents ?_ id
    rw [ids_unnumbered]
    exact (hs.resolve options).1.ids_nodup
  · rw [hreports.applied, hreports'.applied, happlied.length_eq]
  · rw [hreports.created, hreports'.created]
    exact announcedBy_perm happlied
  · rw [hreports.errors, hreports'.errors, errors_unresolved, errors_unresolved]
    refine .append (hsettled.filterMap _) ?_
    split
    · exact hunresolved.map _
    · exact .refl _

/-- **The order of loading does not matter**, but within the lines: calls that succeed do so in any
order, and if the patches of each line keep their order, resolution has the same outcome. -/
theorem Attained.resolve_callEach {s t : Store} {calls calls' : List Call} (hs : s.Attained)
    (hperm : calls.Perm calls') (ht : s.callEach calls = .ok t) :
    ∃ t', s.callEach calls' = .ok t' ∧ (SameLines calls calls' →
      ∀ options, SameResolution (t.resolve options) (t'.resolve options)) := by
  have hids : (calls.filterMap Call.id?).Perm (calls'.filterMap Call.id?) := hperm.filterMap _
  obtain ⟨hnodup, hfree⟩ := (hs.callEach_ok_iff calls).1 ⟨t, ht⟩
  obtain ⟨t', ht'⟩ := (hs.callEach_ok_iff calls').2
    ⟨hids.nodup_iff.1 hnodup, fun id hid => hfree id (hids.mem_iff.2 hid)⟩
  refine ⟨t', ht', ?_⟩
  intro hlines options
  obtain ⟨hstored, hpending⟩ := callEach_eq_ok ht
  obtain ⟨hstored', hpending'⟩ := callEach_eq_ok ht'
  have hattained := hs.callEach ht
  have hattained' := hs.callEach ht'
  have hwork : t.start.SameWork t'.start t.queue t'.queue := by
    refine hattained.sameWork hattained' ?_ ?_ ?_
    · rw [hstored, hstored']
      exact ((hperm.filterMap _).append_left _).map _
    · rw [hpending, hpending']
      exact ((hperm.filterMap _).append_left _).map _
    · intro id priority
      rw [hpending, hpending', lineOf_unnumbered, lineOf_unnumbered, lineOf_append, lineOf_append,
        hlines id priority]
  exact hattained.sound.resolve_sameResolution hattained'.sound hwork options

/-- A form and a list. -/
def twoViews : List Call :=
  ["form", "list"].map fun id =>
    .insert { id := id, owner := "Partner", kind := .form, arch := .element () id [] .nil .nil }

/-- A patch that adds a text to a view. -/
def remark (target : DocumentId) (content : String) : Call :=
  .enqueue
    { target := target
      specs := [⟨⟨"/" ++ target, true, [⟨.child, .named target, []⟩]⟩, .inside,
        .leaf () .text content .nil⟩] }

/-- A patch that copies the form. -/
def copying : Call :=
  .enqueue { target := "form", newId := some "copy", specs := [] }

def viewsFirst : List Call :=
  twoViews ++ [remark "form" "a", remark "form" "b", remark "list" "c", copying]

def viewsLate : List Call :=
  [copying, remark "list" "c", remark "form" "a"] ++ twoViews ++ [remark "form" "b"]

theorem sameLines_views : SameLines viewsFirst viewsLate := by
  have hpatches : ∀ id, patchesOn (viewsFirst.filterMap Call.patch?) id =
      patchesOn (viewsLate.filterMap Call.patch?) id := by
    intro id
    by_cases hform : id = "form"
    · subst hform
      decide
    · by_cases hlist : id = "list"
      · subst hlist
        decide
      · have hnone : ∀ calls : List Call, (∀ p ∈ calls.filterMap Call.patch?,
            p.target = "form" ∨ p.target = "list") →
            patchesOn (calls.filterMap Call.patch?) id = [] := by
          intro calls hcalls
          rw [patchesOn, List.filter_eq_nil_iff]
          intro p hp
          rcases hcalls p hp with ht | ht <;> simp [ht, Ne.symm hform, Ne.symm hlist]
        rw [hnone viewsFirst (by decide), hnone viewsLate (by decide)]
  intro id priority
  rw [lineOf, hpatches, lineOf]

/-- Patches may come before the views that they are aimed at, as long as the two remarks on the form
keep their order. -/
theorem resolve_views :
    viewsFirst.Perm viewsLate ∧ SameLines viewsFirst viewsLate ∧
      ∃ t t', empty.callEach viewsFirst = .ok t ∧ empty.callEach viewsLate = .ok t' ∧
        SameResolution (t.resolve {}) (t'.resolve {}) ∧ (t'.resolve {}).1.applied = 4 ∧
        (t'.resolve {}).1.created = ["copy"] := by
  have hperm : viewsFirst.Perm viewsLate := by decide
  obtain ⟨t', ht', h⟩ := Attained.empty.resolve_callEach hperm rfl
  refine ⟨hperm, sameLines_views, _, t', rfl, ht', h sameLines_views {}, ?_⟩
  obtain rfl : _ = t' := Except.ok.inj ht'
  rw [Store.resolve, List.mergeSort_of_pairwise (by decide)]
  decide +kernel

end Store

end ViewCompiler
