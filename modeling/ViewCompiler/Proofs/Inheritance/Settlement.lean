/-
**What becomes of every queued patch.**

Resolution walks through the queue again and again.  At each patch it either passes by, and the
patch stays, or it settles the patch: the patch leaves the queue for good, applied or reported with
an error.  Everything that resolution does to the store, to its counts and to its reports is done
while it settles some patch, so what can happen there is said once, as a relation, and whatever all
resolutions have in common is shown by going through its five cases.

Main definitions:

* `ViewCompiler.Settled` — a patch that has left the queue, with the error that it is reported
  with, if any;
* `ViewCompiler.Progress.Settles` — what happens when a patch is settled;
* `ViewCompiler.Progress.Walk` — going through the queue once;
* `ViewCompiler.Progress.Run` — going through it any number of times;
* `ViewCompiler.Progress.Records` — the counts and reports that settled patches leave behind.

Main results:

* `ViewCompiler.Progress.applyInPlace_walk`, `ViewCompiler.Progress.derive_walk` — the two halves
  of a pass are walks;
* `ViewCompiler.Progress.passes_run` — **passes are a run**;
* `ViewCompiler.Progress.Run.records`, `ViewCompiler.Progress.Run.perm` — no patch is lost, none
  is settled twice, and each is counted or reported as it was settled;
* `ViewCompiler.Progress.passes_le` — how many passes there are.
-/

import Mathlib.Data.List.Basic
import ViewCompiler.Inheritance.Resolution
import ViewCompiler.Proofs.Inheritance.Reachable

set_option relaxedAutoImplicit false
set_option autoImplicit false

namespace ViewCompiler

/-- A patch that has left the queue.  It was applied, unless it is reported with an error. -/
structure Settled where
  patch : PendingPatch
  error : Option ResolveError

/-- The patches that were applied. -/
def appliedIn (settled : List Settled) : List PendingPatch :=
  (settled.filter (·.error.isNone)).map (·.patch)

/-- The errors that patches are reported with. -/
def reportedIn (settled : List Settled) : List ResolveError :=
  settled.filterMap (·.error)

theorem appliedIn_append (settled more : List Settled) :
    appliedIn (settled ++ more) = appliedIn settled ++ appliedIn more := by
  simp [appliedIn]

theorem reportedIn_append (settled more : List Settled) :
    reportedIn (settled ++ more) = reportedIn settled ++ reportedIn more :=
  List.filterMap_append

namespace Progress

/-! ### Settling one patch -/

/-- What happens to the progress when a patch is settled, and the error that the patch is then
reported with. -/
inductive Settles (r : Progress) (p : PendingPatch) : Option ResolveError → Progress → Prop
  /-- The target of a patch without a new id gets its new arch. -/
  | changed {base : Document} {arch : Forest Unit} (hid : p.newId = none)
      (hbase : r.store.get? p.target = some base) (harch : patched base p.specs = .ok arch) :
      Settles r p none
        { r with store := r.store.setArch p.target arch, applied := r.applied + 1 }
  /-- A patch without a new id does not fit its target. -/
  | unfit {base : Document} {source : PatchError} (hid : p.newId = none)
      (hbase : r.store.get? p.target = some base) (harch : patched base p.specs = .error source) :
      Settles r p (some (.patch p.target none source)) (r.fail (.patch p.target none source))
  /-- A patch with a new id makes its document. -/
  | made {newId : DocumentId} {base : Document} {arch : Forest Unit} (hid : p.newId = some newId)
      (hbase : r.store.get? p.target = some base) (harch : patched base p.specs = .ok arch)
      (hfree : r.store.contains newId = false) :
      Settles r p none
        { r with
          store := (r.store.release newId).add (derived p newId base arch)
          applied := r.applied + 1
          created := r.created ++ [newId] }
  /-- A patch with a new id does not fit its target, and the id is free again. -/
  | released {newId : DocumentId} {base : Document} {source : PatchError}
      (hid : p.newId = some newId) (hbase : r.store.get? p.target = some base)
      (harch : patched base p.specs = .error source) :
      Settles r p (some (.patch p.target (some newId) source))
        (({ r with store := r.store.release newId } : Progress).fail
          (.patch p.target (some newId) source))
  /-- The id that a patch announces belongs to a document. -/
  | collided {newId : DocumentId} {base : Document} {arch : Forest Unit}
      (hid : p.newId = some newId) (hbase : r.store.get? p.target = some base)
      (harch : patched base p.specs = .ok arch) (htaken : r.store.contains newId = true) :
      Settles r p (some (.duplicateId newId)) (r.fail (.duplicateId newId))

/-- The first half of a pass lets a patch stay, unless it is aimed at a stored document and has no
new id. -/
theorem applyInPlace_cons_cases (r : Progress) (p : PendingPatch) (more : List PendingPatch) :
    ((p.newId = none → r.store.get? p.target = none) ∧
        r.applyInPlace (p :: more) = (p :: (r.applyInPlace more).1, (r.applyInPlace more).2)) ∨
      ∃ error t, r.Settles p error t ∧ p.newId = none ∧
        r.applyInPlace (p :: more) = t.applyInPlace more := by
  cases hid : p.newId with
  | some newId => exact .inl ⟨by simp, by simp [applyInPlace, hid]⟩
  | none =>
      cases hbase : r.store.get? p.target with
      | none => exact .inl ⟨fun _ => rfl, by simp [applyInPlace, hid, hbase]⟩
      | some base =>
          right
          cases harch : patched base p.specs with
          | ok arch =>
              exact ⟨_, _, .changed hid hbase harch, rfl, by simp [applyInPlace, hid, hbase, harch]⟩
          | error source =>
              exact ⟨_, _, .unfit hid hbase harch, rfl, by simp [applyInPlace, hid, hbase, harch]⟩

/-- The second half of a pass lets a patch stay, unless it has a new id and is aimed at a document
that is stored and not fresh.  The document that it makes is fresh. -/
theorem derive_cons_cases (r : Progress) (fresh : List DocumentId) (p : PendingPatch)
    (more : List PendingPatch) :
    ((p.newId = none ∨ (if fresh.contains p.target then none else r.store.get? p.target) = none) ∧
        r.derive fresh (p :: more) = (p :: (r.derive fresh more).1, (r.derive fresh more).2)) ∨
      ∃ error t, r.Settles p error t ∧ p.newId ≠ none ∧ fresh.contains p.target = false ∧
        r.derive fresh (p :: more) =
          t.derive (if error.isNone then p.newId.toList ++ fresh else fresh) more := by
  cases hid : p.newId with
  | none => exact .inl ⟨.inl rfl, by simp [derive, hid]⟩
  | some newId =>
      cases hfresh : fresh.contains p.target with
      | true => exact .inl ⟨.inr rfl, by simp only [derive, hid, hfresh, if_true]⟩
      | false =>
          cases hbase : r.store.get? p.target with
          | none =>
              refine .inl ⟨.inr (by simp), ?_⟩
              simp only [derive, hid, hfresh, hbase, Bool.false_eq_true, if_false]
          | some base =>
              right
              cases harch : patched base p.specs with
              | error source =>
                  refine ⟨_, _, .released hid hbase harch, by simp, rfl, ?_⟩
                  simp only [derive, hid, hfresh, hbase, harch, Bool.false_eq_true, if_false]
                  rfl
              | ok arch =>
                  cases htaken : r.store.contains newId with
                  | false =>
                      have hinsert : r.store.insertDerived (derived p newId base arch) =
                          .ok ((r.store.release newId).add (derived p newId base arch)) := by
                        simp [Store.insertDerived, derived, htaken]
                      refine ⟨_, _, .made hid hbase harch htaken, by simp, rfl, ?_⟩
                      simp only [derive, hid, hfresh, hbase, harch, hinsert, Bool.false_eq_true,
                        if_false]
                      rfl
                  | true =>
                      have hinsert : r.store.insertDerived (derived p newId base arch) =
                          .error newId := by
                        simp [Store.insertDerived, derived, htaken]
                      refine ⟨_, _, .collided hid hbase harch htaken, by simp, rfl, ?_⟩
                      simp only [derive, hid, hfresh, hbase, harch, hinsert, Bool.false_eq_true,
                        if_false]
                      rfl

/-! ### Walks and runs -/

/-- Going through a queue once: `r.Walk pending settled left t` starts from the progress `r` and
ends at `t`; the patches in `settled` were settled on the way, those in `left` stay. -/
inductive Walk : Progress → List PendingPatch → List Settled → List PendingPatch → Progress → Prop
  | nil (r : Progress) : Walk r [] [] [] r
  | stay {r t : Progress} {p : PendingPatch} {more left : List PendingPatch}
      {settled : List Settled} (h : Walk r more settled left t) :
      Walk r (p :: more) settled (p :: left) t
  | settle {r m t : Progress} {p : PendingPatch} {error : Option ResolveError}
      {more left : List PendingPatch} {settled : List Settled} (hp : r.Settles p error m)
      (h : Walk m more settled left t) : Walk r (p :: more) (⟨p, error⟩ :: settled) left t

/-- Going through a queue any number of times, each time through what the last one has left. -/
inductive Run : Progress → List PendingPatch → List Settled → List PendingPatch → Progress → Prop
  | refl (r : Progress) (pending : List PendingPatch) : Run r pending [] pending r
  | walk {r m t : Progress} {pending rest left : List PendingPatch}
      {settled later : List Settled} (h : Walk r pending settled rest m)
      (hrest : Run m rest later left t) : Run r pending (settled ++ later) left t

/-- The first half of a pass is a walk that settles patches without a new id. -/
theorem applyInPlace_walk (r : Progress) (pending : List PendingPatch) :
    ∃ settled, r.Walk pending settled (r.applyInPlace pending).1 (r.applyInPlace pending).2 ∧
      ∀ x ∈ settled, x.patch.newId = none := by
  induction pending generalizing r with
  | nil => exact ⟨[], .nil r, by simp⟩
  | cons p more ih =>
      rcases r.applyInPlace_cons_cases p more with ⟨_, heq⟩ | ⟨error, t, hp, hid, heq⟩
      · obtain ⟨settled, hwalk, hplain⟩ := ih r
        exact ⟨settled, heq ▸ .stay hwalk, hplain⟩
      · obtain ⟨settled, hwalk, hplain⟩ := ih t
        exact ⟨⟨p, error⟩ :: settled, heq ▸ .settle hp hwalk,
          List.forall_mem_cons.2 ⟨hid, hplain⟩⟩

/-- The second half of a pass is a walk that settles patches with a new id. -/
theorem derive_walk (r : Progress) (fresh : List DocumentId) (pending : List PendingPatch) :
    ∃ settled, r.Walk pending settled (r.derive fresh pending).1 (r.derive fresh pending).2 ∧
      ∀ x ∈ settled, x.patch.newId ≠ none := by
  induction pending generalizing r fresh with
  | nil => exact ⟨[], .nil r, by simp⟩
  | cons p more ih =>
      rcases r.derive_cons_cases fresh p more with ⟨_, heq⟩ | ⟨error, t, hp, hid, _, heq⟩
      · obtain ⟨settled, hwalk, hnamed⟩ := ih r fresh
        exact ⟨settled, heq ▸ .stay hwalk, hnamed⟩
      · obtain ⟨settled, hwalk, hnamed⟩ := ih t _
        exact ⟨⟨p, error⟩ :: settled, heq ▸ .settle hp hwalk,
          List.forall_mem_cons.2 ⟨hid, hnamed⟩⟩

/-- A pass is two walks. -/
theorem pass_walks (r : Progress) (pending : List PendingPatch) :
    ∃ (m : Progress) (rest : List PendingPatch) (changes makings : List Settled),
      r.Walk pending changes rest m ∧ m.Walk rest makings (r.pass pending).1 (r.pass pending).2 := by
  obtain ⟨changes, hchanges, _⟩ := r.applyInPlace_walk pending
  obtain ⟨makings, hmakings, _⟩ :=
    (r.applyInPlace pending).2.derive_walk [] (r.applyInPlace pending).1
  exact ⟨_, _, changes, makings, hchanges, hmakings⟩

/-- **Passes are a run**, however many a bound allows. -/
theorem passes_run (r : Progress) (pending : List PendingPatch) (bound : Nat) :
    ∃ settled,
      r.Run pending settled (r.passes pending bound).2.1 (r.passes pending bound).2.2 := by
  induction bound generalizing r pending with
  | zero => exact ⟨[], .refl r pending⟩
  | succ bound ih =>
      unfold passes
      split
      · exact ⟨[], .refl r pending⟩
      · obtain ⟨m, rest, changes, makings, hchanges, hmakings⟩ := r.pass_walks pending
        simp only
        split
        · exact ⟨_, .walk hchanges (.walk hmakings (.refl _ _))⟩
        · obtain ⟨later, hlater⟩ := ih (r.pass pending).2 (r.pass pending).1
          exact ⟨_, .walk hchanges (.walk hmakings hlater)⟩

/-! ### No patch is lost or settled twice -/

variable {r t : Progress} {pending left : List PendingPatch} {settled : List Settled}

theorem Walk.perm (h : r.Walk pending settled left t) :
    (settled.map (·.patch) ++ left).Perm pending := by
  induction h with
  | nil => exact .refl _
  | stay _ ih => exact List.perm_middle.trans (ih.cons _)
  | settle _ _ ih => exact ih.cons _

theorem Walk.sublist (h : r.Walk pending settled left t) : left.Sublist pending := by
  induction h with
  | nil => exact .refl _
  | stay _ ih => exact ih.cons_cons _
  | settle _ _ ih => exact ih.cons _

/-- **No patch is lost and none is settled twice**: the patches of the queue are those that are
settled and those that are left. -/
theorem Run.perm (h : r.Run pending settled left t) :
    (settled.map (·.patch) ++ left).Perm pending := by
  induction h with
  | refl => exact .refl _
  | walk h _ ih =>
      rw [List.map_append, List.append_assoc]
      exact (ih.append_left _).trans h.perm

/-- What is left of the queue stands in the order of before. -/
theorem Run.sublist (h : r.Run pending settled left t) : left.Sublist pending := by
  induction h with
  | refl => exact .refl _
  | walk h _ ih => exact ih.trans h.sublist

/-! ### Counts and reports -/

/-- The counts and reports of `t` are those of `r` and what the settled patches add to them. -/
structure Records (r : Progress) (settled : List Settled) (t : Progress) : Prop where
  applied : t.applied = r.applied + (appliedIn settled).length
  created : t.created = r.created ++ announcedBy (appliedIn settled)
  errors : t.errors = r.errors ++ reportedIn settled

theorem Records.refl (r : Progress) : r.Records [] r :=
  ⟨rfl, (List.append_nil _).symm, (List.append_nil _).symm⟩

theorem Records.append {m : Progress} {later : List Settled} (h : r.Records settled m)
    (hlater : m.Records later t) : r.Records (settled ++ later) t where
  applied := by rw [hlater.applied, h.applied, appliedIn_append, List.length_append, Nat.add_assoc]
  created := by
    rw [hlater.created, h.created, appliedIn_append, announcedBy_append, List.append_assoc]
  errors := by rw [hlater.errors, h.errors, reportedIn_append, List.append_assoc]

/-- A settled patch is counted and named if it was applied, and reported if not. -/
theorem Settles.records {p : PendingPatch} {error : Option ResolveError}
    (h : r.Settles p error t) : r.Records [⟨p, error⟩] t := by
  cases h with
  | changed hid _ _ => exact ⟨rfl, by simp [appliedIn, announcedBy, hid], by simp [reportedIn]⟩
  | made hid _ _ _ => exact ⟨rfl, by simp [appliedIn, announcedBy, hid], by simp [reportedIn]⟩
  | unfit | released | collided =>
      exact ⟨rfl, by simp [appliedIn, announcedBy, fail], by simp [reportedIn, fail]⟩

theorem Walk.records (h : r.Walk pending settled left t) : r.Records settled t := by
  induction h with
  | nil r => exact .refl r
  | stay _ ih => exact ih
  | settle hp _ ih => exact hp.records.append ih

/-- Every patch is counted or reported as it was settled. -/
theorem Run.records (h : r.Run pending settled left t) : r.Records settled t := by
  induction h with
  | refl r => exact .refl r
  | walk h _ ih => exact h.records.append ih

/-! ### How many passes there are -/

/-- A pass keeps the order of what it leaves. -/
theorem pass_sublist (r : Progress) (pending : List PendingPatch) :
    (r.pass pending).1.Sublist pending := by
  obtain ⟨_, _, _, _, hchanges, hmakings⟩ := r.pass_walks pending
  exact hmakings.sublist.trans hchanges.sublist

/-- There are no more passes than the bound allows, and none without a patch to settle but the
last. -/
theorem passes_le (r : Progress) (pending : List PendingPatch) (bound : Nat) :
    (r.passes pending bound).1 ≤ min bound pending.length := by
  induction bound generalizing r pending with
  | zero => simp [passes]
  | succ bound ih =>
      unfold passes
      split
      · exact Nat.zero_le _
      · next hempty =>
          have hpos : 0 < pending.length := by
            rw [List.isEmpty_iff] at hempty
            exact List.length_pos_iff.2 hempty
          simp only
          split
          · simp only
            omega
          · next hlength =>
              have hless := (r.pass_sublist pending).length_le
              have hrest := ih (r.pass pending).2 (r.pass pending).1
              simp only
              omega

end Progress

end ViewCompiler
