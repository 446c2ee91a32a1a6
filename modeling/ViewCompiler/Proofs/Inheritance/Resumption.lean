/-
**Taking up a resolution again.**

A resolution stops at its bound, or earlier, when the queue is empty or a pass has settled nothing.
What it leaves in the queue can be resolved further, and nothing is lost by having stopped: two
resolutions, one after the other, do what one with the sum of their bounds does.

Nothing passes from one pass to the next but the store and the queue, so the counts and reports
are carried along on top.  A pass that settles nothing changes nothing, and would go on doing so;
that is why stopping early makes no difference, and the passes that a bound allows are just that
many repetitions of one pass.

Main definitions:

* `ViewCompiler.Progress.turn` — one pass, as a step from queue and progress to queue and progress;
* `ViewCompiler.Progress.onTop` — a progress after another one;
* `ViewCompiler.Store.Resumes` — two resolutions do what one does.

Main results:

* `ViewCompiler.Progress.pass_of_length_eq` — a pass that settles nothing changes nothing;
* `ViewCompiler.Progress.passes_eq_iterate` — **passes up to a bound are repetitions of a pass**;
* `ViewCompiler.Store.resolve_resumes` — **a resolution can be split at every bound**.
-/

import Mathlib.Logic.Function.Iterate
import ViewCompiler.Proofs.Inheritance.Accounting

set_option relaxedAutoImplicit false
set_option autoImplicit false

namespace ViewCompiler

namespace Progress

variable {r t : Progress} {pending left : List PendingPatch} {settled : List Settled}

/-! ### Passes that settle nothing -/

/-- A walk that leaves as much as it found has settled nothing. -/
theorem Walk.eq_of_length_eq (h : r.Walk pending settled left t)
    (hlength : left.length = pending.length) : left = pending ∧ t = r := by
  induction h with
  | nil => exact ⟨rfl, rfl⟩
  | stay _ ih =>
      obtain ⟨rfl, rfl⟩ := ih (Nat.succ.inj hlength)
      exact ⟨rfl, rfl⟩
  | settle _ hrest _ =>
      have hle := hrest.sublist.length_le
      rw [List.length_cons] at hlength
      omega

/-- **A pass that settles nothing changes nothing.** -/
theorem pass_of_length_eq (h : (r.pass pending).1.length = pending.length) :
    r.pass pending = (pending, r) := by
  obtain ⟨m, rest, _, _, hchanges, hmakings⟩ := r.pass_walks pending
  have hrest := hchanges.sublist.length_le
  have hleft := hmakings.sublist.length_le
  obtain ⟨rfl, rfl⟩ := hchanges.eq_of_length_eq (by omega)
  obtain ⟨hqueue, hprogress⟩ := hmakings.eq_of_length_eq h
  exact Prod.ext hqueue hprogress

/-! ### Passes as repetitions -/

/-- One pass, as a step from queue and progress to queue and progress. -/
def turn (x : List PendingPatch × Progress) : List PendingPatch × Progress :=
  x.2.pass x.1

/-- **Passes up to a bound are repetitions of a pass**: whatever would follow after an early stop
changes nothing. -/
theorem passes_eq_iterate (r : Progress) (pending : List PendingPatch) (bound : Nat) :
    (r.passes pending bound).2 = turn^[bound] (pending, r) := by
  induction bound generalizing r pending with
  | zero => rfl
  | succ bound ih =>
      unfold passes
      split
      · next hempty =>
          obtain rfl := List.isEmpty_iff.1 hempty
          exact (Function.iterate_fixed (show turn ([], r) = ([], r) from rfl) _).symm
      · simp only
        split
        · next hlength =>
            have hidle : turn (pending, r) = (pending, r) := pass_of_length_eq hlength
            rw [Function.iterate_fixed hidle]
            exact hidle
        · exact ih (r.pass pending).2 (r.pass pending).1

/-- Passes that stop before their bound stop where a pass changes nothing. -/
theorem turn_passes {bound : Nat} (h : (r.passes pending bound).1 < bound) :
    turn (r.passes pending bound).2 = (r.passes pending bound).2 := by
  induction bound generalizing r pending with
  | zero => exact absurd h (Nat.not_lt_zero _)
  | succ bound ih =>
      unfold passes at h ⊢
      split at h
      · next hempty =>
          rw [if_pos hempty]
          obtain rfl := List.isEmpty_iff.1 hempty
          rfl
      · next hempty =>
          rw [if_neg hempty]
          simp only at h ⊢
          split at h
          · next hlength =>
              have hidle : turn (pending, r) = (pending, r) := pass_of_length_eq hlength
              rw [if_pos hlength]
              exact (congrArg turn hidle)
          · next hlength =>
              rw [if_neg hlength]
              exact ih (Nat.lt_of_succ_lt_succ h)

/-! ### Counts and reports on top of others -/

/-- A progress after another one: the store is the later one, counts and reports add up. -/
def onTop (r earlier : Progress) : Progress where
  store := r.store
  applied := earlier.applied + r.applied
  created := earlier.created ++ r.created
  errors := earlier.errors ++ r.errors

theorem fail_onTop (r earlier : Progress) (error : ResolveError) :
    (r.onTop earlier).fail error = (r.fail error).onTop earlier := by
  simp [fail, onTop]

/-- The first half of a pass works on the store alone. -/
theorem applyInPlace_onTop (r earlier : Progress) (pending : List PendingPatch) :
    (r.onTop earlier).applyInPlace pending =
      ((r.applyInPlace pending).1, (r.applyInPlace pending).2.onTop earlier) := by
  induction pending generalizing r with
  | nil => rfl
  | cons p more ih =>
      have hstore : (r.onTop earlier).store = r.store := rfl
      cases hid : p.newId with
      | some newId => simp only [applyInPlace, hid, ih]
      | none =>
          cases hbase : r.store.get? p.target with
          | none => simp only [applyInPlace, hid, hstore, hbase, ih]
          | some base =>
              cases harch : patched base p.specs with
              | error source =>
                  simp only [applyInPlace, hid, hstore, hbase, harch, fail_onTop, ih]
              | ok arch =>
                  simp only [applyInPlace, hid, hstore, hbase, harch]
                  exact ih { r with
                    store := r.store.setArch p.target arch, applied := r.applied + 1 }

/-- The second half of a pass works on the store alone. -/
theorem derive_onTop (r earlier : Progress) (fresh : List DocumentId)
    (pending : List PendingPatch) :
    (r.onTop earlier).derive fresh pending =
      ((r.derive fresh pending).1, (r.derive fresh pending).2.onTop earlier) := by
  induction pending generalizing r fresh with
  | nil => rfl
  | cons p more ih =>
      have hstore : (r.onTop earlier).store = r.store := rfl
      cases hid : p.newId with
      | none => simp only [derive, hid, ih]
      | some newId =>
          cases hbase : (if fresh.contains p.target then none else r.store.get? p.target) with
          | none => simp only [derive, hid, hstore, hbase, ih]
          | some base =>
              cases harch : patched base p.specs with
              | error source =>
                  have hfail := fail_onTop { r with store := r.store.release newId } earlier
                    (.patch p.target (some newId) source)
                  simp only [derive, hid, hstore, hbase, harch]
                  exact (congrArg (derive · fresh more) hfail).trans (ih _ fresh)
              | ok arch =>
                  cases hinsert : r.store.insertDerived (derived p newId base arch) with
                  | error id =>
                      simp only [derive, hid, hstore, hbase, harch, hinsert, fail_onTop, ih]
                  | ok store =>
                      simp only [derive, hid, hstore, hbase, harch, hinsert]
                      have hcounts : (⟨store, (r.onTop earlier).applied + 1,
                          (r.onTop earlier).created ++ [newId], (r.onTop earlier).errors⟩ :
                          Progress) =
                          onTop ⟨store, r.applied + 1, r.created ++ [newId], r.errors⟩
                            earlier := by
                        simp [onTop, Nat.add_assoc]
                      rw [hcounts, ih]

theorem pass_onTop (r earlier : Progress) (pending : List PendingPatch) :
    (r.onTop earlier).pass pending = ((r.pass pending).1, (r.pass pending).2.onTop earlier) := by
  simp only [pass, applyInPlace_onTop, derive_onTop]

/-- Repeated passes work on the store and the queue alone. -/
theorem iterate_turn_onTop (r earlier : Progress) (pending : List PendingPatch) (n : Nat) :
    turn^[n] (pending, r.onTop earlier) =
      ((turn^[n] (pending, r)).1, (turn^[n] (pending, r)).2.onTop earlier) := by
  induction n generalizing r pending with
  | zero => rfl
  | succ n ih =>
      rw [Function.iterate_succ_apply, Function.iterate_succ_apply]
      have hturn : turn (pending, r.onTop earlier) =
          ((turn (pending, r)).1, (turn (pending, r)).2.onTop earlier) :=
        r.pass_onTop earlier pending
      rw [hturn]
      exact ih _ _

/-! ### What a run keeps -/

/-- What every settled patch keeps, a walk keeps. -/
theorem Walk.keeps {P : Progress → Prop}
    (hP : ∀ {r t p error}, Settles r p error t → P r → P t)
    (h : r.Walk pending settled left t) (hr : P r) : P t := by
  induction h with
  | nil => exact hr
  | stay _ ih => exact ih hr
  | settle hp _ ih => exact ih (hP hp hr)

/-- What every settled patch keeps, a run keeps. -/
theorem Run.keeps {P : Progress → Prop}
    (hP : ∀ {r t p error}, Settles r p error t → P r → P t)
    (h : r.Run pending settled left t) (hr : P r) : P t := by
  induction h with
  | refl => exact hr
  | walk h _ ih => exact ih (h.keeps hP hr)

/-- The queue is kept apart from the store, and only patches that have left it are reported. -/
structure Apart (r : Progress) : Prop where
  pending : r.store.pending = []
  errors : ∀ e ∈ r.errors, e.isFinal = true

theorem Settles.apart {p : PendingPatch} {error : Option ResolveError} (h : r.Settles p error t)
    (hr : r.Apart) : t.Apart := by
  obtain ⟨hpending, herrors⟩ := hr
  cases h with
  | changed | made => exact ⟨hpending, herrors⟩
  | unfit | released | collided =>
      refine ⟨hpending, fun e he => ?_⟩
      rcases List.mem_append.1 he with hold | hnew
      · exact herrors e hold
      · rw [List.mem_singleton.1 hnew]
        rfl

end Progress

namespace Store

open Progress

/-! ### Two resolutions and one -/

/-- The queue and the progress where the passes of a resolution end. -/
def afterPasses (s : Store) (bound : Nat) : List PendingPatch × Progress :=
  turn^[bound] (s.queue, s.start)

variable (s : Store) (bound : Nat) (policy : UnresolvedPolicy)

theorem resolve_store :
    (s.resolve ⟨bound, policy⟩).2 =
      (s.afterPasses bound).2.store.withQueue (s.afterPasses bound).1 := by
  rw [afterPasses, ← passes_eq_iterate]
  rfl

theorem resolve_applied :
    (s.resolve ⟨bound, policy⟩).1.applied = (s.afterPasses bound).2.applied := by
  rw [afterPasses, ← passes_eq_iterate]
  rfl

theorem resolve_created :
    (s.resolve ⟨bound, policy⟩).1.created = (s.afterPasses bound).2.created := by
  rw [afterPasses, ← passes_eq_iterate]
  rfl

theorem afterPasses_apart : (s.afterPasses bound).2.Apart := by
  obtain ⟨settled, hrun⟩ := passes_run s.start s.queue bound
  rw [passes_eq_iterate] at hrun
  exact hrun.keeps Settles.apart ⟨rfl, fun e he => absurd he List.not_mem_nil⟩

/-- The reports on patches that have left the queue are those of the passes. -/
theorem resolve_finals :
    (s.resolve ⟨bound, policy⟩).1.errors.filter (·.isFinal) =
      (s.afterPasses bound).2.errors := by
  have herrors : (s.resolve ⟨bound, policy⟩).1.errors =
      (s.afterPasses bound).2.errors ++ policy.errors (s.afterPasses bound).1 := by
    rw [afterPasses, ← passes_eq_iterate]
    rfl
  have hpolicy : (policy.errors (s.afterPasses bound).1).filter (·.isFinal) = [] := by
    cases policy <;> simp [UnresolvedPolicy.errors, ResolveError.isFinal]
  rw [herrors, List.filter_append, hpolicy, List.append_nil,
    List.filter_eq_self.2 (s.afterPasses_apart bound).errors]

/-- What a resolution leaves in the queue is sorted already. -/
theorem queue_resolve :
    (s.resolve ⟨bound, policy⟩).2.queue = (s.afterPasses bound).1 := by
  obtain ⟨settled, hrun⟩ := passes_run s.start s.queue bound
  rw [passes_eq_iterate] at hrun
  rw [resolve_store]
  exact List.mergeSort_of_pairwise (s.queue_le.sublist hrun.sublist)

/-- A second resolution starts where the first one has ended, but for counts and reports. -/
theorem start_resolve :
    (s.resolve ⟨bound, policy⟩).2.start.onTop (s.afterPasses bound).2 =
      (s.afterPasses bound).2 := by
  have hpending := (s.afterPasses_apart bound).pending
  have hstore : (s.resolve ⟨bound, policy⟩).2.start.store = (s.afterPasses bound).2.store := by
    rw [resolve_store, start, withQueue, ← hpending]
  simp only [onTop, hstore]
  simp [start]

/-- A second resolution goes on with the queue that the first one has left. -/
theorem afterPasses_resolve (n : Nat) :
    (s.resolve ⟨bound, policy⟩).2.afterPasses n =
      turn^[n] ((s.afterPasses bound).1, (s.resolve ⟨bound, policy⟩).2.start) :=
  congrArg (fun queue => turn^[n] (queue, (s.resolve ⟨bound, policy⟩).2.start))
    (s.queue_resolve bound policy)

/-- The passes of two resolutions are those of one. -/
theorem afterPasses_add (m n : Nat) :
    s.afterPasses (m + n) =
      (((s.resolve ⟨m, policy⟩).2.afterPasses n).1,
        ((s.resolve ⟨m, policy⟩).2.afterPasses n).2.onTop (s.afterPasses m).2) := by
  have hsplit : s.afterPasses (m + n) = turn^[n] (s.afterPasses m) := by
    rw [afterPasses, afterPasses, Nat.add_comm, Function.iterate_add_apply]
  have hrest := iterate_turn_onTop (s.resolve ⟨m, policy⟩).2.start (s.afterPasses m).2
    (s.afterPasses m).1 n
  rw [start_resolve, ← afterPasses_resolve] at hrest
  exact hsplit.trans hrest

/-- After passes that have stopped before their bound, more of them change nothing. -/
theorem afterPasses_idle {m : Nat} (h : (s.resolve ⟨m, policy⟩).1.passes < m) (n : Nat) :
    (s.resolve ⟨m, policy⟩).2.afterPasses n =
      ((s.afterPasses m).1, (s.resolve ⟨m, policy⟩).2.start) := by
  have hfixed : turn (s.afterPasses m) = s.afterPasses m := by
    rw [afterPasses, ← passes_eq_iterate]
    exact turn_passes h
  -- the same pass, without the counts and reports of the first resolution
  have hpass := pass_onTop (s.resolve ⟨m, policy⟩).2.start (s.afterPasses m).2 (s.afterPasses m).1
  rw [start_resolve] at hpass
  have hqueue : ((s.resolve ⟨m, policy⟩).2.start.pass (s.afterPasses m).1).1 =
      (s.afterPasses m).1 :=
    (Prod.ext_iff.1 (hpass.symm.trans hfixed)).1
  have hidle : turn ((s.afterPasses m).1, (s.resolve ⟨m, policy⟩).2.start) =
      ((s.afterPasses m).1, (s.resolve ⟨m, policy⟩).2.start) :=
    pass_of_length_eq (congrArg List.length hqueue)
  rw [afterPasses_resolve]
  exact Function.iterate_fixed hidle n

/-- Two resolutions, the second of what the first has left, do what one does. -/
structure Resumes (first second whole : Resolution × Store) : Prop where
  /-- Documents, queue, reserved ids and counter are the same. -/
  store_eq : second.2 = whole.2
  applied_add : first.1.applied + second.1.applied = whole.1.applied
  created_append : first.1.created ++ second.1.created = whole.1.created
  /-- The reports on patches that have left the queue are the same. -/
  errors_append : first.1.errors.filter (·.isFinal) ++ second.1.errors.filter (·.isFinal) =
    whole.1.errors.filter (·.isFinal)

/-- A resolution that does nothing to a store. -/
structure Idle (s : Store) (outcome : Resolution × Store) : Prop where
  store_eq : outcome.2 = s
  applied_eq : outcome.1.applied = 0
  created_eq : outcome.1.created = []
  errors_eq : outcome.1.errors.filter (·.isFinal) = []

/-- **A resolution can be split at every bound.**  If its first part stops before the bound, there
is nothing left to do for the second.  Whether patches that stay in the queue count as errors makes
no difference. -/
theorem resolve_resumes (s : Store) (m n : Nat) (before after whole : UnresolvedPolicy) :
    Resumes (s.resolve ⟨m, before⟩) ((s.resolve ⟨m, before⟩).2.resolve ⟨n, after⟩)
        (s.resolve ⟨m + n, whole⟩) ∧
      ((s.resolve ⟨m, before⟩).1.passes < m →
        Idle (s.resolve ⟨m, before⟩).2 ((s.resolve ⟨m, before⟩).2.resolve ⟨n, after⟩)) := by
  have hadd := s.afterPasses_add before m n
  constructor
  · exact
      { store_eq := by rw [resolve_store, resolve_store s (m + n), hadd]; rfl
        applied_add := by simp only [resolve_applied, hadd]; rfl
        created_append := by simp only [resolve_created, hadd]; rfl
        errors_append := by simp only [resolve_finals, hadd]; rfl }
  · intro hstop
    have hidle := s.afterPasses_idle before hstop n
    exact
      { store_eq := by
          rw [resolve_store, hidle, resolve_store]
          rfl
        applied_eq := by rw [resolve_applied, hidle]; rfl
        created_eq := by rw [resolve_created, hidle]; rfl
        errors_eq := by rw [resolve_finals, hidle]; rfl }

/-- One pass over the family makes the copy, and the next one applies the patch on it; with a bound
of three the queue is empty before the bound is reached. -/
theorem family_resumes :
    Resumes (family.resolve ⟨1, .warn⟩) ((family.resolve ⟨1, .warn⟩).2.resolve ⟨2, .error⟩)
        (family.resolve ⟨3, .ignore⟩) ∧
      (family.resolve ⟨1, .warn⟩).1.applied = 2 ∧ (family.resolve ⟨3, .ignore⟩).1.applied = 3 ∧
      (family.resolve ⟨3, .ignore⟩).1.passes = 2 ∧
      Idle (family.resolve ⟨3, .ignore⟩).2
        ((family.resolve ⟨3, .ignore⟩).2.resolve ⟨7, .error⟩) := by
  have hsorted : family.pending.mergeSort PendingPatch.le = family.pending :=
    List.mergeSort_of_pairwise (by decide)
  have hfirst : (family.resolve ⟨1, .warn⟩).1.applied = 2 := by
    rw [resolve, hsorted]
    decide +kernel
  have hwhole : (family.resolve ⟨3, .ignore⟩).1.applied = 3 ∧
      (family.resolve ⟨3, .ignore⟩).1.passes = 2 := by
    rw [resolve, hsorted]
    decide +kernel
  refine ⟨(resolve_resumes family 1 2 .warn .error .ignore).1, hfirst, hwhole.1, hwhole.2, ?_⟩
  exact (resolve_resumes family 3 7 .ignore .error .ignore).2 (by rw [hwhole.2]; decide)

end Store

end ViewCompiler
