/-
**The account of a resolution.**

A queued patch ends in one of three ways: it is applied, it is reported with an error, or it stays
in the queue.  The outcome of a resolution only gives numbers and lists; the account says which
patch stands behind each of them, and that nothing is left over.  It is read off the run that the
resolution is: what was settled on the way was applied or reported, and what was not is the final
queue.

Main definitions:

* `ViewCompiler.PendingPatch.Before` — the order of consideration;
* `ViewCompiler.failedIn` — the reported patches, each with what was wrong with it;
* `ViewCompiler.Store.Accounts` — the account of a resolution.

Main results:

* `ViewCompiler.Store.Numbered.queue_before` — the queue is sorted, and no two patches share a place;
* `ViewCompiler.Store.Attained.resolve_accounts` — **every resolution can be accounted for**.
-/

import Mathlib.Data.List.Nodup
import ViewCompiler.Proofs.Inheritance.Integrity

set_option relaxedAutoImplicit false
set_option autoImplicit false

namespace ViewCompiler

/-! ### The order of consideration -/

namespace PendingPatch

/-- Queued patches are considered by priority, and in the order of loading within one. -/
def Before (p q : PendingPatch) : Prop :=
  p.sortKey.1 < q.sortKey.1 ∨ p.sortKey.1 = q.sortKey.1 ∧ p.sortKey.2 < q.sortKey.2

theorem le_iff {p q : PendingPatch} : p.le q = true ↔
    p.sortKey.1 < q.sortKey.1 ∨ p.sortKey.1 = q.sortKey.1 ∧ p.sortKey.2 ≤ q.sortKey.2 := by
  simp [le]

theorem le_trans {p q r : PendingPatch} (hpq : p.le q = true) (hqr : q.le r = true) :
    p.le r = true := by
  rw [le_iff] at *
  omega

theorem le_total (p q : PendingPatch) : (p.le q || q.le p) = true := by
  rw [Bool.or_eq_true, le_iff, le_iff]
  omega

end PendingPatch

namespace Store

theorem queue_le (s : Store) : s.queue.Pairwise fun p q => p.le q = true :=
  @List.pairwise_mergeSort _ PendingPatch.le (fun _ _ _ => PendingPatch.le_trans)
    PendingPatch.le_total s.pending

/-- Queued patches have different places in the order of loading. -/
theorem Numbered.sequences_nodup {s : Store} (hs : s.Numbered) :
    (s.pending.map (·.sequence)).Nodup :=
  hs.numbers_nodup.sublist (List.sublist_append_right _ _)

theorem Numbered.pending_nodup {s : Store} (hs : s.Numbered) : s.pending.Nodup :=
  List.Nodup.of_map _ hs.sequences_nodup

/-- The queue is sorted, and no two patches share a place. -/
theorem Numbered.queue_before {s : Store} (hs : s.Numbered) :
    s.queue.Pairwise PendingPatch.Before := by
  have hdiffer : s.queue.Pairwise fun p q => p.sequence ≠ q.sequence :=
    List.pairwise_map.1 (((List.mergeSort_perm s.pending _).map _).nodup_iff.2 hs.sequences_nodup)
  refine (s.queue_le.and hdiffer).imp fun {p q} h => ?_
  obtain ⟨hle, hne⟩ := h
  rw [PendingPatch.le_iff] at hle
  simp only [PendingPatch.Before, PendingPatch.sortKey] at hle ⊢
  omega

end Store

/-! ### Failures -/

/-- The reported patches, each with what was wrong with it. -/
def failedIn (settled : List Settled) : List (PendingPatch × PatchError) :=
  settled.filterMap fun x =>
    match x.error with
    | some (.patch _ _ source) => some (x.patch, source)
    | _ => none

/-- A patch that was settled was either applied or has failed. -/
theorem perm_appliedIn_failedIn {settled : List Settled} (h : ∀ x ∈ settled, x.ReportsPatch) :
    (appliedIn settled ++ (failedIn settled).map (·.1)).Perm (settled.map (·.patch)) := by
  induction settled with
  | nil => exact .refl _
  | cons x more ih =>
      obtain ⟨hx, hmore⟩ := List.forall_mem_cons.1 h
      cases herror : x.error with
      | none => simpa [appliedIn, failedIn, herror] using ih hmore
      | some e =>
          obtain ⟨source, rfl⟩ := hx e herror
          have hrest := List.perm_middle.trans ((ih hmore).cons x.patch)
          simpa [appliedIn, failedIn, herror] using hrest

/-- The error that a failed patch is reported with. -/
def reportOf (failure : PendingPatch × PatchError) : ResolveError :=
  .patch failure.1.target failure.1.newId failure.2

theorem reportedIn_eq {settled : List Settled} (h : ∀ x ∈ settled, x.ReportsPatch) :
    reportedIn settled = (failedIn settled).map reportOf := by
  induction settled with
  | nil => rfl
  | cons x more ih =>
      obtain ⟨hx, hmore⟩ := List.forall_mem_cons.1 h
      cases herror : x.error with
      | none => simpa [reportedIn, failedIn, herror] using ih hmore
      | some e =>
          obtain ⟨source, rfl⟩ := hx e herror
          simpa [reportedIn, failedIn, reportOf, herror] using ih hmore

/-- The error is about a patch that has left the queue. -/
def ResolveError.isFinal : ResolveError → Bool
  | .patch .. | .duplicateId _ => true
  | .unresolvedBase .. => false

namespace Store

/-! ### The account -/

/-- The account of a resolution: which patches were applied, and which were reported with what. -/
structure Accounts (s : Store) (options : ResolverOptions) (applied : List PendingPatch)
    (failed : List (PendingPatch × PatchError)) : Prop where
  /-- Resolution stops at the bound, and after no more passes than there were patches. -/
  passes_le : (s.resolve options).1.passes ≤ min options.maxPasses s.pending.length
  /-- The queued patches are told apart. -/
  pending_nodup : s.pending.Nodup
  /-- Each of them was applied, was reported or is still queued, and only one of these. -/
  pending_perm : (applied ++ failed.map (·.1) ++ (s.resolve options).2.pending).Perm s.pending
  /-- The applied patches are counted. -/
  applied_eq : (s.resolve options).1.applied = applied.length
  /-- The new documents are those of the applied patches with a new id. -/
  created_eq : (s.resolve options).1.created = announcedBy applied
  created_nodup : (s.resolve options).1.created.Nodup
  /-- The unresolved entries are those of the final queue, in its order. -/
  unresolved_eq : (s.resolve options).1.unresolved =
    (s.resolve options).2.pending.map fun p => ⟨p.target, p.newId⟩
  pending_before : (s.resolve options).2.pending.Pairwise PendingPatch.Before
  /-- There is one error for each reported patch; where the policy asks for it, one for each
  unresolved entry follows. -/
  errors_eq : (s.resolve options).1.errors = failed.map reportOf ++
    if options.unresolved = .error then
      (s.resolve options).1.unresolved.map fun u => .unresolvedBase u.target u.newId
    else []
  /-- The sum. -/
  total : (s.resolve options).1.applied + (s.resolve options).1.errors.countP (·.isFinal) +
    (s.resolve options).2.pending.length = s.pending.length

/-- The errors that a policy asks for, read off the unresolved entries. -/
theorem errors_unresolved (policy : UnresolvedPolicy) (pending : List PendingPatch) :
    policy.errors pending = if policy = .error then
      (pending.map PendingPatch.unresolved).map fun u => .unresolvedBase u.target u.newId
    else [] := by
  cases policy <;> simp [UnresolvedPolicy.errors, PendingPatch.unresolved]

theorem countP_isFinal (failed : List (PendingPatch × PatchError)) (policy : UnresolvedPolicy)
    (pending : List PendingPatch) :
    (failed.map reportOf ++ policy.errors pending).countP (·.isFinal) = failed.length := by
  have hfailed : (failed.map reportOf).countP (·.isFinal) = failed.length := by
    rw [List.countP_map]
    exact List.countP_eq_length.2 fun _ _ => rfl
  have hpolicy : (policy.errors pending).countP (·.isFinal) = 0 := by
    rw [List.countP_eq_zero]
    cases policy <;> simp [UnresolvedPolicy.errors, ResolveError.isFinal]
  rw [List.countP_append, hfailed, hpolicy, Nat.add_zero]

/-- **Every resolution can be accounted for**, whatever operations have led to the store. -/
theorem Attained.resolve_accounts {s : Store} (h : s.Attained) (options : ResolverOptions) :
    ∃ applied failed, s.Accounts options applied failed := by
  obtain ⟨settled, t, hrun, _, happlied, hcreated, herrors⟩ := s.resolve_run options
  obtain ⟨_, hreports⟩ := h.sound.sorted.run hrun
  rw [reportedIn_eq hreports] at herrors
  have hqueue : s.queue.Perm s.pending := List.mergeSort_perm _ _
  have hpartition : (appliedIn settled ++ (failedIn settled).map (·.1) ++
      (s.resolve options).2.pending).Perm s.pending :=
    (((perm_appliedIn_failedIn hreports).append_right _).trans hrun.perm).trans hqueue
  refine ⟨appliedIn settled, failedIn settled, ?_⟩
  refine
    { passes_le := ?_
      pending_nodup := h.sound.pending_nodup
      pending_perm := hpartition
      applied_eq := happlied
      created_eq := hcreated
      created_nodup := ?_
      unresolved_eq := rfl
      pending_before := h.sound.queue_before.sublist hrun.sublist
      errors_eq := herrors.trans (congrArg _ (errors_unresolved _ _))
      total := ?_ }
  · rw [← hqueue.length_eq]
    exact Progress.passes_le _ _ _
  · -- what was created is announced by patches of the queue, and these announce different ids
    have hannounced := (announcedBy_perm hpartition).nodup_iff.2 h.sound.announced_nodup
    rw [List.append_assoc, announcedBy_append] at hannounced
    exact hcreated ▸ hannounced.sublist (List.sublist_append_left _ _)
  · have hlength := hpartition.length_eq
    simp only [List.length_append, List.length_map] at hlength
    rw [happlied, herrors, countP_isFinal]
    exact hlength

/-- Of three queued patches one is applied, one does not fit and one is left; where the policy asks
for it, that is an error as well. -/
theorem backlog_accounts :
    backlog.Attained ∧
      (∃ applied failed, backlog.Accounts { unresolved := .error } applied failed) ∧
      (backlog.resolve { unresolved := .error }).1 =
        { passes := 2
          applied := 1
          created := []
          unresolved := [⟨"ghost", some "shade"⟩]
          errors := [.patch "form" (some "copy") (.nodeNotFound "//field[@name='a']"),
            .unresolvedBase "ghost" (some "shade")] } := by
  refine ⟨attained_backlog, attained_backlog.resolve_accounts _, ?_⟩
  rw [Store.resolve, ← queue, queue_backlog]
  decide +kernel

end Store

end ViewCompiler
