/-
**Stores that loading builds up.**

A store starts empty and takes in documents, queued patches and fragments, one after the other.
Nothing else is assumed of it.  What all such stores have in common is that no id is in use twice:
neither two documents nor two queued patches share one, and what a queued patch announces is not
stored yet.  The set of reserved ids is what keeps this so, hence it is part of the invariant.

Main definitions:

* `ViewCompiler.Store.Reachable` — the stores that loading builds up;
* `ViewCompiler.Store.ids`, `ViewCompiler.announcedBy` — the ids of documents, and those that
  queued patches will give;
* `ViewCompiler.Store.Consistent` — no id is in use twice.

Main results:

* `ViewCompiler.Store.load_eq_ok` — a fragment that is taken in is a document or a queued patch;
* `ViewCompiler.Store.Reachable.consistent` — **loading never uses an id twice**.
-/

import ViewCompiler.Inheritance.Fragment
import ViewCompiler.Outcome

set_option relaxedAutoImplicit false
set_option autoImplicit false

namespace ViewCompiler

/-- The ids that queued patches announce, in the order of the queue. -/
def announcedBy (pending : List PendingPatch) : List DocumentId :=
  pending.filterMap (·.newId)

theorem mem_announcedBy {pending : List PendingPatch} {id : DocumentId} :
    id ∈ announcedBy pending ↔ ∃ p ∈ pending, p.newId = some id :=
  List.mem_filterMap

theorem announcedBy_append (pending more : List PendingPatch) :
    announcedBy (pending ++ more) = announcedBy pending ++ announcedBy more :=
  List.filterMap_append

theorem announcedBy_perm {pending more : List PendingPatch} (h : pending.Perm more) :
    (announcedBy pending).Perm (announcedBy more) :=
  h.filterMap _

/-- Patches that announce different ids are told apart by what they announce. -/
theorem eq_of_announced {pending : List PendingPatch} (h : (announcedBy pending).Nodup)
    {p q : PendingPatch} {id : DocumentId} (hp : p ∈ pending) (hq : q ∈ pending)
    (hpid : p.newId = some id) (hqid : q.newId = some id) : p = q := by
  induction pending with
  | nil => exact absurd hp List.not_mem_nil
  | cons a more ih =>
      have hmore : (announcedBy more).Nodup :=
        h.sublist ((List.sublist_cons_self a more).filterMap _)
      -- the head announces `id` at most once, so it cannot share it with a later patch
      have hhead : a.newId = some id → ∀ r ∈ more, r.newId ≠ some id := by
        intro ha r hr hrid
        rw [announcedBy, List.filterMap_cons_some ha] at h
        exact (List.nodup_cons.1 h).1 (mem_announcedBy.2 ⟨r, hr, hrid⟩)
      rcases List.mem_cons.1 hp with rfl | hp'
      · rcases List.mem_cons.1 hq with rfl | hq'
        · rfl
        · exact absurd hqid (hhead hpid q hq')
      · rcases List.mem_cons.1 hq with rfl | hq'
        · exact absurd hpid (hhead hqid p hp')
        · exact ih hmore hp' hq'

namespace Store

/-- The stores that loading builds up. -/
inductive Reachable : Store → Prop
  | empty : Reachable .empty
  | insert {s t : Store} {d : Document} (hs : Reachable s) (h : s.insert d = .ok t) : Reachable t
  | enqueue {s t : Store} {p : PendingPatch} (hs : Reachable s) (h : s.enqueue p = .ok t) :
      Reachable t
  | load {ι : Type} {s t : Store} {e : Element ι} {loaded : Loaded} (hs : Reachable s)
      (h : s.load e = .ok (loaded, t)) : Reachable t

/-- The ids of the stored documents. -/
def ids (s : Store) : List DocumentId :=
  s.stored.map (·.id)

theorem contains_iff {s : Store} {id : DocumentId} : s.contains id = true ↔ id ∈ s.ids := by
  simp [contains, get?, ids]

/-- No id is in use twice, and the reserved ids are those that queued patches announce. -/
structure Consistent (s : Store) : Prop where
  ids_nodup : s.ids.Nodup
  announced_nodup : (announcedBy s.pending).Nodup
  mem_reserved : ∀ id, id ∈ s.reserved ↔ id ∈ announcedBy s.pending
  free : ∀ id ∈ announcedBy s.pending, id ∉ s.ids

theorem consistent_empty : Consistent .empty where
  ids_nodup := List.nodup_nil
  announced_nodup := List.nodup_nil
  mem_reserved _ := Iff.rfl
  free _ h := absurd h List.not_mem_nil

/-- An id that is not taken belongs to no document and is announced by no queued patch. -/
theorem Consistent.free_of_not_taken {s : Store} (hs : s.Consistent) {id : DocumentId}
    (h : s.taken id = false) : id ∉ s.ids ∧ id ∉ announcedBy s.pending := by
  simp only [taken, Bool.or_eq_false_iff, List.contains_eq_mem, decide_eq_false_iff_not] at h
  refine ⟨fun hid => ?_, fun hid => h.2 ((hs.mem_reserved id).2 hid)⟩
  rw [← contains_iff, h.1] at hid
  exact Bool.noConfusion hid

theorem insert_eq_ok {s t : Store} {d : Document} :
    s.insert d = .ok t ↔ s.taken d.id = false ∧ s.add d = t := by
  unfold insert
  cases s.taken d.id <;> simp

theorem ids_add (s : Store) (d : Document) : (s.add d).ids = s.ids ++ [d.id] := by
  simp [add, ids]

theorem Consistent.insert {s t : Store} {d : Document} (hs : s.Consistent)
    (h : s.insert d = .ok t) : t.Consistent := by
  obtain ⟨htaken, rfl⟩ := insert_eq_ok.1 h
  obtain ⟨hid, hannounced⟩ := hs.free_of_not_taken htaken
  refine ⟨?_, hs.announced_nodup, hs.mem_reserved, ?_⟩
  · rw [ids_add]
    exact List.nodup_append.2 ⟨hs.ids_nodup, by simp, by grind⟩
  · intro id hmem
    rw [ids_add, List.mem_append, List.mem_singleton]
    rintro (hold | rfl)
    · exact hs.free id hmem hold
    · exact hannounced hmem

/-- A patch that is taken in stands at the end of the queue under the next sequence number; the id
that it announces was free. -/
theorem enqueue_eq_ok {s t : Store} {p : PendingPatch} (h : s.enqueue p = .ok t) :
    t.stored = s.stored ∧ t.pending = s.pending ++ [{ p with sequence := s.counter + 1 }] ∧
      t.reserved = p.newId.toList ++ s.reserved ∧ ∀ id ∈ p.newId, s.taken id = false := by
  unfold enqueue at h
  cases hid : p.newId with
  | none =>
      rw [hid] at h
      obtain rfl := Except.ok.inj h
      simp
  | some id =>
      rw [hid] at h
      cases htaken : s.taken id with
      | true => simp [htaken] at h
      | false =>
          obtain rfl : _ = t := by simpa [htaken] using h
          simp [htaken]

theorem Consistent.enqueue {s t : Store} {p : PendingPatch} (hs : s.Consistent)
    (h : s.enqueue p = .ok t) : t.Consistent := by
  obtain ⟨hstored, hpending, hreserved, hfree⟩ := enqueue_eq_ok h
  have hids : t.ids = s.ids := by rw [ids, hstored, ids]
  have hannounced : announcedBy t.pending = announcedBy s.pending ++ p.newId.toList := by
    rw [hpending, announcedBy_append]
    cases p.newId <;> simp [announcedBy]
  cases hid : p.newId with
  | none =>
      -- nothing is announced, so neither the ids in use nor those reserved have changed
      simp only [hid, Option.toList_none, List.append_nil, List.nil_append] at hannounced hreserved
      exact ⟨hids ▸ hs.ids_nodup, hannounced ▸ hs.announced_nodup,
        fun id => by rw [hreserved, hannounced, hs.mem_reserved],
        fun id hmem => by rw [hids]; exact hs.free id (hannounced ▸ hmem)⟩
  | some new =>
      obtain ⟨hnew, hnewFree⟩ := hs.free_of_not_taken (hfree new hid)
      simp only [hid, Option.toList_some] at hannounced hreserved
      refine ⟨hids ▸ hs.ids_nodup, ?_, ?_, ?_⟩
      · rw [hannounced]
        exact List.nodup_append.2 ⟨hs.announced_nodup, by simp, by grind⟩
      · intro id
        rw [hreserved, hannounced, List.mem_append, List.mem_append, hs.mem_reserved, or_comm]
      · intro id hmem
        rw [hannounced, List.mem_append, List.mem_singleton] at hmem
        rw [hids]
        rcases hmem with hold | rfl
        · exact hs.free id hold
        · exact hnew

/-- A fragment that is taken in is either a document or a queued patch. -/
theorem load_eq_ok {ι : Type} {s t : Store} {e : Element ι} {loaded : Loaded}
    (h : s.load e = .ok (loaded, t)) :
    (∃ d, s.insert d = .ok t) ∨ ∃ p, s.enqueue p = .ok t := by
  simp only [load] at h
  split at h
  · simp at h
  · split at h
    · simp at h
    · split at h
      · split at h
        · simp at h
        · next patch _ =>
            obtain ⟨u, hu, heq⟩ := map_eq_ok_iff.1 h
            obtain ⟨_, rfl⟩ := Prod.mk.inj heq
            exact Or.inr ⟨patch, hu⟩
      · split at h
        · simp at h
        · next document _ =>
            obtain ⟨u, hu, heq⟩ := map_eq_ok_iff.1 h
            obtain ⟨_, rfl⟩ := Prod.mk.inj heq
            exact Or.inl ⟨document, hu⟩

/-- **Loading never uses an id twice.** -/
theorem Reachable.consistent {s : Store} (h : s.Reachable) : s.Consistent := by
  induction h with
  | empty => exact consistent_empty
  | insert _ h ih => exact ih.insert h
  | enqueue _ h ih => exact ih.enqueue h
  | load _ h ih =>
      rcases load_eq_ok h with ⟨d, hd⟩ | ⟨p, hp⟩
      · exact ih.insert hd
      · exact ih.enqueue hp

end Store

end ViewCompiler
