/-
**Listing documents.**

The documents of a store are listed by owner, priority and place in the order of loading.  Places
are given out once, so no two documents share all three, and there is one such list.  The document
that a look-up by owner and kind gives is found by going through all documents in any order and
keeping the least; it is the first of its kind and owner on the list.

Main definitions:

* `ViewCompiler.Document.listKey`, `ViewCompiler.Document.Before` — the order of the list;
* `ViewCompiler.Document.isOf` — a document is of an owner and a kind.

Main results:

* `ViewCompiler.Store.Numbered.documents_before` — the list is sorted without ties;
* `ViewCompiler.Store.Numbered.firstForOwner?_eq_find?` — **the least document of an owner and kind
  is the first of them on the list**.
-/

import Mathlib.Data.List.Nodup
import Mathlib.Data.Prod.Lex
import Mathlib.Data.String.Basic
import ViewCompiler.Proofs.Inheritance.Integrity

set_option relaxedAutoImplicit false
set_option autoImplicit false

namespace ViewCompiler

namespace Document

/-- What documents are listed by: owner, priority, and place in the order of loading. -/
def listKey (d : Document) : String ×ₗ ℤ ×ₗ ℕ :=
  toLex (d.owner, toLex (d.priority, d.sequence))

theorem le_iff {d e : Document} : d.le e = true ↔ d.listKey ≤ e.listKey := by
  simp [le, listKey, Prod.Lex.toLex_le_toLex]

/-- The order of the list, in which no two documents of a store share a place. -/
def Before (d e : Document) : Prop :=
  d.owner < e.owner ∨ d.owner = e.owner ∧
    (d.priority < e.priority ∨ d.priority = e.priority ∧ d.sequence < e.sequence)

theorem before_iff {d e : Document} : d.Before e ↔ d.listKey < e.listKey := by
  simp [Before, listKey, Prod.Lex.toLex_lt_toLex]

theorem sequence_eq_of_listKey {d e : Document} (h : d.listKey = e.listKey) :
    d.sequence = e.sequence :=
  congrArg (fun k => (ofLex (ofLex k).2).2) h

/-- A document is of an owner and a kind. -/
def isOf (owner : Owner) (kind : ViewKind) (d : Document) : Bool :=
  d.owner = owner && d.kind = kind

/-- The least of the documents seen so far, and of those that are alike the last. -/
def better (best : Option Document) (d : Document) : Option Document :=
  match best with
  | none => some d
  | some b => if d.le b then some d else some b

/-- Going through documents keeps one of them that no other is before. -/
theorem foldl_better (ds : List Document) (b : Document) :
    ∃ m ∈ b :: ds, ds.foldl better (some b) = some m ∧ ∀ d ∈ b :: ds, m.listKey ≤ d.listKey := by
  induction ds generalizing b with
  | nil => exact ⟨b, List.mem_singleton_self b, rfl, by simp⟩
  | cons d more ih =>
      rw [List.foldl_cons, better]
      split
      · next hle =>
          obtain ⟨m, hm, heq, hleast⟩ := ih d
          refine ⟨m, List.mem_cons_of_mem b hm, heq, ?_⟩
          rw [List.forall_mem_cons]
          exact ⟨(hleast d List.mem_cons_self).trans (le_iff.1 hle), hleast⟩
      · next hle =>
          obtain ⟨m, hm, heq, hleast⟩ := ih b
          obtain ⟨hb, hmore⟩ := List.forall_mem_cons.1 hleast
          have hd : m.listKey ≤ d.listKey := hb.trans (le_of_not_ge fun h => hle (le_iff.2 h))
          refine ⟨m, ?_, heq, by simpa [hb, hd] using hmore⟩
          rcases List.mem_cons.1 hm with rfl | hm
          · exact List.mem_cons_self
          · exact List.mem_cons_of_mem b (List.mem_cons_of_mem d hm)

end Document

namespace Store

open Document

variable {s : Store}

theorem documents_perm (s : Store) : s.documents.Perm s.stored :=
  List.mergeSort_perm s.stored Document.le

theorem documents_le (s : Store) :
    s.documents.Pairwise fun d e => d.listKey ≤ e.listKey := by
  have htrans : ∀ a b c : Document, a.le b = true → b.le c = true → a.le c = true := by
    intro a b c hab hbc
    rw [le_iff] at *
    exact hab.trans hbc
  have htotal : ∀ a b : Document, (a.le b || b.le a) = true := by
    intro a b
    rw [Bool.or_eq_true, le_iff, le_iff]
    exact le_total a.listKey b.listKey
  exact (List.pairwise_mergeSort htrans htotal s.stored).imp le_iff.1

/-- Documents have different places in the order of loading. -/
theorem Numbered.stored_nodup (hs : s.Numbered) : (s.stored.map (·.sequence)).Nodup :=
  hs.numbers_nodup.sublist (List.sublist_append_left _ _)

/-- No two documents of a store are listed by the same. -/
theorem Numbered.eq_of_listKey (hs : s.Numbered) {d e : Document} (hd : d ∈ s.stored)
    (he : e ∈ s.stored) (h : d.listKey = e.listKey) : d = e :=
  List.inj_on_of_nodup_map hs.stored_nodup hd he (sequence_eq_of_listKey h)

/-- The list is sorted without ties. -/
theorem Numbered.documents_before (hs : s.Numbered) : s.documents.Pairwise Document.Before := by
  have hnodup : s.documents.Nodup :=
    s.documents_perm.nodup_iff.2 (List.Nodup.of_map _ hs.stored_nodup)
  refine (s.documents_le.and hnodup).imp_of_mem fun {d e} hd he h => ?_
  obtain ⟨hle, hne⟩ := h
  refine before_iff.2 (lt_of_le_of_ne hle fun hkey => hne ?_)
  exact hs.eq_of_listKey (s.documents_perm.subset hd) (s.documents_perm.subset he) hkey

/-- **The least document of an owner and kind is the first of them on the list.** -/
theorem Numbered.firstForOwner?_eq_find? (hs : s.Numbered) (owner : Owner) (kind : ViewKind) :
    s.firstForOwner? owner kind = s.documents.find? (isOf owner kind) := by
  have hfold : s.firstForOwner? owner kind =
      (s.stored.filter (isOf owner kind)).foldl better none := rfl
  have hperm : (s.documents.filter (isOf owner kind)).Perm (s.stored.filter (isOf owner kind)) :=
    s.documents_perm.filter _
  have hsorted := s.documents_le.filter (isOf owner kind)
  rw [hfold, ← List.head?_filter]
  cases hstored : s.stored.filter (isOf owner kind) with
  | nil =>
      rw [hstored] at hperm
      rw [hperm.eq_nil]
      rfl
  | cons b ds =>
      obtain ⟨m, hm, heq, hleast⟩ := foldl_better ds b
      rw [← hstored] at hm hleast
      cases hlisted : s.documents.filter (isOf owner kind) with
      | nil => exact absurd (hperm.mem_iff.2 hm) (by simp [hlisted])
      | cons first rest =>
          rw [hlisted] at hperm hsorted
          have hfirst := hperm.subset List.mem_cons_self
          -- each of the two is listed before the other
          have hle : first.listKey ≤ m.listKey := by
            rcases List.mem_cons.1 (hperm.mem_iff.2 hm) with rfl | hrest
            · exact le_refl _
            · exact (List.pairwise_cons.1 hsorted).1 m hrest
          have hkey := le_antisymm (hleast first hfirst) hle
          have hsame := hs.eq_of_listKey (List.mem_of_mem_filter hm)
            (List.mem_of_mem_filter hfirst) hkey
          exact heq.trans (congrArg some hsame)

end Store

end ViewCompiler
