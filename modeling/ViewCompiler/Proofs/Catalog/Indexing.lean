/-
**Look-ups in a directory.**

The indexes of a directory are filled document by document, in the order of the list.  A look-up is
a search of the list all the same: from the front for the first document of an owner and kind, and
from the end for an id, which comes to the same when no two documents have one id.

Main results:

* `ViewCompiler.Directory.get?_byOwner` — the first document of an owner and kind is found;
* `ViewCompiler.Directory.get?_byId`, `ViewCompiler.Directory.get?_byId_of_nodup` — the last
  document with an id is found, which is the only one if ids are not repeated.
-/

import Mathlib.Data.List.Nodup
import ViewCompiler.Catalog.Directory

set_option relaxedAutoImplicit false
set_option autoImplicit false

namespace ViewCompiler.Directory

variable {entries : List CompiledDocument}

@[simp] theorem ordered_foldl_file (directory : Directory) :
    (entries.foldl file directory).ordered = directory.ordered := by
  induction entries generalizing directory with
  | nil => rfl
  | cons d more ih => exact ih _

@[simp] theorem ordered_ofEntries : (ofEntries entries).ordered = entries :=
  ordered_foldl_file _

/-- What is filed later comes before what was filed earlier. -/
theorem get?_byId_foldl (directory : Directory) (id : DocumentId) :
    (entries.foldl file directory).byId.get? id =
      (entries.reverse.find? (·.id = id)).or (directory.byId.get? id) := by
  induction entries generalizing directory with
  | nil => rfl
  | cons d more ih =>
      rw [List.foldl_cons, ih, List.reverse_cons, List.find?_append, Option.or_assoc]
      congr 1
      by_cases h : d.id = id <;> simp [file, Index.get?_put, h]

/-- **The last document with an id is found.** -/
theorem get?_byId (entries : List CompiledDocument) (id : DocumentId) :
    (ofEntries entries).byId.get? id = entries.reverse.find? (·.id = id) := by
  rw [ofEntries, get?_byId_foldl, Index.get?_empty, Option.or_none]

/-- From which end a list is searched does not matter if there is one to be found. -/
theorem find?_reverse_of_nodup (h : (entries.map (·.id)).Nodup) (id : DocumentId) :
    entries.reverse.find? (·.id = id) = entries.find? (·.id = id) := by
  induction entries with
  | nil => rfl
  | cons d more ih =>
      obtain ⟨hd, hmore⟩ := List.nodup_cons.1 h
      rw [List.reverse_cons, List.find?_append, ih hmore]
      by_cases hid : d.id = id
      · have hnone : more.find? (·.id = id) = none := by
          rw [List.find?_eq_none]
          intro e he heq
          rw [decide_eq_true_eq] at heq
          have hmem : e.id ∈ more.map (·.id) := List.mem_map_of_mem he
          rw [heq, ← hid] at hmem
          exact hd hmem
        rw [hnone]
        simp [hid]
      · simp [hid]

/-- **The document with an id is found**, if ids are not repeated. -/
theorem get?_byId_of_nodup (h : (entries.map (·.id)).Nodup) (id : DocumentId) :
    (ofEntries entries).byId.get? id = entries.find? (·.id = id) := by
  rw [get?_byId, find?_reverse_of_nodup h]

/-- What was filed earlier comes before what is filed later. -/
theorem get?_byOwner_foldl (directory : Directory) (owner : Owner) (kind : ViewKind) :
    (entries.foldl file directory).byOwner.get? (owner, kind) =
      (directory.byOwner.get? (owner, kind)).or
        (entries.find? fun d => d.owner = owner && d.kind = kind) := by
  induction entries generalizing directory with
  | nil => exact Option.or_none.symm
  | cons d more ih =>
      rw [List.foldl_cons, ih, file, Index.get?_putNew, Option.or_assoc]
      congr 1
      by_cases h : d.owner = owner ∧ d.kind = kind
      · simp [h]
      · have hkey : ¬ (d.owner, d.kind) = (owner, kind) := by
          rw [Prod.mk.injEq]
          exact h
        have hd : (decide (d.owner = owner) && decide (d.kind = kind)) = false := by
          rw [← Bool.decide_and]
          exact decide_eq_false h
        rw [if_neg hkey, Option.none_or, List.find?_cons, hd]

/-- **The first document of an owner and kind is found.** -/
theorem get?_byOwner (entries : List CompiledDocument) (owner : Owner) (kind : ViewKind) :
    (ofEntries entries).byOwner.get? (owner, kind) =
      entries.find? fun d => d.owner = owner && d.kind = kind := by
  rw [ofEntries, get?_byOwner_foldl, Index.get?_empty, Option.none_or]

end ViewCompiler.Directory
