/-
**The directory of a catalog.**

Documents that have been compiled are kept in a list, and filed besides under their ids, and under
their owners and kinds.  An id leads to the document that was filed under it last.  Of several
documents of one owner and kind the first that is filed stays; since documents are filed in the
order of the list, it is the one that comes first there.

Main definitions:

* `ViewCompiler.Index` — documents under keys, `ViewCompiler.Index.put` and
  `ViewCompiler.Index.putNew` — filing a document;
* `ViewCompiler.Directory`, `ViewCompiler.Directory.ofEntries` — the list and both indexes, filled
  document by document.
-/

import ViewCompiler.Catalog.Entry

set_option autoImplicit false

namespace ViewCompiler

/-- Documents under keys, in no order that matters. -/
structure Index (κ : Type) where
  filed : List (κ × CompiledDocument)
  deriving Repr

namespace Index

variable {κ : Type} [DecidableEq κ]

def empty : Index κ := ⟨[]⟩

/-- The document under a key. -/
def get? (index : Index κ) (key : κ) : Option CompiledDocument :=
  (index.filed.find? (·.1 = key)).map (·.2)

/-- Files a document; one that is under the key gives way. -/
def put (index : Index κ) (key : κ) (d : CompiledDocument) : Index κ :=
  ⟨(key, d) :: index.filed.filter (·.1 ≠ key)⟩

/-- Files a document, unless there is one under the key. -/
def putNew (index : Index κ) (key : κ) (d : CompiledDocument) : Index κ :=
  if (index.get? key).isSome then index else ⟨(key, d) :: index.filed⟩

@[simp] theorem get?_empty (key : κ) : (empty : Index κ).get? key = none := rfl

/-- What is in front of the other documents is found if it has the key. -/
theorem get?_cons (key key' : κ) (d : CompiledDocument) (filed : List (κ × CompiledDocument)) :
    get? ⟨(key, d) :: filed⟩ key' = if key = key' then some d else get? ⟨filed⟩ key' := by
  by_cases h : key = key' <;> simp [get?, h]

theorem get?_put (index : Index κ) (key key' : κ) (d : CompiledDocument) :
    (index.put key d).get? key' = if key = key' then some d else index.get? key' := by
  rw [put, get?_cons]
  split
  · rfl
  · next h =>
      have hkept : ∀ entry : κ × CompiledDocument,
          decide (decide (entry.1 ≠ key) = true ∧ decide (entry.1 = key') = true) =
            decide (entry.1 = key') := by
        intro entry
        by_cases hentry : entry.1 = key'
        · simp [hentry, Ne.symm h]
        · simp [hentry]
      simp only [get?, List.find?_filter, hkept]

theorem get?_putNew (index : Index κ) (key key' : κ) (d : CompiledDocument) :
    (index.putNew key d).get? key' =
      (index.get? key').or (if key = key' then some d else none) := by
  rw [putNew]
  split
  · next hfiled =>
      obtain ⟨d', hd'⟩ := Option.isSome_iff_exists.1 hfiled
      by_cases h : key = key'
      · subst h
        rw [hd', Option.some_or]
      · rw [if_neg h, Option.or_none]
  · next hfiled =>
      rw [get?_cons]
      by_cases h : key = key'
      · subst h
        rw [Option.not_isSome_iff_eq_none.1 hfiled, if_pos rfl, Option.none_or]
      · rw [if_neg h, if_neg h, Option.or_none]

end Index

/-- The documents of a catalog: in order, by id, and by owner and kind. -/
structure Directory where
  byId : Index DocumentId
  byOwner : Index (Owner × ViewKind)
  ordered : List CompiledDocument
  deriving Repr

namespace Directory

/-- Files one document under its id, and under its owner and kind if it is the first of them. -/
def file (directory : Directory) (d : CompiledDocument) : Directory :=
  { directory with
    byId := directory.byId.put d.id d
    byOwner := directory.byOwner.putNew (d.owner, d.kind) d }

/-- Documents in order, filed one after the other. -/
def ofEntries (entries : List CompiledDocument) : Directory :=
  entries.foldl file ⟨.empty, .empty, entries⟩

end Directory

end ViewCompiler
