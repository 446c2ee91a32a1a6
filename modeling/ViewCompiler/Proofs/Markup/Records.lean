/-
**A forest as a table.**

A forest of nodes with different labels can be read as a table: for each label it says what the
node is and which labels its children have.  Every label but those of the top level occurs in one
child list, and there once.  Replacing a node by other siblings changes the table in two places:
the rows of the node and of all below it go, those of the siblings come, and in the child list that
named the node the siblings are named instead.

Main definitions:

* `ViewCompiler.Record`, `ViewCompiler.Forest.records` — a row of the table, and the table;
* `ViewCompiler.Record.spliced` — a row that names other children in the place of one;
* `ViewCompiler.Forest.SplicedTable` — what replacing a node does to the table.

Main results:

* `ViewCompiler.Forest.labels_perm` — every label stands at the top or in a child list;
* `ViewCompiler.Forest.holder?_eq_some_iff` — the holder of a label is the one that names it;
* `ViewCompiler.Forest.exists_splicedTable` — **replacing a node changes the table in two places**;
* `ViewCompiler.Forest.SplicedTable.exists_named` — the row that named the node.
-/

import Mathlib.Data.List.Nodup
import Mathlib.Data.List.Pairwise
import ViewCompiler.Markup.Edit

set_option relaxedAutoImplicit false
set_option autoImplicit false

namespace ViewCompiler

variable {ι : Type}

/-! ### Rows -/

/-- What a node is, apart from its children. -/
inductive Kind where
  | element (name : String) (attributes : Attributes)
  | leaf (kind : LeafKind) (content : String)
  deriving DecidableEq, Repr

/-- A row of a table: what a node is, and its children in order. -/
structure Record (ι : Type) where
  kind : Kind
  children : List ι
  deriving DecidableEq, Repr

def Node.kind : Node ι → Kind
  | .element e => .element e.name e.attributes
  | .leaf _ kind content => .leaf kind content

/-- What is below a node. -/
def Node.below : Node ι → Forest ι
  | .element e => e.children
  | .leaf .. => .nil

def Node.record (n : Node ι) : Record ι :=
  ⟨n.kind, n.below.roots⟩

/-- The list with `new` in the place of `label`. -/
def inPlaceOf [DecidableEq ι] (label : ι) (new l : List ι) : List ι :=
  l.flatMap fun x => if x = label then new else [x]

/-- The row names `new` in the place of `label`. -/
def Record.spliced [DecidableEq ι] (label : ι) (new : List ι) (r : Record ι) : Record ι :=
  { r with children := inPlaceOf label new r.children }

section

variable [DecidableEq ι]

@[simp] theorem inPlaceOf_append (label : ι) (new l l' : List ι) :
    inPlaceOf label new (l ++ l') = inPlaceOf label new l ++ inPlaceOf label new l' :=
  List.flatMap_append

theorem inPlaceOf_of_not_mem {label : ι} {l : List ι} (h : label ∉ l) (new : List ι) :
    inPlaceOf label new l = l := by
  rw [inPlaceOf]
  conv_rhs => rw [← List.flatMap_singleton' l]
  refine List.flatMap_congr fun x hx => if_neg ?_
  rintro rfl
  exact h hx

theorem inPlaceOf_self (label : ι) (l : List ι) : inPlaceOf label [label] l = l := by
  rw [inPlaceOf]
  conv_rhs => rw [← List.flatMap_singleton' l]
  refine List.flatMap_congr fun x _ => ?_
  split
  · next heq => rw [heq]
  · rfl

theorem Record.spliced_of_not_mem {label : ι} {r : Record ι} (h : label ∉ r.children)
    (new : List ι) : r.spliced label new = r := by
  rw [Record.spliced, inPlaceOf_of_not_mem h]

/-- Rows that do not name the label stay as they are. -/
theorem map_spliced_eq_self {label : ι} {rows : List (ι × Record ι)}
    (h : ∀ row ∈ rows, label ∉ row.2.children) (new : List ι) :
    rows.map (fun row => (row.1, row.2.spliced label new)) = rows := by
  conv_rhs => rw [← List.map_id rows]
  refine List.map_congr_left fun row hrow => ?_
  rw [Record.spliced_of_not_mem (h row hrow)]
  rfl

@[simp] theorem Record.spliced_self (label : ι) (r : Record ι) : r.spliced label [label] = r := by
  rw [Record.spliced, inPlaceOf_self]

end

namespace Forest

/-- The table of a forest in document order. -/
def records : Forest ι → List (ι × Record ι)
  | nil => []
  | element label name attributes children rest =>
      (label, ⟨.element name attributes, children.roots⟩) :: (children.records ++ rest.records)
  | leaf label kind content rest => (label, ⟨.leaf kind content, []⟩) :: rest.records

/-- The table has one row for each label. -/
@[simp] theorem map_fst_records (f : Forest ι) : f.records.map (·.1) = f.labels := by
  induction f with
  | nil => rfl
  | element _ _ _ _ _ ihc ihr => simp [records, labels, ihc, ihr]
  | leaf _ _ _ _ ih => simp [records, labels, ih]

@[simp] theorem roots_append (f g : Forest ι) : (f ++ g).roots = f.roots ++ g.roots := by
  induction f with
  | nil => rfl
  | element _ _ _ _ _ _ ih => simp [roots, ih]
  | leaf _ _ _ _ ih => simp [roots, ih]

@[simp] theorem records_append (f g : Forest ι) :
    (f ++ g).records = f.records ++ g.records := by
  induction f with
  | nil => rfl
  | element _ _ _ _ _ _ ih => simp [records, ih]
  | leaf _ _ _ _ ih => simp [records, ih]

@[simp] theorem labels_append (f g : Forest ι) : (f ++ g).labels = f.labels ++ g.labels := by
  simp only [← map_fst_records, records_append, List.map_append]

@[simp] theorem roots_single (n : Node ι) : (single n).roots = [n.label] := by
  cases n <;> rfl

/-- The rows of a node are its own and those of what is below it. -/
theorem records_single (n : Node ι) :
    (single n).records = (n.label, n.record) :: n.below.records := by
  cases n with
  | element e => rw [single, records, records, List.append_nil]; rfl
  | leaf => rfl

theorem labels_single (n : Node ι) :
    (single n).labels = n.label :: n.below.labels := by
  rw [← map_fst_records, records_single, List.map_cons, map_fst_records]

theorem mem_labels_of_mem_roots {f : Forest ι} {label : ι} (h : label ∈ f.roots) :
    label ∈ f.labels := by
  induction f with
  | nil => exact h
  | element _ _ _ _ _ _ ih =>
      rcases List.mem_cons.1 h with rfl | h
      · exact List.mem_cons_self
      · exact List.mem_cons_of_mem _ (List.mem_append_right _ (ih h))
  | leaf _ _ _ _ ih =>
      rcases List.mem_cons.1 h with rfl | h
      · exact List.mem_cons_self
      · exact List.mem_cons_of_mem _ (ih h)

theorem mem_labels_of_mem_records {f : Forest ι} {row : ι × Record ι} (h : row ∈ f.records) :
    row.1 ∈ f.labels := by
  rw [← map_fst_records]
  exact List.mem_map_of_mem h

theorem exists_record {f : Forest ι} {label : ι} (h : label ∈ f.labels) :
    ∃ r, (label, r) ∈ f.records := by
  rw [← map_fst_records] at h
  obtain ⟨row, hrow, rfl⟩ := List.mem_map.1 h
  exact ⟨row.2, hrow⟩

/-- There is one row for a label. -/
theorem eq_of_label {f : Forest ι} (h : f.labels.Nodup) {row other : ι × Record ι}
    (hrow : row ∈ f.records) (hother : other ∈ f.records) (heq : row.1 = other.1) :
    row = other := by
  rw [← map_fst_records] at h
  exact List.inj_on_of_nodup_map h hrow hother heq

/-! ### Children -/

theorem mem_labels_of_mem_children {f : Forest ι} {row : ι × Record ι} {label : ι}
    (hrow : row ∈ f.records) (h : label ∈ row.2.children) : label ∈ f.labels := by
  induction f with
  | nil => cases hrow
  | element l name attributes children rest ihc ihr =>
      refine List.mem_cons_of_mem _ (List.mem_append.2 ?_)
      rcases List.mem_cons.1 hrow with rfl | hrow
      · exact .inl (mem_labels_of_mem_roots h)
      · exact (List.mem_append.1 hrow).imp ihc ihr
  | leaf l kind content rest ih =>
      rcases List.mem_cons.1 hrow with rfl | hrow
      · cases h
      · exact List.mem_cons_of_mem _ (ih hrow)

/-- A node comes before its children. -/
theorem sublist_of_mem_children {f : Forest ι} {holder label : ι} {r : Record ι}
    (hr : (holder, r) ∈ f.records) (h : label ∈ r.children) :
    [holder, label].Sublist f.labels := by
  induction f with
  | nil => cases hr
  | element l name attributes children rest ihc ihr =>
      rcases List.mem_cons.1 hr with heq | hr
      · obtain ⟨rfl, rfl⟩ := Prod.mk.inj heq
        exact .cons_cons _ (List.singleton_sublist.2
          (List.mem_append_left _ (mem_labels_of_mem_roots h)))
      · refine .cons _ ?_
        rcases List.mem_append.1 hr with hr | hr
        · exact (ihc hr).trans (List.sublist_append_left _ _)
        · exact (ihr hr).trans (List.sublist_append_right _ _)
  | leaf l kind content rest ih =>
      rcases List.mem_cons.1 hr with heq | hr
      · obtain ⟨rfl, rfl⟩ := Prod.mk.inj heq
        cases h
      · exact .cons _ (ih hr)

variable [DecidableEq ι]

/-- **Every label stands at the top or in a child list.** -/
theorem labels_perm (f : Forest ι) :
    f.labels.Perm (f.roots ++ f.records.flatMap fun row => row.2.children) := by
  induction f with
  | nil => rfl
  | element label _ _ children rest ihc ihr =>
      simp only [labels, roots, records, List.flatMap_cons, List.flatMap_append, List.cons_append]
      refine .cons _ (List.perm_iff_count.2 fun x => ?_)
      have hchildren := ihc.count_eq x
      have hrest := ihr.count_eq x
      simp only [List.count_append] at hchildren hrest ⊢
      omega
  | leaf _ _ _ _ ih => exact .cons _ ih

variable {f : Forest ι}

theorem roots_append_children_nodup (h : f.labels.Nodup) :
    (f.roots ++ f.records.flatMap fun row => row.2.children).Nodup :=
  f.labels_perm.nodup_iff.1 h

/-- A label of the top level stands in no child list. -/
theorem not_mem_children_of_mem_roots (h : f.labels.Nodup) {label : ι} (hlabel : label ∈ f.roots)
    {row : ι × Record ι} (hrow : row ∈ f.records) : label ∉ row.2.children := fun hmem =>
  (List.nodup_append.1 (roots_append_children_nodup h)).2.2 label hlabel label
    (List.mem_flatMap.2 ⟨row, hrow, hmem⟩) rfl

theorem children_nodup (h : f.labels.Nodup) {row : ι × Record ι} (hrow : row ∈ f.records) :
    row.2.children.Nodup :=
  (List.nodup_flatMap.1 (List.nodup_append.1 (roots_append_children_nodup h)).2.1).1 row hrow

/-- A label stands in the child list of one row. -/
theorem eq_of_child (h : f.labels.Nodup) {row other : ι × Record ι} (hrow : row ∈ f.records)
    (hother : other ∈ f.records) {label : ι} (hlabel : label ∈ row.2.children)
    (hagain : label ∈ other.2.children) : row = other := by
  by_contra hne
  have hdisjoint :=
    (List.nodup_flatMap.1 (List.nodup_append.1 (roots_append_children_nodup h)).2.1).2
  have hsymm : Std.Symm (Function.onFun List.Disjoint fun row : ι × Record ι =>
      row.2.children) := ⟨fun _ _ => List.disjoint_symm⟩
  exact hdisjoint.forall hrow hother hne hlabel hagain

theorem exists_record_of_holder? {label holder : ι} (h : f.holder? label = some holder) :
    ∃ r, (holder, r) ∈ f.records ∧ label ∈ r.children := by
  induction f with
  | nil => cases h
  | element l name attributes children rest ihc ihr =>
      rw [holder?] at h
      split at h
      · next hmem =>
          obtain rfl := Option.some.inj h
          exact ⟨_, List.mem_cons_self, hmem⟩
      · rcases Option.or_eq_some_iff.1 h with hchildren | ⟨_, hrest⟩
        · obtain ⟨r, hr, hmem⟩ := ihc hchildren
          exact ⟨r, List.mem_cons_of_mem _ (List.mem_append_left _ hr), hmem⟩
        · obtain ⟨r, hr, hmem⟩ := ihr hrest
          exact ⟨r, List.mem_cons_of_mem _ (List.mem_append_right _ hr), hmem⟩
  | leaf l kind content rest ih =>
      obtain ⟨r, hr, hmem⟩ := ih h
      exact ⟨r, List.mem_cons_of_mem _ hr, hmem⟩

theorem not_mem_children_of_holder?_eq_none {label : ι} (h : f.holder? label = none) :
    ∀ row ∈ f.records, label ∉ row.2.children := by
  induction f with
  | nil => simp [records]
  | element l name attributes children rest ihc ihr =>
      rw [holder?] at h
      split at h
      · cases h
      · next hmem =>
          obtain ⟨hchildren, hrest⟩ := Option.or_eq_none_iff.1 h
          exact List.forall_mem_cons.2
            ⟨hmem, List.forall_mem_append.2 ⟨ihc hchildren, ihr hrest⟩⟩
  | leaf l kind content rest ih =>
      exact List.forall_mem_cons.2 ⟨by simp, ih h⟩

/-- **The holder of a label is the one that names it.** -/
theorem holder?_eq_some_iff (h : f.labels.Nodup) {label holder : ι} :
    f.holder? label = some holder ↔ ∃ r, (holder, r) ∈ f.records ∧ label ∈ r.children := by
  refine ⟨exists_record_of_holder?, fun ⟨r, hr, hmem⟩ => ?_⟩
  cases hholder : f.holder? label with
  | none => exact absurd hmem (not_mem_children_of_holder?_eq_none hholder _ hr)
  | some other =>
      obtain ⟨s, hs, hagain⟩ := exists_record_of_holder? hholder
      exact congrArg some (congrArg Prod.fst (eq_of_child h hs hr hagain hmem))

/-! ### Replacing a node -/

theorem find?_eq_none_iff {label : ι} : f.find? label = none ↔ label ∉ f.labels := by
  induction f with
  | nil => simp [find?, labels]
  | element l name attributes children rest ihc ihr =>
      rw [find?, labels]
      split
      · next heq => simp [heq]
      · next hne => simp [Option.or_eq_none_iff, ihc, ihr, Ne.symm hne]
  | leaf l kind content rest ih =>
      rw [find?, labels]
      split
      · next heq => simp [heq]
      · next hne => simp [ih, Ne.symm hne]

theorem exists_find?_iff {label : ι} : (∃ n, f.find? label = some n) ↔ label ∈ f.labels := by
  rw [← Option.ne_none_iff_exists', Ne, find?_eq_none_iff, not_not]

theorem label_of_find? {label : ι} {n : Node ι} (h : f.find? label = some n) :
    n.label = label := by
  induction f with
  | nil => cases h
  | element l name attributes children rest ihc ihr =>
      rw [find?] at h
      split at h
      · next heq =>
          obtain rfl := Option.some.inj h
          exact heq
      · exact (Option.or_eq_some_iff.1 h).elim ihc fun h => ihr h.2
  | leaf l kind content rest ih =>
      rw [find?] at h
      split at h
      · next heq =>
          obtain rfl := Option.some.inj h
          exact heq
      · exact ih h

/-- Without the label there is nothing to replace. -/
theorem splice_of_not_mem {label : ι} (h : label ∉ f.labels) (g : Node ι → Forest ι) :
    f.splice label g = f := by
  induction f with
  | nil => rfl
  | element l name attributes children rest ihc ihr =>
      simp only [labels, List.mem_cons, List.mem_append, not_or] at h
      rw [splice, if_neg (Ne.symm h.1), ihc h.2.1, ihr h.2.2]
  | leaf l kind content rest ih =>
      simp only [labels, List.mem_cons, not_or] at h
      rw [splice, if_neg (Ne.symm h.1), ih h.2]

theorem map_spliced_of_not_mem {label : ι} (h : label ∉ f.labels) (new : List ι) :
    f.records.map (fun row => (row.1, row.2.spliced label new)) = f.records :=
  map_spliced_eq_self (fun _ hrow hmem => h (mem_labels_of_mem_children hrow hmem)) new

theorem splice_append (label : ι) (g : Node ι → Forest ι) (f rest : Forest ι) :
    (f ++ rest).splice label g = f.splice label g ++ rest.splice label g := by
  induction f with
  | nil => rfl
  | element l name attributes children more _ ih =>
      rw [element_append, splice, splice, ih]
      split
      · rw [append_assoc]
      · rfl
  | leaf l kind content more ih =>
      rw [leaf_append, splice, splice, ih]
      split
      · rw [append_assoc]
      · rfl

/-- What replacing the node `n` does to the table: `others` are the rows that are not below it, and
they stay, but for the one that names it. -/
def SplicedTable (f : Forest ι) (label : ι) (n : Node ι) (others : List (ι × Record ι)) : Prop :=
  f.records.Perm (others ++ (single n).records) ∧
    ∀ g : Node ι → Forest ι,
      (f.splice label g).roots = inPlaceOf label (g n).roots f.roots ∧
      (f.splice label g).records.Perm
        (others.map (fun row => (row.1, row.2.spliced label (g n).roots)) ++ (g n).records)

namespace SplicedTable

variable {label : ι} {n : Node ι} {others : List (ι × Record ι)}

/-- What replacing the node does to the labels. -/
theorem labels_perm (h : SplicedTable f label n others) :
    f.labels.Perm (others.map (·.1) ++ (Forest.single n).labels) := by
  simpa using h.1.map (·.1)

theorem labels_splice (h : SplicedTable f label n others) (g : Node ι → Forest ι) :
    (f.splice label g).labels.Perm (others.map (·.1) ++ (g n).labels) := by
  simpa [Function.comp_def] using (h.2 g).2.map (·.1)

/-- A node that stands alone. -/
theorem single (n : Node ι) : SplicedTable (single n) n.label n [] := by
  refine ⟨.refl _, fun g => ?_⟩
  have hsplice : (Forest.single n).splice n.label g = g n := by
    cases n <;> simp [Forest.single, splice, Node.label]
  rw [hsplice, roots_single]
  exact ⟨by simp [inPlaceOf], .refl _⟩

/-- A node below an element. -/
theorem inside {children : Forest ι} (h : SplicedTable children label n others) {l : ι}
    (hl : l ≠ label) (name : String) (attributes : Attributes) :
    SplicedTable (element l name attributes children nil) label n
      ((l, ⟨.element name attributes, children.roots⟩) :: others) := by
  refine ⟨by rw [records, records, List.append_nil]; exact h.1.cons _, fun g => ?_⟩
  obtain ⟨hroots, hrecords⟩ := h.2 g
  rw [splice, if_neg hl, splice]
  refine ⟨(inPlaceOf_of_not_mem (by simpa [roots] using hl.symm) _).symm, ?_⟩
  rw [records, records, List.append_nil, hroots]
  exact hrecords.cons _

/-- A node behind siblings. -/
theorem behind {rest : Forest ι} (h : SplicedTable rest label n others) (hf : label ∉ f.labels) :
    SplicedTable (f ++ rest) label n (f.records ++ others) := by
  refine ⟨by rw [records_append, List.append_assoc]; exact h.1.append_left _, fun g => ?_⟩
  obtain ⟨hroots, hrecords⟩ := h.2 g
  have hnames := inPlaceOf_of_not_mem (fun hmem => hf (mem_labels_of_mem_roots hmem)) (g n).roots
  rw [splice_append, splice_of_not_mem hf, roots_append, roots_append, records_append, hroots,
    inPlaceOf_append, hnames, List.map_append, map_spliced_of_not_mem hf, List.append_assoc]
  exact ⟨rfl, hrecords.append_left _⟩

/-- A node in front of siblings. -/
theorem before {rest : Forest ι} (h : SplicedTable f label n others) (hrest : label ∉ rest.labels) :
    SplicedTable (f ++ rest) label n (rest.records ++ others) := by
  have hfront : ∀ {rows : List (ι × Record ι)} {all some : List (ι × Record ι)},
      all.Perm some → (all ++ rows).Perm (rows ++ some) := fun h =>
    (h.append_right _).trans List.perm_append_comm
  refine ⟨by rw [records_append, List.append_assoc]; exact hfront h.1, fun g => ?_⟩
  obtain ⟨hroots, hrecords⟩ := h.2 g
  have hnames :=
    inPlaceOf_of_not_mem (fun hmem => hrest (mem_labels_of_mem_roots hmem)) (g n).roots
  rw [splice_append, splice_of_not_mem hrest, roots_append, roots_append, records_append, hroots,
    inPlaceOf_append, hnames, List.map_append, map_spliced_of_not_mem hrest, List.append_assoc]
  exact ⟨rfl, hfront hrecords⟩

end SplicedTable

/-- **Replacing a node changes the table in two places.** -/
theorem exists_splicedTable {label : ι} {n : Node ι} (h : f.labels.Nodup)
    (hn : f.find? label = some n) : ∃ others, SplicedTable f label n others := by
  induction f with
  | nil => cases hn
  | element l name attributes children rest ihc ihr =>
      simp only [labels, List.nodup_cons, List.nodup_append', List.mem_append, not_or] at h
      obtain ⟨⟨hl, hl'⟩, hchildren, hrest, hdisjoint⟩ := h
      rw [find?] at hn
      split at hn
      · next heq =>
          obtain rfl := Option.some.inj hn
          subst heq
          exact ⟨_, (SplicedTable.single (.element ⟨l, name, attributes, children⟩)).before hl'⟩
      · next hne =>
          rcases Option.or_eq_some_iff.1 hn with hn | ⟨hnone, hn⟩
          · obtain ⟨others, hothers⟩ := ihc hchildren hn
            have hmem := exists_find?_iff.1 ⟨_, hn⟩
            exact ⟨_, (hothers.inside hne name attributes).before (hdisjoint hmem)⟩
          · obtain ⟨others, hothers⟩ := ihr hrest hn
            have habsent : label ∉ (element l name attributes children nil).labels := by
              simpa [labels, Ne.symm hne] using find?_eq_none_iff.1 hnone
            exact ⟨_, hothers.behind habsent⟩
  | leaf l kind content rest ih =>
      rw [labels, List.nodup_cons] at h
      rw [find?] at hn
      split at hn
      · next heq =>
          obtain rfl := Option.some.inj hn
          subst heq
          exact ⟨_, (SplicedTable.single (.leaf l kind content)).before h.1⟩
      · next hne =>
          obtain ⟨others, hothers⟩ := ih h.2 hn
          have habsent : label ∉ (leaf l kind content nil).labels := by
            simpa [labels] using Ne.symm hne
          exact ⟨_, hothers.behind habsent⟩

/-- The row that names a node, taken out of the table: it names the siblings that come for the
node in the place of the node. -/
theorem SplicedTable.exists_named {label : ι} {n : Node ι} {others : List (ι × Record ι)}
    (h : SplicedTable f label n others) (hf : f.labels.Nodup) (hn : n.label = label)
    {row : ι × Record ι} (hrow : row ∈ f.records) (hlabel : label ∈ row.2.children) :
    ∃ before after others', row.2.children = before ++ label :: after ∧
      f.records.Perm (row :: (others' ++ (Forest.single n).records)) ∧
      ∀ g : Node ι → Forest ι, (f.splice label g).records.Perm
        ((row.1, ⟨row.2.kind, before ++ (g n).roots ++ after⟩) :: (others' ++ (g n).records)) := by
  obtain ⟨hwithLabels, hsingle, -⟩ := List.nodup_append'.1 (h.labels_perm.nodup_iff.1 hf)
  have hothers : others.Nodup := .of_map _ hwithLabels
  have hmem : row ∈ others := by
    refine (List.mem_append.1 (h.1.mem_iff.1 hrow)).resolve_right fun hbelow => ?_
    exact not_mem_children_of_mem_roots hsingle (by simp [hn]) hbelow hlabel
  obtain ⟨before, after, hchildren⟩ := List.append_of_mem hlabel
  have hnodup := children_nodup hf hrow
  rw [hchildren, List.nodup_append', List.nodup_cons] at hnodup
  obtain ⟨-, ⟨hafter, -⟩, hdisjoint⟩ := hnodup
  have hbefore : label ∉ before := fun hmem => hdisjoint hmem List.mem_cons_self
  have hspliced : ∀ new, row.2.spliced label new = ⟨row.2.kind, before ++ new ++ after⟩ := by
    intro new
    rw [Record.spliced, hchildren, inPlaceOf_append, inPlaceOf_of_not_mem hbefore, inPlaceOf,
      List.flatMap_cons, if_pos rfl, ← inPlaceOf, inPlaceOf_of_not_mem hafter, List.append_assoc]
  have hkept : ∀ other ∈ others.erase row, label ∉ other.2.children := by
    intro other hother hagain
    have hin := h.1.mem_iff.2 (List.mem_append_left _ (List.mem_of_mem_erase hother))
    obtain rfl := eq_of_child hf hin hrow hagain hlabel
    exact hothers.not_mem_erase hother
  refine ⟨before, after, others.erase row, hchildren, ?_, fun g => ?_⟩
  · exact h.1.trans ((List.perm_cons_erase hmem).append_right _)
  · have hrows := (List.perm_cons_erase hmem).map fun row =>
      (row.1, row.2.spliced label (g n).roots)
    rw [List.map_cons, map_spliced_eq_self hkept, hspliced] at hrows
    exact (h.2 g).2.trans (hrows.append_right _)

/-- A node that is found has its row in the table. -/
theorem mem_records_of_find? {label : ι} {n : Node ι} (h : f.labels.Nodup)
    (hn : f.find? label = some n) : (label, n.record) ∈ f.records := by
  obtain ⟨others, hothers, -⟩ := exists_splicedTable h hn
  refine hothers.mem_iff.2 (List.mem_append_right _ ?_)
  rw [records_single, label_of_find? hn]
  exact List.mem_cons_self

end Forest

end ViewCompiler
