/-
**Taking directives off a tree, and what is filed.**

Attributes are recognised first and removed afterwards, by name and each time the first of that
name.  Since a name alone tells whether an attribute goes, the first of a name is always one that is
to go, and what stays is what is not recognised, in its order.  Visiting an element changes nothing
but the attributes of this element, so visiting all of them one after the other comes down to
changing all attributes at once.

Main definitions:

* `ViewCompiler.Forest.mapAttributes` — a forest with other attributes;
* `ViewCompiler.Collecting.directives` — what is filed for an element.

Main results:

* `ViewCompiler.removeEach_consumed` — removing by name leaves what is not recognised;
* `ViewCompiler.Collecting.foldl_visit` — what has happened when some elements are visited;
* `ViewCompiler.Tree.collect_strips` — **collecting takes off exactly the directives**, and files
  every one of them;
* `ViewCompiler.Tree.Accounted.collect_content` — the passes start from what collecting leaves.
-/

import ViewCompiler.Proofs.Markup.Relabelling
import ViewCompiler.Proofs.Markup.Surroundings
import ViewCompiler.Proofs.Markup.Walking
import ViewCompiler.Proofs.Template.Filing
import ViewCompiler.Template.Collection

set_option relaxedAutoImplicit false
set_option autoImplicit false

namespace ViewCompiler

variable {ι : Type}

/-! ### One element -/

namespace CompilerOptions

variable (o : CompilerOptions)

/-- The attributes that stay on an element. -/
def kept (attributes : Attributes) : Attributes :=
  attributes.filter (!o.consumes ·)

/-- The names of the attributes that go, in order. -/
def consumedNames (attributes : Attributes) : List String :=
  (attributes.filter (o.consumes ·)).map (·.1)

theorem notice_eq (found : Findings) (a : String × String) : o.notice found a =
    ⟨((o.directive? a).toList).foldl .add found.directives,
      found.consumed ++ o.consumedNames [a]⟩ := by
  by_cases hname : a.1 = translationDirective
  · simp [notice, consumedNames, consumes, directive?, hname]
  · cases hparse : Directive.parse o.directivePrefix a.1 a.2 with
    | none => simp [notice, consumedNames, consumes, directive?, hname, hparse]
    | some d => simp [notice, consumedNames, consumes, directive?, hname, hparse]

theorem foldl_notice (attributes : Attributes) (found : Findings) :
    attributes.foldl o.notice found =
      ⟨(attributes.filterMap o.directive?).foldl .add found.directives,
        found.consumed ++ o.consumedNames attributes⟩ := by
  induction attributes generalizing found with
  | nil => simp [consumedNames]
  | cons a more ih =>
      have hnames : o.consumedNames (a :: more) = o.consumedNames [a] ++ o.consumedNames more := by
        rw [consumedNames, ← List.singleton_append, List.filter_append, List.map_append]
        rfl
      rw [List.foldl_cons, ih, notice_eq, hnames, List.append_assoc]
      cases hd : o.directive? a with
      | none => rw [List.filterMap_cons_none hd]; rfl
      | some d => rw [List.filterMap_cons_some hd]; rfl

/-- What is found are the directives of the element, and the names of the attributes that go. -/
theorem findings_eq (attributes : Attributes) :
    o.findings attributes = ⟨o.directivesOf attributes, o.consumedNames attributes⟩ :=
  o.foldl_notice attributes {}

/-- Attributes that do not go are passed over when one that goes is removed by its name. -/
theorem remove_append {front : Attributes} (hfront : ∀ a ∈ front, o.consumes a = false)
    {a : String × String} (ha : o.consumes a = true) (more : Attributes) :
    (front ++ a :: more).remove a.1 = front ++ more := by
  have hother : ∀ b ∈ front, ¬ decide (b.1 = a.1) = true := by
    intro b hb hname
    have hsame : o.consumes b = o.consumes a := by
      rw [o.consumes_value b.1 b.2 a.2, of_decide_eq_true hname]
    rw [hfront b hb, ha] at hsame
    cases hsame
  rw [Attributes.remove, List.eraseP_append_right _ hother, List.eraseP_cons_of_pos (by simp)]

end CompilerOptions

/-- Removing all names that go leaves what is not recognised, duplicates included. -/
theorem removeEach_consumed (o : CompilerOptions) (front attributes : Attributes)
    (hfront : ∀ a ∈ front, o.consumes a = false) :
    (o.consumedNames attributes).foldl Attributes.remove (front ++ attributes) =
      front ++ o.kept attributes := by
  induction attributes generalizing front with
  | nil => rfl
  | cons a more ih =>
      cases ha : o.consumes a with
      | true =>
          have hnames : o.consumedNames (a :: more) = a.1 :: o.consumedNames more := by
            rw [CompilerOptions.consumedNames, List.filter_cons_of_pos ha, List.map_cons]
            rfl
          have hkept : o.kept (a :: more) = o.kept more := List.filter_cons_of_neg (by simp [ha])
          rw [hnames, List.foldl_cons, o.remove_append hfront ha, ih front hfront, hkept]
      | false =>
          have hnames : o.consumedNames (a :: more) = o.consumedNames more := by
            rw [CompilerOptions.consumedNames, List.filter_cons_of_neg (by simp [ha])]
            rfl
          have hkept : o.kept (a :: more) = a :: o.kept more :=
            List.filter_cons_of_pos (by simp [ha])
          have hmore := ih (front ++ [a]) (List.forall_mem_append.2
            ⟨hfront, List.forall_mem_singleton.2 ha⟩)
          rw [List.append_assoc, List.append_assoc, List.singleton_append,
            List.singleton_append] at hmore
          rw [hnames, hkept, hmore]

/-! ### All elements -/

namespace Forest

/-- The forest with other attributes on its elements, which may depend on the label. -/
def mapAttributes (g : ι → Attributes → Attributes) : Forest ι → Forest ι
  | nil => nil
  | element label name attributes children rest =>
      element label name (g label attributes) (children.mapAttributes g) (rest.mapAttributes g)
  | leaf label kind content rest => leaf label kind content (rest.mapAttributes g)

/-- Only what becomes of the attributes that are there matters. -/
theorem mapAttributes_congr {f : Forest ι} {g h : ι → Attributes → Attributes}
    (hgh : ∀ e ∈ f.elements, g e.label e.attributes = h e.label e.attributes) :
    f.mapAttributes g = f.mapAttributes h := by
  induction f with
  | nil => rfl
  | element label name attributes children rest ihc ihr =>
      obtain ⟨hself, hbelow⟩ := List.forall_mem_cons.1 hgh
      obtain ⟨hchildren, hrest⟩ := List.forall_mem_append.1 hbelow
      have hself : g label attributes = h label attributes := hself
      rw [mapAttributes, mapAttributes, hself, ihc hchildren, ihr hrest]
  | leaf label kind content rest ih => rw [mapAttributes, mapAttributes, ih hgh]

theorem mapAttributes_self (f : Forest ι) : f.mapAttributes (fun _ a => a) = f := by
  induction f with
  | nil => rfl
  | element label name attributes children rest ihc ihr => rw [mapAttributes, ihc, ihr]
  | leaf label kind content rest ih => rw [mapAttributes, ih]

end Forest

/-- The node with other attributes, on itself and on the elements below it. -/
def Node.mapAttributes (g : ι → Attributes → Attributes) : Node ι → Node ι
  | .element e => .element ⟨e.label, e.name, g e.label e.attributes, e.children.mapAttributes g⟩
  | .leaf label kind content => .leaf label kind content

namespace Forest

variable [DecidableEq ι] {f : Forest ι} {g : ι → Attributes → Attributes} {x : ι}

theorem find?_mapAttributes (f : Forest ι) (g : ι → Attributes → Attributes) (x : ι) :
    (f.mapAttributes g).find? x = (f.find? x).map (Node.mapAttributes g) := by
  induction f with
  | nil => rfl
  | element label name attributes children rest ihc ihr =>
      rw [mapAttributes, find?, find?]
      split
      · rfl
      · rw [Option.map_or, ihc, ihr]
  | leaf label kind content rest ih =>
      rw [mapAttributes, find?, find?]
      split
      · rfl
      · exact ih

theorem mapAttributes_update_of_not_mem (hx : x ∉ f.labels) (s : Attributes → Attributes) :
    f.mapAttributes (Function.update g x s) = f.mapAttributes g := by
  refine mapAttributes_congr fun e he => ?_
  rw [Function.update_of_ne]
  rintro rfl
  exact hx (label_mem_labels he)

/-- Changing the attributes of one more element. -/
theorem splice_mapAttributes (hf : f.labels.Nodup) (s : Attributes → Attributes)
    {h : Node ι → Forest ι}
    (helement : ∀ e : Element ι,
      h (.element e) = element e.label e.name (s e.attributes) e.children nil)
    (hleaf : ∀ label kind content, h (.leaf label kind content) = leaf label kind content nil) :
    (f.mapAttributes g).splice x h = f.mapAttributes (Function.update g x fun a => s (g x a)) := by
  induction f with
  | nil => rfl
  | element label name attributes children rest ihc ihr =>
      obtain ⟨hlabel, hbelow⟩ := List.nodup_cons.1 hf
      obtain ⟨hchildren, hrest, -⟩ := List.nodup_append.1 hbelow
      rw [mapAttributes, mapAttributes, splice, ihr hrest]
      split
      · next heq =>
          -- The element itself: no label below it is its own.
          subst heq
          have hbelow : label ∉ children.labels := fun hmem =>
            hlabel (List.mem_append_left _ hmem)
          rw [helement, mapAttributes_update_of_not_mem hbelow, Function.update_self]
          rfl
      · next hne => rw [ihc hchildren, Function.update_of_ne hne]
  | leaf label kind content rest ih =>
      rw [mapAttributes, mapAttributes, splice, ih (List.nodup_cons.1 hf).2]
      split
      · rw [hleaf]
        rfl
      · rfl

end Forest

/-! ### Visiting elements -/

namespace Tree

/-- The tree with other attributes on the elements of the document. -/
def withAttributes (t : Tree) (g : NodeId → Attributes → Attributes) : Tree :=
  { t with content := t.content.mapAttributes g }

theorem removeEach_eq (t : Tree) (id : NodeId) (names : List String) :
    t.removeEach id names = t.mapAttributes id fun a => names.foldl Attributes.remove a := by
  induction names generalizing t with
  | nil => exact (mapAttributes_id t id).symm
  | cons name more ih =>
      rw [removeEach, List.foldl_cons, ← removeEach, ih, removeAttribute,
        mapAttributes_mapAttributes]
      rfl

variable {t : Tree} {g : NodeId → Attributes → Attributes} {id : NodeId}

theorem Accounted.mapAttributes_withAttributes (ht : t.Accounted) (hid : id ∈ t.content.labels)
    (s : Attributes → Attributes) :
    (t.withAttributes g).mapAttributes id s =
      t.withAttributes (Function.update g id fun a => s (g id a)) := by
  have hloose : id ∉ t.loose.labels := fun hmem =>
    ht.not_mem_nodes hmem (List.mem_cons_of_mem _ hid)
  rw [Tree.mapAttributes, Tree.replace, withAttributes]
  dsimp only
  rw [Forest.splice_of_not_mem hloose,
    Forest.splice_mapAttributes ht.nodup_content s (fun _ => rfl) fun _ _ _ => rfl]
  rfl

theorem withAttributes_congr {h : NodeId → Attributes → Attributes}
    (hgh : ∀ e ∈ t.content.elements, g e.label e.attributes = h e.label e.attributes) :
    t.withAttributes g = t.withAttributes h := by
  rw [withAttributes, withAttributes, Forest.mapAttributes_congr hgh]

theorem attributes_of_leaf (h : t.name? id = none) : t.attributes id = [] := by
  rw [name?] at h
  rw [attributes]
  cases hn : t.find? id with
  | none => rfl
  | some n =>
      rw [hn] at h
      cases n with
      | element e => cases h
      | leaf => rfl

theorem Accounted.withAttributes_update_of_leaf (ht : t.Accounted) (h : t.name? id = none)
    (s : Attributes → Attributes) :
    t.withAttributes (Function.update g id s) = t.withAttributes g := by
  refine withAttributes_congr fun e he => ?_
  rw [Function.update_of_ne]
  rintro rfl
  rw [name?, find?, Forest.find?_of_mem_elements ht.nodup_content he, Option.some_or] at h
  cases h

theorem Accounted.attributes_of_mem (ht : t.Accounted) {e : Element NodeId}
    (he : e ∈ t.content.elements) : t.attributes e.label = e.attributes := by
  rw [attributes, find?, Forest.find?_of_mem_elements ht.nodup_content he, Option.some_or]

/-- An element that has not been visited has its attributes still. -/
theorem attributes_withAttributes (hid : id ∈ t.content.labels) (hg : g id = fun a => a) :
    (t.withAttributes g).name? id = t.name? id ∧
      (t.withAttributes g).attributes id = t.attributes id := by
  obtain ⟨n, hn⟩ := Forest.exists_find?_iff.2 hid
  have hfind : t.find? id = some n := by rw [find?, hn, Option.some_or]
  have hfind' : (t.withAttributes g).find? id = some (n.mapAttributes g) := by
    rw [find?, withAttributes, Forest.find?_mapAttributes, hn, Option.map_some, Option.some_or]
  have hlabel := Forest.label_of_find? hn
  rw [name?, name?, attributes, attributes, hfind, hfind']
  cases n with
  | element e =>
      have hlabel : e.label = id := hlabel
      refine ⟨rfl, ?_⟩
      change g e.label e.attributes = e.attributes
      rw [hlabel, hg]
  | leaf => exact ⟨rfl, rfl⟩

/-- What is filed for a node, if anything is asked for. -/
def filed? (o : CompilerOptions) (t : Tree) (id : NodeId) : Option (NodeId × Directives) :=
  let asked := o.directivesOf (t.attributes id)
  if asked.isEmpty then none else some (id, asked)

/-- **Visiting a node** takes the directives off it and files them. -/
theorem Accounted.visit_eq (ht : t.Accounted) (o : CompilerOptions)
    (table : List (NodeId × Directives)) (hid : id ∈ t.content.labels) (hg : g id = fun a => a) :
    Collecting.visit o ⟨t.withAttributes g, table⟩ id =
      ⟨t.withAttributes (Function.update g id o.kept), table ++ (t.filed? o id).toList⟩ := by
  obtain ⟨hname, hattributes⟩ := attributes_withAttributes hid hg
  rw [Collecting.visit, hname, hattributes, filed?]
  cases hnamed : t.name? id with
  | none =>
      rw [ht.withAttributes_update_of_leaf hnamed, attributes_of_leaf hnamed]
      exact congrArg (Collecting.mk _) (List.append_nil table).symm
  | some name =>
      have htree : (t.withAttributes g).removeEach id (o.consumedNames (t.attributes id)) =
          t.withAttributes (Function.update g id o.kept) := by
        rw [removeEach_eq, ht.mapAttributes_withAttributes hid]
        refine withAttributes_congr fun e he => ?_
        by_cases heq : e.label = id
        · rw [← ht.attributes_of_mem he, heq, Function.update_self, Function.update_self, hg]
          exact removeEach_consumed o [] (t.attributes id) (List.forall_mem_nil _)
        · rw [Function.update_of_ne heq, Function.update_of_ne heq]
      dsimp only
      rw [o.findings_eq, htree]
      cases (o.directivesOf (t.attributes id)).isEmpty with
      | false => rfl
      | true => exact congrArg (Collecting.mk _) (List.append_nil table).symm

/-- Visiting several nodes, each of them once. -/
theorem Accounted.foldl_visit (ht : t.Accounted) (o : CompilerOptions) {ids : List NodeId}
    (hids : ∀ id ∈ ids, id ∈ t.content.labels) (hnodup : ids.Nodup)
    (hg : ∀ id ∈ ids, g id = fun a => a) (table : List (NodeId × Directives)) :
    ids.foldl (Collecting.visit o) ⟨t.withAttributes g, table⟩ =
      ⟨t.withAttributes fun x => if x ∈ ids then o.kept else g x,
        table ++ ids.filterMap (t.filed? o)⟩ := by
  induction ids generalizing g table with
  | nil => simp
  | cons id more ih =>
      obtain ⟨hid, hmore⟩ := List.forall_mem_cons.1 hids
      obtain ⟨hnew, hrest⟩ := List.nodup_cons.1 hnodup
      obtain ⟨hself, hothers⟩ := List.forall_mem_cons.1 hg
      have huntouched : ∀ x ∈ more, Function.update g id o.kept x = fun a => a := by
        intro x hx
        have hne : x ≠ id := by
          rintro rfl
          exact hnew hx
        rw [Function.update_of_ne hne, hothers x hx]
      have hvisited : (fun x => if x ∈ more then o.kept else Function.update g id o.kept x) =
          fun x => if x ∈ id :: more then o.kept else g x := by
        funext x
        by_cases heq : x = id
        · simp [heq]
        · simp [heq]
      rw [List.foldl_cons, ht.visit_eq o table hid hself, ih hmore hrest huntouched, hvisited,
        List.append_assoc]
      cases hentry : t.filed? o id with
      | none => rw [List.filterMap_cons_none hentry]; rfl
      | some entry => rw [List.filterMap_cons_some hentry]; rfl

/-- Visiting all nodes changes all elements at once. -/
theorem Accounted.collect_eq (ht : t.Accounted) (o : CompilerOptions) :
    t.collect o =
      ⟨t.withAttributes fun _ => o.kept, t.content.labels.filterMap (t.filed? o)⟩ := by
  have hstart : t.withAttributes (fun _ a => a) = t := by
    rw [withAttributes, Forest.mapAttributes_self]
  have hrun := ht.foldl_visit o (g := fun _ a => a) (fun _ h => h) ht.nodup_content
    (fun _ _ => rfl) []
  have hnodes : t.descendants root = t.content.labels := ht.descendants_eq ht.root_lt_size
  rw [hstart] at hrun
  rw [collect, hnodes, hrun, List.nil_append]
  refine congrArg (Collecting.mk · _) (withAttributes_congr fun e he => ?_)
  rw [if_pos (Forest.label_mem_labels he)]

end Tree

/-! ### What is filed -/

/-- The directives that are recognised among attributes. -/
def CompilerOptions.recognised (o : CompilerOptions) (attributes : Attributes) : List Directive :=
  attributes.filterMap fun a => Directive.parse o.directivePrefix a.1 a.2

namespace CompilerOptions

variable (o : CompilerOptions) (attributes : Attributes)

theorem directivesOf_eq : o.directivesOf attributes = (o.recognised attributes).foldl .add {} := by
  have hdirective : o.directive? = fun a => Directive.parse o.directivePrefix a.1 a.2 :=
    funext o.directive?_eq_parse
  rw [directivesOf, hdirective, recognised]

/-- Something is filed exactly if something is recognised. -/
theorem isEmpty_directivesOf_eq_false_iff : (o.directivesOf attributes).isEmpty = false ↔
    ∃ a ∈ attributes, (Directive.parse o.directivePrefix a.1 a.2).isSome = true := by
  rw [directivesOf_eq, Directives.isEmpty_foldl_add, List.isEmpty_eq_false_iff, recognised, Ne,
    List.filterMap_eq_nil_iff]
  simp only [not_forall, exists_prop, Option.isSome_iff_ne_none, ne_eq]

theorem kept_eq : o.kept = List.filter fun a =>
    a.1 ≠ translationDirective && (Directive.parse o.directivePrefix a.1 a.2).isNone := by
  funext attributes
  refine List.filter_congr fun a _ => ?_
  rw [consumes, directive?_eq_parse, Bool.not_or, Option.not_isSome, decide_not]

end CompilerOptions

namespace Tree

variable {t : Tree} {o : CompilerOptions}

theorem fst_of_filed? {id : NodeId} {entry : NodeId × Directives}
    (h : t.filed? o id = some entry) : entry.1 = id := by
  rw [filed?] at h
  split at h
  · cases h
  · rw [← Option.some.inj h]

theorem Accounted.mem_table_iff (ht : t.Accounted) {id : NodeId} {d : Directives} :
    (id, d) ∈ (t.collect o).table ↔ id ∈ t.content.labels ∧
      d = o.directivesOf (t.attributes id) ∧ d.isEmpty = false := by
  rw [ht.collect_eq, List.mem_filterMap]
  constructor
  · rintro ⟨x, hx, hentry⟩
    rw [filed?] at hentry
    split at hentry
    · cases hentry
    · next hasked =>
        obtain ⟨rfl, rfl⟩ := Prod.mk.inj (Option.some.inj hentry)
        exact ⟨hx, rfl, Bool.eq_false_iff.2 hasked⟩
  · rintro ⟨hid, rfl, hasked⟩
    exact ⟨id, hid, if_neg (Bool.eq_false_iff.1 hasked)⟩

/-- A label with an entry is that of an element. -/
theorem Accounted.exists_of_mem_table (ht : t.Accounted) {entry : NodeId × Directives}
    (h : entry ∈ (t.collect o).table) : ∃ e ∈ t.content.elements, e.label = entry.1 := by
  obtain ⟨hid, hentry, hasked⟩ := ht.mem_table_iff.1 h
  obtain ⟨n, hn⟩ := Forest.exists_find?_iff.2 hid
  cases n with
  | element e =>
      exact ⟨e, Forest.mem_elements_of_find? hn, Forest.label_of_find? hn⟩
  | leaf label kind content =>
      have hname : t.name? entry.1 = none := by rw [name?, find?, hn, Option.some_or]
      rw [hentry, attributes_of_leaf hname] at hasked
      cases hasked

/-- No label has two entries. -/
theorem Accounted.nodup_table (ht : t.Accounted) :
    ((t.collect o).table.map (·.1)).Nodup := by
  rw [ht.collect_eq, List.map_filterMap]
  refine List.Nodup.filterMap ?_ ht.nodup_content
  intro x y z hx hy
  rw [Option.mem_def, Option.map_eq_some_iff] at hx hy
  obtain ⟨entry, hentry, rfl⟩ := hx
  obtain ⟨other, hother, hsame⟩ := hy
  rw [← fst_of_filed? hentry, ← fst_of_filed? hother, hsame]

/-- **Collecting takes off exactly the directives and files each of them.** -/
theorem collect_strips (o : CompilerOptions) (t : Tree) (ht : t.Accounted) :
    (t.collect o).tree = { t with
      content := t.content.mapAttributes fun _ attributes => attributes.filter fun a =>
        a.1 ≠ translationDirective && (Directive.parse o.directivePrefix a.1 a.2).isNone } ∧
    ((t.collect o).table.map (·.1)).Nodup ∧
    (∀ entry ∈ (t.collect o).table, ∃ e ∈ t.content.elements, e.label = entry.1) ∧
    ∀ e ∈ t.content.elements,
      ((∃ d, (e.label, d) ∈ (t.collect o).table) ↔
        ∃ a ∈ e.attributes, (Directive.parse o.directivePrefix a.1 a.2).isSome = true) ∧
      ∀ d, (e.label, d) ∈ (t.collect o).table → d.Files (o.recognised e.attributes) := by
  refine ⟨?_, ht.nodup_table, fun entry => ht.exists_of_mem_table, fun e he => ⟨?_, ?_⟩⟩
  · rw [ht.collect_eq, withAttributes, CompilerOptions.kept_eq]
  · rw [← o.isEmpty_directivesOf_eq_false_iff, ← ht.attributes_of_mem he]
    constructor
    · rintro ⟨d, hd⟩
      obtain ⟨-, rfl, hasked⟩ := ht.mem_table_iff.1 hd
      exact hasked
    · intro hasked
      exact ⟨_, ht.mem_table_iff.2 ⟨Forest.label_mem_labels he, rfl, hasked⟩⟩
  · intro d hd
    obtain ⟨-, rfl, -⟩ := ht.mem_table_iff.1 hd
    rw [ht.attributes_of_mem he, o.directivesOf_eq]
    exact Directives.files_foldl_add _

/-- A link with directives and attributes by turns, both of them twice, and a loose element. -/
def interleaved : Tree where
  content := .element 1 "a" [("t-if", "x"), ("href", "1"), ("t-translation", "off"),
    ("t-att-title", "a"), ("t-if", "y"), ("href", "2"), ("t-field", "f"), ("t-attf-rel", "b")]
    (.leaf 2 .text "go" .nil) .nil
  loose := .element 3 "p" [("t-esc", "v")] .nil .nil
  size := 4

theorem collect_strips_interleaved :
    (interleaved.collect {}).tree = { interleaved with
      content := .element 1 "a" [("href", "1"), ("href", "2"), ("t-field", "f")]
        (.leaf 2 .text "go" .nil) .nil } ∧
    ∃ d, (1, d) ∈ (interleaved.collect {}).table ∧ d.conditional = some (.ifTrue "y") ∧
      d.attributes = [.expression "title" "a", .format "rel" "b"] := by
  have haccounted : interleaved.Accounted := .refl _
  obtain ⟨htree, -, -, hentries⟩ := collect_strips {} interleaved haccounted
  obtain ⟨hentry, hfiles⟩ := hentries _ List.mem_cons_self
  obtain ⟨d, hd⟩ := hentry.2 ⟨("t-if", "x"), List.mem_cons_self, rfl⟩
  have hfiled := hfiles d hd
  exact ⟨htree, d, hd, hfiled.conditional, hfiled.attributes⟩

end Tree

/-! ### What the passes start from -/

/-- What is filed for an element. -/
def Collecting.directives (c : Collecting) (id : NodeId) : Directives :=
  ((c.table.find? (·.1 = id)).map (·.2)).getD {}

/-- The attributes of an element; a leaf has none. -/
def Kind.attributes : Kind → Attributes
  | .element _ attributes => attributes
  | .leaf .. => []

/-- Taking the directives off a forest, if they are looked up by label. -/
theorem Forest.collect_eq {o : CompilerOptions} {f : Forest ι} {asked : ι → Directives}
    (hasked : ∀ row ∈ f.records, asked row.1 = o.directivesOf row.2.kind.attributes) :
    f.collect o = (f.mapAttributes fun _ => o.kept).map fun label => (label, asked label) := by
  induction f with
  | nil => rfl
  | element label name attributes children rest ihc ihr =>
      obtain ⟨hself, hbelow⟩ := List.forall_mem_cons.1 hasked
      obtain ⟨hchildren, hrest⟩ := List.forall_mem_append.1 hbelow
      have hself : asked label = o.directivesOf attributes := hself
      rw [collect, mapAttributes, map, ihc hchildren, ihr hrest, hself]
      rfl
  | leaf label kind content rest ih =>
      obtain ⟨hself, hrest⟩ := List.forall_mem_cons.1 hasked
      have hself : asked label = {} := hself
      rw [collect, mapAttributes, map, ih hrest, hself]

namespace Tree.Accounted

variable {t : Tree}

theorem attributes_of_mem_records (ht : t.Accounted) {row : NodeId × Record NodeId}
    (hrow : row ∈ t.content.records) : t.attributes row.1 = row.2.kind.attributes := by
  obtain ⟨n, hn, -, hrecord⟩ := ht.partOf_content.find?_of_mem ht hrow
  rw [attributes, hn, ← hrecord]
  cases n <;> rfl

/-- What is looked up for a node is what its attributes ask for. -/
theorem directives_collect (ht : t.Accounted) (o : CompilerOptions) {id : NodeId}
    (hid : id ∈ t.content.labels) :
    (t.collect o).directives id = o.directivesOf (t.attributes id) := by
  rw [Collecting.directives]
  cases hfound : (t.collect o).table.find? (·.1 = id) with
  | none =>
      by_contra hne
      refine List.find?_eq_none.1 hfound (id, _) (ht.mem_table_iff.2 ⟨hid, rfl, ?_⟩) (by simp)
      exact decide_eq_false (Ne.symm hne)
  | some entry =>
      have hlabel : entry.1 = id := by simpa using List.find?_some hfound
      obtain ⟨-, hentry, -⟩ := ht.mem_table_iff.1 (List.mem_of_find?_eq_some hfound)
      exact hlabel ▸ hentry

/-- **The passes start from what collecting leaves**: every element labelled by what is filed for
it. -/
theorem collect_content (ht : t.Accounted) (o : CompilerOptions) :
    t.content.collect o =
      (t.collect o).tree.content.map fun id => (id, (t.collect o).directives id) := by
  have htree : (t.collect o).tree.content = t.content.mapAttributes fun _ => o.kept := by
    rw [ht.collect_eq, withAttributes]
  rw [htree]
  refine Forest.collect_eq fun row hrow => ?_
  rw [ht.directives_collect o (Forest.mem_labels_of_mem_records hrow),
    ht.attributes_of_mem_records hrow]

end Tree.Accounted

end ViewCompiler
