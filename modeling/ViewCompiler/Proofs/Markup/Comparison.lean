/-
**Comparing documents by their outlines.**

An outline is a list of lines, and two documents are compared by it, so the lines have to tell all
there is to a document.  A line tells the depth of its node, since no line of a node begins with a
space; and it tells what the node is, since names of the source language contain no character that
may stand behind them, and values, texts and raw texts are quoted.  A comment is not quoted: it may
run over several lines when it is shown, but it is one line of the list.  Where the children of a
node end is told by the depth of the next line.

Main definitions:

* `ViewCompiler.Kind.line` — the line of a node without its indentation;
* `ViewCompiler.Forest.Named` — all names are names of the source language;
* `ViewCompiler.Shallower` — the lines that may stand behind those of siblings.

Main results:

* `ViewCompiler.Kind.line_inj` — a line tells what the node is;
* `ViewCompiler.Forest.outline_append_inj` — an outline tells the forest, and where it ends;
* `ViewCompiler.Tree.Accounted.outline_root` — visiting the nodes of a tree one by one gives the
  outline of the document;
* `ViewCompiler.Tree.no_mismatch_iff` — **no difference is reported exactly if the documents
  have the same structure**.
-/

import ViewCompiler.Markup.Outline
import ViewCompiler.Proofs.Markup.Legible
import ViewCompiler.Proofs.Markup.Quoting
import ViewCompiler.Proofs.Markup.Walking

set_option relaxedAutoImplicit false
set_option autoImplicit false

namespace ViewCompiler

variable {ι κ : Type}

/-! ### Lines -/

/-- The line of a node without its indentation. -/
def Kind.line : Kind → String
  | .element name attributes => elementLine name attributes
  | .leaf kind content => leafLine kind content

/-- The names of an element and of its attributes are names of the source language. -/
def Kind.Named : Kind → Prop
  | .element name attributes => LegibleTag name attributes
  | .leaf .. => True

/-- Two texts that begin with a run of characters of a class, and do not go on with it. -/
theorem run_append_inj {p : Char → Bool} {a b rest more : List Char}
    (ha : ∀ c ∈ a, p c = true) (hb : ∀ c ∈ b, p c = true)
    (hrest : ∀ c ∈ rest.head?, p c = false) (hmore : ∀ c ∈ more.head?, p c = false)
    (h : a ++ rest = b ++ more) : a = b ∧ rest = more := by
  constructor
  · rw [← takeWhile_append_of_head ha hrest, h, takeWhile_append_of_head hb hmore]
  · rw [← dropWhile_append_of_head ha hrest, h, dropWhile_append_of_head hb hmore]

/-- An attribute in the line of an element. -/
def shownAttribute (a : String × String) : List Char :=
  ' ' :: (a.1.toList ++ '=' :: (quoted a.2).toList)

theorem toList_elementLine (name : String) (attributes : Attributes) :
    (elementLine name attributes).toList =
      '<' :: (name.toList ++ (attributes.flatMap shownAttribute ++ ['>'])) := by
  have hfold : ∀ (attributes : Attributes) (start : String),
      (attributes.foldl (fun out a => out ++ " " ++ a.1 ++ "=" ++ quoted a.2) start).toList =
        start.toList ++ attributes.flatMap shownAttribute := by
    intro attributes
    induction attributes with
    | nil => simp
    | cons a more ih =>
        intro start
        rw [List.foldl_cons, ih, List.flatMap_cons]
        simp [shownAttribute]
  simp [elementLine, hfold]

/-- The attributes in a line tell the attributes, and where they end. -/
theorem shownAttributes_inj {a b : Attributes} {rest more : List Char}
    (ha : ∀ x ∈ a, IsName x.1) (hb : ∀ x ∈ b, IsName x.1)
    (h : a.flatMap shownAttribute ++ '>' :: rest = b.flatMap shownAttribute ++ '>' :: more) :
    a = b ∧ rest = more := by
  induction a generalizing b with
  | nil =>
      cases b with
      | nil => exact ⟨rfl, (List.cons.inj h).2⟩
      | cons y b =>
          have hhead := (List.cons.inj h).1
          exact absurd hhead (by decide)
  | cons x a ih =>
      cases b with
      | nil =>
          have hhead := (List.cons.inj h).1
          exact absurd hhead (by decide)
      | cons y b =>
          obtain ⟨hx, ha⟩ := List.forall_mem_cons.1 ha
          obtain ⟨hy, hb⟩ := List.forall_mem_cons.1 hb
          simp only [List.flatMap_cons, shownAttribute, List.cons_append, List.append_assoc,
            List.cons.injEq, true_and] at h
          have hequals : isNameChar '=' = false := by decide
          obtain ⟨hname, hbehind⟩ :=
            run_append_inj hx.2 hy.2 (by simpa using hequals) (by simpa using hequals) h
          obtain ⟨hvalue, hbehind⟩ := quoted_append_inj (List.cons.inj hbehind).2
          obtain ⟨rfl, hrest⟩ := ih ha hb hbehind
          obtain rfl : x = y := Prod.ext (String.toList_inj.1 hname) hvalue
          exact ⟨rfl, hrest⟩

/-- The line of an element tells its name and its attributes. -/
theorem elementLine_inj {name tag : String} {a b : Attributes} (ha : LegibleTag name a)
    (hb : LegibleTag tag b) (h : elementLine name a = elementLine tag b) : name = tag ∧ a = b := by
  have hends : ∀ attributes : Attributes,
      ∀ c ∈ (attributes.flatMap shownAttribute ++ ['>']).head?, isNameChar c = false := by
    intro attributes
    cases attributes with
    | nil => simp; decide
    | cons x more => simp [shownAttribute]; decide
  have hchars := congrArg String.toList h
  rw [toList_elementLine, toList_elementLine] at hchars
  obtain ⟨hname, hattributes⟩ :=
    run_append_inj ha.1.2 hb.1.2 (hends a) (hends b) (List.cons.inj hchars).2
  exact ⟨String.toList_inj.1 hname, (shownAttributes_inj ha.2 hb.2 hattributes).1⟩

/-- The character that the line of a leaf begins with. -/
def LeafKind.sign : LeafKind → Char
  | .text => '"'
  | .comment => '<'
  | .raw => 'r'

theorem LeafKind.sign_inj {kind other : LeafKind} (h : kind.sign = other.sign) :
    kind = other := by
  revert h
  cases kind <;> cases other <;> decide

theorem head?_leafLine (kind : LeafKind) (content : String) :
    (leafLine kind content).toList.head? = some kind.sign := by
  cases kind <;> simp [leafLine, toList_quoted, LeafKind.sign]

/-- The line of a leaf tells its kind and its content. -/
theorem leafLine_inj {kind other : LeafKind} {a b : String}
    (h : leafLine kind a = leafLine other b) : kind = other ∧ a = b := by
  have hquoted : ∀ {a b : String}, (quoted a).toList = (quoted b).toList → a = b := by
    intro a b hab
    exact (quoted_append_inj (congrArg (· ++ []) hab)).1
  have hchars := congrArg String.toList h
  have hheads := congrArg List.head? hchars
  rw [head?_leafLine, head?_leafLine] at hheads
  obtain rfl := LeafKind.sign_inj (Option.some.inj hheads)
  refine ⟨rfl, ?_⟩
  cases kind with
  | text => exact hquoted hchars
  | comment =>
      simp only [leafLine, String.toList_append, List.append_cancel_left_eq,
        List.append_cancel_right_eq] at hchars
      exact String.toList_inj.1 hchars
  | raw =>
      simp only [leafLine, String.toList_append, List.append_cancel_left_eq] at hchars
      exact hquoted hchars

/-- An element has a name, and a name does not begin as a comment does. -/
theorem elementLine_ne_leafLine {name : String} {attributes : Attributes}
    (h : LegibleTag name attributes) (kind : LeafKind) (content : String) :
    elementLine name attributes ≠ leafLine kind content := by
  intro heq
  have hchars := congrArg String.toList heq
  have hheads := congrArg List.head? hchars
  rw [head?_leafLine, toList_elementLine, List.head?_cons] at hheads
  obtain rfl : LeafKind.comment = kind := LeafKind.sign_inj (Option.some.inj hheads)
  obtain ⟨hne, hname⟩ := h.1
  cases hlist : name.toList with
  | nil => exact hne (String.toList_eq_nil_iff.1 hlist)
  | cons c more =>
      have hc : isNameChar c = true := hname c (by simp [hlist])
      have hmark : c = '!' := by
        rw [toList_elementLine, hlist] at hchars
        simpa [leafLine] using congrArg (fun chars => chars.tail.head?) hchars
      rw [hmark] at hc
      exact absurd hc (by decide)

/-- **A line tells what the node is.** -/
theorem Kind.line_inj {k l : Kind} (hk : k.Named) (hl : l.Named) (h : k.line = l.line) :
    k = l := by
  cases k with
  | element name attributes =>
      cases l with
      | element tag other =>
          obtain ⟨rfl, rfl⟩ := elementLine_inj hk hl h
          rfl
      | leaf kind content => exact absurd h (elementLine_ne_leafLine hk kind content)
  | leaf kind content =>
      cases l with
      | element tag other => exact absurd h.symm (elementLine_ne_leafLine hl kind content)
      | leaf leafKind other =>
          obtain ⟨rfl, rfl⟩ := leafLine_inj h
          rfl

/-! ### Depths -/

/-- No line of a node begins with a space. -/
theorem Kind.head_line (k : Kind) : ∀ c ∈ k.line.toList.head?, decide (c = ' ') = false := by
  cases k with
  | element name attributes =>
      rw [Kind.line, toList_elementLine]
      simp
  | leaf kind content =>
      rw [Kind.line, head?_leafLine]
      cases kind <;> simp [LeafKind.sign]

/-- An indented line tells the depth and the line. -/
theorem indentation_append_inj {depth other : Nat} {k l : Kind}
    (h : indentation depth ++ k.line = indentation other ++ l.line) :
    depth = other ∧ k.line = l.line := by
  have hspaces : ∀ n : Nat, ∀ c ∈ List.replicate n ' ', decide (c = ' ') = true := by
    intro n c hc
    rw [List.eq_of_mem_replicate hc]
    rfl
  have hchars := congrArg String.toList h
  rw [String.toList_append, String.toList_append, indentation, indentation, String.toList_ofList,
    String.toList_ofList] at hchars
  obtain ⟨hdepth, hline⟩ := run_append_inj (hspaces _) (hspaces _) k.head_line l.head_line hchars
  have hlength := congrArg List.length hdepth
  rw [List.length_replicate, List.length_replicate] at hlength
  exact ⟨by omega, String.toList_inj.1 hline⟩

/-- If there are lines at all, the first is that of a node at a smaller depth. -/
def Shallower (depth : Nat) (lines : List String) : Prop :=
  ∀ line ∈ lines.head?, ∃ d < depth, ∃ k : Kind, line = indentation d ++ k.line

theorem Shallower.ne_cons {depth : Nat} {lines more : List String} (h : Shallower depth lines)
    (k : Kind) : lines ≠ (indentation depth ++ k.line) :: more := by
  rintro rfl
  obtain ⟨d, hd, l, hline⟩ := h _ rfl
  obtain ⟨rfl, -⟩ := indentation_append_inj hline
  exact Nat.lt_irrefl _ hd

/-! ### Outlines -/

namespace Forest

/-- All names are names of the source language. -/
def Named (f : Forest ι) : Prop :=
  ∀ e ∈ f.elements, LegibleTag e.name e.attributes

instance (f : Forest ι) : Decidable f.Named :=
  inferInstanceAs (Decidable (∀ e ∈ f.elements, LegibleTag e.name e.attributes))

theorem outline_element (depth : Nat) (label : ι) (name : String) (attributes : Attributes)
    (children rest : Forest ι) :
    (element label name attributes children rest).outline depth =
      (indentation depth ++ (Kind.element name attributes).line) ::
        (children.outline (depth + 1) ++ rest.outline depth) := rfl

theorem outline_leaf (depth : Nat) (label : ι) (kind : LeafKind) (content : String)
    (rest : Forest ι) :
    (leaf label kind content rest).outline depth =
      (indentation depth ++ (Kind.leaf kind content).line) :: rest.outline depth := rfl

/-- Behind the children of a node stand lines of smaller depth. -/
theorem shallower_outline_append (f : Forest ι) {depth : Nat} {lines : List String}
    (h : Shallower depth lines) : Shallower (depth + 1) (f.outline depth ++ lines) := by
  intro line hline
  cases f with
  | nil =>
      obtain ⟨d, hd, k, rfl⟩ := h line hline
      exact ⟨d, Nat.lt_succ_of_lt hd, k, rfl⟩
  | element label name attributes children rest =>
      obtain rfl := Option.some.inj hline
      exact ⟨depth, Nat.lt_succ_self depth, .element name attributes, rfl⟩
  | leaf label kind content rest =>
      obtain rfl := Option.some.inj hline
      exact ⟨depth, Nat.lt_succ_self depth, .leaf kind content, rfl⟩

/-- Two indented lines with something behind them. -/
theorem indented_cons_inj {depth : Nat} {k l : Kind} (hk : k.Named) (hl : l.Named)
    {lines more : List String}
    (h : (indentation depth ++ k.line) :: lines = (indentation depth ++ l.line) :: more) :
    k = l ∧ lines = more := by
  obtain ⟨hline, hmore⟩ := List.cons.inj h
  exact ⟨Kind.line_inj hk hl (indentation_append_inj hline).2, hmore⟩

/-- **An outline tells the forest, and where it ends.** -/
theorem outline_append_inj {f : Forest ι} {g : Forest κ} {depth : Nat} {lines more : List String}
    (hf : f.Named) (hg : g.Named) (hlines : Shallower depth lines) (hmore : Shallower depth more)
    (h : f.outline depth ++ lines = g.outline depth ++ more) : f.plain = g.plain ∧ lines = more := by
  induction f generalizing g depth lines more with
  | nil =>
      cases g with
      | nil => exact ⟨rfl, h⟩
      | element label name attributes children rest =>
          exact (hlines.ne_cons (.element name attributes) h).elim
      | leaf label kind content rest => exact (hlines.ne_cons (.leaf kind content) h).elim
  | element label name attributes children rest ihc ihr =>
      obtain ⟨hself, hbelow⟩ := List.forall_mem_cons.1 hf
      obtain ⟨hchildren, hrest⟩ := List.forall_mem_append.1 hbelow
      rw [outline_element, List.cons_append] at h
      cases g with
      | nil => exact absurd h.symm (hmore.ne_cons _)
      | leaf label' kind content rest' =>
          rw [outline_leaf, List.cons_append] at h
          obtain ⟨hkind, -⟩ :=
            indented_cons_inj (k := .element name attributes) (l := .leaf kind content) hself
              trivial h
          cases hkind
      | element label' name' attributes' children' rest' =>
          obtain ⟨hself', hbelow'⟩ := List.forall_mem_cons.1 hg
          obtain ⟨hchildren', hrest'⟩ := List.forall_mem_append.1 hbelow'
          rw [outline_element, List.cons_append] at h
          obtain ⟨hkind, hinner⟩ := indented_cons_inj (k := .element name attributes)
            (l := .element name' attributes') hself hself' h
          obtain ⟨rfl, rfl⟩ := Kind.element.inj hkind
          rw [List.append_assoc, List.append_assoc] at hinner
          obtain ⟨hplain, hbehind⟩ := ihc hchildren hchildren'
            (shallower_outline_append rest hlines) (shallower_outline_append rest' hmore) hinner
          obtain ⟨hplain', hend⟩ := ihr hrest hrest' hlines hmore hbehind
          exact ⟨congrArg₂ (element () name attributes) hplain hplain', hend⟩
  | leaf label kind content rest ih =>
      rw [outline_leaf, List.cons_append] at h
      cases g with
      | nil => exact absurd h.symm (hmore.ne_cons _)
      | element label' name attributes children rest' =>
          have hself := (List.forall_mem_cons.1 hg).1
          rw [outline_element, List.cons_append] at h
          obtain ⟨hkind, -⟩ :=
            indented_cons_inj (k := .leaf kind content) (l := .element name attributes) trivial
              hself h
          cases hkind
      | leaf label' kind' content' rest' =>
          rw [outline_leaf, List.cons_append] at h
          obtain ⟨hkind, hbehind⟩ := indented_cons_inj (k := .leaf kind content)
            (l := .leaf kind' content') trivial trivial h
          obtain ⟨rfl, rfl⟩ := Kind.leaf.inj hkind
          obtain ⟨hplain, hend⟩ := ih (g := rest') hf hg hlines hmore hbehind
          exact ⟨congrArg (leaf () kind content) hplain, hend⟩

/-- Labels do not show in an outline. -/
theorem outline_plain (f : Forest ι) (depth : Nat) : f.plain.outline depth = f.outline depth := by
  induction f generalizing depth with
  | nil => rfl
  | element label name attributes children rest ihc ihr =>
      change (element () name attributes children.plain rest.plain).outline depth = _
      rw [outline_element, outline_element, ihc, ihr]
  | leaf label kind content rest ih =>
      change (leaf () kind content rest.plain).outline depth = _
      rw [outline_leaf, outline_leaf, ih]

end Forest

/-- Documents have the same outline exactly if they have the same structure. -/
theorem documentOutline_eq_iff {f : Forest ι} {g : Forest κ} (hf : f.Named) (hg : g.Named) :
    documentOutline f = documentOutline g ↔ f.plain = g.plain := by
  constructor
  · intro h
    have hends : Shallower 1 [] := by
      intro line hline
      cases hline
    have houtline : f.outline 1 ++ [] = g.outline 1 ++ [] :=
      congrArg (· ++ []) (List.cons.inj h).2
    exact (Forest.outline_append_inj hf hg hends hends houtline).1
  · intro h
    rw [documentOutline, documentOutline, ← Forest.outline_plain, h, Forest.outline_plain]

/-- A name with a space in it could be taken for a name and an attribute. -/
example : documentOutline (.element () "a b=\"c\"" [] .nil .nil) =
    documentOutline (.element () "a" [("b", "c")] .nil .nil) := by decide +kernel

theorem outlineMismatch?_eq_none_iff {expected actual : List String} :
    outlineMismatch? expected actual = none ↔ expected = actual := by
  rw [outlineMismatch?]
  split
  · next heq => simp [heq]
  · next hne => simp [hne]

/-! ### Visiting the nodes one by one -/

namespace Forest

/-- The forest with the depth of every node beside its label. -/
def withDepths (depth : Nat) : Forest ι → Forest (ι × Nat)
  | nil => nil
  | element label name attributes children rest =>
      element (label, depth) name attributes (children.withDepths (depth + 1))
        (rest.withDepths depth)
  | leaf label kind content rest => leaf (label, depth) kind content (rest.withDepths depth)

theorem roots_withDepths (f : Forest ι) (depth : Nat) :
    (f.withDepths depth).roots = f.roots.map fun label => (label, depth) := by
  induction f with
  | nil => rfl
  | element _ _ _ _ _ _ ih => exact congrArg _ ih
  | leaf _ _ _ _ ih => exact congrArg _ ih

theorem map_fst_labels_withDepths (f : Forest ι) (depth : Nat) :
    (f.withDepths depth).labels.map (·.1) = f.labels := by
  induction f generalizing depth with
  | nil => rfl
  | element _ _ _ _ _ ihc ihr =>
      simp only [withDepths, labels, List.map_cons, List.map_append, ihc, ihr]
  | leaf _ _ _ _ ih => simp only [withDepths, labels, List.map_cons, ih]

/-- Children are one level deeper. -/
theorem Follows.withDepths {f : Forest ι} {found : ι → List ι} (h : f.Follows found)
    (depth : Nat) :
    (f.withDepths depth).Follows fun x => (found x.1).map fun child => (child, x.2 + 1) := by
  induction f generalizing depth with
  | nil => exact follows_nil
  | element label name attributes children rest ihc ihr =>
      obtain ⟨hself, hchildren, hrest⟩ := follows_element.1 h
      refine follows_element.2 ⟨?_, ihc hchildren (depth + 1), ihr hrest depth⟩
      rw [roots_withDepths, hself]
  | leaf label kind content rest ih =>
      obtain ⟨hself, hrest⟩ := follows_leaf.1 h
      exact follows_leaf.2 ⟨by rw [hself]; rfl, ih hrest depth⟩

/-- The lines of all nodes in document order are the outline. -/
theorem map_labels_withDepths {f : Forest ι} {line : ι → String}
    (h : ∀ row ∈ f.records, line row.1 = row.2.kind.line) (depth : Nat) :
    (f.withDepths depth).labels.map (fun x => indentation x.2 ++ line x.1) = f.outline depth := by
  induction f generalizing depth with
  | nil => rfl
  | element label name attributes children rest ihc ihr =>
      obtain ⟨hself, hbelow⟩ := List.forall_mem_cons.1 h
      obtain ⟨hchildren, hrest⟩ := List.forall_mem_append.1 hbelow
      rw [withDepths, labels, List.map_cons, List.map_append, ihc hchildren, ihr hrest,
        outline_element, hself]
  | leaf label kind content rest ih =>
      obtain ⟨hself, hrest⟩ := List.forall_mem_cons.1 h
      rw [withDepths, labels, List.map_cons, ih hrest, outline_leaf, hself]

end Forest

namespace Tree

variable {t u : Tree}

/-- The line of a node is that of its row. -/
theorem Accounted.nodeLine_eq (ht : t.Accounted) {row : NodeId × Record NodeId}
    (hrow : row ∈ t.content.records) : t.nodeLine row.1 = row.2.kind.line := by
  obtain ⟨n, hn, -, hrecord⟩ := ht.partOf_content.find?_of_mem ht hrow
  rw [nodeLine, if_neg (ht.ne_root_of_find? hn), hn, ← hrecord]
  cases n <;> rfl

/-- **Visiting the nodes one by one gives the outline of the document.** -/
theorem Accounted.outline_root (ht : t.Accounted) :
    t.outline root = documentOutline t.content := by
  let line : NodeId × Nat → String := fun x => indentation x.2 ++ t.nodeLine x.1
  let visited := (t.document.withDepths 0).labels
  have hfuel : visited.length ≤ t.size := by
    have hlength := congrArg List.length (t.document.map_fst_labels_withDepths 0)
    rw [List.length_map] at hlength
    exact hlength ▸ ht.length_document_le
  have hlines : visited.map line = documentOutline t.content := by
    have hroot : line (root, 0) = "#document" := by
      simp [line, nodeLine, indentation]
    have hcontent := Forest.map_labels_withDepths (fun _ => ht.nodeLine_eq) 1
    change line (root, 0) :: ((t.content.withDepths 1).labels ++ []).map line = _
    rw [List.append_nil, hroot, hcontent, documentOutline]
  -- the lines so far and those of the nodes to come are all lines
  have hrun := depthFirst_invariant
    (I := fun todo lines => lines ++ todo.map line = visited.map line)
    (fun x more lines h => ⟨lines ++ [line x], rfl, by rw [List.append_assoc]; exact h⟩)
    (ht.follows.withDepths 0) hfuel (s := []) rfl
  rw [List.map_nil, List.append_nil, hlines] at hrun
  exact hrun

/-- Comparing trees is comparing their documents. -/
theorem Accounted.mismatch?_eq (ht : t.Accounted) (hu : u.Accounted) :
    t.mismatch? u = ViewCompiler.mismatch? t.content u.content := by
  rw [mismatch?, ht.outline_root, hu.outline_root, ViewCompiler.mismatch?]

/-- **No difference is reported exactly if the documents have the same structure**: neither numbers
nor loose pieces matter, and nothing else is overlooked. -/
theorem no_mismatch_iff (ht : t.Accounted) (hu : u.Accounted) (htn : t.content.Named)
    (hun : u.content.Named) : t.mismatch? u = none ↔ t.plain = u.plain := by
  rw [ht.mismatch?_eq hu, ViewCompiler.mismatch?, outlineMismatch?_eq_none_iff]
  exact documentOutline_eq_iff htn hun

/-- A paragraph with a comment of three lines. -/
def remark : Tree where
  content := .element 1 "p" [("title", "a \"b\"")]
    (.leaf 2 .comment "one -->\n    \"two\"\n    <!-- three" .nil) .nil
  loose := .nil
  size := 3

/-- The same paragraph under another number, and a loose text. -/
def renumberedRemark : Tree where
  content := .element 3 "p" [("title", "a \"b\"")]
    (.leaf 1 .comment "one -->\n    \"two\"\n    <!-- three" .nil) .nil
  loose := .leaf 2 .text "loose" .nil
  size := 4

/-- A paragraph with two comments and a text between them. -/
def threeRemarks : Tree where
  content := .element 1 "p" [("title", "a \"b\"")]
    (.leaf 2 .comment "one" (.leaf 3 .text "two" (.leaf 4 .comment "three" .nil))) .nil
  loose := .nil
  size := 5

/-- One comment is not taken for three nodes, although both are shown as the same text. -/
theorem remark_mismatch :
    remark.mismatch? renumberedRemark = none ∧ remark.mismatch? threeRemarks ≠ none ∧
      shownLines (remark.outline root) = shownLines (threeRemarks.outline root) := by
  have hremark : remark.Accounted := .refl _
  have hrenumbered : renumberedRemark.Accounted := by
    rw [Accounted]
    decide
  have hthree : threeRemarks.Accounted := .refl _
  have hnamed : remark.content.Named := by decide +kernel
  have hsame := no_mismatch_iff hremark hrenumbered hnamed (by decide +kernel)
  have hother := no_mismatch_iff hremark hthree hnamed (by decide +kernel)
  refine ⟨hsame.2 rfl, ?_, by decide +kernel⟩
  rw [Ne, hother]
  decide

end Tree

end ViewCompiler
