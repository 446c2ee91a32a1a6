/-
**Walking with a stack, and recursion.**

The nodes of a tree are visited with a stack, and the writer visits elements twice: once for the
start tag, and again behind the children for the end tag.  Both come down to recursion on the
forest.  For the writer the second visits are made nodes of their own: behind the children of an
element stands a leaf that closes it.  A walk over this larger forest visits every label of it once,
and there are at most twice as many of them as nodes.

Main definitions:

* `ViewCompiler.Tree.subtree` — a node with everything below it;
* `ViewCompiler.Forest.withClosings` — a forest with the second visits as nodes;
* `ViewCompiler.Tree.WalkedRecursively` — what the walks from a node give, as recursions.

Main results:

* `ViewCompiler.Tree.PartOf.foldl_text` — the texts of the nodes, one after the other;
* `ViewCompiler.Tree.PartOf.writeOnto_eq` — visiting twice writes what the recursion writes;
* `ViewCompiler.Tree.Accounted.walkedRecursively` — **the walks from every node of a tree are
  recursions**.
-/

import ViewCompiler.Markup.Writer
import ViewCompiler.Proofs.Markup.Pieces
import ViewCompiler.Proofs.Markup.RoundTrip
import ViewCompiler.Proofs.Markup.Walking

set_option relaxedAutoImplicit false
set_option autoImplicit false

namespace ViewCompiler

variable {ι : Type}

/-! ### Subtrees -/

namespace Tree

/-- The node with everything below it; for the document this is its content. -/
def subtree (t : Tree) (id : NodeId) : Forest NodeId :=
  if id = root then t.content else ((t.find? id).map .single).getD .nil

variable {t : Tree} {id : NodeId}

@[simp] theorem subtree_root (t : Tree) : t.subtree root = t.content := rfl

theorem subtree_of_find? {n : Node NodeId} (hid : id ≠ root) (hn : t.find? id = some n) :
    t.subtree id = .single n := by
  rw [subtree, if_neg hid, hn]
  rfl

theorem children_of_find? {n : Node NodeId} (hid : id ≠ root) (hn : t.find? id = some n) :
    t.children id = n.below := by
  rw [children_eq, t.find?_whole hid, hn]
  rfl

theorem Accounted.exists_find? (ht : t.Accounted) (hroot : id ≠ root) (hid : id < t.size) :
    ∃ n, t.find? id = some n :=
  Option.ne_none_iff_exists'.1 ((ht.find?_ne_none_iff hroot).2 hid)

theorem Accounted.lt_size_of_find? (ht : t.Accounted) {n : Node NodeId}
    (hn : t.find? id = some n) : id ≠ root ∧ id < t.size := by
  have hroot := ht.ne_root_of_find? hn
  exact ⟨hroot, (ht.find?_ne_none_iff hroot).1 (by simp [hn])⟩

/-- A node is part of its tree. -/
theorem Accounted.partOf_single (ht : t.Accounted) {n : Node NodeId}
    (hn : t.find? id = some n) : t.PartOf (.single n) := by
  obtain ⟨hroot, hid⟩ := ht.lt_size_of_find? hn
  have hwhole : t.whole.find? id = some n := (t.find?_whole hroot).trans hn
  have hbelow := ht.partOf_children hid
  rw [children_of_find? hroot hn] at hbelow
  have hlabel : n.label = id := Forest.label_of_find? hwhole
  refine ⟨?_, ?_, ?_⟩
  · rw [Forest.records_single]
    refine List.cons_subset.2 ⟨?_, hbelow.records_subset⟩
    rw [hlabel]
    exact Forest.mem_records_of_find? ht.nodup hwhole
  · rw [Forest.labels_single, hlabel, ← children_of_find? hroot hn]
    exact ht.nodup_labels_children hid
  · rw [Forest.labels_single, hlabel]
    exact List.not_mem_cons_of_ne_of_not_mem (Ne.symm hroot) hbelow.root_not_mem

end Tree

/-! ### Document order -/

namespace Tree.PartOf

variable {t : Tree} {f : Forest NodeId}

/-- Document order: every node comes before those below it, and these before its next sibling. -/
theorem labels_eq_flatMap (hf : t.PartOf f) (ht : t.Accounted) :
    f.labels = f.roots.flatMap fun x => x :: t.descendants x := by
  induction f with
  | nil => rfl
  | element label name attributes children rest _ ihr =>
      rw [Forest.labels, Forest.roots, List.flatMap_cons,
        hf.inside.descendants_eq ht (hf.roots_children ht),
        ← ihr hf.behind]
      rfl
  | leaf label kind content rest ih =>
      have hnil : t.PartOf .nil := hf.mono (List.nil_sublist _)
      rw [Forest.labels, Forest.roots, List.flatMap_cons,
        hnil.descendants_eq ht (hf.roots_children_leaf ht),
        ← ih hf.behind_leaf]
      rfl

/-- The texts of the nodes, one after the other. -/
theorem foldl_text (hf : t.PartOf f) (ht : t.Accounted) (out : String) :
    f.labels.foldl (fun out x => out ++ (t.text? x).getD "") out = out ++ f.textContent := by
  induction f generalizing out with
  | nil => exact (String.append_empty).symm
  | element label name attributes children rest ihc ihr =>
      obtain ⟨below, hfind, -⟩ := hf.find?_element ht
      have htext : t.text? label = none := by rw [text?, hfind]
      rw [Forest.labels, List.foldl_cons, List.foldl_append, ihc hf.inside, ihr hf.behind, htext,
        Forest.textContent, Option.getD_none, String.append_empty, String.append_assoc]
  | leaf label kind content rest ih =>
      have htext : out ++ (t.text? label).getD "" ++ rest.textContent =
          out ++ (Forest.leaf label kind content rest).textContent := by
        rw [text?, hf.find?_leaf ht]
        cases kind <;> simp [Forest.textContent, String.append_assoc]
      rw [Forest.labels, List.foldl_cons, ih hf.behind_leaf, htext]

end Tree.PartOf

/-! ### Visiting twice -/

namespace Forest

/-- The forest with what is visited when it is written: behind the children of an element stands a
leaf that closes it.  The flag tells these leaves from the nodes. -/
def withClosings : Forest ι → Forest (ι × Bool)
  | nil => nil
  | element label name attributes children rest =>
      element (label, false) name attributes
        (if children.isEmpty then nil
          else children.withClosings ++ leaf (label, true) .text "" nil) rest.withClosings
  | leaf label kind content rest => leaf (label, false) kind content rest.withClosings

theorem roots_withClosings (f : Forest ι) : f.withClosings.roots = f.roots.map (·, false) := by
  induction f with
  | nil => rfl
  | element label _ _ _ _ _ ih => exact congrArg ((label, false) :: ·) ih
  | leaf label _ _ _ ih => exact congrArg ((label, false) :: ·) ih

theorem length_labels_withClosings_le (f : Forest ι) :
    f.withClosings.labels.length ≤ 2 * f.labels.length := by
  induction f with
  | nil => exact Nat.le_refl _
  | element label name attributes children rest ihc ihr =>
      have hchildren : (if children.isEmpty then nil
          else children.withClosings ++ leaf (label, true) .text "" nil).labels.length ≤
            2 * children.labels.length + 1 := by
        split
        · exact Nat.zero_le _
        · rw [labels_append, List.length_append]
          exact Nat.succ_le_succ ihc
      simp only [withClosings, labels, List.length_cons, List.length_append]
      omega
  | leaf _ _ _ _ ih =>
      simp only [withClosings, labels, List.length_cons]
      omega

/-- Written behind something. -/
theorem writeOnto_eq (style : WriteStyle) (f : Forest ι) (out : String) :
    f.writeOnto style out = out ++ f.write style := by
  rw [← String.toList_inj, String.toList_append, toList_writeOnto, toList_write]

end Forest

namespace Tree

variable {t : Tree} {style : WriteStyle} {out : String}

/-- What is found does not depend on what is written already. -/
theorem writeVisit_eq (style : WriteStyle) (t : Tree) (out : String) (x : NodeId × Bool) :
    t.writeVisit style out x = ((t.writeVisit style out x).1, (t.writeVisit style "" x).2) := by
  simp only [writeVisit]
  split
  · rfl
  · cases t.find? x.1 with
    | none => rfl
    | some n =>
        cases n with
        | leaf => rfl
        | element e =>
            dsimp only
            split
            · rfl
            · split <;> rfl

namespace PartOf

variable {label : NodeId} {name : String} {attributes : Attributes}
  {children rest : Forest NodeId} {kind : LeafKind} {content : String}

theorem writeVisit_leaf (hf : t.PartOf (.leaf label kind content rest)) (ht : t.Accounted) :
    t.writeVisit style out (label, false) = (out ++ writeLeaf kind content, []) := by
  simp only [writeVisit, if_neg hf.ne_root_leaf, hf.find?_leaf ht]

theorem writeVisit_opening (hf : t.PartOf (.element label name attributes children rest))
    (ht : t.Accounted) :
    t.writeVisit style out (label, false) =
      if children.isEmpty then
        (out ++ writeOpening name attributes ++ writeChildless style name, [])
      else
        (out ++ writeOpening name attributes ++ ">",
          children.roots.map (·, false) ++ [(label, true)]) := by
  obtain ⟨below, hfind, -⟩ := hf.find?_element ht
  simp only [writeVisit, if_neg hf.ne_root, hfind, hf.roots_children ht]
  cases children <;> simp [Forest.roots, Forest.isEmpty]

theorem writeVisit_closing (hf : t.PartOf (.element label name attributes children rest))
    (ht : t.Accounted) :
    t.writeVisit style out (label, true) = (out ++ ("</" ++ name ++ ">"), []) := by
  obtain ⟨below, hfind, -⟩ := hf.find?_element ht
  simp only [writeVisit, if_neg hf.ne_root, hfind, if_true]

variable {f : Forest NodeId}

/-- The writer finds the nodes with their second visits. -/
theorem follows_withClosings (hf : t.PartOf f) (ht : t.Accounted) (style : WriteStyle) :
    f.withClosings.Follows fun x => (t.writeVisit style "" x).2 := by
  induction f with
  | nil => exact Forest.follows_nil
  | element label name attributes children rest ihc ihr =>
      refine Forest.follows_element.2 ⟨?_, ?_, ihr hf.behind⟩
      · rw [hf.writeVisit_opening ht]
        split
        · rfl
        · rw [Forest.roots_append, Forest.roots_withClosings]
          rfl
      · split
        · exact Forest.follows_nil
        · refine Forest.follows_append.2 ⟨ihc hf.inside, Forest.follows_leaf.2 ⟨?_, ?_⟩⟩
          · rw [hf.writeVisit_closing ht]
          · exact Forest.follows_nil
  | leaf label kind content rest ih =>
      exact Forest.follows_leaf.2 ⟨by rw [hf.writeVisit_leaf ht], ih hf.behind_leaf⟩

/-- What the visits write, one after the other, is what the recursion writes. -/
theorem foldl_writeVisit (hf : t.PartOf f) (ht : t.Accounted) (style : WriteStyle) (out : String) :
    f.withClosings.labels.foldl (fun out x => (t.writeVisit style out x).1) out =
      f.writeOnto style out := by
  induction f generalizing out with
  | nil => rfl
  | element label name attributes children rest ihc ihr =>
      rw [Forest.withClosings, Forest.labels, List.foldl_cons, List.foldl_append, ihr hf.behind,
        hf.writeVisit_opening ht, Forest.writeOnto]
      congr 1
      split
      · rfl
      · rw [Forest.labels_append, List.foldl_append, ihc hf.inside, Forest.labels, Forest.labels,
          List.foldl_cons, List.foldl_nil, hf.writeVisit_closing ht]
  | leaf label kind content rest ih =>
      rw [Forest.withClosings, Forest.labels, List.foldl_cons, ih hf.behind_leaf,
        hf.writeVisit_leaf ht, Forest.writeOnto]

/-- **Visiting twice writes what the recursion writes.** -/
theorem writeOnto_eq (hf : t.PartOf f) (ht : t.Accounted) {id : NodeId} (hroots : f.roots = [id])
    (style : WriteStyle) (out : String) : t.writeOnto style out id = f.writeOnto style out := by
  have hfuel : f.withClosings.labels.length ≤ 2 * t.size :=
    Nat.le_trans f.length_labels_withClosings_le
      (Nat.mul_le_mul_left 2 (Nat.le_of_lt (hf.length_labels_lt ht)))
  have hstack : [(id, false)] = f.withClosings.roots := by
    rw [Forest.roots_withClosings, hroots]
    rfl
  rw [Tree.writeOnto, hstack, depthFirst_eq_foldl (t.writeVisit_eq style)
    (hf.follows_withClosings ht style) hfuel, hf.foldl_writeVisit ht]

/-- Siblings are written one after the other. -/
theorem foldl_writeOnto (hf : t.PartOf f) (ht : t.Accounted) (style : WriteStyle) (out : String) :
    f.roots.foldl (t.writeOnto style) out = f.writeOnto style out := by
  induction f using Forest.siblings_induction generalizing out with
  | nil => rfl
  | cons n rest ih =>
      rw [Forest.roots_append, Forest.roots_single, List.singleton_append, List.foldl_cons,
        hf.left.writeOnto_eq ht (Forest.roots_single n), ih hf.right]
      cases n <;> rfl

end PartOf

variable {id : NodeId}

/-- Writing the document visits it first, and there is no second visit to it. -/
theorem Accounted.writeOnto_root (ht : t.Accounted) (style : WriteStyle) (out : String) :
    t.writeOnto style out root = t.content.writeOnto style out := by
  have hf := ht.partOf_content
  have hvisit : ∀ out, t.writeVisit style out (root, false) =
      (out, t.content.roots.map (·, false)) := fun _ => rfl
  have hfollows : (Forest.element (root, false) "" [] t.content.withClosings .nil).Follows
      fun x => (t.writeVisit style "" x).2 := by
    refine Forest.follows_element.2 ⟨?_, hf.follows_withClosings ht style, Forest.follows_nil⟩
    rw [hvisit, Forest.roots_withClosings]
  have hfuel : (Forest.element (root, false) "" [] t.content.withClosings .nil).labels.length ≤
      2 * t.size := by
    have hwork := t.content.length_labels_withClosings_le
    have hlength := hf.length_labels_lt ht
    simp only [Forest.labels, List.append_nil, List.length_cons]
    omega
  have hrun := depthFirst_eq_foldl (t.writeVisit_eq style) hfollows hfuel out
  refine hrun.trans ?_
  rw [Forest.labels, List.foldl_cons, hvisit, Forest.labels, List.append_nil,
    hf.foldl_writeVisit ht]

theorem Accounted.writeOnto_eq (ht : t.Accounted) (hid : id < t.size) (style : WriteStyle)
    (out : String) : t.writeOnto style out id = (t.subtree id).writeOnto style out := by
  by_cases hroot : id = root
  · subst hroot
    exact ht.writeOnto_root style out
  · obtain ⟨n, hn⟩ := ht.exists_find? hroot hid
    rw [subtree_of_find? hroot hn]
    refine (ht.partOf_single hn).writeOnto_eq ht ?_ style out
    rw [Forest.roots_single, Forest.label_of_find? ((t.find?_whole hroot).trans hn)]

/-! ### All walks -/

/-- Texts in a row. -/
theorem foldl_append_getD {α : Type} (g : α → Option String) (l : List α) (out : String) :
    l.foldl (fun out x => out ++ (g x).getD "") out = (l.filterMap g).foldl (· ++ ·) out := by
  rw [List.foldl_filterMap]
  congr 1
  funext out x
  cases g x with
  | none => exact String.append_empty
  | some text => rfl

/-- What the walks from a node give, as recursions. -/
structure WalkedRecursively (t : Tree) (id : NodeId) : Prop where
  /-- Every node comes before those below it, and these before its next sibling. -/
  descendants_eq : t.descendants id =
    (t.children id).roots.flatMap fun child => child :: t.descendants child
  descendants_nodup : (t.descendants id).Nodup
  mem_descendants_iff : ∀ x, x ∈ t.descendants id ↔ t.StrictlyAbove id x
  textContent_eq : t.textContent id = (t.subtree id).textContent
  textContent_eq_join : t.textContent id = .join ((id :: t.descendants id).filterMap t.text?)
  write_eq : ∀ style, t.write style id = (t.subtree id).write style
  writeChildren_eq : ∀ style, t.writeChildren style id = (t.children id).write style
  /-- The children are written in order. -/
  writeChildren_eq_join : ∀ style,
    t.writeChildren style id = .join ((t.children id).roots.map (t.write style))
  write_root : ∀ style, id = root → t.write style id = t.writeChildren style id
  write_leaf : ∀ style label kind content, t.find? id = some (.leaf label kind content) →
    t.write style id = writeLeaf kind content
  write_childless : ∀ style e, t.find? id = some (.element e) → e.children = .nil →
    t.write style id = writeOpening e.name e.attributes ++ writeChildless style e.name
  /-- An element with children is its start tag, its children and its end tag. -/
  write_element : ∀ style e, t.find? id = some (.element e) → e.children ≠ .nil →
    t.write style id = writeOpening e.name e.attributes ++ ">" ++ t.writeChildren style id ++
      ("</" ++ e.name ++ ">")

namespace Accounted

theorem writeChildren_eq (ht : t.Accounted) (hid : id < t.size) (style : WriteStyle) :
    t.writeChildren style id = (t.children id).write style :=
  (ht.partOf_children hid).foldl_writeOnto ht style ""

theorem writeChildren_eq_join (ht : t.Accounted) (style : WriteStyle) :
    t.writeChildren style id = .join ((t.children id).roots.map (t.write style)) := by
  have hstep : ∀ x ∈ (t.children id).roots, ∀ out,
      t.writeOnto style out x = out ++ t.write style x := by
    intro x hx out
    have hsize := (ht.lt_size_of_parent? (ht.parent?_eq_some_iff.2 hx)).1
    rw [write, ht.writeOnto_eq hsize, ht.writeOnto_eq hsize, Forest.writeOnto_eq]
    rfl
  rw [writeChildren, String.join, List.foldl_map]
  exact List.foldl_ext _ _ _ fun out x hx => hstep x hx out

theorem textContent_eq (ht : t.Accounted) (hid : id < t.size) :
    t.textContent id = (t.subtree id).textContent := by
  have hbelow : ∀ out, (t.children id).labels.foldl (fun out x => out ++ (t.text? x).getD "") out =
      out ++ (t.children id).textContent := (ht.partOf_children hid).foldl_text ht
  rw [textContent, ht.descendants_eq hid, List.foldl_cons, hbelow]
  by_cases hroot : id = root
  · subst hroot
    rw [text?, ht.find?_root]
    exact String.empty_append
  · obtain ⟨n, hn⟩ := ht.exists_find? hroot hid
    rw [text?, subtree_of_find? hroot hn, children_of_find? hroot hn, hn]
    cases n with
    | element e => simp [Forest.single, Forest.textContent, Node.below]
    | leaf label kind content => cases kind <;> simp [Forest.single, Forest.textContent, Node.below]

/-- **The walks from every node of a tree are recursions.** -/
theorem walkedRecursively (ht : t.Accounted) (hid : id < t.size) : t.WalkedRecursively id where
  descendants_eq := by
    rw [ht.descendants_eq hid]
    exact (ht.partOf_children hid).labels_eq_flatMap ht
  descendants_nodup := by
    rw [ht.descendants_eq hid]
    exact (ht.partOf_children hid).nodup
  mem_descendants_iff x := by
    rw [ht.descendants_eq hid]
    exact ht.mem_labels_children_iff
  textContent_eq := ht.textContent_eq hid
  textContent_eq_join := foldl_append_getD t.text? _ ""
  write_eq style := ht.writeOnto_eq hid style ""
  writeChildren_eq := ht.writeChildren_eq hid
  writeChildren_eq_join := ht.writeChildren_eq_join
  write_root style hroot := by
    rw [ht.writeChildren_eq hid, hroot]
    exact ht.writeOnto_root style ""
  write_leaf style label kind content hn := by
    rw [write, ht.writeOnto_eq hid, subtree_of_find? (ht.lt_size_of_find? hn).1 hn]
    exact String.empty_append
  write_childless style e hn hnil := by
    rw [write, ht.writeOnto_eq hid, subtree_of_find? (ht.lt_size_of_find? hn).1 hn]
    simp [Forest.single, Forest.writeOnto, hnil, Forest.isEmpty]
  write_element style e hn hne := by
    have hroot := (ht.lt_size_of_find? hn).1
    have hempty : ¬e.children.isEmpty = true := fun h => hne (Forest.isEmpty_iff.1 h)
    rw [write, ht.writeOnto_eq hid, subtree_of_find? hroot hn, ht.writeChildren_eq hid,
      children_of_find? hroot hn, Forest.single, Forest.writeOnto, if_neg hempty,
      Forest.writeOnto_eq style e.children, String.empty_append]
    rfl

end Accounted

/-- A document of two nodes at the top, and a loose piece. -/
def hedge : Tree where
  content := .element 1 "p" [("a", "1<2")]
    (.leaf 2 .text "x & y" (.element 3 "br" [] .nil (.leaf 4 .text "z" .nil)))
    (.leaf 5 .comment "end" .nil)
  loose := .element 6 "q" [] (.leaf 7 .raw "<r>" .nil) .nil
  size := 8

theorem hedge_walked :
    hedge.WalkedRecursively root ∧ hedge.WalkedRecursively 6 ∧
      hedge.descendants root = [1, 2, 3, 4, 5] ∧ hedge.textContent root = "x & yz" ∧
      hedge.write .html root = "<p a=\"1&lt;2\">x &amp; y<br/>z</p><!--end-->" ∧
      hedge.write .xml 6 = "<q><r></q>" := by
  have ht : hedge.Accounted := .refl _
  exact ⟨ht.walkedRecursively (by decide), ht.walkedRecursively (by decide), by decide +kernel,
    by decide +kernel, by decide +kernel, by decide +kernel⟩

end Tree

end ViewCompiler
