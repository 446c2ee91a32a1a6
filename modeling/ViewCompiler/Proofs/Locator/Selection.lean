/-
**A path selects what it means.**

The nodes that a path selects are those that its steps lead to, from where the path starts, and they
come in document order, each once.  The order is the one that sorting by places in the document
gives, where the document itself, which has no place in its content, comes first.

Main definitions:

* `ViewCompiler.Tree.place` — where a node stands in document order;
* `ViewCompiler.Path.selectBySorting` — selecting with contexts that are sorted after each step;
* `ViewCompiler.Path.SelectsFirst` — no node that the path selects stands before this one.

Main results:

* `ViewCompiler.Path.mem_select_iff` — **a path selects the nodes that its steps lead to**;
* `ViewCompiler.Path.pairwise_place_select`, `ViewCompiler.Path.select_eq_selectBySorting` — they
  come in document order, each once;
* `ViewCompiler.Path.map_place_select` — where they stand depends on the structure alone;
* `ViewCompiler.Path.positioned_of_parse` — the positions in an expression count from one;
* `ViewCompiler.Path.select_correct` — all this for the path that an expression denotes.
-/

import ViewCompiler.Locator.Grammar
import ViewCompiler.Markup.Reader
import ViewCompiler.Proofs.Locator.Parsing
import ViewCompiler.Proofs.Locator.Structure

set_option relaxedAutoImplicit false
set_option autoImplicit false

namespace ViewCompiler

/-! ### Document order -/

theorem nodup_eraseDups {α : Type} [DecidableEq α] (l : List α) : l.eraseDups.Nodup :=
  match l with
  | [] => List.nodup_nil
  | x :: more => by
      rw [List.eraseDups_cons, List.nodup_cons]
      exact ⟨by simp [List.mem_eraseDups], nodup_eraseDups _⟩
termination_by l.length
decreasing_by exact Nat.lt_succ_of_le (List.length_filter_le _ _)

namespace Tree

variable {t u : Tree} {x y : NodeId}

/-- The place of a node in document order; what is no node of the content comes first. -/
def place (t : Tree) (id : NodeId) : Nat :=
  if id ∈ t.content.labels then t.content.labels.idxOf id + 1 else 0

theorem Accounted.root_not_mem (ht : t.Accounted) : root ∉ t.content.labels := fun hmem =>
  (List.nodup_cons.1 ht.nodup).1 (List.mem_append_left _ hmem)

theorem Accounted.nodup_nodes (ht : t.Accounted) : (root :: t.content.labels).Nodup :=
  List.nodup_cons.2 ⟨ht.root_not_mem, ht.nodup_content⟩

theorem Accounted.place_root (ht : t.Accounted) : t.place root = 0 :=
  if_neg ht.root_not_mem

/-- The place of a node is its position among all nodes, the document in front. -/
theorem Accounted.place_eq (ht : t.Accounted) (hx : x ∈ root :: t.content.labels) :
    t.place x = (root :: t.content.labels).idxOf x := by
  by_cases hroot : x = root
  · rw [hroot, ht.place_root, List.idxOf_cons_self]
  · have hmem : x ∈ t.content.labels := (List.mem_cons.1 hx).resolve_left hroot
    rw [place, if_pos hmem, List.idxOf_cons_ne _ (Ne.symm hroot)]

theorem Accounted.place_injective (ht : t.Accounted) (hx : x ∈ root :: t.content.labels)
    (hy : y ∈ root :: t.content.labels) (h : t.place x = t.place y) : x = y := by
  rw [ht.place_eq hx, ht.place_eq hy] at h
  exact (List.idxOf_inj hx).1 h

/-- The places of the nodes grow along the document. -/
theorem Accounted.pairwise_place (ht : t.Accounted) :
    (root :: t.content.labels).Pairwise fun x y => t.place x < t.place y := by
  rw [List.pairwise_iff_getElem]
  intro i j hi hj hij
  rw [ht.place_eq (List.getElem_mem hi), ht.place_eq (List.getElem_mem hj),
    ht.nodup_nodes.idxOf_getElem, ht.nodup_nodes.idxOf_getElem]
  exact hij

/-- A renumbering keeps places. -/
theorem Renumbers.place_eq {φ : NodeId → NodeId} (h : Renumbers φ u t) (ht : t.Accounted)
    (hu : u.Accounted) (hx : x ∈ root :: u.content.labels) : t.place (φ x) = u.place x := by
  obtain ⟨i, hi, rfl⟩ := List.getElem_of_mem hx
  have hi' : i < ((root :: u.content.labels).map φ).length := by rwa [List.length_map]
  have hnodup := ht.nodup_nodes
  have hφx : φ (root :: u.content.labels)[i] ∈ root :: t.content.labels := by
    rw [h.nodes_eq]
    exact List.mem_map_of_mem (List.getElem_mem hi)
  rw [ht.place_eq hφx, hu.place_eq hx, hu.nodup_nodes.idxOf_getElem]
  rw [h.nodes_eq] at hnodup ⊢
  rw [← List.getElem_map φ (h := hi'), hnodup.idxOf_getElem]

/-- Sorting nodes by their places, each taken once, puts them in document order. -/
theorem Accounted.inDocumentOrder_eq (ht : t.Accounted) {ids : List NodeId}
    (hids : ∀ x ∈ ids, x ∈ root :: t.content.labels) :
    t.inDocumentOrder ids = ids.eraseDups.mergeSort fun x y => t.place x ≤ t.place y := by
  have hmem : ∀ {x}, x ∈ ids.eraseDups.mergeSort (fun x y => t.place x ≤ t.place y) ↔ x ∈ ids := by
    intro x
    rw [List.mem_mergeSort, List.mem_eraseDups]
  have hnodup : (ids.eraseDups.mergeSort fun x y => t.place x ≤ t.place y).Nodup :=
    (List.mergeSort_perm _ _).nodup_iff.2 (nodup_eraseDups ids)
  have hsorted : (ids.eraseDups.mergeSort fun x y => t.place x ≤ t.place y).Pairwise
      fun x y => t.place x ≤ t.place y := by
    refine (List.pairwise_mergeSort (fun x y z hxy hyz => ?_) (fun x y => ?_) ids.eraseDups).imp
      of_decide_eq_true
    · exact decide_eq_true ((of_decide_eq_true hxy).trans (of_decide_eq_true hyz))
    · simpa using Nat.le_total (t.place x) (t.place y)
  have hordered : (t.inDocumentOrder ids).Pairwise fun x y => t.place x ≤ t.place y :=
    (ht.pairwise_place.sublist List.filter_sublist).imp Nat.le_of_lt
  have hperm : (t.inDocumentOrder ids).Perm
      (ids.eraseDups.mergeSort fun x y => t.place x ≤ t.place y) := by
    refine (List.perm_ext_iff_of_nodup (ht.nodup_nodes.filter _) hnodup).2 fun x => ?_
    rw [hmem]
    exact mem_inDocumentOrder.trans ⟨fun h => h.2, fun h => ⟨hids x h, h⟩⟩
  refine List.Perm.eq_of_pairwise (fun x y hx hy hxy hyx => ?_) hordered hsorted hperm
  exact ht.place_injective (mem_inDocumentOrder.1 hx).1 (hids y (hmem.1 hy)) (Nat.le_antisymm hxy hyx)

end Tree

/-! ### Selecting -/

section

variable {t u : Tree} {p : Path} {y : NodeId}

theorem Step.mem_advance_iff {s : Step} (hs : s.Positioned) (ht : t.Accounted)
    {context : List NodeId} (hcontext : t.Branches context) :
    y ∈ s.advance t context ↔ ∃ x ∈ context, s.Finds .present t x y := by
  rw [advance, Tree.mem_inDocumentOrder, List.mem_flatMap]
  constructor
  · rintro ⟨-, x, hx, hy⟩
    obtain ⟨children, hbranch⟩ := hcontext x hx
    exact ⟨x, hx, (Step.mem_reach_iff hs ht hbranch).1 hy⟩
  · rintro ⟨x, hx, hfinds⟩
    obtain ⟨children, hbranch⟩ := hcontext x hx
    obtain ⟨others, hy⟩ := hfinds.branch hbranch
    exact ⟨hy.mem_nodes, x, hx, (Step.mem_reach_iff hs ht hbranch).2 hfinds⟩

/-- **A path selects the nodes that its steps lead to.** -/
theorem Path.mem_select_iff (hp : ∀ s ∈ p.steps, s.Positioned) (ht : t.Accounted) :
    y ∈ p.select t ↔ p.Selects .present t y := by
  have hsteps : ∀ (steps : List Step), (∀ s ∈ steps, s.Positioned) → ∀ context, t.Branches context →
      (y ∈ steps.foldl (fun context s => s.advance t context) context ↔
        ∃ x ∈ context, Leads .present t steps x y) := by
    intro steps
    induction steps with
    | nil =>
        intro _ context _
        simp [Leads]
    | cons s more ih =>
        intro hsteps context hcontext
        obtain ⟨hs, hmore⟩ := List.forall_mem_cons.1 hsteps
        rw [List.foldl_cons, ih hmore _ (Step.branches_advance ht hcontext)]
        simp only [Step.mem_advance_iff hs ht hcontext, Leads]
        constructor
        · rintro ⟨z, ⟨x, hx, hfinds⟩, hleads⟩
          exact ⟨x, hx, z, hfinds, hleads⟩
        · rintro ⟨x, hx, z, hfinds, hleads⟩
          exact ⟨z, ⟨x, hx, hfinds⟩, hleads⟩
  have hstart : ∀ x, x ∈ p.start t ↔ p.Starts t x := by
    intro x
    rw [start, Starts]
    split
    · exact List.mem_singleton
    · simp [Tree.rootElement?]
  rw [select, hsteps p.steps hp _ (p.branches_start t)]
  exact exists_congr fun x => and_congr_left' (hstart x)

/-- What a path selects comes in the order of the nodes of the document. -/
theorem Path.select_sublist (p : Path) (t : Tree) :
    (p.select t).Sublist (Tree.root :: t.content.labels) := by
  have hsteps : ∀ (steps : List Step) (context : List NodeId),
      context.Sublist (Tree.root :: t.content.labels) →
        (steps.foldl (fun context s => s.advance t context) context).Sublist
          (Tree.root :: t.content.labels) := by
    intro steps
    induction steps with
    | nil => exact fun _ h => h
    | cons s more ih => exact fun context _ => ih _ List.filter_sublist
  refine hsteps _ _ ?_
  rw [start]
  split
  · exact (List.nil_sublist _).cons_cons _
  · cases hroot : t.rootElement? with
    | none => exact List.nil_sublist _
    | some e =>
        have hmem : e ∈ t.content.topElements := List.mem_of_mem_head? (Option.mem_def.2 hroot)
        have hlabel := Forest.label_mem_labels (Forest.mem_elements_of_mem_topElements hmem)
        exact (List.singleton_sublist.2 hlabel).cons _

/-- The places of what a path selects grow. -/
theorem Path.pairwise_place_select (p : Path) (ht : t.Accounted) :
    (p.select t).Pairwise fun x y => t.place x < t.place y :=
  ht.pairwise_place.sublist (p.select_sublist t)

/-- What a path selects is the document or an element in it. -/
theorem Path.eq_root_or_element_of_mem_select (ht : t.Accounted) (h : y ∈ p.select t) :
    y = Tree.root ∨ ∃ e ∈ t.content.elements, e.label = y := by
  obtain ⟨children, hy⟩ := p.branches_select ht y h
  cases hy with
  | document => exact .inl rfl
  | @element e he => exact .inr ⟨e, he, rfl⟩

/-- Where the selected nodes stand depends on the structure of the document alone. -/
theorem Path.map_place_select (p : Path) (ht : t.Accounted) (hu : u.Accounted)
    (h : t.plain = u.plain) : (p.select t).map t.place = (p.select u).map u.place := by
  obtain ⟨φ, hφ⟩ := Tree.exists_renumbers ht hu h
  rw [Path.select_map hφ ht hu, List.map_map]
  exact List.map_congr_left fun x hx =>
    hφ.place_eq ht hu ((p.select_sublist u).subset hx)

/-- The path selects this node and none that stands before it. -/
def Path.SelectsFirst (contains : Containment) (p : Path) (t : Tree) (y : NodeId) : Prop :=
  p.Selects contains t y ∧ ∀ z, p.Selects contains t z → t.place y ≤ t.place z

theorem Path.first?_eq_some_iff (hp : ∀ s ∈ p.steps, s.Positioned) (ht : t.Accounted) :
    p.first? t = some y ↔ p.SelectsFirst .present t y := by
  have hpairwise := p.pairwise_place_select ht
  have hnodes := (p.select_sublist t).subset
  simp only [SelectsFirst, ← Path.mem_select_iff hp ht, first?]
  cases hselect : p.select t with
  | nil => simp
  | cons x more =>
      rw [hselect] at hpairwise hnodes
      obtain ⟨hlt, -⟩ := List.pairwise_cons.1 hpairwise
      have hleast : ∀ z ∈ x :: more, t.place x ≤ t.place z := by
        intro z hz
        rcases List.mem_cons.1 hz with rfl | hz
        · exact Nat.le_refl _
        · exact Nat.le_of_lt (hlt z hz)
      rw [List.head?_cons, Option.some_inj]
      constructor
      · rintro rfl
        exact ⟨List.mem_cons_self, hleast⟩
      · rintro ⟨hy, hy'⟩
        exact ht.place_injective (hnodes List.mem_cons_self) (hnodes hy)
          (Nat.le_antisymm (hleast y hy) (hy' x List.mem_cons_self))

theorem Path.first?_eq_none_iff (hp : ∀ s ∈ p.steps, s.Positioned) (ht : t.Accounted) :
    p.first? t = none ↔ ∀ y, ¬ p.Selects .present t y := by
  simp only [first?, List.head?_eq_none_iff, List.eq_nil_iff_forall_not_mem,
    Path.mem_select_iff hp ht]

/-! ### Selecting with sorting -/

/-- The next context, found as a list in which each node is kept once and which is then sorted. -/
def Step.advanceBySorting (s : Step) (t : Tree) (context : List NodeId) : List NodeId :=
  (context.flatMap (s.reach t)).eraseDups.mergeSort fun x y => t.place x ≤ t.place y

/-- The nodes that a path selects, every context sorted by places. -/
def Path.selectBySorting (p : Path) (t : Tree) : List NodeId :=
  p.steps.foldl (fun context s => s.advanceBySorting t context) (p.start t)

/-- Selecting with sorting is selecting. -/
theorem Path.select_eq_selectBySorting (p : Path) (ht : t.Accounted) :
    p.select t = p.selectBySorting t := by
  have hadvance : ∀ (s : Step) (context : List NodeId), t.Branches context →
      s.advance t context = s.advanceBySorting t context := by
    intro s context hcontext
    refine ht.inDocumentOrder_eq fun y hy => ?_
    obtain ⟨x, hx, hy⟩ := List.mem_flatMap.1 hy
    obtain ⟨children, hx⟩ := hcontext x hx
    obtain ⟨others, hy⟩ := Step.branch_of_mem_reach ht hx hy
    exact hy.mem_nodes
  have hsteps : ∀ (steps : List Step) (context : List NodeId), t.Branches context →
      steps.foldl (fun context s => s.advance t context) context =
        steps.foldl (fun context s => s.advanceBySorting t context) context := by
    intro steps
    induction steps with
    | nil => exact fun _ _ => rfl
    | cons s more ih =>
        intro context hcontext
        rw [List.foldl_cons, List.foldl_cons, ← hadvance s context hcontext,
          ih _ (Step.branches_advance ht hcontext)]
  exact hsteps _ _ (p.branches_start t)

end

/-! ### Positions in an expression -/

namespace Locator

variable {axis : Axis} {ls : List Lexeme}

theorem Filters.positioned {preds : List Predicate} (h : Filters preds ls) :
    ∀ n, .position n ∈ preds → 0 < n := by
  induction h with
  | nil => exact fun n hn => absurd hn List.not_mem_nil
  | cons h _ ih =>
      intro n hn
      rcases List.mem_cons.1 hn with rfl | hn
      · cases h with
        | position _ hpos => exact hpos
      · exact ih n hn

theorem Stride.positioned {s : Step} (h : Stride axis s ls) : s.Positioned := by
  cases h with
  | parent | self | within => exact fun n hn => absurd hn List.not_mem_nil
  | any h | named _ _ h => exact h.positioned

theorem Strides.positioned {steps : List Step} (h : Strides axis steps ls) :
    ∀ s ∈ steps, s.Positioned := by
  induction h with
  | last h => exact List.forall_mem_singleton.2 h.positioned
  | child h _ ih | descendant h _ ih => exact List.forall_mem_cons.2 ⟨h.positioned, ih⟩

theorem Sentence.positioned {absolute : Bool} {steps : List Step} (h : Sentence absolute steps ls) :
    ∀ s ∈ steps, s.Positioned := by
  cases h with
  | relative h | child h | descendant h => exact h.positioned

end Locator

/-- The positions in an expression count from one. -/
theorem Path.positioned_of_parse {expression : String} {p : Path}
    (h : Path.parse expression = .ok p) : ∀ s ∈ p.steps, s.Positioned := by
  obtain ⟨-, ls, hsentence, -⟩ := Path.parse_eq_ok_iff.1 h
  exact hsentence.positioned

theorem Path.positioned_attributeEquals (tag attr value : String) :
    ∀ s ∈ (Path.attributeEquals tag attr value).steps, s.Positioned := by
  simp [attributeEquals, Step.Positioned]

/-- **The path that an expression denotes selects what it means**: where it is said that an attribute
contains a text the attribute has to be there, which makes no difference unless the text is empty.
The selected nodes come in document order, each once; all of them are in the document; the first of
them is the first that the path means; and where they stand depends on the structure alone. -/
theorem Path.select_correct {expression : String} {p : Path} {t : Tree}
    (hp : Path.parse expression = .ok p) (ht : t.Accounted) :
    (∀ y, y ∈ p.select t ↔ p.Selects .present t y) ∧
      (p.AsksText → ∀ y, y ∈ p.select t ↔ p.Selects .standard t y) ∧
      (p.select t).Pairwise (fun x y => t.place x < t.place y) ∧
      (∀ y ∈ p.select t, y = Tree.root ∨ ∃ e ∈ t.content.elements, e.label = y) ∧
      (∀ y, p.first? t = some y ↔ p.SelectsFirst .present t y) ∧
      ∀ u : Tree, u.Accounted → u.plain = t.plain →
        (p.select u).map u.place = (p.select t).map t.place := by
  have hpositions := Path.positioned_of_parse hp
  refine ⟨fun y => Path.mem_select_iff hpositions ht, fun hasks y => ?_, p.pairwise_place_select ht,
    fun y => Path.eq_root_or_element_of_mem_select ht,
    fun y => Path.first?_eq_some_iff hpositions ht,
    fun u hu h => p.map_place_select hu ht h⟩
  rw [Path.mem_select_iff hpositions ht, hasks.selects_standard_iff]

/-- The first of several children, asked for below overlapping contexts. -/
theorem Path.select_first_children :
    ∃ p t, Path.parse "//a//b[1]" = .ok p ∧
      ViewCompiler.parse "<a><a><b/><b/></a><b/></a>" = .ok t ∧ t.Accounted ∧ p.select t = [3, 5] ∧
      ∀ y, y ∈ p.select t ↔ p.Selects .standard t y := by
  let p : Path := ⟨"//a//b[1]", true,
    [⟨.descendant, .named "a", []⟩, ⟨.descendant, .named "b", [.position 1]⟩]⟩
  let t : Tree := ⟨.element 1 "a" [] (.element 2 "a" [] (.element 3 "b" [] .nil
    (.element 4 "b" [] .nil .nil)) (.element 5 "b" [] .nil .nil)) .nil, .nil, 6⟩
  have hp : Path.parse "//a//b[1]" = .ok p := by decide +kernel
  have hparse : ViewCompiler.parse "<a><a><b/><b/></a><b/></a>" = .ok t := by decide +kernel
  have ht : t.Accounted := parse_accounted hparse
  have hasks : p.AsksText := by simp [p, AsksText]
  exact ⟨p, t, hp, hparse, ht, by decide +kernel, (Path.select_correct hp ht).2.1 hasks⟩

/-- In XPath every attribute that is not there contains the empty text, but no element is selected
for such an attribute. -/
theorem Path.select_ne_standard :
    ∃ p t, Path.parse "//x[contains(@a,'')]" = .ok p ∧ ViewCompiler.parse "<r><x/></r>" = .ok t ∧
      t.Accounted ∧ p.Selects .standard t 2 ∧ p.select t = [] := by
  let p : Path := ⟨"//x[contains(@a,'')]", true,
    [⟨.descendant, .named "x", [.condition (.attrContains "a" "")]⟩]⟩
  let t : Tree := ⟨.element 1 "r" [] (.element 2 "x" [] .nil .nil) .nil, .nil, 3⟩
  have hp : Path.parse "//x[contains(@a,'')]" = .ok p := by decide +kernel
  have hparse : ViewCompiler.parse "<r><x/></r>" = .ok t := by decide +kernel
  refine ⟨p, t, hp, hparse, parse_accounted hparse, ?_, by decide +kernel⟩
  -- from the document to the outer element, and from there to its child
  have hbelow : Relation.ReflTransGen t.Child Tree.root 1 :=
    .single ⟨t.content, .document, _, List.mem_cons_self, rfl⟩
  have houter : t.Branch 1 (.element 2 "x" [] .nil .nil) :=
    Tree.Branch.element (e := ⟨1, "r", [], .element 2 "x" [] .nil .nil⟩) List.mem_cons_self
  have hmeans : (Condition.attrContains "a" "").Means .standard
      (⟨2, "x", [], .nil⟩ : Element NodeId) :=
    .attrContains List.nil_infix
  have hkeeps : (⟨.descendant, .named "x", [.condition (.attrContains "a" "")]⟩ : Step).Keeps
      .standard (.element 2 "x" [] .nil .nil) (⟨2, "x", [], .nil⟩ : Element NodeId) :=
    ⟨0, rfl, ⟨_, rfl, rfl⟩, _, rfl, hmeans⟩
  exact ⟨Tree.root, rfl, 2, .descendant rfl hbelow houter hkeeps, rfl⟩

end ViewCompiler
