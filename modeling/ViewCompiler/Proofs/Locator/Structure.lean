/-
**Selecting depends on the structure alone.**

Two documents of the same structure differ in the numbers of their nodes.  A renumbering takes the
one to the other, and it takes whatever a step finds, and whatever a path selects, in the one to
what it finds and selects in the other.

Main definitions:

* `ViewCompiler.Tree.Renumbers` — one document is another under new numbers.

Main results:

* `ViewCompiler.Tree.exists_renumbers` — documents of the same structure are renumberings of each
  other;
* `ViewCompiler.Step.reach_map`, `ViewCompiler.Path.select_map` — **what is found is renumbered**.
-/

import ViewCompiler.Proofs.Locator.Branches

set_option relaxedAutoImplicit false
set_option autoImplicit false

namespace ViewCompiler

/-! ### Elements under new labels -/

section

variable {ι κ : Type} (φ : ι → κ)

@[simp] theorem Forest.hasText_map (value : String) (f : Forest ι) :
    (f.map φ).hasText value = f.hasText value := by
  induction f with
  | nil => rfl
  | element _ _ _ _ _ _ ih => exact ih
  | leaf _ _ _ _ ih => simp only [map, hasText, ih]

mutual

/-- Conditions do not look at labels. -/
theorem Condition.holds_map (e : Element ι) :
    (c : Condition) → c.holds (e.map φ) = c.holds e
  | .attrEquals _ _ | .attrExists _ | .attrContains _ _ | .hasClass _ => rfl
  | .textEquals value => Forest.hasText_map φ value e.children
  | .all parts => by rw [holds, holds, Condition.allHold_map e parts]
  | .any parts => by rw [holds, holds, Condition.anyHolds_map e parts]

theorem Condition.allHold_map (e : Element ι) :
    (parts : List Condition) → Condition.allHold (e.map φ) parts = Condition.allHold e parts
  | [] => rfl
  | c :: more => by
      rw [allHold, allHold, Condition.holds_map e c, Condition.allHold_map e more]

theorem Condition.anyHolds_map (e : Element ι) :
    (parts : List Condition) → Condition.anyHolds (e.map φ) parts = Condition.anyHolds e parts
  | [] => rfl
  | c :: more => by
      rw [anyHolds, anyHolds, Condition.holds_map e c, Condition.anyHolds_map e more]

end

@[simp] theorem Predicate.keep_map (pred : Predicate) (candidates : List (Element ι)) :
    pred.keep (candidates.map (·.map φ)) = (pred.keep candidates).map (·.map φ) := by
  cases pred with
  | position n =>
      rw [keep, keep, List.getElem?_map]
      cases candidates[n - 1]? <;> rfl
  | condition c =>
      rw [keep, keep, List.filter_map]
      exact congrArg _ (List.filter_congr fun e _ => Condition.holds_map φ e c)

theorem Step.pick_map (s : Step) (children : Forest ι) :
    s.pick (children.map φ) = (s.pick children).map (·.map φ) := by
  have hpredicates : ∀ (preds : List Predicate) (candidates : List (Element ι)),
      preds.foldl Predicate.keep (candidates.map (·.map φ)) =
        (preds.foldl Predicate.keep candidates).map (·.map φ) := by
    intro preds
    induction preds with
    | nil => exact fun _ => rfl
    | cons pred more ih =>
        intro candidates
        rw [List.foldl_cons, List.foldl_cons, Predicate.keep_map, ih]
  have htest : (fun e : Element ι => s.test.admits (e.map φ)) = fun e => s.test.admits e := by
    funext e
    cases s.test <;> rfl
  rw [pick, pick, Forest.topElements_map, List.filter_map, ← hpredicates, ← htest]
  rfl

end

theorem Predicate.mem_of_mem_keep {ι : Type} {pred : Predicate} {candidates : List (Element ι)}
    {e : Element ι} (h : e ∈ pred.keep candidates) : e ∈ candidates := by
  cases pred with
  | position n => exact List.mem_of_getElem? (Option.mem_toList.1 h)
  | condition c => exact (List.mem_filter.1 h).1

/-- A step keeps children. -/
theorem Step.mem_topElements_of_mem_pick {ι : Type} {s : Step} {children : Forest ι}
    {e : Element ι} (h : e ∈ s.pick children) : e ∈ children.topElements := by
  have hpredicates : ∀ (preds : List Predicate) (candidates : List (Element ι)),
      e ∈ preds.foldl Predicate.keep candidates → e ∈ candidates := by
    intro preds
    induction preds with
    | nil => exact fun _ h => h
    | cons pred more ih => exact fun candidates h => Predicate.mem_of_mem_keep (ih _ h)
  exact (List.mem_filter.1 (hpredicates _ _ h)).1

/-! ### Documents under new numbers -/

namespace Tree

/-- The document of `t` is that of `u` under new numbers, different ones for different nodes. -/
structure Renumbers (φ : NodeId → NodeId) (u t : Tree) : Prop where
  content : t.content = u.content.map φ
  document : φ root = root
  injective : ∀ x ∈ root :: u.content.labels, ∀ y ∈ root :: u.content.labels, φ x = φ y → x = y

variable {φ : NodeId → NodeId} {t u : Tree} {x y : NodeId} {children : Forest NodeId}

/-- Documents of the same structure are renumberings of each other. -/
theorem exists_renumbers (ht : t.Accounted) (hu : u.Accounted) (h : t.plain = u.plain) :
    ∃ φ, Renumbers φ u t := by
  have hroot : ∀ {v : Tree}, v.Accounted → root ∉ v.content.labels := fun hv hmem =>
    (List.nodup_cons.1 hv.nodup).1 (List.mem_append_left _ hmem)
  let : Inhabited NodeId := ⟨root⟩
  obtain ⟨φ, hφ⟩ := Forest.exists_map_of_plain_eq hu.nodup_content h
  -- the document is no node of the content, so its number is free to choose
  let ψ : NodeId → NodeId := fun x => if x = root then root else φ x
  have hψ : ∀ x ∈ u.content.labels, ψ x = φ x := by
    intro x hx
    refine if_neg ?_
    rintro rfl
    exact hroot hu hx
  have hcontent : t.content = u.content.map ψ := by
    rw [hφ]
    exact Forest.map_congr fun x hx => (hψ x hx).symm
  have hlabels : t.content.labels = u.content.labels.map ψ := by rw [hcontent, Forest.labels_map]
  have hnodup : ((root :: u.content.labels).map ψ).Nodup := by
    rw [List.map_cons, ← hlabels, show ψ root = root from if_pos rfl]
    exact List.nodup_cons.2 ⟨hroot ht, ht.nodup_content⟩
  exact ⟨ψ, hcontent, if_pos rfl, fun x hx y hy => List.inj_on_of_nodup_map hnodup hx hy⟩

namespace Renumbers

/-- The nodes of the document, in order. -/
theorem nodes_eq (h : Renumbers φ u t) :
    root :: t.content.labels = (root :: u.content.labels).map φ := by
  rw [h.content, Forest.labels_map, List.map_cons, h.document]

theorem branch (h : Renumbers φ u t) (hx : u.Branch x children) :
    t.Branch (φ x) (children.map φ) := by
  cases hx with
  | document =>
      rw [h.document, ← h.content]
      exact .document
  | @element e he =>
      have hmem : e.map φ ∈ t.content.elements := by
        rw [h.content, Forest.elements_map]
        exact List.mem_map_of_mem he
      exact .element hmem

theorem child (h : Renumbers φ u t) (hchild : u.Child x y) : t.Child (φ x) (φ y) := by
  obtain ⟨children, hx, e, he, rfl⟩ := hchild
  refine ⟨_, h.branch hx, e.map φ, ?_, rfl⟩
  rw [Forest.topElements_map]
  exact List.mem_map_of_mem he

theorem parent?_eq (h : Renumbers φ u t) (ht : t.Accounted) (hu : u.Accounted)
    (hx : u.Branch x children) : t.parent? (φ x) = (u.parent? x).map φ := by
  rcases hx.exists_child with rfl | ⟨y, hy⟩
  · rw [h.document, (Branch.document.parent?_eq_none_iff ht).2 rfl,
      (Branch.document.parent?_eq_none_iff hu).2 rfl, Option.map_none]
  · rw [(h.child hy).parent?_eq ht, hy.parent?_eq hu, Option.map_some]

/-- Telling whether a node is among given ones does not depend on the numbers. -/
theorem contains_map (h : Renumbers φ u t) {ids : List NodeId}
    (hids : ∀ y ∈ ids, y ∈ root :: u.content.labels) (hx : x ∈ root :: u.content.labels) :
    (ids.map φ).contains (φ x) = ids.contains x := by
  rw [Bool.eq_iff_iff, List.contains_iff_mem, List.contains_iff_mem, List.mem_map]
  constructor
  · rintro ⟨y, hy, heq⟩
    exact h.injective y (hids y hy) x hx heq ▸ hy
  · exact fun hmem => ⟨x, hmem, rfl⟩

theorem inDocumentOrder_map (h : Renumbers φ u t) {ids : List NodeId}
    (hids : ∀ y ∈ ids, y ∈ root :: u.content.labels) :
    t.inDocumentOrder (ids.map φ) = (u.inDocumentOrder ids).map φ := by
  rw [inDocumentOrder, inDocumentOrder, h.nodes_eq, List.filter_map]
  exact congrArg _ (List.filter_congr fun x hx => h.contains_map hids hx)

end Renumbers

theorem mem_inDocumentOrder {ids : List NodeId} :
    x ∈ t.inDocumentOrder ids ↔ x ∈ root :: t.content.labels ∧ x ∈ ids := by
  rw [inDocumentOrder, List.mem_filter, List.contains_iff_mem]

end Tree

/-! ### Selecting -/

section

variable {φ : NodeId → NodeId} {t u : Tree} {s : Step} {x y : NodeId} {children : Forest NodeId}

/-- A step leads from branches to branches. -/
theorem Step.branch_of_mem_reach (hu : u.Accounted) (hx : u.Branch x children)
    (hy : y ∈ s.reach u x) : ∃ others, u.Branch y others := by
  have hkept : ∀ {z : NodeId} {f : Forest NodeId} {e : Element NodeId}, u.Branch z f →
      e ∈ s.pick f → ∃ others, u.Branch e.label others := fun hz he =>
    ⟨_, hz.below (Forest.mem_elements_of_mem_topElements (Step.mem_topElements_of_mem_pick he))⟩
  rw [reach] at hy
  split at hy
  · rw [List.mem_singleton.1 hy]
    exact ⟨children, hx⟩
  · obtain ⟨others, hy, -⟩ := (hx.parent?_eq_some_iff hu).1 (Option.mem_toList.1 hy)
    exact ⟨others, hy⟩
  · rw [hx.children_eq hu] at hy
    obtain ⟨e, he, rfl⟩ := List.mem_map.1 hy
    exact hkept hx he
  · rw [hx.children_eq hu] at hy
    obtain ⟨e, he, rfl⟩ := List.mem_map.1 hy
    rcases List.mem_append.1 he with he | he
    · exact hkept hx he
    · obtain ⟨d, hd, he⟩ := List.mem_flatMap.1 he
      exact hkept (hx.below hd) he

/-- What a step finds is renumbered. -/
theorem Step.reach_map (h : Tree.Renumbers φ u t) (ht : t.Accounted) (hu : u.Accounted)
    (hx : u.Branch x children) : s.reach t (φ x) = (s.reach u x).map φ := by
  rw [reach, reach]
  split
  · rfl
  · rw [h.parent?_eq ht hu hx]
    cases u.parent? x <;> rfl
  · rw [hx.children_eq hu, (h.branch hx).children_eq ht, Step.pick_map, List.map_map, List.map_map]
    rfl
  · have hbelow : ∀ e : Element NodeId,
        s.pick (e.map φ).children = (s.pick e.children).map (·.map φ) := fun e =>
      Step.pick_map φ s e.children
    simp only [hx.children_eq hu, (h.branch hx).children_eq ht, Step.pick_map, Forest.elements_map,
      List.flatMap_map, hbelow, ← List.map_flatMap, ← List.map_append, List.map_map]
    rfl

/-- The nodes of the context are branches. -/
def Tree.Branches (u : Tree) (context : List NodeId) : Prop :=
  ∀ x ∈ context, ∃ children, u.Branch x children

theorem Step.branches_advance (hu : u.Accounted) {context : List NodeId}
    (hcontext : u.Branches context) : u.Branches (s.advance u context) := by
  intro y hy
  obtain ⟨x, hx, hy⟩ := List.mem_flatMap.1 (Tree.mem_inDocumentOrder.1 hy).2
  obtain ⟨children, hx⟩ := hcontext x hx
  exact Step.branch_of_mem_reach hu hx hy

theorem Step.advance_map (h : Tree.Renumbers φ u t) (ht : t.Accounted) (hu : u.Accounted)
    {context : List NodeId} (hcontext : u.Branches context) :
    s.advance t (context.map φ) = (s.advance u context).map φ := by
  have hfound : (context.map φ).flatMap (s.reach t) = (context.flatMap (s.reach u)).map φ := by
    rw [List.flatMap_map, List.map_flatMap]
    refine List.flatMap_congr fun x hx => ?_
    obtain ⟨children, hx⟩ := hcontext x hx
    exact Step.reach_map h ht hu hx
  rw [advance, advance, hfound]
  refine h.inDocumentOrder_map fun y hy => ?_
  obtain ⟨x, hx, hy⟩ := List.mem_flatMap.1 hy
  obtain ⟨children, hx⟩ := hcontext x hx
  obtain ⟨others, hy⟩ := Step.branch_of_mem_reach hu hx hy
  exact hy.mem_nodes

variable {p : Path}

theorem Path.branches_start (p : Path) (u : Tree) : u.Branches (p.start u) := by
  intro x hx
  rw [start] at hx
  split at hx
  · rw [List.mem_singleton.1 hx]
    exact ⟨_, .document⟩
  · obtain ⟨e, he, rfl⟩ := Option.map_eq_some_iff.1 (Option.mem_toList.1 hx)
    have hmem : e ∈ u.content.topElements := List.mem_of_mem_head? (Option.mem_def.2 he)
    exact ⟨_, .element (Forest.mem_elements_of_mem_topElements hmem)⟩

theorem Path.start_map (h : Tree.Renumbers φ u t) : p.start t = (p.start u).map φ := by
  rw [start, start]
  split
  · rw [List.map_singleton, h.document]
  · rw [Tree.rootElement?, Tree.rootElement?, h.content, Forest.topElements_map, List.head?_map]
    cases u.content.topElements.head? <;> rfl

/-- **What a path selects is renumbered.** -/
theorem Path.select_map (h : Tree.Renumbers φ u t) (ht : t.Accounted) (hu : u.Accounted) :
    p.select t = (p.select u).map φ := by
  have hsteps : ∀ (steps : List Step) (context : List NodeId), u.Branches context →
      steps.foldl (fun context s => s.advance t context) (context.map φ) =
        (steps.foldl (fun context s => s.advance u context) context).map φ := by
    intro steps
    induction steps with
    | nil => exact fun _ _ => rfl
    | cons s more ih =>
        intro context hcontext
        rw [List.foldl_cons, List.foldl_cons, Step.advance_map h ht hu hcontext,
          ih _ (Step.branches_advance hu hcontext)]
  rw [select, select, Path.start_map h, hsteps _ _ (p.branches_start u)]

theorem Path.first?_map (h : Tree.Renumbers φ u t) (ht : t.Accounted) (hu : u.Accounted) :
    p.first? t = (p.first? u).map φ := by
  rw [first?, first?, Path.select_map h ht hu, List.head?_map]

/-- A path selects branches only. -/
theorem Path.branches_select (p : Path) (hu : u.Accounted) : u.Branches (p.select u) := by
  have hsteps : ∀ (steps : List Step) (context : List NodeId), u.Branches context →
      u.Branches (steps.foldl (fun context s => s.advance u context) context) := by
    intro steps
    induction steps with
    | nil => exact fun _ h => h
    | cons s more ih => exact fun context hcontext => ih _ (Step.branches_advance hu hcontext)
  exact hsteps _ _ (p.branches_start u)

end

end ViewCompiler
