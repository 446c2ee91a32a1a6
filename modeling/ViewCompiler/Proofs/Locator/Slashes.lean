/-
**Steps behind two slashes.**

An expression goes on with any step that can stand behind two slashes.  If that step is a dot, what
the longer path selects lies strictly below the nodes that the shorter one selects; if it is two dots,
it is the parents of these nodes, and what lies below them is not looked at.  Two slashes usually ask
for the nodes themselves and for all that lies below them.  With a dot the nodes themselves are
therefore missing unless there are none, and with two dots the parents of nodes further down, except
where such a parent happens to be the parent of a selected node too.

Main definitions:

* `ViewCompiler.Path.Covers` — a node is selected or lies below one that is.

Main results:

* `ViewCompiler.Path.parse_append_step` — reading an expression that goes on with a step;
* `ViewCompiler.Path.mem_select_append_iff` — what a path with one more step selects;
* `ViewCompiler.Tree.Accounted.exists_topmost` — of some nodes, one lies below none of the others;
* `ViewCompiler.Path.select_behind_slashes` — **what a dot and two dots select behind two slashes**.
-/

import Mathlib.Order.WellFounded
import ViewCompiler.Proofs.Locator.Parsing
import ViewCompiler.Proofs.Locator.Selection

set_option relaxedAutoImplicit false
set_option autoImplicit false

namespace ViewCompiler

/-! ### Expressions that go on -/

namespace Locator

variable {axis : Axis} {s : Step} {steps : List Step} {ls more : List Lexeme}
  {text rest tail : List Char}

theorem afterBlanks_append (h : afterBlanks text = afterBlanks rest) (tail : List Char) :
    afterBlanks (text ++ tail) = afterBlanks (rest ++ tail) := by
  simp only [afterBlanks, List.dropWhile_append] at h ⊢
  rw [h]

/-- A layout goes on with a text that no name goes on with. -/
theorem Lays.append_text (h : Lays ls text rest) (htail : ∀ c ∈ tail.head?, isNameChar c = false) :
    Lays ls (text ++ tail) (rest ++ tail) := by
  induction h with
  | nil h => exact .nil (afterBlanks_append h tail)
  | @cons l ls text next rest h hstops _ ih =>
      have hfront : afterBlanks (text ++ tail) = l.chars ++ (next ++ tail) := by
        rw [afterBlanks_append (afterBlanks_afterBlanks text).symm tail, h, List.append_assoc,
          l.afterBlanks_chars]
      refine .cons hfront ?_ ih
      cases l with
      | name n =>
          cases next with
          | nil => exact htail
          | cons c next => exact hstops
      | mark | number | string | operator => trivial

/-- Steps go on with a step behind two slashes. -/
theorem Strides.append (h : Strides axis steps ls) (hs : Stride .descendant s more) :
    Strides axis (steps ++ [s]) (ls ++ .mark .slashes :: more) := by
  induction h with
  | last h => exact .descendant h (.last hs)
  | child h _ ih =>
      rw [List.append_assoc, List.cons_append]
      exact .child h ih
  | descendant h _ ih =>
      rw [List.append_assoc, List.cons_append]
      exact .descendant h ih

theorem Sentence.append {absolute : Bool} (h : Sentence absolute steps ls)
    (hs : Stride .descendant s more) :
    Sentence absolute (steps ++ [s]) (ls ++ .mark .slashes :: more) := by
  cases h with
  | relative h => exact .relative (h.append hs)
  | child h => exact .child (h.append hs)
  | descendant h => exact .descendant (h.append hs)

end Locator

open Locator

/-- The path with one more step, written as the expression. -/
def Path.andThen (p : Path) (s : Step) (expression : String) : Path :=
  ⟨expression, p.absolute, p.steps ++ [s]⟩

/-- An expression goes on with two slashes and a step. -/
theorem Path.parse_append_step {expression more : String} {p : Path} {s : Step} {ls : List Lexeme}
    (hp : Path.parse expression = .ok p) (hs : Stride .descendant s ls)
    (hmore : Lays (.mark .slashes :: ls) more.toList [])
    (hhead : ∀ c ∈ more.toList.head?, isNameChar c = false) :
    Path.parse (expression ++ more) = .ok (p.andThen s (expression ++ more)) := by
  obtain ⟨-, front, hsentence, hlays⟩ := Path.parse_eq_ok_iff.1 hp
  refine Path.parse_eq_ok_iff.2 ⟨rfl, _, hsentence.append hs, ?_⟩
  rw [String.toList_append]
  exact lays_append.2 ⟨more.toList, hlays.append_text hhead, hmore⟩

theorem Path.parse_append_dot {expression : String} {p : Path} (hp : Path.parse expression = .ok p) :
    Path.parse (expression ++ "//.") =
      .ok (p.andThen ⟨.descendant, .any, []⟩ (expression ++ "//.")) :=
  Path.parse_append_step hp (.within rfl) (.cons rfl trivial (.cons rfl trivial (.refl [])))
    fun _ hc => Option.some.inj hc ▸ rfl

theorem Path.parse_append_dots {expression : String} {p : Path} (hp : Path.parse expression = .ok p) :
    Path.parse (expression ++ "//..") =
      .ok (p.andThen ⟨.parent, .any, []⟩ (expression ++ "//..")) :=
  Path.parse_append_step hp .parent (.cons rfl trivial (.cons rfl trivial (.refl [])))
    fun _ hc => Option.some.inj hc ▸ rfl

/-! ### What the last step selects -/

section

variable {t : Tree} {p : Path} {s : Step} {expression : String} {x y : NodeId}
  {contains : Containment} {children : Forest NodeId} {e : Element NodeId}

/-- One more step leads on from what is selected. -/
theorem Path.mem_select_append_iff (hs : s.Positioned) (ht : t.Accounted) :
    y ∈ (p.andThen s expression).select t ↔ ∃ x ∈ p.select t, s.Finds .present t x y := by
  have hselect : (p.andThen s expression).select t = s.advance t (p.select t) := by
    rw [select, andThen, List.foldl_append]
    rfl
  rw [hselect, Step.mem_advance_iff hs ht (p.branches_select ht)]

theorem Step.positioned_any {axis : Axis} : (⟨axis, .any, []⟩ : Step).Positioned :=
  fun _ h => absurd h List.not_mem_nil

theorem Step.keeps_any {axis : Axis} :
    (⟨axis, .any, []⟩ : Step).Keeps contains children e ↔ e ∈ children.topElements := by
  refine ⟨Step.Keeps.mem_topElements, fun he => ?_⟩
  obtain ⟨i, hi⟩ := List.mem_iff_getElem?.1 he
  exact ⟨i, hi, e, hi, trivial⟩

/-- A descendant step leads to all that lies strictly below. -/
theorem Step.finds_descendant_iff :
    (⟨.descendant, .any, []⟩ : Step).Finds contains t x y ↔ Relation.TransGen t.Child x y := by
  rw [Relation.TransGen.tail'_iff]
  constructor
  · intro h
    cases h with
    | descendant _ hbelow hz he => exact ⟨_, hbelow, _, hz, _, Step.keeps_any.1 he, rfl⟩
    | self haxis | parent haxis | child haxis => cases haxis
  · rintro ⟨z, hbelow, children, hz, e, he, rfl⟩
    exact .descendant rfl hbelow hz (Step.keeps_any.2 he)

theorem Step.finds_parent_iff :
    (⟨.parent, .any, []⟩ : Step).Finds contains t x y ↔ t.Child y x := by
  refine ⟨fun h => ?_, .parent rfl⟩
  cases h with
  | parent _ h => exact h
  | self haxis | child haxis | descendant haxis => cases haxis

/-! ### Nodes and what lies below them -/

/-- The node is selected, or lies below one that is. -/
def Path.Covers (p : Path) (t : Tree) (y : NodeId) : Prop :=
  ∃ x ∈ p.select t, Relation.ReflTransGen t.Child x y

/-- What lies below a node comes after it in document order. -/
theorem Tree.Accounted.idxOf_lt_of_below (ht : t.Accounted) (h : Relation.TransGen t.Child x y) :
    t.whole.labels.idxOf x < t.whole.labels.idxOf y := by
  induction h with
  | single h => exact ht.idxOf_parent_lt (h.parent?_eq ht)
  | tail _ h ih => exact ih.trans (ht.idxOf_parent_lt (h.parent?_eq ht))

/-- Of some nodes, one lies below none of the others. -/
theorem Tree.Accounted.exists_topmost (ht : t.Accounted) {ids : List NodeId} (hne : ids ≠ []) :
    ∃ y ∈ ids, ∀ x ∈ ids, ¬ Relation.TransGen t.Child x y := by
  obtain ⟨y, hy, hleast⟩ := (measure t.whole.labels.idxOf).wf.has_min {x | x ∈ ids}
    (List.exists_mem_of_ne_nil ids hne)
  exact ⟨y, hy, fun x hx hbelow => hleast x hx (ht.idxOf_lt_of_below hbelow)⟩

/-- What lies strictly below selected nodes is all that they cover only if there are none. -/
theorem Path.strictly_below_iff_covers (ht : t.Accounted) :
    (∀ y, (∃ x ∈ p.select t, Relation.TransGen t.Child x y) ↔ p.Covers t y) ↔ p.select t = [] := by
  constructor
  · intro hall
    by_contra hne
    obtain ⟨y, hy, htop⟩ := ht.exists_topmost hne
    obtain ⟨x, hx, hbelow⟩ := (hall y).2 ⟨y, hy, .refl⟩
    exact htop x hx hbelow
  · intro hnone y
    simp [Covers, hnone]

theorem Tree.Child.unique {z : NodeId} (h : t.Child x z) (h' : t.Child y z) (ht : t.Accounted) :
    x = y := by
  have hparent := h.parent?_eq ht
  rw [h'.parent?_eq ht] at hparent
  exact (Option.some.inj hparent).symm

/-- The parents of selected nodes are all parents of covered nodes only if every covered node with a
child has one that is selected. -/
theorem Path.parents_iff_covers (ht : t.Accounted) :
    (∀ y, (∃ x ∈ p.select t, t.Child y x) ↔ ∃ x, p.Covers t x ∧ t.Child y x) ↔
      ∀ y, p.Covers t y → (∃ z, t.Child y z) → ∃ x ∈ p.select t, t.Child y x := by
  constructor
  · rintro hall y ⟨x, hx, hxy⟩ ⟨z, hz⟩
    exact (hall y).2 ⟨z, ⟨x, hx, hxy.tail hz⟩, hz⟩
  · intro hselected y
    refine ⟨fun ⟨x, hx, hchild⟩ => ⟨x, ⟨x, hx, .refl⟩, hchild⟩, ?_⟩
    rintro ⟨z, ⟨x, hx, hxz⟩, hchild⟩
    cases hxz with
    | refl => exact ⟨z, hx, hchild⟩
    | tail hxw hwz =>
        -- the node has one parent only, which is therefore covered itself
        obtain rfl := hchild.unique hwz ht
        exact hselected y ⟨x, hx, hxw⟩ ⟨z, hchild⟩

end

/-- **Behind two slashes a dot selects what lies strictly below the nodes that are selected so far, and
two dots select the parents of these nodes**, in document order and each once.  A dot never selects all
that the path covers, unless that is nothing; two dots select the parents of all that the path covers
exactly if every covered node with a child has a selected one. -/
theorem Path.select_behind_slashes {expression : String} {p : Path} {t : Tree}
    (hp : Path.parse expression = .ok p) (ht : t.Accounted) :
    ∃ within above : Path,
      Path.parse (expression ++ "//.") = .ok within ∧
      Path.parse (expression ++ "//..") = .ok above ∧
      (∀ y, y ∈ within.select t ↔ ∃ x ∈ p.select t, Relation.TransGen t.Child x y) ∧
      (∀ y, y ∈ above.select t ↔ ∃ x ∈ p.select t, t.Child y x) ∧
      (within.select t).Pairwise (fun x y => t.place x < t.place y) ∧
      (above.select t).Pairwise (fun x y => t.place x < t.place y) ∧
      ((∀ y, y ∈ within.select t ↔ p.Covers t y) ↔ p.select t = []) ∧
      ((∀ y, y ∈ above.select t ↔ ∃ x, p.Covers t x ∧ t.Child y x) ↔
        ∀ y, p.Covers t y → (∃ z, t.Child y z) → ∃ x ∈ p.select t, t.Child y x) := by
  let within := p.andThen ⟨.descendant, .any, []⟩ (expression ++ "//.")
  let above := p.andThen ⟨.parent, .any, []⟩ (expression ++ "//..")
  have hwithin : ∀ y, y ∈ within.select t ↔ ∃ x ∈ p.select t, Relation.TransGen t.Child x y := by
    intro y
    simp only [within, Path.mem_select_append_iff Step.positioned_any ht, Step.finds_descendant_iff]
  have habove : ∀ y, y ∈ above.select t ↔ ∃ x ∈ p.select t, t.Child y x := by
    intro y
    simp only [above, Path.mem_select_append_iff Step.positioned_any ht, Step.finds_parent_iff]
  refine ⟨within, above, Path.parse_append_dot hp, Path.parse_append_dots hp, hwithin, habove,
    within.pairwise_place_select ht, above.pairwise_place_select ht, ?_, ?_⟩
  · simp only [hwithin]
    exact Path.strictly_below_iff_covers ht
  · simp only [habove]
    exact Path.parents_iff_covers ht

/-- Two elements `a`, one in the other. -/
theorem Path.select_behind_slashes_nested :
    ∃ p within t, Path.parse "//a" = .ok p ∧ Path.parse "//a//." = .ok within ∧
      ViewCompiler.parse "<r><a><b/><a/></a></r>" = .ok t ∧ t.Accounted ∧
      p.select t = [2, 4] ∧ within.select t = [3, 4] ∧
      ∀ y, y ∈ within.select t ↔ ∃ x ∈ p.select t, Relation.TransGen t.Child x y := by
  let p : Path := ⟨"//a", true, [⟨.descendant, .named "a", []⟩]⟩
  let t : Tree := ⟨.element 1 "r" [] (.element 2 "a" [] (.element 3 "b" [] .nil
    (.element 4 "a" [] .nil .nil)) .nil) .nil, .nil, 5⟩
  have hp : Path.parse "//a" = .ok p := by decide +kernel
  have hparse : ViewCompiler.parse "<r><a><b/><a/></a></r>" = .ok t := by decide +kernel
  have ht : t.Accounted := parse_accounted hparse
  obtain ⟨within, above, hwithin, -, hmem, -⟩ := Path.select_behind_slashes hp ht
  obtain rfl : within = p.andThen ⟨.descendant, .any, []⟩ "//a//." :=
    Except.ok.inj (hwithin.symm.trans (Path.parse_append_dot hp))
  exact ⟨p, _, t, hp, hwithin, hparse, ht, by decide +kernel, by decide +kernel, hmem⟩

/-- The element `a` is left out behind two slashes and a dot, and so it is behind two dots although it
is the parent of an element below it. -/
theorem Path.select_behind_slashes_ne_covers :
    ∃ p within above t, Path.parse "//a" = .ok p ∧ Path.parse "//a//." = .ok within ∧
      Path.parse "//a//.." = .ok above ∧ ViewCompiler.parse "<r><a><b/></a></r>" = .ok t ∧
      t.Accounted ∧ (p.Covers t 2 ∧ within.select t = [3]) ∧
      (∃ x, p.Covers t x ∧ t.Child 2 x) ∧ above.select t = [1] := by
  let p : Path := ⟨"//a", true, [⟨.descendant, .named "a", []⟩]⟩
  let t : Tree := ⟨.element 1 "r" [] (.element 2 "a" [] (.element 3 "b" [] .nil .nil) .nil) .nil,
    .nil, 4⟩
  have hp : Path.parse "//a" = .ok p := by decide +kernel
  have hparse : ViewCompiler.parse "<r><a><b/></a></r>" = .ok t := by decide +kernel
  have hselected : 2 ∈ p.select t := by decide +kernel
  have hbranch : t.Branch 2 (.element 3 "b" [] .nil .nil) :=
    Tree.Branch.element (e := ⟨2, "a", [], .element 3 "b" [] .nil .nil⟩)
      (List.mem_cons_of_mem _ List.mem_cons_self)
  have hchild : t.Child 2 3 := ⟨_, hbranch, _, List.mem_cons_self, rfl⟩
  exact ⟨p, _, _, t, hp, Path.parse_append_dot hp, Path.parse_append_dots hp, hparse,
    parse_accounted hparse, ⟨⟨2, hselected, .refl⟩, by decide +kernel⟩,
    ⟨3, ⟨2, hselected, .single hchild⟩, hchild⟩, by decide +kernel⟩

end ViewCompiler
