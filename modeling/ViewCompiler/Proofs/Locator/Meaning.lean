/-
**What a path means.**

A path is read as XPath reads it, as a relation between nodes.  A step leads from a node to others,
whatever other nodes the context has; a path leads wherever its steps lead one after the other.  The
nodes are the document and the elements in it.  Predicates filter, one after the other, the element
children of one parent, and a position counts among those of them that are left.

Main definitions:

* `ViewCompiler.Containment`, `ViewCompiler.Condition.Means` — what a condition asks of an element;
* `ViewCompiler.Remains`, `ViewCompiler.Step.Keeps` — the children that predicates leave;
* `ViewCompiler.Tree.Branch`, `ViewCompiler.Tree.Child` — the nodes of a document, and the step from
  one to an element right below it;
* `ViewCompiler.Step.Finds`, `ViewCompiler.Leads`, `ViewCompiler.Path.Selects` — where steps and
  paths lead.

Main results:

* `ViewCompiler.Condition.holds_iff` — a condition holds if it is met, where `contains` asks for the
  attribute to be there;
* `ViewCompiler.Step.mem_pick_iff` — filtering a list of candidates leaves what remains;
* `ViewCompiler.Path.AsksText.selects_standard_iff` — where no text is empty that an attribute is to
  contain, it makes no difference whether the attribute has to be there.
-/

import Mathlib.Data.Nat.Count
import Mathlib.Logic.Relation
import ViewCompiler.Locator.Select
import ViewCompiler.Proofs.Markup.Decoding

set_option relaxedAutoImplicit false
set_option autoImplicit false

namespace ViewCompiler

variable {ι : Type}

/-! ### Conditions -/

/-- What is asked of the value of an attribute, if it has one, by a text that it is to contain. -/
abbrev Containment := Option String → String → Prop

/-- In XPath an attribute that is not there counts as an empty text, which contains the empty
text. -/
def Containment.standard : Containment := fun value? part =>
  part.toList <:+: (value?.getD "").toList

/-- The attribute has to be there. -/
def Containment.present : Containment := fun value? part =>
  ∃ value, value? = some value ∧ part.toList <:+: value.toList

/-- The element meets the condition. -/
inductive Condition.Means (contains : Containment) (e : Element ι) : Condition → Prop
  | attrEquals {name value : String} (h : e.attr? name = some value) :
      Means contains e (.attrEquals name value)
  | attrExists {name value : String} (h : e.attr? name = some value) :
      Means contains e (.attrExists name)
  | attrContains {name part : String} (h : contains (e.attr? name) part) :
      Means contains e (.attrContains name part)
  | hasClass {classes : List String} {value : String} (h : e.attr? "class" = some value)
      (hall : ∀ c ∈ classes, c.toList ∈ words value.toList) : Means contains e (.hasClass classes)
  | textEquals {value : String} {label : ι} (h : Node.leaf label .text value ∈ e.children.nodes) :
      Means contains e (.textEquals value)
  | all {parts : List Condition} (h : ∀ c ∈ parts, Means contains e c) : Means contains e (.all parts)
  | any {parts : List Condition} {c : Condition} (hc : c ∈ parts) (h : Means contains e c) :
      Means contains e (.any parts)

/-- No attribute is asked to contain the empty text. -/
inductive Condition.AsksText : Condition → Prop
  | attrEquals (name value : String) : AsksText (.attrEquals name value)
  | attrExists (name : String) : AsksText (.attrExists name)
  | attrContains (name : String) {part : String} (h : part ≠ "") :
      AsksText (.attrContains name part)
  | hasClass (classes : List String) : AsksText (.hasClass classes)
  | textEquals (value : String) : AsksText (.textEquals value)
  | all {parts : List Condition} (h : ∀ c ∈ parts, AsksText c) : AsksText (.all parts)
  | any {parts : List Condition} (h : ∀ c ∈ parts, AsksText c) : AsksText (.any parts)

theorem occursIn_iff {part text : String} :
    occursIn part text = true ↔ part.toList <:+: text.toList := by
  by_cases h : part.toList = []
  · have hcut : cut [] text.toList = some ([], text.toList) := by
      cases text.toList <;> rfl
    simp [occursIn, h, hcut]
  · rw [occursIn, Option.isSome_iff_ne_none, Ne, cut_eq_none_iff h, not_not]

theorem Forest.hasText_iff {value : String} {f : Forest ι} :
    f.hasText value = true ↔ ∃ label, Node.leaf label .text value ∈ f.nodes := by
  induction f with
  | nil => simp [hasText, nodes]
  | element label name attributes children rest _ ih => simp [hasText, nodes, ih]
  | leaf label kind content rest ih =>
      simp only [hasText, nodes, Bool.or_eq_true, Bool.and_eq_true, decide_eq_true_eq,
        List.mem_cons, Node.leaf.injEq, ih]
      constructor
      · rintro (⟨rfl, rfl⟩ | ⟨l, hl⟩)
        · exact ⟨label, .inl ⟨rfl, rfl, rfl⟩⟩
        · exact ⟨l, .inr hl⟩
      · rintro ⟨l, ⟨-, rfl, rfl⟩ | hl⟩
        · exact .inl ⟨rfl, rfl⟩
        · exact .inr ⟨l, hl⟩

theorem Element.hasClasses_iff {e : Element ι} {classes : List String} :
    e.hasClasses classes = true ↔
      ∃ value, e.attr? "class" = some value ∧ ∀ c ∈ classes, c.toList ∈ words value.toList := by
  rw [hasClasses]
  cases e.attr? "class" <;> simp

mutual

/-- **A condition holds if it is met**, where `contains` asks for the attribute to be there. -/
theorem Condition.holds_iff (e : Element ι) :
    (c : Condition) → (c.holds e = true ↔ c.Means .present e)
  | .attrEquals name value => by
      rw [holds, decide_eq_true_iff]
      exact ⟨.attrEquals, fun | .attrEquals h => h⟩
  | .attrExists name => by
      rw [holds, Option.isSome_iff_exists]
      exact ⟨fun ⟨_, h⟩ => .attrExists h, fun | .attrExists h => ⟨_, h⟩⟩
  | .attrContains name part => by
      simp only [holds, Option.any_eq_true, occursIn_iff]
      exact ⟨fun h => .attrContains h, fun | .attrContains h => h⟩
  | .hasClass classes => by
      rw [holds, Element.hasClasses_iff]
      exact ⟨fun ⟨_, h, hall⟩ => .hasClass h hall, fun | .hasClass h hall => ⟨_, h, hall⟩⟩
  | .textEquals value => by
      rw [holds, Forest.hasText_iff]
      exact ⟨fun ⟨_, h⟩ => .textEquals h, fun | .textEquals h => ⟨_, h⟩⟩
  | .all parts => by
      rw [holds, Condition.allHold_iff e parts]
      exact ⟨.all, fun | .all h => h⟩
  | .any parts => by
      rw [holds, Condition.anyHolds_iff e parts]
      exact ⟨fun ⟨_, hc, h⟩ => .any hc h, fun | .any hc h => ⟨_, hc, h⟩⟩

theorem Condition.allHold_iff (e : Element ι) : (parts : List Condition) →
    (Condition.allHold e parts = true ↔ ∀ c ∈ parts, c.Means .present e)
  | [] => by simp [allHold]
  | c :: more => by
      rw [allHold, Bool.and_eq_true, Condition.holds_iff e c, Condition.allHold_iff e more,
        List.forall_mem_cons]

theorem Condition.anyHolds_iff (e : Element ι) : (parts : List Condition) →
    (Condition.anyHolds e parts = true ↔ ∃ c ∈ parts, c.Means .present e)
  | [] => by simp [anyHolds]
  | c :: more => by
      rw [anyHolds, Bool.or_eq_true, Condition.holds_iff e c, Condition.anyHolds_iff e more]
      simp

end

/-- Where no text is empty that an attribute is to contain, the attribute has to be there anyway. -/
theorem Condition.AsksText.standard_iff {c : Condition} (h : c.AsksText) (e : Element ι) :
    c.Means .standard e ↔ c.Means .present e := by
  induction h with
  | attrEquals name value =>
      exact ⟨fun | .attrEquals h => .attrEquals h, fun | .attrEquals h => .attrEquals h⟩
  | attrExists name =>
      exact ⟨fun | .attrExists h => .attrExists h, fun | .attrExists h => .attrExists h⟩
  | @attrContains name part hpart =>
      have hempty : ¬ part.toList <:+: "".toList := by
        intro hinfix
        exact hpart (String.toList_eq_nil_iff.1 (List.infix_nil.1 hinfix))
      have hiff : Containment.standard (e.attr? name) part ↔
          Containment.present (e.attr? name) part := by
        cases hvalue : e.attr? name with
        | none => simpa [Containment.standard, Containment.present] using hempty
        | some value => simp [Containment.standard, Containment.present]
      exact ⟨fun | .attrContains h => .attrContains (hiff.1 h),
        fun | .attrContains h => .attrContains (hiff.2 h)⟩
  | hasClass classes =>
      exact ⟨fun | .hasClass h hall => .hasClass h hall, fun | .hasClass h hall => .hasClass h hall⟩
  | textEquals value =>
      exact ⟨fun | .textEquals h => .textEquals h, fun | .textEquals h => .textEquals h⟩
  | all _ ih =>
      exact ⟨fun | .all h => .all fun c hc => (ih c hc).1 (h c hc),
        fun | .all h => .all fun c hc => (ih c hc).2 (h c hc)⟩
  | any _ ih =>
      exact ⟨fun | .any hc h => .any hc ((ih _ hc).1 h),
        fun | .any hc h => .any hc ((ih _ hc).2 h)⟩

/-! ### Predicates -/

/-- The element has a name that the test is for. -/
def NameTest.Passes (e : Element ι) : NameTest → Prop
  | .named name => e.name = name
  | .any => True

theorem NameTest.admits_iff {e : Element ι} {test : NameTest} :
    test.admits e = true ↔ test.Passes e := by
  cases test <;> simp [admits, Passes]

open Classical in
/-- The sibling at a place is left by a test of names and by predicates, of which the last comes
first.  A position counts the siblings up to that place which the predicates before it have left. -/
def Remains (contains : Containment) (siblings : List (Element ι)) (test : NameTest) :
    List Predicate → Nat → Prop
  | [], i => ∃ e, siblings[i]? = some e ∧ test.Passes e
  | .condition c :: earlier, i =>
      Remains contains siblings test earlier i ∧
        ∃ e, siblings[i]? = some e ∧ c.Means contains e
  | .position n :: earlier, i =>
      Remains contains siblings test earlier i ∧
        Nat.count (Remains contains siblings test earlier) (i + 1) = n

/-- The element is one of the children that a step leaves to one parent. -/
def Step.Keeps (contains : Containment) (s : Step) (children : Forest ι) (e : Element ι) : Prop :=
  ∃ i, children.topElements[i]? = some e ∧
    Remains contains children.topElements s.test s.predicates.reverse i

/-- Positions count from one. -/
def Step.Positioned (s : Step) : Prop :=
  ∀ n, .position n ∈ s.predicates → 0 < n

section

variable {contains : Containment} {siblings : List (Element ι)} {test : NameTest}

theorem Remains.exists_sibling {latest : List Predicate} {i : Nat}
    (h : Remains contains siblings test latest i) : ∃ e, siblings[i]? = some e := by
  induction latest with
  | nil =>
      obtain ⟨e, he, -⟩ := h
      exact ⟨e, he⟩
  | cons p earlier ih =>
      cases p with
      | position n => exact ih h.1
      | condition c => exact ih h.1

/-- Of the numbers with a property, the one that makes the count of them `n` is the `n`-th. -/
theorem filter_count_eq (P : Nat → Prop) [DecidablePred P] {n : Nat} (hn : 0 < n) (bound : Nat) :
    (List.range bound).filter (fun i => P i ∧ Nat.count P (i + 1) = n) =
      (((List.range bound).filter (P ·))[n - 1]?).toList := by
  induction bound with
  | zero => rfl
  | succ bound ih =>
      have hlength : ((List.range bound).filter (P ·)).length = Nat.count P bound := by
        rw [Nat.count, List.countP_eq_length_filter]
      rw [List.range_succ, List.filter_append, List.filter_append, ih]
      by_cases hP : P bound
      · have hcount : Nat.count P (bound + 1) = Nat.count P bound + 1 := by
          rw [Nat.count_succ, if_pos hP]
        by_cases heq : Nat.count P bound + 1 = n
        · have hlast : n - 1 = ((List.range bound).filter (P ·)).length := by omega
          simp [hP, hcount, heq, hlast]
        · have hother : n - 1 ≠ ((List.range bound).filter (P ·)).length := by omega
          rcases Nat.lt_or_gt_of_ne hother with hlt | hgt
          · simp [hP, hcount, heq, List.getElem?_append_left hlt]
          · have hnone : ((List.range bound).filter (P ·))[n - 1]? = none :=
              List.getElem?_eq_none (Nat.le_of_lt hgt)
            have hnone' : ((List.range bound).filter (P ·) ++ [bound])[n - 1]? = none := by
              refine List.getElem?_eq_none ?_
              rw [List.length_append, List.length_singleton]
              omega
            simp [hP, hcount, heq, hnone, hnone']
      · simp [hP]

open Classical in
/-- The places of the siblings that are left, in order. -/
noncomputable def remainingPlaces (contains : Containment) (siblings : List (Element ι))
    (test : NameTest) (latest : List Predicate) : List Nat :=
  (List.range siblings.length).filter (Remains contains siblings test latest ·)

theorem mem_remainingPlaces {latest : List Predicate} {i : Nat} :
    i ∈ remainingPlaces contains siblings test latest ↔
      Remains contains siblings test latest i := by
  classical
  rw [remainingPlaces, List.mem_filter, decide_eq_true_iff, List.mem_range]
  refine ⟨fun h => h.2, fun h => ⟨?_, h⟩⟩
  obtain ⟨e, he⟩ := h.exists_sibling
  exact (List.getElem?_eq_some_iff.1 he).1

/-- What is at places that there are can be read off one by one. -/
theorem getElem?_filterMap_places {places : List Nat}
    (h : ∀ i ∈ places, ∃ e, siblings[i]? = some e) (n : Nat) :
    (places.filterMap (siblings[·]?))[n]? = places[n]?.bind (siblings[·]?) := by
  induction places generalizing n with
  | nil => rfl
  | cons i places ih =>
      obtain ⟨e, he⟩ := h i List.mem_cons_self
      have ih := ih fun j hj => h j (List.mem_cons_of_mem _ hj)
      rw [List.filterMap_cons, he]
      cases n with
      | zero => simp [he]
      | succ n => simpa using ih n

/-- It is the same to choose places by what is there and to choose from what is there. -/
theorem filterMap_filter_places (places : List Nat) {P : Nat → Bool} {Q : Element ι → Bool}
    (h : ∀ i ∈ places, ∀ e, siblings[i]? = some e → P i = Q e) :
    (places.filter P).filterMap (siblings[·]?) = (places.filterMap (siblings[·]?)).filter Q := by
  induction places with
  | nil => rfl
  | cons i places ih =>
      have ih := ih fun j hj => h j (List.mem_cons_of_mem _ hj)
      have hi := h i List.mem_cons_self
      rw [List.filter_cons, List.filterMap_cons]
      cases hsibling : siblings[i]? with
      | none =>
          split
          · rw [List.filterMap_cons, hsibling]
            exact ih
          · exact ih
      | some e =>
          rw [hi e hsibling, List.filter_cons]
          split
          · rw [List.filterMap_cons, hsibling]
            exact congrArg (e :: ·) ih
          · exact ih

theorem filterMap_range_length (l : List (Element ι)) :
    (List.range l.length).filterMap (l[·]?) = l := by
  refine List.ext_getElem? fun n => ?_
  have hplaces : ∀ i ∈ List.range l.length, ∃ e, l[i]? = some e := fun i hi =>
    ⟨_, List.getElem?_eq_getElem (List.mem_range.1 hi)⟩
  rw [getElem?_filterMap_places hplaces]
  by_cases hn : n < l.length
  · simp [hn]
  · simp [hn]

/-- **Filtering a list of candidates leaves what remains**: the candidates are the siblings at the
places that are left. -/
theorem foldr_keep {latest : List Predicate} (hpositions : ∀ n, .position n ∈ latest → 0 < n) :
    latest.foldr (fun p candidates => p.keep candidates)
        (siblings.filter fun e => test.admits e) =
      (remainingPlaces .present siblings test latest).filterMap (siblings[·]?) := by
  classical
  induction latest with
  | nil =>
      rw [remainingPlaces, filterMap_filter_places _ (Q := fun e => test.admits e),
        filterMap_range_length]
      · rfl
      · intro i _ e he
        rw [Bool.eq_iff_iff, decide_eq_true_iff, NameTest.admits_iff]
        simp [Remains, he]
  | cons p earlier ih =>
      have ih := ih fun n hn => hpositions n (List.mem_cons_of_mem _ hn)
      rw [List.foldr_cons, ih]
      cases p with
      | condition c =>
          rw [Predicate.keep, ← filterMap_filter_places _ (P := fun i =>
            decide (∃ e, siblings[i]? = some e ∧ c.Means .present e))]
          · rw [remainingPlaces, remainingPlaces, List.filter_filter]
            congr 2
            funext i
            rw [Bool.and_comm, Bool.eq_iff_iff, Bool.and_eq_true, decide_eq_true_iff,
              decide_eq_true_iff, decide_eq_true_iff]
            rfl
          · intro i _ e he
            rw [Bool.eq_iff_iff, decide_eq_true_iff, Condition.holds_iff]
            simp [he]
      | position n =>
          have hn := hpositions n List.mem_cons_self
          have hplaces : ∀ i ∈ remainingPlaces .present siblings test earlier,
              ∃ e, siblings[i]? = some e := fun i hi => (mem_remainingPlaces.1 hi).exists_sibling
          have hcount : remainingPlaces .present siblings test (.position n :: earlier) =
              ((remainingPlaces .present siblings test earlier)[n - 1]?).toList := by
            refine (List.filter_congr fun i _ => ?_).trans (filter_count_eq _ hn _)
            rw [Bool.eq_iff_iff, decide_eq_true_iff, decide_eq_true_iff]
            rfl
          rw [Predicate.keep, getElem?_filterMap_places hplaces, hcount]
          cases (remainingPlaces .present siblings test earlier)[n - 1]? with
          | none => rfl
          | some i =>
              cases hi : siblings[i]? <;> simp [hi]

end

/-- The children that a step keeps are those that its predicates leave. -/
theorem Step.mem_pick_iff {s : Step} (hs : s.Positioned) {children : Forest ι} {e : Element ι} :
    e ∈ s.pick children ↔ s.Keeps .present children e := by
  have hpositions : ∀ n, .position n ∈ s.predicates.reverse → 0 < n := fun n hn =>
    hs n (List.mem_reverse.1 hn)
  rw [pick, ← List.foldr_reverse, foldr_keep hpositions, List.mem_filterMap, Keeps]
  simp only [mem_remainingPlaces]
  exact exists_congr fun i => And.comm

/-! ### Steps and paths -/

/-- The document and the elements in it, each with its children. -/
inductive Tree.Branch (t : Tree) : NodeId → Forest NodeId → Prop
  | document : Branch t Tree.root t.content
  | element {e : Element NodeId} (he : e ∈ t.content.elements) : Branch t e.label e.children

/-- `y` is an element right below `x`. -/
def Tree.Child (t : Tree) (x y : NodeId) : Prop :=
  ∃ children, t.Branch x children ∧ ∃ e ∈ children.topElements, e.label = y

/-- A step leads from `x` to `y`. -/
inductive Step.Finds (contains : Containment) (s : Step) (t : Tree) : NodeId → NodeId → Prop
  | self {x : NodeId} (haxis : s.axis = .self) : Finds contains s t x x
  | parent {x y : NodeId} (haxis : s.axis = .parent) (h : t.Child y x) : Finds contains s t x y
  | child {x : NodeId} {children : Forest NodeId} {e : Element NodeId} (haxis : s.axis = .child)
      (hx : t.Branch x children) (he : s.Keeps contains children e) :
      Finds contains s t x e.label
  | descendant {x z : NodeId} {children : Forest NodeId} {e : Element NodeId}
      (haxis : s.axis = .descendant) (hbelow : Relation.ReflTransGen t.Child x z)
      (hz : t.Branch z children) (he : s.Keeps contains children e) :
      Finds contains s t x e.label

/-- Steps lead from `x` to `y`, one after the other. -/
def Leads (contains : Containment) (t : Tree) : List Step → NodeId → NodeId → Prop
  | [], x, y => x = y
  | s :: more, x, y => ∃ z, s.Finds contains t x z ∧ Leads contains t more z y

/-- A path starts at the document, or at the first element of its content, if there is one. -/
def Path.Starts (p : Path) (t : Tree) (x : NodeId) : Prop :=
  if p.absolute then x = Tree.root else ∃ e, t.content.topElements.head? = some e ∧ e.label = x

/-- **The path selects the node.** -/
def Path.Selects (contains : Containment) (p : Path) (t : Tree) (y : NodeId) : Prop :=
  ∃ x, p.Starts t x ∧ Leads contains t p.steps x y

/-- No predicate of the path asks an attribute to contain the empty text. -/
def Path.AsksText (p : Path) : Prop :=
  ∀ s ∈ p.steps, ∀ c, .condition c ∈ s.predicates → c.AsksText

section

variable {t : Tree} {s : Step}

theorem remains_standard {siblings : List (Element ι)} {test : NameTest} {latest : List Predicate}
    (h : ∀ c, .condition c ∈ latest → c.AsksText) :
    Remains .standard siblings test latest = Remains .present siblings test latest := by
  induction latest with
  | nil => rfl
  | cons p earlier ih =>
      have ih := ih fun c hc => h c (List.mem_cons_of_mem _ hc)
      funext i
      cases p with
      | position n => rw [Remains, Remains, ih]
      | condition c => simp only [Remains, ih, (h c List.mem_cons_self).standard_iff]

theorem Step.keeps_standard (h : ∀ c, .condition c ∈ s.predicates → c.AsksText) :
    s.Keeps .standard (ι := ι) = s.Keeps .present := by
  funext children e
  rw [Keeps, Keeps, remains_standard fun c hc => h c (List.mem_reverse.1 hc)]

/-- Where a step leads depends on what it keeps. -/
theorem Step.Finds.of_keeps_eq {contains others : Containment} {x y : NodeId}
    (h : s.Keeps (ι := NodeId) contains = s.Keeps others) (hfinds : s.Finds contains t x y) :
    s.Finds others t x y := by
  cases hfinds with
  | self haxis => exact .self haxis
  | parent haxis hchild => exact .parent haxis hchild
  | child haxis hx he => exact .child haxis hx (h ▸ he)
  | descendant haxis hbelow hz he => exact .descendant haxis hbelow hz (h ▸ he)

theorem Step.finds_standard (h : ∀ c, .condition c ∈ s.predicates → c.AsksText) {x y : NodeId} :
    s.Finds .standard t x y ↔ s.Finds .present t x y :=
  ⟨fun hfinds => hfinds.of_keeps_eq (keeps_standard h),
    fun hfinds => hfinds.of_keeps_eq (keeps_standard h).symm⟩

/-- Where no text is empty that an attribute is to contain, it makes no difference whether the
attribute has to be there. -/
theorem Path.AsksText.selects_standard_iff {p : Path} (h : p.AsksText) {y : NodeId} :
    p.Selects .standard t y ↔ p.Selects .present t y := by
  have hleads : ∀ steps : List Step, (∀ s ∈ steps, ∀ c, .condition c ∈ s.predicates → c.AsksText) →
      ∀ x, Leads .standard t steps x y ↔ Leads .present t steps x y := by
    intro steps
    induction steps with
    | nil => exact fun _ _ => Iff.rfl
    | cons s more ih =>
        intro hsteps x
        obtain ⟨hs, hmore⟩ := List.forall_mem_cons.1 hsteps
        exact exists_congr fun z => and_congr (Step.finds_standard hs) (ih hmore z)
  exact exists_congr fun x => and_congr Iff.rfl (hleads p.steps h x)

end

end ViewCompiler
