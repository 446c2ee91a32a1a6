/-
**The shorthand for a tag and an attribute.**

The path to the elements with a name and one attribute is built without reading an expression, and it
carries an expression all the same.  That expression denotes the path exactly if the name of the tag
and the name of the attribute are names, the former without a dot in front, and the value has no
single quote.  The other direction needs that no other row of lexemes spells the path in as few
characters: parentheses around the condition are the only choice left, and there is no room for them.

What the path selects does not depend on its expression: whatever the three texts are, it is the
elements with that name for whose first attribute of the given name the value is the given one.

Main definitions:

* `ViewCompiler.Locator.shorthandLexemes` — the lexemes of the shorthand, its condition in any number
  of parentheses;
* `ViewCompiler.Element.Matches` — the elements that it asks for.

Main results:

* `ViewCompiler.Locator.Spelled.attrEquals` — how the condition can be spelled;
* `ViewCompiler.Path.mem_select_attributeEquals` — what the shorthand selects;
* `ViewCompiler.Path.attributeEquals_correct` — **when the shorthand is what its expression denotes,
  and what it selects**.
-/

import ViewCompiler.Proofs.Locator.Selection
import ViewCompiler.Proofs.Locator.Writing

set_option relaxedAutoImplicit false
set_option autoImplicit false

namespace ViewCompiler

/-! ### The expression -/

namespace Locator

open PathReader (combined conjunction disjunction)

/-- A comparison of an attribute in that many pairs of parentheses. -/
def parenthesized (a : NameText) (v : QuotedText) : Nat → List Lexeme
  | 0 => [.mark .atSign, .name a, .mark .equals, .string v]
  | n + 1 => .mark .openParen :: (parenthesized a v n ++ [.mark .closeParen])

/-- The lexemes of the shorthand, its condition in that many pairs of parentheses. -/
def shorthandLexemes (n : NameText) (a : NameText) (v : QuotedText) (k : Nat) : List Lexeme :=
  .mark .slashes :: .name n :: .mark .openBracket :: (parenthesized a v k ++ [.mark .closeBracket])

theorem chars_shorthandLexemes (n : NameText) (a : NameText) (v : QuotedText) :
    (shorthandLexemes n a v 0).flatMap Lexeme.chars = '/' :: '/' :: (n.text.toList ++ '[' :: '@' ::
      (a.text.toList ++ '=' :: v.quote :: (v.text.toList ++ [v.quote, ']']))) := by
  simp [shorthandLexemes, parenthesized, Lexeme.chars, QuotedText.chars, Mark.text]

theorem length_parenthesized (a : NameText) (v : QuotedText) (n : Nat) :
    ((parenthesized a v n).flatMap Lexeme.chars).length =
      ((parenthesized a v 0).flatMap Lexeme.chars).length + 2 * n := by
  induction n with
  | zero => rfl
  | succ n ih =>
      have hsucc : parenthesized a v (n + 1) =
          .mark .openParen :: (parenthesized a v n ++ [.mark .closeParen]) := rfl
      rw [hsucc, List.flatMap_cons, List.flatMap_append, List.length_append, List.length_append, ih]
      have hopen : (Lexeme.mark .openParen).chars.length = 1 := rfl
      have hclose : ([Lexeme.mark .closeParen].flatMap Lexeme.chars).length = 1 := rfl
      omega

/-- Every pair of parentheses takes two characters. -/
theorem length_shorthandLexemes (n : NameText) (a : NameText) (v : QuotedText) (k : Nat) :
    ((shorthandLexemes n a v k).flatMap Lexeme.chars).length =
      ((shorthandLexemes n a v 0).flatMap Lexeme.chars).length + 2 * k := by
  simp only [shorthandLexemes, List.flatMap_cons, List.flatMap_append, List.length_append,
    length_parenthesized a v k]
  omega

/-- No alternative is without conjuncts. -/
theorem Spelled.ne_nil_of_mem {alts : List (List Condition)} {ls : List Lexeme}
    (h : Spelled (.alternatives alts) ls) : ∀ parts ∈ alts, parts ≠ [] := by
  generalize hp : Combined.alternatives alts = p at h
  induction h generalizing alts with
  | simple | group => cases hp
  | last =>
      cases hp
      exact List.forall_mem_singleton.2 (List.cons_ne_nil _ _)
  | and _ _ _ ih =>
      cases hp
      exact List.forall_mem_cons.2 ⟨List.cons_ne_nil _ _, (List.forall_mem_cons.1 (ih rfl)).2⟩
  | or _ _ _ ih =>
      cases hp
      exact List.forall_mem_cons.2 ⟨List.cons_ne_nil _ _, ih rfl⟩

/-- What is combined is the condition itself. -/
def Combined.Is (c : Condition) : Combined → Prop
  | operand c' => c' = c
  | alternatives alts => combined alts = c

/-- The comparison of an attribute can only be spelled as such, in parentheses. -/
theorem Spelled.attrEquals {name value : String} {p : Combined} {ls : List Lexeme}
    (h : Spelled p ls) (hp : p.Is (.attrEquals name value)) :
    ∃ (a : NameText) (v : QuotedText) (n : Nat), a.text = name ∧ v.text = value ∧
      ls = parenthesized a v n := by
  induction h with
  | simple h =>
      cases h with
      | attrEquals a v =>
          obtain ⟨rfl, rfl⟩ := Condition.attrEquals.inj hp
          exact ⟨a, v, 0, rfl, rfl, rfl⟩
      | attrExists | attrContains | hasClass | textEquals => cases hp
  | group _ ih =>
      obtain ⟨a, v, n, ha, hv, rfl⟩ := ih hp
      exact ⟨a, v, n + 1, ha, hv, rfl⟩
  | last _ ih => exact ih hp
  | @and c first others ls more h hmore _ _ =>
      -- more than one conjunct or alternative is combined to something else
      have hfirst : first ≠ [] := hmore.ne_nil_of_mem first List.mem_cons_self
      obtain ⟨c', first, rfl⟩ := List.exists_cons_of_ne_nil hfirst
      cases others <;> cases hp
  | @or c alts ls more h hmore _ _ =>
      obtain ⟨first, others, rfl⟩ := List.exists_cons_of_ne_nil hmore.ne_nil
      cases hp

/-- The lexemes that the shorthand can be written with. -/
theorem Sentence.attributeEquals {tag attr value : String} {ls : List Lexeme}
    (h : Sentence true (Path.attributeEquals tag attr value).steps ls) :
    ∃ (n : ElementName) (a : NameText) (v : QuotedText) (k : Nat), n.text = tag ∧ a.text = attr ∧
      v.text = value ∧ ls = shorthandLexemes n.toNameText a v k := by
  cases h with
  | child h =>
      cases h with
      | last h => cases h
      | child _ hmore | descendant _ hmore => cases hmore
  | descendant h =>
      cases h with
      | child _ hmore | descendant _ hmore => cases hmore
      | last h =>
          cases h with
          | named n hdot h =>
              cases h with
              | cons h hmore =>
                  cases hmore
                  generalize hp : Predicate.condition (.attrEquals attr value) = p at h
                  cases h with
                  | position => cases hp
                  | condition h =>
                      obtain ⟨a, v, k, ha, hv, rfl⟩ :=
                        h.attrEquals (Predicate.condition.inj hp).symm
                      exact ⟨⟨n, hdot⟩, a, v, k, rfl, ha, hv, rfl⟩

/-- The shorthand to be written. -/
def shorthandText (n : ElementName) (a : NameText) (v : QuotedText) : PathText :=
  .absolute (.slashes ⟨.named n, [.condition (.attrEquals a v)]⟩) []

end Locator

open Locator

section

variable {tag attr value : String}

theorem Path.toList_source_attributeEquals (tag attr value : String) :
    (attributeEquals tag attr value).source.toList = '/' :: '/' :: (tag.toList ++ '[' :: '@' ::
      (attr.toList ++ '=' :: '\'' :: (value.toList ++ ['\'', ']']))) := by
  simp [attributeEquals, String.toList_append]

/-- What the texts of the shorthand are if its expression denotes it. -/
theorem Path.texts_of_parse
    (h : Path.parse (attributeEquals tag attr value).source = .ok (attributeEquals tag attr value)) :
    IsName tag ∧ tag.toList.head? ≠ some '.' ∧ IsName attr ∧ '\'' ∉ value.toList := by
  obtain ⟨-, ls, hsentence, hlays⟩ := Path.parse_eq_ok_iff.1 h
  obtain ⟨n, a, v, k, rfl, rfl, rfl, rfl⟩ := Sentence.attributeEquals hsentence
  rw [Path.toList_source_attributeEquals] at hlays
  -- the expression is as long as its lexemes are without parentheses, whatever the quote
  have hlength := chars_shorthandLexemes n.toNameText a v ▸ length_shorthandLexemes n.toNameText a v k
  have hle := hlays.length_chars_le
  simp only [List.length_cons, List.length_append, List.length_nil] at hlength hle
  obtain rfl : k = 0 := by omega
  have htext := hlays.eq_of_length_le (by
    simp only [List.length_cons, List.length_append, List.length_nil, hlength]
    omega)
  rw [chars_shorthandLexemes] at htext
  have hquote : '\'' = v.quote := by
    simpa using htext
  exact ⟨n.isName, n.noDot, a.isName, hquote ▸ v.fresh⟩

/-- The expression denotes the shorthand if its texts are such. -/
theorem Path.parse_source_attributeEquals (htag : IsName tag) (hdot : tag.toList.head? ≠ some '.')
    (hattr : IsName attr) (hvalue : '\'' ∉ value.toList) :
    Path.parse (attributeEquals tag attr value).source = .ok (attributeEquals tag attr value) := by
  let p := shorthandText ⟨⟨tag, htag⟩, hdot⟩ ⟨attr, hattr⟩ ⟨'\'', value, .inl rfl, hvalue⟩
  have htext : written p.lexemes = (attributeEquals tag attr value).source.toList := by
    rw [Path.toList_source_attributeEquals]
    exact chars_shorthandLexemes ⟨tag, htag⟩ ⟨attr, hattr⟩ ⟨'\'', value, .inl rfl, hvalue⟩
  exact Path.parse_eq_ok_iff.2 ⟨rfl, p.lexemes, p.sentence, htext ▸ lays_written p.sentence.isChain⟩

end

/-! ### What it selects -/

section

variable {ι : Type} {t : Tree} {y : NodeId}

/-- The elements of a forest come in the order of its labels. -/
theorem Forest.map_label_elements_sublist (f : Forest ι) :
    (f.elements.map (·.label)).Sublist f.labels := by
  induction f with
  | nil => exact .slnil
  | element label name attributes children rest ihc ihr =>
      rw [elements, List.map_cons, List.map_append]
      exact (ihc.append ihr).cons_cons label
  | leaf label kind content rest ih => exact ih.cons label

/-- Nodes in document order are known by their members. -/
theorem Tree.Accounted.eq_of_mem_iff (ht : t.Accounted) {ids others : List NodeId}
    (h : ids.Sublist (Tree.root :: t.content.labels))
    (h' : others.Sublist (Tree.root :: t.content.labels)) (hiff : ∀ y, y ∈ ids ↔ y ∈ others) :
    ids = others := by
  have hperm : ids.Perm others :=
    (List.perm_ext_iff_of_nodup (ht.nodup_nodes.sublist h) (ht.nodup_nodes.sublist h')).2 hiff
  refine hperm.eq_of_pairwise (fun x y _ _ hxy hyx => ?_) (ht.pairwise_place.sublist h)
    (ht.pairwise_place.sublist h')
  exact absurd hxy (Nat.lt_asymm hyx)

/-- An element stands at the top or among the children of one. -/
theorem Forest.mem_elements_iff {f : Forest ι} {e : Element ι} :
    e ∈ f.elements ↔ e ∈ f.topElements ∨ ∃ d ∈ f.elements, e ∈ d.children.topElements := by
  refine ⟨Forest.mem_elements_cases, ?_⟩
  rintro (he | ⟨d, hd, he⟩)
  · exact Forest.mem_elements_of_mem_topElements he
  · exact Forest.mem_elements_of_mem_children hd (Forest.mem_elements_of_mem_topElements he)

/-- The value of an attribute is that of the first attribute with its name. -/
theorem Element.attr?_eq_some_iff {e : Element ι} {name value : String} :
    e.attr? name = some value ↔ e.attributes.find? (·.1 = name) = some (name, value) := by
  rw [attr?, Attributes.get?, Option.map_eq_some_iff]
  constructor
  · rintro ⟨⟨name', value'⟩, hfind, rfl⟩
    have hname := List.find?_some hfind
    obtain rfl : name' = name := of_decide_eq_true hname
    exact hfind
  · exact fun hfind => ⟨_, hfind, rfl⟩

/-- The element is one that the shorthand asks for. -/
def Element.Matches (e : Element ι) (tag attr value : String) : Prop :=
  e.name = tag ∧ e.attributes.find? (·.1 = attr) = some (attr, value)

instance (e : Element ι) (tag attr value : String) : Decidable (e.Matches tag attr value) :=
  inferInstanceAs (Decidable (_ ∧ _))

theorem Path.mem_select_attributeEquals {tag attr value : String} :
    y ∈ (attributeEquals tag attr value).select t ↔
      ∃ e ∈ t.content.elements, e.Matches tag attr value ∧ e.label = y := by
  let s : Step := ⟨.descendant, .named tag, [.condition (.attrEquals attr value)]⟩
  have hpick : ∀ {f : Forest NodeId} {e : Element NodeId},
      e ∈ s.pick f ↔ e ∈ f.topElements ∧ e.Matches tag attr value := by
    intro f e
    simp only [s, Step.pick, List.foldl_cons, List.foldl_nil, Predicate.keep, List.mem_filter,
      NameTest.admits, Condition.holds, decide_eq_true_eq, Element.attr?_eq_some_iff,
      Element.Matches, and_assoc]
  have hselect : (attributeEquals tag attr value).select t = t.inDocumentOrder ((s.pick t.content ++
      t.content.elements.flatMap fun d => s.pick d.children).map (·.label)) := by
    simp [select, start, attributeEquals, Step.advance, Step.reach, s, Tree.children]
  simp only [hselect, Tree.mem_inDocumentOrder, List.mem_map, List.mem_append, List.mem_flatMap,
    hpick]
  constructor
  · rintro ⟨-, e, ⟨he, hmatch⟩ | ⟨d, hd, he, hmatch⟩, rfl⟩
    · exact ⟨e, Forest.mem_elements_iff.2 (.inl he), hmatch, rfl⟩
    · exact ⟨e, Forest.mem_elements_iff.2 (.inr ⟨d, hd, he⟩), hmatch, rfl⟩
  · rintro ⟨e, he, hmatch, rfl⟩
    refine ⟨List.mem_cons_of_mem _ (Forest.label_mem_labels he), e, ?_, rfl⟩
    rcases Forest.mem_elements_iff.1 he with htop | ⟨d, hd, hchild⟩
    · exact .inl ⟨htop, hmatch⟩
    · exact .inr ⟨d, hd, hchild, hmatch⟩

end

/-- **The shorthand is what its expression denotes exactly if its texts can stand in one**: the names of
the tag and of the attribute are names, the former does not begin with a dot, and there is no single
quote in the value.  Whatever the texts are, it selects the elements with that name whose first
attribute of the other name has the value, in document order. -/
theorem Path.attributeEquals_correct (tag attr value : String) :
    (Path.parse (attributeEquals tag attr value).source = .ok (attributeEquals tag attr value) ↔
      IsName tag ∧ tag.toList.head? ≠ some '.' ∧ IsName attr ∧ '\'' ∉ value.toList) ∧
    ∀ t : Tree, t.Accounted → (attributeEquals tag attr value).select t =
      (t.content.elements.filter fun e =>
        e.name = tag ∧ e.attributes.find? (·.1 = attr) = some (attr, value)).map (·.label) := by
  refine ⟨⟨Path.texts_of_parse, fun ⟨htag, hdot, hattr, hvalue⟩ =>
    Path.parse_source_attributeEquals htag hdot hattr hvalue⟩, fun t ht => ?_⟩
  refine ht.eq_of_mem_iff (Path.select_sublist _ t) ?_ fun y => ?_
  · have hfilter := (List.filter_sublist (p := fun e : Element NodeId =>
      decide (e.Matches tag attr value)) (l := t.content.elements)).map (·.label)
    exact (hfilter.trans t.content.map_label_elements_sublist).cons _
  · rw [Path.mem_select_attributeEquals, List.mem_map]
    simp only [List.mem_filter, decide_eq_true_eq, Element.Matches, and_assoc]

/-- A value with a space and of two elements with that name the inner one. -/
theorem Path.attributeEquals_inner :
    ∃ t, ViewCompiler.parse "<g n='b'><g n='a b' m='c'/><p n='a b'/></g>" = .ok t ∧ t.Accounted ∧
      Path.parse "//g[@n='a b']" = .ok (attributeEquals "g" "n" "a b") ∧
      (attributeEquals "g" "n" "a b").select t = [2] := by
  let t : Tree := ⟨.element 1 "g" [("n", "b")] (.element 2 "g" [("n", "a b"), ("m", "c")] .nil
    (.element 3 "p" [("n", "a b")] .nil .nil)) .nil, .nil, 4⟩
  have hparse : ViewCompiler.parse "<g n='b'><g n='a b' m='c'/><p n='a b'/></g>" = .ok t := by
    decide +kernel
  have ht : t.Accounted := parse_accounted hparse
  have hcorrect := Path.attributeEquals_correct "g" "n" "a b"
  exact ⟨t, hparse, ht, hcorrect.1.2 (by decide), (hcorrect.2 t ht).trans (by decide +kernel)⟩

end ViewCompiler
