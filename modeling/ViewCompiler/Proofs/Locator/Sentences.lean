/-
**The grammar of locators, over lexemes.**

Which rows of lexemes are expressions, and which paths they denote, is said here without a word about
characters, blanks or the order in which a reader tries things.  Conditions are alternatives of
conjuncts, an operand that is not simple stands in parentheses, and a step is marked with the axis
that the slashes in front of it stand for.

Main definitions:

* `ViewCompiler.Locator.Simple`, `ViewCompiler.Locator.Spelled` — conditions;
* `ViewCompiler.Locator.Filters`, `ViewCompiler.Locator.Stride`, `ViewCompiler.Locator.Strides` —
  predicates and steps;
* `ViewCompiler.Locator.Sentence` — whole expressions;
* `ViewCompiler.Locator.Lexeme.Fits` — the lexemes that can be neighbours.

Main results:

* `ViewCompiler.Locator.Spelled.exists_cons` — what a condition begins with;
* `ViewCompiler.Locator.Sentence.isChain` — all neighbours in a sentence fit.
-/

import Mathlib.Data.List.Chain
import ViewCompiler.Proofs.Locator.Lexemes

set_option relaxedAutoImplicit false
set_option autoImplicit false

namespace ViewCompiler.Locator

open PathReader (combined maxPosition)

/-! ### Conditions -/

/-- The strings of a class list, up to the closing parenthesis. -/
inductive Classes : List String → List Lexeme → Prop
  | last (v : QuotedText) : Classes [v.text] [.string v, .mark .closeParen]
  | cons (v : QuotedText) {names : List String} {ls : List Lexeme} (h : Classes names ls) :
      Classes (v.text :: names) (.string v :: .mark .comma :: ls)

/-- A condition without operators and outer parentheses. -/
inductive Simple : Condition → List Lexeme → Prop
  | attrExists (a : NameText) : Simple (.attrExists a.text) [.mark .atSign, .name a]
  | attrEquals (a : NameText) (v : QuotedText) :
      Simple (.attrEquals a.text v.text) [.mark .atSign, .name a, .mark .equals, .string v]
  | attrContains (a : NameText) (v : QuotedText) :
      Simple (.attrContains a.text v.text)
        [.mark .contains, .mark .atSign, .name a, .mark .comma, .string v, .mark .closeParen]
  | hasClass {names : List String} {ls : List Lexeme} (h : Classes names ls) :
      Simple (.hasClass names) (.mark .hasClass :: ls)
  | textEquals (v : QuotedText) :
      Simple (.textEquals v.text) [.mark .textOf, .mark .equals, .string v]

/-- What is combined in a condition: an operand, or alternatives of conjuncts. -/
inductive Combined where
  | operand (c : Condition)
  | alternatives (alts : List (List Condition))

/-- An operand is simple or stands in parentheses; `and` adds a conjunct to the alternative that
follows it, and `or` an alternative. -/
inductive Spelled : Combined → List Lexeme → Prop
  | simple {c : Condition} {ls : List Lexeme} (h : Simple c ls) : Spelled (.operand c) ls
  | group {alts : List (List Condition)} {ls : List Lexeme} (h : Spelled (.alternatives alts) ls) :
      Spelled (.operand (combined alts)) (.mark .openParen :: (ls ++ [.mark .closeParen]))
  | last {c : Condition} {ls : List Lexeme} (h : Spelled (.operand c) ls) :
      Spelled (.alternatives [[c]]) ls
  | and {c : Condition} {first : List Condition} {others : List (List Condition)}
      {ls more : List Lexeme} (h : Spelled (.operand c) ls)
      (hmore : Spelled (.alternatives (first :: others)) more) :
      Spelled (.alternatives ((c :: first) :: others)) (ls ++ .operator .and :: more)
  | or {c : Condition} {alts : List (List Condition)} {ls more : List Lexeme}
      (h : Spelled (.operand c) ls) (hmore : Spelled (.alternatives alts) more) :
      Spelled (.alternatives ([c] :: alts)) (ls ++ .operator .or :: more)

/-! ### Steps -/

/-- What stands between the brackets of a predicate. -/
inductive Filter : Predicate → List Lexeme → Prop
  | position (digits : Digits) (hpos : 0 < digitsValue 10 digits.chars)
      (hmax : digitsValue 10 digits.chars ≤ maxPosition) :
      Filter (.position (digitsValue 10 digits.chars)) [.number digits]
  | condition {alts : List (List Condition)} {ls : List Lexeme}
      (h : Spelled (.alternatives alts) ls) : Filter (.condition (combined alts)) ls

/-- Predicates one behind the other. -/
inductive Filters : List Predicate → List Lexeme → Prop
  | nil : Filters [] []
  | cons {p : Predicate} {ps : List Predicate} {ls more : List Lexeme} (h : Filter p ls)
      (hmore : Filters ps more) :
      Filters (p :: ps) (.mark .openBracket :: (ls ++ .mark .closeBracket :: more))

/-- A step behind slashes that stand for the axis.  The name of an element does not begin with a
dot. -/
inductive Stride (axis : Axis) : Step → List Lexeme → Prop
  | parent : Stride axis ⟨.parent, .any, []⟩ [.mark .dots]
  | self (h : axis ≠ .descendant) : Stride axis ⟨.self, .any, []⟩ [.mark .dot]
  | within (h : axis = .descendant) : Stride axis ⟨.descendant, .any, []⟩ [.mark .dot]
  | any {ps : List Predicate} {ls : List Lexeme} (h : Filters ps ls) :
      Stride axis ⟨axis, .any, ps⟩ (.mark .star :: ls)
  | named (n : NameText) (hdot : n.text.toList.head? ≠ some '.') {ps : List Predicate}
      {ls : List Lexeme} (h : Filters ps ls) : Stride axis ⟨axis, .named n.text, ps⟩ (.name n :: ls)

/-- Steps joined by slashes; the axis is that of the first. -/
inductive Strides : Axis → List Step → List Lexeme → Prop
  | last {axis : Axis} {s : Step} {ls : List Lexeme} (h : Stride axis s ls) : Strides axis [s] ls
  | child {axis : Axis} {s : Step} {steps : List Step} {ls more : List Lexeme}
      (h : Stride axis s ls) (hmore : Strides .child steps more) :
      Strides axis (s :: steps) (ls ++ .mark .slash :: more)
  | descendant {axis : Axis} {s : Step} {steps : List Step} {ls more : List Lexeme}
      (h : Stride axis s ls) (hmore : Strides .descendant steps more) :
      Strides axis (s :: steps) (ls ++ .mark .slashes :: more)

/-- A whole expression: whether its path is absolute, and its steps. -/
inductive Sentence : Bool → List Step → List Lexeme → Prop
  | relative {steps : List Step} {ls : List Lexeme} (h : Strides .child steps ls) :
      Sentence false steps ls
  | child {steps : List Step} {ls : List Lexeme} (h : Strides .child steps ls) :
      Sentence true steps (.mark .slash :: ls)
  | descendant {steps : List Step} {ls : List Lexeme} (h : Strides .descendant steps ls) :
      Sentence true steps (.mark .slashes :: ls)

theorem Strides.ne_nil {axis : Axis} {steps : List Step} {ls : List Lexeme}
    (h : Strides axis steps ls) : steps ≠ [] := by
  cases h <;> exact List.cons_ne_nil _ _

theorem Sentence.ne_nil {absolute : Bool} {steps : List Step} {ls : List Lexeme}
    (h : Sentence absolute steps ls) : steps ≠ [] := by
  cases h with
  | relative h | child h | descendant h => exact h.ne_nil

/-! ### What phrases begin with -/

/-- An operand can begin with the lexeme. -/
def Lexeme.opensOperand : Lexeme → Bool
  | mark .openParen | mark .atSign | mark .textOf | mark .contains | mark .hasClass => true
  | _ => false

/-- What the operands of conditions begin with. -/
def operandStarts : List Char :=
  ['(', '@', 't', 'c', 'h']

theorem Lexeme.head_of_opensOperand (l : Lexeme) (h : l.opensOperand = true) :
    ∃ x more, l.chars = x :: more ∧ x ∈ operandStarts := by
  cases l with
  | mark m => cases m <;> first | exact ⟨_, _, rfl, by decide⟩ | cases h
  | name | number | string | operator => cases h

theorem Simple.exists_cons {c : Condition} {ls : List Lexeme} (h : Simple c ls) :
    ∃ l more, ls = l :: more ∧ l.opensOperand = true := by
  cases h <;> exact ⟨_, _, rfl, rfl⟩

/-- What a condition begins with. -/
theorem Spelled.exists_cons {p : Combined} {ls : List Lexeme} (h : Spelled p ls) :
    ∃ l more, ls = l :: more ∧ l.opensOperand = true := by
  induction h with
  | simple h => exact h.exists_cons
  | group => exact ⟨_, _, rfl, rfl⟩
  | last _ ih => exact ih
  | and _ _ ih _ | or _ _ ih _ =>
      obtain ⟨l, more, rfl, hl⟩ := ih
      exact ⟨l, _, rfl, hl⟩

theorem Spelled.ne_nil {alts : List (List Condition)} {ls : List Lexeme}
    (h : Spelled (.alternatives alts) ls) : alts ≠ [] := by
  cases h <;> exact List.cons_ne_nil _ _

/-! ### Neighbours -/

/-- The lexeme can stand behind a name. -/
def Lexeme.followsName : Lexeme → Bool
  | operator _ => true
  | mark .equals | mark .comma | mark .closeParen | mark .openBracket | mark .closeBracket
  | mark .slash | mark .slashes => true
  | _ => false

/-- The second lexeme can stand behind the first. -/
def Lexeme.Fits : Lexeme → Lexeme → Prop
  | name _, l => l.followsName = true
  | operator _, l => l.opensOperand = true
  | mark _, _ | number _, _ | string _, _ => True

/-- The lexemes fit, and so they do with everything behind them that begins as it can behind a
name. -/
def Chained (ls : List Lexeme) : Prop :=
  ∀ more, (∀ l ∈ more.head?, l.followsName = true) → more.IsChain Lexeme.Fits →
    (ls ++ more).IsChain Lexeme.Fits

theorem chained_nil : Chained [] := fun _ _ h => h

section

variable {l : Lexeme} {ls more : List Lexeme}

/-- A mark, a number or a string can be put in front. -/
theorem Chained.cons (hl : ∀ l', l.Fits l') (h : Chained ls) : Chained (l :: ls) :=
  fun more hhead hmore => List.isChain_cons.2 ⟨fun l' _ => hl l', h more hhead hmore⟩

theorem Chained.mark (m : Mark) (h : Chained ls) : Chained (.mark m :: ls) :=
  h.cons fun _ => trivial

theorem Chained.string (v : QuotedText) (h : Chained ls) : Chained (.string v :: ls) :=
  h.cons fun _ => trivial

/-- A name can be put in front of what can follow it. -/
theorem Chained.name (n : NameText) (hhead : ∀ l ∈ ls.head?, l.followsName = true)
    (h : Chained ls) : Chained (.name n :: ls) := by
  intro more hmoreHead hmore
  refine List.isChain_cons.2 ⟨fun l hl => ?_, h more hmoreHead hmore⟩
  cases ls with
  | nil => exact hmoreHead l hl
  | cons l' ls =>
      obtain rfl : l' = l := Option.some.inj hl
      exact hhead l' rfl

/-- What is left of a row fits. -/
theorem Chained.tail (h : Chained (l :: ls)) : Chained ls :=
  fun more hhead hmore => (List.isChain_cons.1 (h more hhead hmore)).2

/-- Behind a name stands what can follow it. -/
theorem Chained.followsName {n : NameText} (h : Chained (.name n :: ls)) :
    ∀ l ∈ ls.head?, l.followsName = true := by
  have hchain := h [] (fun _ hl => absurd hl (Option.not_mem_none _)) .nil
  rw [List.append_nil] at hchain
  exact (List.isChain_cons.1 hchain).1

/-- Behind an operator stands an operand. -/
theorem Chained.exists_operand {o : Operator} (h : Chained (.operator o :: ls)) :
    ∃ l more, ls = l :: more ∧ l.opensOperand = true := by
  -- no mark that can follow a name opens an operand, so the operator is not the last lexeme
  have hchain := h [.mark .slash] (fun l hl => Option.some.inj hl ▸ rfl) (.singleton _)
  obtain ⟨hhead, -⟩ := List.isChain_cons.1 hchain
  cases ls with
  | nil => cases hhead (.mark .slash) rfl
  | cons l more => exact ⟨l, more, rfl, hhead l rfl⟩

/-- Two rows can be joined by a lexeme that can follow a name and that fits the second row. -/
theorem Chained.join (h : Chained ls) (hl : l.followsName = true)
    (hfits : ∀ l' ∈ more.head?, l.Fits l') (hne : more ≠ []) (hmore : Chained more) :
    Chained (ls ++ l :: more) := by
  intro rest hhead hrest
  rw [List.append_assoc, List.cons_append]
  refine h _ (fun l' hl' => Option.some.inj hl' ▸ hl) (List.isChain_cons.2 ⟨?_, hmore rest hhead hrest⟩)
  intro l' hl'
  obtain ⟨first, others, rfl⟩ := List.exists_cons_of_ne_nil hne
  exact hfits l' hl'

/-- A mark that can follow a name fits everything. -/
theorem Chained.append_mark (h : Chained ls) {m : Mark} (hm : (Lexeme.mark m).followsName = true)
    (hmore : Chained more) : Chained (ls ++ .mark m :: more) := by
  intro rest hhead hrest
  rw [List.append_assoc, List.cons_append]
  exact h _ (fun l' hl' => Option.some.inj hl' ▸ hm) ((hmore.mark m) rest hhead hrest)

end

theorem Classes.chained {names : List String} {ls : List Lexeme} (h : Classes names ls) :
    Chained ls := by
  induction h with
  | last v => exact (chained_nil.mark _).string v
  | cons v _ ih => exact (ih.mark _).string v

theorem Simple.chained {c : Condition} {ls : List Lexeme} (h : Simple c ls) : Chained ls := by
  have hname : ∀ (a : NameText) {m : Mark} {more : List Lexeme},
      (Lexeme.mark m).followsName = true → Chained more → Chained (.name a :: .mark m :: more) :=
    fun a m more hm h => (h.mark m).name a fun l hl => Option.some.inj hl ▸ hm
  cases h with
  | attrExists a => exact (chained_nil.name a fun _ hl => absurd hl (Option.not_mem_none _)).mark _
  | attrEquals a v => exact (hname a rfl (chained_nil.string v)).mark _
  | attrContains a v => exact ((hname a rfl ((chained_nil.mark _).string v)).mark _).mark _
  | hasClass h => exact h.chained.mark _
  | textEquals v => exact ((chained_nil.string v).mark _).mark _

theorem Spelled.chained {p : Combined} {ls : List Lexeme} (h : Spelled p ls) : Chained ls := by
  induction h with
  | simple h => exact h.chained
  | group _ ih => exact (ih.append_mark rfl chained_nil).mark _
  | last _ ih => exact ih
  | and _ hmore ih ihmore | or _ hmore ih ihmore =>
      obtain ⟨l, others, rfl, hl⟩ := hmore.exists_cons
      exact ih.join rfl (fun l' hl' => Option.some.inj hl' ▸ hl) (List.cons_ne_nil _ _) ihmore

theorem Filter.chained {p : Predicate} {ls : List Lexeme} (h : Filter p ls) : Chained ls := by
  cases h with
  | position digits => exact chained_nil.cons fun _ => trivial
  | condition h => exact h.chained

theorem Filters.chained {ps : List Predicate} {ls : List Lexeme} (h : Filters ps ls) :
    Chained ls := by
  induction h with
  | nil => exact chained_nil
  | cons h _ ih => exact (h.chained.append_mark rfl ih).mark _

theorem Stride.chained {axis : Axis} {s : Step} {ls : List Lexeme} (h : Stride axis s ls) :
    Chained ls := by
  cases h with
  | parent | self | within => exact chained_nil.mark _
  | any h => exact h.chained.mark _
  | named n hdot h =>
      refine h.chained.name n fun l hl => ?_
      cases h with
      | nil => cases hl
      | cons => exact Option.some.inj hl ▸ rfl

theorem Strides.chained {axis : Axis} {steps : List Step} {ls : List Lexeme}
    (h : Strides axis steps ls) : Chained ls := by
  induction h with
  | last h => exact h.chained
  | child h _ ih | descendant h _ ih => exact h.chained.append_mark rfl ih

theorem Sentence.chained {absolute : Bool} {steps : List Step} {ls : List Lexeme}
    (h : Sentence absolute steps ls) : Chained ls := by
  cases h with
  | relative h => exact h.chained
  | child h | descendant h => exact h.chained.mark _

/-- All neighbours in a sentence fit. -/
theorem Sentence.isChain {absolute : Bool} {steps : List Step} {ls : List Lexeme}
    (h : Sentence absolute steps ls) : ls.IsChain Lexeme.Fits := by
  have hchain := h.chained [] (fun _ hl => absurd hl (Option.not_mem_none _)) .nil
  rwa [List.append_nil] at hchain

end ViewCompiler.Locator
