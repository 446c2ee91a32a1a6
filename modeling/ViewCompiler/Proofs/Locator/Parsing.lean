/-
**Reading expressions by the grammar.**

What a reader takes off a text is the layout of a phrase of the grammar, and a layout of a phrase is
read as that phrase, whatever follows it that no phrase of its kind goes on with.  So an expression
is read as a path exactly if it is the layout of a sentence for that path.

Main definitions:

* `ViewCompiler.PathReader.Yields` — a reader gives a value and stops in front of a text;
* `ViewCompiler.PathReader.operand` — one operand of a condition.

Main results:

* `ViewCompiler.PathReader.alternatives_sound`, `ViewCompiler.PathReader.alternatives_complete` —
  conditions;
* `ViewCompiler.PathReader.steps_sound`, `ViewCompiler.PathReader.steps_complete` — steps;
* `ViewCompiler.Path.parse_eq_ok_iff` — **an expression is read as a path exactly if it is a layout
  of a sentence for the path**.
-/

import Mathlib.Data.Bool.AllAny
import ViewCompiler.Outcome
import ViewCompiler.Proofs.Locator.Sentences

set_option relaxedAutoImplicit false
set_option autoImplicit false

namespace ViewCompiler.PathReader

open Locator

variable {c d : Cursor} {ls : List Lexeme} {rest : List Char}

/-! ### Marks -/

theorem eat?_eq_some {marker : String} (h : eat? marker c = some d) :
    afterBlanks c.rest = marker.toList ++ d.rest := by
  obtain ⟨rest, hp, rfl⟩ := Option.map_eq_some_iff.1 h
  exact isPrefixOf?_eq_append hp

theorem exists_eat? {marker : String} (h : afterBlanks c.rest = marker.toList ++ rest) :
    ∃ d, eat? marker c = some d ∧ d.rest = rest :=
  ⟨_, Cursor.strip?_append h, rfl⟩

theorem eat?_eq_none {marker : String} (h : ∀ rest, afterBlanks c.rest ≠ marker.toList ++ rest) :
    eat? marker c = none := by
  cases heat : eat? marker c with
  | none => rfl
  | some d => exact absurd (eat?_eq_some heat) (h d.rest)

theorem ne_of_eat?_eq_none {marker : String} (h : eat? marker c = none) (rest : List Char) :
    afterBlanks c.rest ≠ marker.toList ++ rest := by
  intro heq
  obtain ⟨d, hd, -⟩ := exists_eat? heq
  rw [h] at hd
  cases hd

/-- A marker is not eaten where another character stands than its first. -/
theorem eat?_of_head {marker : String} {x y : Char} (hx : (afterBlanks c.rest).head? = some x)
    (hy : marker.toList.head? = some y) (hne : x ≠ y) : eat? marker c = none := by
  refine eat?_eq_none fun rest heq => hne ?_
  rw [heq, List.head?_append_of_ne_nil _ (by rintro hnil; rw [hnil] at hy; cases hy), hy] at hx
  exact (Option.some.inj hx).symm

theorem expect_eq_ok_iff {marker : String} {fault : PathFault} :
    expect marker fault c = .ok d ↔ eat? marker c = some d := by
  rw [expect]
  cases eat? marker c <;> simp

/-- Eating a mark is passing its lexeme. -/
theorem lays_of_eat? (m : Mark) (h : eat? m.text c = some d) (hmore : Lays ls d.rest rest) :
    Lays (.mark m :: ls) c.rest rest :=
  .cons (eat?_eq_some h) trivial hmore

/-! ### Names and strings -/

theorem name_sound {s : String} (h : name c = .ok (s, d)) :
    ∃ n : NameText, n.text = s ∧
      ∀ {ls rest}, Lays ls d.rest rest → Lays (.name n :: ls) c.rest rest := by
  simp only [name] at h
  split at h
  · cases h
  · next hrun =>
      injection h with h
      obtain ⟨rfl, rfl⟩ := Prod.mk.inj h
      refine ⟨⟨_, isName_span (Bool.eq_false_iff.2 hrun)⟩, rfl, fun hmore => .cons ?_ ?_ hmore⟩
      · simp only [Lexeme.chars, String.toList_ofList]
        exact List.takeWhile_append_dropWhile.symm
      · intro x hx
        have hhead := List.head?_dropWhile_not isNameChar (token c).rest
        rw [Option.mem_def] at hx
        rw [Cursor.rest_span] at hx
        simpa [hx] using hhead

theorem name_complete {n : NameText} (h : afterBlanks c.rest = (Lexeme.name n).chars ++ rest)
    (hstops : (Lexeme.name n).Stops rest) : ∃ d, name c = .ok (n.text, d) ∧ d.rest = rest := by
  have hspan : (token c).span isNameChar = (n.text.toList, (token c).behind n.text.toList rest) :=
    Cursor.span_append n.isName.2 hstops h
  refine ⟨(token c).behind n.text.toList rest, ?_, rfl⟩
  simp only [name, hspan, n.isName.toList_isEmpty, String.ofList_toList]
  rfl

theorem string_sound {s : String} (h : string c = .ok (s, d)) :
    ∃ v : QuotedText, v.text = s ∧
      ∀ {ls rest}, Lays ls d.rest rest → Lays (.string v :: ls) c.rest rest := by
  simp only [string] at h
  split at h
  · cases h
  · next quote more hrest =>
      split at h
      · next hquote =>
          split at h
          · cases h
          · next inside hinside =>
              split at h
              · cases h
              · next text behind hcut =>
                  injection h with h
                  obtain ⟨rfl, rfl⟩ := Prod.mk.inj h
                  obtain ⟨rest', hp, rfl⟩ := Option.map_eq_some_iff.1 hinside
                  obtain ⟨⟨before, after⟩, hfound, heq⟩ := Option.map_eq_some_iff.1 hcut
                  obtain ⟨rfl, rfl⟩ := Prod.mk.inj heq
                  have hfresh : quote ∉ before := not_mem_of_cut hfound
                  refine ⟨⟨quote, .ofList before, by simpa using hquote, ?_⟩, rfl, fun hmore =>
                    .cons ?_ trivial hmore⟩
                  · rwa [String.toList_ofList]
                  · have hwhole := isPrefixOf?_eq_append hp
                    have hparts := cut_eq_append hfound
                    simp only [Cursor.rest_behind] at hparts
                    rw [show afterBlanks c.rest = [quote] ++ rest' from hwhole, hparts]
                    simp [Lexeme.chars, QuotedText.chars]
      · cases h

theorem string_complete {v : QuotedText} (h : afterBlanks c.rest = (Lexeme.string v).chars ++ rest) :
    ∃ d, string c = .ok (v.text, d) ∧ d.rest = rest := by
  have hrest : (token c).rest = v.quote :: (v.text.toList ++ v.quote :: rest) := by
    rw [show (token c).rest = afterBlanks c.rest from rfl, h]
    simp [Lexeme.chars, QuotedText.chars]
  have hstrip : (token c).strip? [v.quote] =
      some ((token c).behind [v.quote] (v.text.toList ++ v.quote :: rest)) :=
    Cursor.strip?_append hrest
  have hquote : (v.quote = '\'' || v.quote = '"') = true := by simpa using v.isQuote
  simp only [string, hrest, hquote, if_true, hstrip, Cursor.cut?, Cursor.rest_behind,
    cut_singleton v.fresh, Option.map_some, String.ofList_toList]
  exact ⟨_, rfl, rfl⟩

/-! ### Passing lexemes -/

theorem pass_mark {m : Mark} (marker : String) (hm : m.text = marker)
    (h : Lays (.mark m :: ls) c.rest rest) : ∃ d, eat? marker c = some d ∧ Lays ls d.rest rest := by
  subst hm
  obtain ⟨next, hnext, -, hmore⟩ := lays_cons.1 h
  obtain ⟨d, hd, rfl⟩ := exists_eat? hnext
  exact ⟨d, hd, hmore⟩

theorem pass_expected {m : Mark} (marker : String) (fault : PathFault) (hm : m.text = marker)
    (h : Lays (.mark m :: ls) c.rest rest) :
    ∃ d, expect marker fault c = .ok d ∧ Lays ls d.rest rest := by
  obtain ⟨d, hd, hmore⟩ := pass_mark marker hm h
  exact ⟨d, expect_eq_ok_iff.2 hd, hmore⟩

theorem pass_name {n : NameText} (h : Lays (.name n :: ls) c.rest rest) :
    ∃ d, name c = .ok (n.text, d) ∧ Lays ls d.rest rest := by
  obtain ⟨next, hnext, hstops, hmore⟩ := lays_cons.1 h
  obtain ⟨d, hd, rfl⟩ := name_complete hnext hstops
  exact ⟨d, hd, hmore⟩

theorem pass_string {v : QuotedText} (h : Lays (.string v :: ls) c.rest rest) :
    ∃ d, string c = .ok (v.text, d) ∧ Lays ls d.rest rest := by
  obtain ⟨next, hnext, -, hmore⟩ := lays_cons.1 h
  obtain ⟨d, hd, rfl⟩ := string_complete hnext
  exact ⟨d, hd, hmore⟩

/-- An operator is eaten with its space. -/
theorem pass_operator {o : Operator} (marker : String)
    (hm : o.text.toList ++ [' '] = marker.toList)
    (h : Lays (.operator o :: ls) c.rest rest) :
    ∃ d, eat? marker c = some d ∧ Lays ls d.rest rest := by
  obtain ⟨next, hnext, -, hmore⟩ := lays_cons.1 h
  rw [Lexeme.chars, hm] at hnext
  obtain ⟨d, hd, rfl⟩ := exists_eat? hnext
  exact ⟨d, hd, hmore⟩

/-- A marker is not eaten where a lexeme stands that begins in another way. -/
theorem eat?_of_lexeme {l : Lexeme} {marker : String} {x y : Char}
    (h : Lays (l :: ls) c.rest rest) (hx : l.chars.head? = some x)
    (hy : marker.toList.head? = some y) (hne : x ≠ y) : eat? marker c = none := by
  obtain ⟨next, hnext⟩ := h.exists_head
  refine eat?_of_head ?_ hy hne
  rw [hnext, List.head?_append, hx, Option.some_or]

/-- A reader gives the value and stops in front of the text, up to blanks. -/
def Yields {α : Type} (r : Reads α) (v : α) (rest : List Char) : Prop :=
  ∃ d, r = .ok (v, d) ∧ afterBlanks d.rest = afterBlanks rest

theorem Yields.map {α β : Type} {r : Reads α} {v : α} (h : Yields r v rest) (f : α → β) :
    Yields (r.map fun x => (f x.1, x.2)) (f v) rest := by
  obtain ⟨d, rfl, hd⟩ := h
  exact ⟨d, rfl, hd⟩

/-! ### Conditions without operators -/

theorem classes_sound {bound : Nat} {names : List String} (h : classes bound c = .ok (names, d)) :
    ∃ ls, Classes names ls ∧ Lays ls c.rest d.rest := by
  induction bound generalizing c d names with
  | zero => cases h
  | succ bound ih =>
      rw [classes] at h
      split at h
      · cases h
      · next first behind hfirst =>
          obtain ⟨v, rfl, hv⟩ := string_sound hfirst
          split at h
          · next next hcomma =>
              obtain ⟨⟨names, d'⟩, hmore, heq⟩ := map_eq_ok_iff.1 h
              obtain ⟨rfl, rfl⟩ := Prod.mk.inj heq
              obtain ⟨ls, hls, hlays⟩ := ih hmore
              exact ⟨_, .cons v hls, hv (lays_of_eat? .comma hcomma hlays)⟩
          · obtain ⟨d', hclose, heq⟩ := map_eq_ok_iff.1 h
            obtain ⟨rfl, rfl⟩ := Prod.mk.inj heq
            have hclose := expect_eq_ok_iff.1 hclose
            exact ⟨_, .last v, hv (lays_of_eat? .closeParen hclose (.refl _))⟩

theorem classes_complete {names : List String} (h : Classes names ls) {bound : Nat}
    (hlays : Lays ls c.rest rest) (hbound : names.length ≤ bound) :
    Yields (classes bound c) names rest := by
  induction h generalizing bound c with
  | last v =>
      obtain ⟨bound, rfl⟩ := Nat.exists_eq_add_of_le' hbound
      obtain ⟨d, hstring, hlays⟩ := pass_string hlays
      have hcomma : eat? "," d = none := eat?_of_lexeme hlays rfl rfl (by decide)
      obtain ⟨e, hclose, hlays⟩ := pass_expected ")" .missingParenthesis rfl hlays
      simp only [List.length_singleton, classes, hstring]
      rw [hcomma, hclose]
      exact ⟨e, rfl, lays_nil.1 hlays⟩
  | @cons v names ls _ ih =>
      obtain ⟨bound, rfl⟩ := Nat.exists_eq_succ_of_ne_zero (Nat.ne_zero_of_lt hbound)
      obtain ⟨d, hstring, hlays⟩ := pass_string hlays
      obtain ⟨e, hcomma, hlays⟩ := pass_mark "," rfl hlays
      rw [classes, hstring]
      simp only [hcomma]
      exact (ih hlays (Nat.le_of_succ_le_succ hbound)).map (v.text :: ·)

theorem attributeCondition_sound {v : Condition} (h : attributeCondition c = .ok (v, d)) :
    ∃ ls, Simple v (.mark .atSign :: ls) ∧ Lays ls c.rest d.rest := by
  rw [attributeCondition] at h
  split at h
  · cases h
  · next attr behind hname =>
      obtain ⟨a, rfl, ha⟩ := name_sound hname
      split at h
      · next next hequals =>
          obtain ⟨⟨s, d'⟩, hstring, heq⟩ := map_eq_ok_iff.1 h
          obtain ⟨rfl, rfl⟩ := Prod.mk.inj heq
          obtain ⟨v, rfl, hv⟩ := string_sound hstring
          exact ⟨_, .attrEquals a v, ha (lays_of_eat? .equals hequals (hv (.refl _)))⟩
      · cases h
        exact ⟨_, .attrExists a, ha (.refl _)⟩

theorem contains_sound {v : Condition} (h : contains c = .ok (v, d)) :
    ∃ ls, Simple v (.mark .contains :: ls) ∧ Lays ls c.rest d.rest := by
  rw [contains] at h
  split at h
  · cases h
  · next c₁ hat =>
      split at h
      · cases h
      · next attr c₂ hname =>
          obtain ⟨a, rfl, ha⟩ := name_sound hname
          split at h
          · cases h
          · next c₃ hcomma =>
              split at h
              · cases h
              · next value c₄ hstring =>
                  obtain ⟨v, rfl, hv⟩ := string_sound hstring
                  obtain ⟨d', hclose, heq⟩ := map_eq_ok_iff.1 h
                  obtain ⟨rfl, rfl⟩ := Prod.mk.inj heq
                  have hclose := expect_eq_ok_iff.1 hclose
                  have hlays := hv (lays_of_eat? .closeParen hclose (.refl _))
                  have hlays := lays_of_eat? .comma (expect_eq_ok_iff.1 hcomma) hlays
                  exact ⟨_, .attrContains a v,
                    lays_of_eat? .atSign (expect_eq_ok_iff.1 hat) (ha hlays)⟩

theorem simple_sound {v : Condition} (h : simple c = .ok (v, d)) :
    ∃ ls, Simple v ls ∧ Lays ls c.rest d.rest := by
  rw [simple] at h
  split at h
  · next inside hat =>
      obtain ⟨ls, hls, hlays⟩ := attributeCondition_sound h
      exact ⟨_, hls, lays_of_eat? .atSign hat hlays⟩
  split at h
  · next inside htext =>
      split at h
      · cases h
      · next behind hequals =>
          obtain ⟨⟨s, d'⟩, hstring, heq⟩ := map_eq_ok_iff.1 h
          obtain ⟨rfl, rfl⟩ := Prod.mk.inj heq
          obtain ⟨v, rfl, hv⟩ := string_sound hstring
          have hlays := lays_of_eat? .equals (expect_eq_ok_iff.1 hequals) (hv (.refl _))
          exact ⟨_, .textEquals v, lays_of_eat? .textOf htext hlays⟩
  split at h
  · next inside hcontains =>
      obtain ⟨ls, hls, hlays⟩ := contains_sound h
      exact ⟨_, hls, lays_of_eat? .contains hcontains hlays⟩
  split at h
  · next inside hclass =>
      obtain ⟨⟨names, d'⟩, hnames, heq⟩ := map_eq_ok_iff.1 h
      obtain ⟨rfl, rfl⟩ := Prod.mk.inj heq
      obtain ⟨ls, hls, hlays⟩ := classes_sound hnames
      exact ⟨_, .hasClass hls, lays_of_eat? .hasClass hclass hlays⟩
  · cases h

/-- No operand goes on with the text: there is no equals sign behind its blanks. -/
def OperandEnds (rest : List Char) : Prop :=
  (afterBlanks rest).head? ≠ some '='

theorem length_classes {names : List String} (h : Classes names ls) : names.length ≤ ls.length := by
  induction h with
  | last v => exact Nat.le_succ _
  | cons v _ ih =>
      simp only [List.length_cons]
      omega

theorem simple_complete {v : Condition} (h : Simple v ls) (hlays : Lays ls c.rest rest)
    (hends : OperandEnds rest) : Yields (simple c) v rest := by
  cases h with
  | attrExists a =>
      obtain ⟨d, hat, hlays⟩ := pass_mark "@" rfl hlays
      obtain ⟨e, hname, hlays⟩ := pass_name hlays
      have hequals : eat? "=" e = none := eat?_eq_none fun next heq => hends (by
        rw [← lays_nil.1 hlays, heq]
        rfl)
      simp only [simple, hat, attributeCondition, hname, hequals]
      exact ⟨e, rfl, lays_nil.1 hlays⟩
  | attrEquals a v =>
      obtain ⟨d, hat, hlays⟩ := pass_mark "@" rfl hlays
      obtain ⟨e, hname, hlays⟩ := pass_name hlays
      obtain ⟨f, hequals, hlays⟩ := pass_mark "=" rfl hlays
      obtain ⟨g, hstring, hlays⟩ := pass_string hlays
      simp only [simple, hat, attributeCondition, hname, hequals, hstring]
      exact ⟨g, rfl, lays_nil.1 hlays⟩
  | attrContains a v =>
      have hat : eat? "@" c = none := eat?_of_lexeme hlays rfl rfl (by decide)
      have htext : eat? "text()" c = none := eat?_of_lexeme hlays rfl rfl (by decide)
      obtain ⟨d, hcontains, hlays⟩ := pass_mark "contains(" rfl hlays
      obtain ⟨e, hat', hlays⟩ :=
        pass_expected "@" .missingContainsAttribute rfl hlays
      obtain ⟨f, hname, hlays⟩ := pass_name hlays
      obtain ⟨g, hcomma, hlays⟩ := pass_expected "," .missingComma rfl hlays
      obtain ⟨i, hstring, hlays⟩ := pass_string hlays
      obtain ⟨j, hclose, hlays⟩ :=
        pass_expected ")" .missingParenthesis rfl hlays
      simp only [simple, hat, htext, hcontains, contains, hat', hname, hcomma, hstring, hclose]
      exact ⟨j, rfl, lays_nil.1 hlays⟩
  | @hasClass names ls h =>
      have hat : eat? "@" c = none := eat?_of_lexeme hlays rfl rfl (by decide)
      have htext : eat? "text()" c = none := eat?_of_lexeme hlays rfl rfl (by decide)
      have hcontains : eat? "contains(" c = none := eat?_of_lexeme hlays rfl rfl (by decide)
      obtain ⟨d, hclass, hlays⟩ := pass_mark "hasclass(" rfl hlays
      have hbound : names.length ≤ d.rest.length + 1 :=
        Nat.le_succ_of_le ((length_classes h).trans hlays.length_le)
      simp only [simple, hat, htext, hcontains, hclass]
      exact (classes_complete h hlays hbound).map Condition.hasClass
  | textEquals v =>
      have hat : eat? "@" c = none := eat?_of_lexeme hlays rfl rfl (by decide)
      obtain ⟨d, htext, hlays⟩ := pass_mark "text()" rfl hlays
      obtain ⟨e, hequals, hlays⟩ :=
        pass_expected "=" .missingTextEquals rfl hlays
      obtain ⟨f, hstring, hlays⟩ := pass_string hlays
      simp only [simple, hat, htext, hequals, hstring]
      exact ⟨f, rfl, lays_nil.1 hlays⟩

/-! ### Conditions with operators -/

/-- One operand of a condition. -/
def operand (bound : Nat) (c : Cursor) : Reads Condition :=
  match eat? "(" c with
  | none => simple c
  | some inside =>
      match alternatives bound inside with
      | .error e => .error e
      | .ok (inner, behind) =>
          (expect ")" .missingParenthesis behind).map fun d => (combined inner, d)

/-- Alternatives are an operand with an operator and more behind it, or without. -/
theorem alternatives_succ (bound : Nat) (c : Cursor) : alternatives (bound + 1) c =
    match operand bound c with
    | .error e => .error e
    | .ok (part, behind) =>
        match eat? "and " behind with
        | some next => (alternatives bound next).map fun r => (conjoin part r.1, r.2)
        | none =>
            match eat? "or " behind with
            | some next => (alternatives bound next).map fun r => ([part] :: r.1, r.2)
            | none => .ok ([[part]], behind) := by
  rw [alternatives]
  rfl

/-- Eating an operator is passing its lexeme. -/
theorem lays_of_operator {o : Operator} {marker : String}
    (hm : marker.toList = o.text.toList ++ [' ']) (h : eat? marker c = some d)
    (hmore : Lays ls d.rest rest) : Lays (.operator o :: ls) c.rest rest :=
  .cons ((eat?_eq_some h).trans (by rw [hm]; rfl)) trivial hmore

/-- An operand is sound if the alternatives in its parentheses are. -/
theorem operand_sound {bound : Nat} {part : Condition}
    (hinside : ∀ {c d : Cursor} {alts : List (List Condition)}, alternatives bound c = .ok (alts, d) →
      ∃ ls, Spelled (.alternatives alts) ls ∧ Lays ls c.rest d.rest)
    (h : operand bound c = .ok (part, d)) :
    ∃ ls, Spelled (.operand part) ls ∧ Lays ls c.rest d.rest := by
  rw [operand] at h
  split at h
  · obtain ⟨ls, hls, hlays⟩ := simple_sound h
    exact ⟨ls, .simple hls, hlays⟩
  · next inside hopen =>
      split at h
      · cases h
      · next inner behind hinner =>
          obtain ⟨ls, hls, hlays⟩ := hinside hinner
          obtain ⟨d', hclose, heq⟩ := map_eq_ok_iff.1 h
          obtain ⟨rfl, rfl⟩ := Prod.mk.inj heq
          have hclose := lays_of_eat? .closeParen (expect_eq_ok_iff.1 hclose) (.refl _)
          exact ⟨_, .group hls,
            lays_of_eat? .openParen hopen (lays_append.2 ⟨_, hlays, hclose⟩)⟩

theorem alternatives_sound {bound : Nat} {alts : List (List Condition)}
    (h : alternatives bound c = .ok (alts, d)) :
    ∃ ls, Spelled (.alternatives alts) ls ∧ Lays ls c.rest d.rest := by
  induction bound generalizing c d alts with
  | zero => cases h
  | succ bound ih =>
      rw [alternatives_succ] at h
      split at h
      · cases h
      · next part behind hpart =>
          obtain ⟨ls, hls, hlays⟩ := operand_sound ih hpart
          split at h
          · next next hand =>
              obtain ⟨⟨more, d'⟩, hmore, heq⟩ := map_eq_ok_iff.1 h
              obtain ⟨rfl, rfl⟩ := Prod.mk.inj heq
              obtain ⟨ls', hls', hlays'⟩ := ih hmore
              obtain ⟨first, others, rfl⟩ := List.exists_cons_of_ne_nil hls'.ne_nil
              exact ⟨_, .and hls hls', lays_append.2 ⟨_, hlays, lays_of_operator rfl hand hlays'⟩⟩
          · split at h
            · next next hor =>
                obtain ⟨⟨more, d'⟩, hmore, heq⟩ := map_eq_ok_iff.1 h
                obtain ⟨rfl, rfl⟩ := Prod.mk.inj heq
                obtain ⟨ls', hls', hlays'⟩ := ih hmore
                exact ⟨_, .or hls hls', lays_append.2 ⟨_, hlays, lays_of_operator rfl hor hlays'⟩⟩
            · cases h
              exact ⟨ls, .last hls, hlays⟩

/-- The text goes on with the end of a bracket. -/
def Closes (rest : List Char) : Prop :=
  ∃ x more, afterBlanks rest = x :: more ∧ (x = ']' ∨ x = ')')

theorem Closes.operandEnds (h : Closes rest) : OperandEnds rest := by
  obtain ⟨x, more, hx, hclose⟩ := h
  rw [OperandEnds, hx]
  rcases hclose with rfl | rfl <;> simp

/-- At the end of a bracket stands no operator. -/
theorem Closes.eat?_eq_none (h : Closes rest) (marker : String)
    (hc : afterBlanks c.rest = afterBlanks rest)
    (hmarker : marker.toList.head? = some 'a' ∨ marker.toList.head? = some 'o') :
    eat? marker c = none := by
  obtain ⟨x, more, hx, hclose⟩ := h
  have hhead : (afterBlanks c.rest).head? = some x := by rw [hc, hx]; rfl
  rcases hmarker with hmarker | hmarker
  · exact eat?_of_head hhead hmarker (by rcases hclose with rfl | rfl <;> decide)
  · exact eat?_of_head hhead hmarker (by rcases hclose with rfl | rfl <;> decide)

/-- How a spelling is read: an operand in front of everything but an equals sign, alternatives in
front of the end of a bracket. -/
def IsRead (ls : List Lexeme) : Combined → Prop
  | .operand v => ∀ bound {c rest}, Lays ls c.rest rest → ls.length ≤ bound → OperandEnds rest →
      Yields (operand bound c) v rest
  | .alternatives alts => ∀ bound {c rest}, Lays ls c.rest rest → ls.length < bound → Closes rest →
      Yields (alternatives bound c) alts rest

theorem isRead_simple {v : Condition} (h : Simple v ls) : IsRead ls (.operand v) := by
  intro bound c rest hlays _ hends
  have hopen : eat? "(" c = none := by
    cases h <;> exact eat?_of_lexeme hlays rfl rfl (by decide)
  rw [operand, hopen]
  exact simple_complete h hlays hends

theorem isRead_group {alts : List (List Condition)} (h : IsRead ls (.alternatives alts)) :
    IsRead (.mark .openParen :: (ls ++ [.mark .closeParen])) (.operand (combined alts)) := by
  intro bound c rest hlays hbound _
  simp only [List.length_cons, List.length_append] at hbound
  obtain ⟨d, hopen, hlays⟩ := pass_mark "(" rfl hlays
  obtain ⟨rest', hinner, hclose⟩ := lays_append.1 hlays
  have hcloses : Closes rest' := by
    obtain ⟨next, hnext⟩ := hclose.exists_head
    exact ⟨')', next, hnext, .inr rfl⟩
  obtain ⟨e, halts, he⟩ := h bound hinner (by omega) hcloses
  obtain ⟨f, hf, hend⟩ := pass_expected ")" .missingParenthesis rfl
    (hclose.of_front he)
  rw [operand, hopen]
  simp only [halts, hf]
  exact ⟨f, rfl, lays_nil.1 hend⟩

theorem isRead_last {v : Condition} (h : IsRead ls (.operand v)) :
    IsRead ls (.alternatives [[v]]) := by
  intro bound c rest hlays hbound hcloses
  obtain ⟨bound, rfl⟩ := Nat.exists_eq_succ_of_ne_zero (Nat.ne_zero_of_lt hbound)
  obtain ⟨d, hoperand, hd⟩ := h bound hlays (Nat.le_of_lt_succ hbound) hcloses.operandEnds
  rw [alternatives_succ, hoperand]
  simp only [hcloses.eat?_eq_none "and " hd (.inl rfl),
    hcloses.eat?_eq_none "or " hd (.inr rfl)]
  exact ⟨d, rfl, hd⟩

section Operators

variable {v : Condition} {more : List Lexeme} {bound : Nat} (h : IsRead ls (.operand v))
include h

/-- An operand is read in front of an operator, and the operator is left. -/
theorem operand_operator {o : Operator} (hlays : Lays (ls ++ .operator o :: more) c.rest rest)
    (hbound : (ls ++ .operator o :: more).length < bound + 1) :
    ∃ d, operand bound c = .ok (v, d) ∧ Lays (.operator o :: more) d.rest rest := by
  rw [List.length_append] at hbound
  obtain ⟨rest', hls, hmore⟩ := lays_append.1 hlays
  have hends : OperandEnds rest' := by
    obtain ⟨next, hnext⟩ := hmore.exists_head
    rw [OperandEnds, hnext]
    cases o <;> exact nofun
  obtain ⟨d, hoperand, hd⟩ := h bound hls (by omega) hends
  exact ⟨d, hoperand, hmore.of_front hd⟩

theorem isRead_and {first : List Condition} {others : List (List Condition)}
    (hmore : IsRead more (.alternatives (first :: others))) :
    IsRead (ls ++ .operator .and :: more) (.alternatives ((v :: first) :: others)) := by
  intro bound c rest hlays hbound hcloses
  obtain ⟨bound, rfl⟩ := Nat.exists_eq_succ_of_ne_zero (Nat.ne_zero_of_lt hbound)
  obtain ⟨d, hoperand, hd⟩ := operand_operator h hlays hbound
  obtain ⟨e, hand, he⟩ := pass_operator "and " rfl hd
  simp only [List.length_append, List.length_cons] at hbound
  rw [alternatives_succ, hoperand]
  simp only [hand]
  exact (hmore bound he (by omega) hcloses).map (conjoin v)

theorem isRead_or {alts : List (List Condition)} (hmore : IsRead more (.alternatives alts)) :
    IsRead (ls ++ .operator .or :: more) (.alternatives ([v] :: alts)) := by
  intro bound c rest hlays hbound hcloses
  obtain ⟨bound, rfl⟩ := Nat.exists_eq_succ_of_ne_zero (Nat.ne_zero_of_lt hbound)
  obtain ⟨d, hoperand, hd⟩ := operand_operator h hlays hbound
  have hand : eat? "and " d = none := eat?_of_lexeme hd rfl rfl (by decide)
  obtain ⟨e, hor, he⟩ := pass_operator "or " rfl hd
  simp only [List.length_append, List.length_cons] at hbound
  rw [alternatives_succ, hoperand]
  simp only [hand, hor]
  exact (hmore bound he (by omega) hcloses).map ([v] :: ·)

end Operators

/-- Every spelling is read. -/
theorem isRead_of_spelled {p : Combined} (h : Spelled p ls) : IsRead ls p := by
  induction h with
  | simple h => exact isRead_simple h
  | group _ ih => exact isRead_group ih
  | last _ ih => exact isRead_last ih
  | and _ _ ih ihmore => exact isRead_and ih ihmore
  | or _ _ ih ihmore => exact isRead_or ih ihmore

theorem alternatives_complete {alts : List (List Condition)} (h : Spelled (.alternatives alts) ls)
    {bound : Nat} (hlays : Lays ls c.rest rest) (hbound : ls.length < bound)
    (hcloses : Closes rest) : Yields (alternatives bound c) alts rest :=
  isRead_of_spelled h bound hlays hbound hcloses

/-! ### Predicates -/

theorem predicate_sound {p : Predicate} (h : predicate c = .ok (p, d)) :
    ∃ ls, Filter p ls ∧ Lays ls c.rest d.rest := by
  simp only [predicate] at h
  split at h
  · obtain ⟨⟨v, d₁⟩, hcondition, heq⟩ := map_eq_ok_iff.1 h
    obtain ⟨rfl, rfl⟩ := Prod.mk.inj heq
    obtain ⟨⟨alts, d₂⟩, halts, heq⟩ := map_eq_ok_iff.1 hcondition
    obtain ⟨rfl, rfl⟩ := Prod.mk.inj heq
    obtain ⟨ls, hls, hlays⟩ := alternatives_sound halts
    exact ⟨ls, .condition hls, hlays.of_front (afterBlanks_afterBlanks c.rest).symm⟩
  · next hdigits =>
      split at h
      · cases h
      · next hmax =>
          split at h
          · cases h
          · next hzero =>
              injection h with h
              obtain ⟨rfl, rfl⟩ := Prod.mk.inj h
              let digits : Digits :=
                ⟨((token c).span Char.isDigit).1, fun hnil => hdigits (by rw [hnil]; rfl),
                  List.all_eq_true.1 List.all_takeWhile⟩
              refine ⟨_, .position digits (Nat.pos_of_ne_zero hzero) (Nat.le_of_not_lt hmax),
                .cons ?_ trivial (.refl _)⟩
              exact List.takeWhile_append_dropWhile.symm

/-- In front of the end of a bracket a predicate is read. -/
theorem predicate_complete {p : Predicate} (h : Filter p ls) (hlays : Lays ls c.rest rest)
    (hcloses : Closes rest) : Yields (predicate c) p rest := by
  cases h with
  | position digits hpos hmax =>
      obtain ⟨next, hnext, -, hmore⟩ := lays_cons.1 hlays
      have hend : afterBlanks next = afterBlanks rest := lays_nil.1 hmore
      have hstops : ∀ x ∈ next.head?, x.isDigit = false := by
        intro x hx
        by_contra hdigit
        have hdigit : x.isDigit = true := by simpa using hdigit
        have hwhole := afterBlanks_of_head hx (isAsciiBlank_of_class hdigit rfl)
        obtain ⟨y, more, hy, hclose⟩ := hcloses
        rw [← hwhole, hend, hy] at hx
        obtain rfl : y = x := Option.some.inj hx
        rcases hclose with rfl | rfl <;> cases hdigit
      have hspan : (token c).span Char.isDigit =
          (digits.chars, (token c).behind digits.chars next) :=
        Cursor.span_append digits.isDigit hstops hnext
      have hempty : digits.chars.isEmpty = false := List.isEmpty_eq_false_iff.2 digits.ne_nil
      refine ⟨(token c).behind digits.chars next, ?_, hend⟩
      simp only [predicate, hspan, hempty]
      rw [if_neg Bool.false_ne_true, if_neg (Nat.not_lt.2 hmax), if_neg (Nat.ne_of_gt hpos)]
  | @condition alts ls h =>
      obtain ⟨l, more, rfl, hl⟩ := h.exists_cons
      obtain ⟨next, hnext⟩ := hlays.exists_head
      have hdigits : ((token c).span Char.isDigit).1 = [] := by
        change (afterBlanks c.rest).takeWhile Char.isDigit = []
        obtain ⟨x, chars, hx, hstart⟩ := l.head_of_opensOperand hl
        have hdigits : ∀ x ∈ operandStarts, x.isDigit = false := List.all_iff_forall_prop.1 rfl
        have hdigit := hdigits x hstart
        rw [hnext, hx, List.cons_append, List.takeWhile_cons_of_neg (by simp [hdigit])]
      have hlays : Lays (l :: more) (token c).rest rest :=
        hlays.of_front (afterBlanks_afterBlanks c.rest)
      have halts := alternatives_complete h hlays (Nat.lt_succ_of_le hlays.length_le) hcloses
      simp only [predicate, hdigits]
      exact (halts.map combined).map Predicate.condition

theorem predicates_sound {bound : Nat} {ps : List Predicate}
    (h : predicates bound c = .ok (ps, d)) : ∃ ls, Filters ps ls ∧ Lays ls c.rest d.rest := by
  induction bound generalizing c d ps with
  | zero =>
      cases h
      exact ⟨[], .nil, .nil (afterBlanks_afterBlanks c.rest).symm⟩
  | succ bound ih =>
      rw [predicates] at h
      split at h
      · cases h
        exact ⟨[], .nil, .nil (afterBlanks_afterBlanks c.rest).symm⟩
      · next inside hopen =>
          split at h
          · cases h
          · next first behind hfirst =>
              split at h
              · cases h
              · next next hclose =>
                  obtain ⟨⟨more, d'⟩, hmore, heq⟩ := map_eq_ok_iff.1 h
                  obtain ⟨rfl, rfl⟩ := Prod.mk.inj heq
                  obtain ⟨ls, hls, hlays⟩ := predicate_sound hfirst
                  obtain ⟨ls', hls', hlays'⟩ := ih hmore
                  have hlays' := lays_of_eat? .closeBracket (expect_eq_ok_iff.1 hclose) hlays'
                  exact ⟨_, .cons hls hls', lays_of_eat? .openBracket hopen
                    (lays_append.2 ⟨_, hlays, hlays'⟩)⟩

/-- No step goes on with the text: it ends behind its blanks, or there is a slash. -/
def StepEnds (rest : List Char) : Prop :=
  ∀ x ∈ (afterBlanks rest).head?, x = '/'

theorem length_filters {ps : List Predicate} (h : Filters ps ls) : ps.length ≤ ls.length := by
  induction h with
  | nil => exact Nat.le_refl _
  | cons _ _ ih =>
      simp only [List.length_cons, List.length_append]
      omega

theorem predicates_complete {ps : List Predicate} (h : Filters ps ls) {bound : Nat}
    (hlays : Lays ls c.rest rest) (hbound : ps.length ≤ bound) (hends : StepEnds rest) :
    Yields (predicates bound c) ps rest := by
  induction h generalizing bound c with
  | nil =>
      have hend : afterBlanks c.rest = afterBlanks rest := lays_nil.1 hlays
      have hrest : afterBlanks (token c).rest = afterBlanks rest :=
        (afterBlanks_afterBlanks c.rest).trans hend
      cases bound with
      | zero => exact ⟨token c, rfl, hrest⟩
      | succ bound =>
          have hopen : eat? "[" c = none := eat?_eq_none fun next heq => by
            have hslash := hends '[' (by rw [← hend, heq]; rfl)
            cases hslash
          rw [predicates, hopen]
          exact ⟨token c, rfl, hrest⟩
  | @cons p ps ls more h _ ih =>
      obtain ⟨bound, rfl⟩ := Nat.exists_eq_succ_of_ne_zero (Nat.ne_zero_of_lt hbound)
      obtain ⟨d, hopen, hlays⟩ := pass_mark "[" rfl hlays
      obtain ⟨rest', hls, hmore⟩ := lays_append.1 hlays
      have hcloses : Closes rest' := by
        obtain ⟨next, hnext⟩ := hmore.exists_head
        exact ⟨']', next, hnext, .inl rfl⟩
      obtain ⟨e, hpredicate, he⟩ := predicate_complete h hls hcloses
      obtain ⟨f, hclose, hmore⟩ := pass_expected "]" .missingBracket rfl (hmore.of_front he)
      rw [predicates, hopen]
      simp only [hpredicate, hclose]
      exact (ih hmore (Nat.le_of_succ_le_succ hbound)).map (p :: ·)

/-! ### Steps -/

theorem step_sound {axis : Axis} {s : Step} (h : step axis c = .ok (s, d)) :
    ∃ ls, Stride axis s ls ∧ Lays ls c.rest d.rest := by
  simp only [step] at h
  split at h
  · next behind hdots =>
      cases h
      exact ⟨_, .parent, lays_of_eat? .dots hdots (.refl _)⟩
  · split at h
    · next behind hdot =>
        cases h
        have hlays := lays_of_eat? .dot hdot (.refl _)
        by_cases haxis : axis = .descendant
        · rw [if_pos haxis]
          exact ⟨_, .within haxis, hlays⟩
        · rw [if_neg haxis]
          exact ⟨_, .self haxis, hlays⟩
    · next hdot =>
        split at h
        · cases h
        · next test behind htest =>
            obtain ⟨⟨ps, d'⟩, hps, heq⟩ := map_eq_ok_iff.1 h
            obtain ⟨rfl, rfl⟩ := Prod.mk.inj heq
            obtain ⟨ls, hls, hlays⟩ := predicates_sound hps
            split at htest
            · next hstar =>
                cases htest
                exact ⟨_, .any hls, lays_of_eat? .star hstar hlays⟩
            · obtain ⟨⟨s, d'⟩, hname, heq⟩ := map_eq_ok_iff.1 htest
              obtain ⟨rfl, rfl⟩ := Prod.mk.inj heq
              obtain ⟨n, rfl, hn⟩ := name_sound hname
              refine ⟨_, .named n (fun hhead => ?_) hls, hn hlays⟩
              obtain ⟨next, hnext⟩ := (hn hlays).exists_head
              obtain ⟨more, hmore⟩ := List.head?_eq_some_iff.1 hhead
              refine ne_of_eat?_eq_none hdot (more ++ next) ?_
              rw [hnext, Lexeme.chars, hmore]
              rfl

/-- One dot at the end of a step is not taken for two. -/
theorem eat?_dots (hlays : Lays [.mark .dot] c.rest rest) (hends : StepEnds rest) :
    eat? ".." c = none := by
  obtain ⟨next, hnext, -, hmore⟩ := lays_cons.1 hlays
  refine eat?_eq_none fun more heq => ?_
  obtain rfl : next = '.' :: more := by
    rw [hnext] at heq
    exact (List.cons.inj heq).2
  have hslash := hends '.' (by rw [← lays_nil.1 hmore]; rfl)
  cases hslash

/-- A step is read in front of a slash or the end. -/
theorem step_complete {axis : Axis} {s : Step} (h : Stride axis s ls)
    (hlays : Lays ls c.rest rest) (hends : StepEnds rest) : Yields (step axis c) s rest := by
  cases h with
  | parent =>
      obtain ⟨d, hdots, hmore⟩ := pass_mark ".." rfl hlays
      simp only [step, hdots]
      exact ⟨d, rfl, lays_nil.1 hmore⟩
  | self haxis =>
      obtain ⟨d, hd, hmore⟩ := pass_mark "." rfl hlays
      simp only [step, eat?_dots hlays hends, hd, if_neg haxis]
      exact ⟨d, rfl, lays_nil.1 hmore⟩
  | within haxis =>
      obtain ⟨d, hd, hmore⟩ := pass_mark "." rfl hlays
      simp only [step, eat?_dots hlays hends, hd, if_pos haxis]
      exact ⟨d, rfl, lays_nil.1 hmore⟩
  | @any ps ls h =>
      have hdots : eat? ".." c = none := eat?_of_lexeme hlays rfl rfl (by decide)
      have hdot : eat? "." c = none := eat?_of_lexeme hlays rfl rfl (by decide)
      obtain ⟨d, hstar, hmore⟩ := pass_mark "*" rfl hlays
      have hbound : ps.length ≤ d.rest.length + 1 :=
        Nat.le_succ_of_le ((length_filters h).trans hmore.length_le)
      simp only [step, hdots, hdot, hstar]
      exact (predicates_complete h hmore hbound hends).map fun ps => (⟨axis, .any, ps⟩ : Step)
  | @named n hname ps ls h =>
      obtain ⟨x, more, hx, hchar⟩ := n.isName.exists_cons
      have hhead : (Lexeme.name n).chars.head? = some x := congrArg List.head? hx
      have hne : x ≠ '.' := fun hdot => hname (by rw [hx, hdot]; rfl)
      have hdots : eat? ".." c = none := eat?_of_lexeme hlays hhead rfl hne
      have hdot : eat? "." c = none := eat?_of_lexeme hlays hhead rfl hne
      have hstar : eat? "*" c = none :=
        eat?_of_lexeme hlays hhead rfl (ne_of_class hchar (by decide))
      obtain ⟨d, hd, hmore⟩ := pass_name hlays
      have hbound : ps.length ≤ d.rest.length + 1 :=
        Nat.le_succ_of_le ((length_filters h).trans hmore.length_le)
      simp only [step, hdots, hdot, hstar, hd, Except.map]
      exact (predicates_complete h hmore hbound hends).map fun ps => (⟨axis, .named n.text, ps⟩ : Step)

theorem steps_sound {bound : Nat} {axis : Axis} {found : List Step}
    (h : steps bound axis c = .ok found) : ∃ ls, Strides axis found ls ∧ Lays ls c.rest [] := by
  induction bound generalizing axis c found with
  | zero => cases h
  | succ bound ih =>
      rw [steps] at h
      split at h
      · cases h
      · next first behind hfirst =>
          obtain ⟨ls, hls, hlays⟩ := step_sound hfirst
          split at h
          · next hempty =>
              cases h
              exact ⟨ls, .last hls, hlays.of_rest (List.isEmpty_iff.1 hempty)⟩
          · split at h
            · next next hslashes =>
                obtain ⟨more, hmore, rfl⟩ := map_eq_ok_iff.1 h
                obtain ⟨ls', hls', hlays'⟩ := ih hmore
                exact ⟨_, .descendant hls hls',
                  lays_append.2 ⟨_, hlays, lays_of_eat? .slashes hslashes hlays'⟩⟩
            · split at h
              · next next hslash =>
                  obtain ⟨more, hmore, rfl⟩ := map_eq_ok_iff.1 h
                  obtain ⟨ls', hls', hlays'⟩ := ih hmore
                  exact ⟨_, .child hls hls',
                    lays_append.2 ⟨_, hlays, lays_of_eat? .slash hslash hlays'⟩⟩
              · cases h

/-- A step does not begin with a slash. -/
theorem stride_head {axis : Axis} {s : Step} (h : Stride axis s ls) :
    ∃ l more, ls = l :: more ∧ ∃ x, l.chars.head? = some x ∧ x ≠ '/' := by
  cases h with
  | parent | self | within | any => exact ⟨_, _, rfl, _, rfl, by decide⟩
  | named n =>
      obtain ⟨x, more, hx, hchar⟩ := n.isName.exists_cons
      exact ⟨_, _, rfl, x, congrArg List.head? hx, ne_of_class hchar rfl⟩

theorem strides_head {axis : Axis} {found : List Step} (h : Strides axis found ls) :
    ∃ l more, ls = l :: more ∧ ∃ x, l.chars.head? = some x ∧ x ≠ '/' := by
  cases h with
  | last h => exact stride_head h
  | child h _ | descendant h _ =>
      obtain ⟨l, more, rfl, hl⟩ := stride_head h
      exact ⟨l, _, rfl, hl⟩

/-- One slash in front of a step is not taken for two. -/
theorem eat?_slashes {axis : Axis} {found : List Step} (h : Strides axis found ls)
    (hlays : Lays (.mark .slash :: ls) c.rest rest) : eat? "//" c = none := by
  obtain ⟨next, hnext, -, hmore⟩ := lays_cons.1 hlays
  obtain ⟨l, others, rfl, x, hx, hne⟩ := strides_head h
  obtain ⟨behind, hbehind⟩ := hmore.exists_head
  refine eat?_eq_none fun more heq => hne ?_
  obtain rfl : next = '/' :: more := by
    rw [hnext] at heq
    exact (List.cons.inj heq).2
  have hhead := congrArg List.head? hbehind
  rw [List.head?_append, hx, afterBlanks_cons rfl] at hhead
  exact (Option.some.inj hhead).symm

theorem length_strides {axis : Axis} {found : List Step} (h : Strides axis found ls) :
    found.length ≤ ls.length := by
  induction h with
  | last h =>
      obtain ⟨l, more, rfl, -⟩ := stride_head h
      exact Nat.succ_le_succ (Nat.zero_le _)
  | child _ _ ih | descendant _ _ ih =>
      simp only [List.length_cons, List.length_append]
      omega

/-- A step is read in front of slashes, and they are left. -/
theorem step_slashes {axis : Axis} {s : Step} {m : Mark} {more : List Lexeme} (h : Stride axis s ls)
    (hm : m.text.toList.head? = some '/') (hlays : Lays (ls ++ .mark m :: more) c.rest []) :
    ∃ d, step axis c = .ok (s, d) ∧ Lays (.mark m :: more) d.rest [] ∧
      (token d).rest.isEmpty = false := by
  obtain ⟨rest, hls, hmore⟩ := lays_append.1 hlays
  obtain ⟨next, hnext⟩ := hmore.exists_head
  have hhead : (afterBlanks rest).head? = some '/' := by
    rw [hnext, List.head?_append, Lexeme.chars, hm, Option.some_or]
  have hends : StepEnds rest := fun x hx => by
    rw [hhead] at hx
    exact (Option.some.inj hx).symm
  obtain ⟨d, hd, hrest⟩ := step_complete h hls hends
  refine ⟨d, hd, hmore.of_front hrest, List.isEmpty_eq_false_iff.2 fun hnil => ?_⟩
  rw [← hrest, show afterBlanks d.rest = [] from hnil] at hhead
  cases hhead

theorem steps_complete {axis : Axis} {found : List Step} (h : Strides axis found ls) {bound : Nat}
    (hlays : Lays ls c.rest []) (hbound : found.length ≤ bound) :
    steps bound axis c = .ok found := by
  induction h generalizing bound c with
  | last h =>
      obtain ⟨bound, rfl⟩ := Nat.exists_eq_succ_of_ne_zero (Nat.ne_zero_of_lt hbound)
      obtain ⟨d, hd, hrest⟩ := step_complete h hlays fun x hx => absurd hx (Option.not_mem_none _)
      have hempty : (token d).rest.isEmpty = true := List.isEmpty_iff.2 hrest
      simp only [steps, hd, hempty]
      rfl
  | child h hmore ih =>
      obtain ⟨bound, rfl⟩ := Nat.exists_eq_succ_of_ne_zero (Nat.ne_zero_of_lt hbound)
      obtain ⟨d, hd, hlays, hempty⟩ := step_slashes h rfl hlays
      have hslashes : eat? "//" d = none := eat?_slashes hmore hlays
      obtain ⟨e, he, hlays⟩ := pass_mark "/" rfl hlays
      simp only [steps, hd, hempty, hslashes, he, ih hlays (Nat.le_of_succ_le_succ hbound)]
      rfl
  | descendant h hmore ih =>
      obtain ⟨bound, rfl⟩ := Nat.exists_eq_succ_of_ne_zero (Nat.ne_zero_of_lt hbound)
      obtain ⟨d, hd, hlays, hempty⟩ := step_slashes h rfl hlays
      obtain ⟨e, he, hlays⟩ := pass_mark "//" rfl hlays
      simp only [steps, hd, hempty, he, ih hlays (Nat.le_of_succ_le_succ hbound)]
      rfl

/-! ### Whole expressions -/

theorem path_sound {absolute : Bool} {found : List Step} (h : path c = .ok (absolute, found)) :
    ∃ ls, Sentence absolute found ls ∧ Lays ls c.rest [] := by
  simp only [path] at h
  split at h
  · cases h
  · split at h
    · next inside hslashes =>
        obtain ⟨more, hmore, heq⟩ := map_eq_ok_iff.1 h
        obtain ⟨rfl, rfl⟩ := Prod.mk.inj heq
        obtain ⟨ls, hls, hlays⟩ := steps_sound hmore
        exact ⟨_, .descendant hls, lays_of_eat? .slashes hslashes hlays⟩
    · split at h
      · next inside hslash =>
          obtain ⟨more, hmore, heq⟩ := map_eq_ok_iff.1 h
          obtain ⟨rfl, rfl⟩ := Prod.mk.inj heq
          obtain ⟨ls, hls, hlays⟩ := steps_sound hmore
          exact ⟨_, .child hls, lays_of_eat? .slash hslash hlays⟩
      · obtain ⟨more, hmore, heq⟩ := map_eq_ok_iff.1 h
        obtain ⟨rfl, rfl⟩ := Prod.mk.inj heq
        obtain ⟨ls, hls, hlays⟩ := steps_sound hmore
        exact ⟨_, .relative hls, hlays⟩

theorem path_complete {absolute : Bool} {found : List Step} (h : Sentence absolute found ls)
    (hlays : Lays ls c.rest []) : path c = .ok (absolute, found) := by
  have hempty : ∀ {l : Lexeme} {ls : List Lexeme}, Lays (l :: ls) c.rest [] →
      (token c).rest.isEmpty = false := by
    intro l ls hlays
    obtain ⟨next, hnext⟩ := hlays.exists_head
    obtain ⟨x, more, hx, -⟩ := l.exists_cons
    change (afterBlanks c.rest).isEmpty = false
    rw [hnext, hx]
    rfl
  have hbound : ∀ {axis : Axis} {more : List Lexeme}, Strides axis found more →
      more.length ≤ c.rest.length → found.length ≤ c.rest.length + 1 := fun h hle =>
    Nat.le_succ_of_le ((length_strides h).trans hle)
  cases h with
  | relative h =>
      obtain ⟨l, more, rfl, x, hx, hne⟩ := strides_head h
      have hslashes : eat? "//" c = none := eat?_of_lexeme hlays hx rfl hne
      have hslash : eat? "/" c = none := eat?_of_lexeme hlays hx rfl hne
      simp only [path, hempty hlays, hslashes, hslash,
        steps_complete h hlays (hbound h hlays.length_le)]
      rfl
  | @child _ more h =>
      have hslashes : eat? "//" c = none := eat?_slashes h hlays
      obtain ⟨d, hslash, hmore⟩ := pass_mark "/" rfl hlays
      have hle : more.length ≤ c.rest.length := (Nat.le_succ _).trans hlays.length_le
      simp only [path, hempty hlays, hslashes, hslash, steps_complete h hmore (hbound h hle)]
      rfl
  | @descendant _ more h =>
      obtain ⟨d, hslashes, hmore⟩ := pass_mark "//" rfl hlays
      have hle : more.length ≤ c.rest.length := (Nat.le_succ _).trans hlays.length_le
      simp only [path, hempty hlays, hslashes, steps_complete h hmore (hbound h hle)]
      rfl

end ViewCompiler.PathReader

namespace ViewCompiler

open Locator

/-- **An expression is read as a path exactly if it is a layout of a sentence for the path.** -/
theorem Path.parse_eq_ok_iff {expression : String} {p : Path} :
    Path.parse expression = .ok p ↔ p.source = expression ∧
      ∃ ls, Sentence p.absolute p.steps ls ∧ Lays ls expression.toList [] := by
  constructor
  · intro h
    rw [parse] at h
    split at h
    · cases h
    · next absolute steps hpath =>
        cases h
        exact ⟨rfl, PathReader.path_sound hpath⟩
  · rintro ⟨rfl, ls, hls, hlays⟩
    have hpath : PathReader.path (.ofString p.source) = .ok (p.absolute, p.steps) :=
      PathReader.path_complete hls hlays
    rw [parse, hpath]

/-- A path that is read has at least one step. -/
theorem Path.steps_ne_nil {expression : String} {p : Path} (h : Path.parse expression = .ok p) :
    p.steps ≠ [] := by
  obtain ⟨-, ls, hsentence, -⟩ := Path.parse_eq_ok_iff.1 h
  exact hsentence.ne_nil

end ViewCompiler
