/-
**Blanks in expressions.**

Blanks may stand in front of every lexeme, and which ones does not matter, with one exception: the
space behind an operator is part of the operator.  So if the runs of blanks outside the strings of an
expression are replaced by other runs, the new expression denotes the same path exactly if a space
comes first behind each of its operators, and otherwise it is refused.

An operator is recognised in a text without reading it: it is one of the two words in front of blanks
and of a character that an operand can begin with.  In an expression that is read, nothing else looks
like that outside of strings.

Main definitions:

* `ViewCompiler.Locator.Respaced` — a text with other runs of blanks outside of strings;
* `ViewCompiler.Locator.Spaced` — a space comes first behind each operator outside of strings.

Main results:

* `ViewCompiler.Locator.Lays.respaced` — a layout with other runs of blanks is a layout of the same
  lexemes, if a space comes first behind its operators;
* `ViewCompiler.Locator.Lays.spaced` — in a layout a space comes first behind each operator;
* `ViewCompiler.Path.respaced_of_parse` — what is read can keep its blanks;
* `ViewCompiler.Path.parse_respaced` — **other blanks, the same path**, exactly in that case.
-/

import ViewCompiler.Proofs.Locator.Parsing
import ViewCompiler.Proofs.Template.Spelling

set_option relaxedAutoImplicit false
set_option autoImplicit false

namespace ViewCompiler.Locator

/-- A character that begins and ends strings. -/
def IsQuote (c : Char) : Prop :=
  c = '\'' ∨ c = '"'

instance (c : Char) : Decidable (IsQuote c) :=
  inferInstanceAs (Decidable (c = '\'' ∨ c = '"'))

/-- A character that is no blank and begins no string. -/
def IsPlain (c : Char) : Prop :=
  isAsciiBlank c = false ∧ ¬ IsQuote c

instance (c : Char) : Decidable (IsPlain c) :=
  inferInstanceAs (Decidable (isAsciiBlank c = false ∧ ¬ IsQuote c))

/-- The second text is the first one with other runs of blanks in place of its runs of blanks outside
of strings. -/
inductive Respaced : List Char → List Char → Prop
  | nil : Respaced [] []
  | plain {c : Char} {text text' : List Char} (hc : IsPlain c) (h : Respaced text text') :
      Respaced (c :: text) (c :: text')
  | string (v : QuotedText) {text text' : List Char} (h : Respaced text text') :
      Respaced (v.chars ++ text) (v.chars ++ text')
  | blanks {run run' text text' : List Char} (hrun : Blanks run) (hrun' : Blanks run')
      (hne : run ≠ []) (hne' : run' ≠ []) (hmax : ∀ c ∈ text.head?, isAsciiBlank c = false)
      (h : Respaced text text') : Respaced (run ++ text) (run' ++ text')

/-- If an operator begins the text, which blanks and an operand behind it show, the first of the
blanks is a space. -/
def OperatorSpaced (text : List Char) : Prop :=
  ∀ (o : Operator) (b x : Char) (rest more : List Char), text = o.text.toList ++ b :: rest →
    isAsciiBlank b = true → afterBlanks rest = x :: more → x ∈ operandStarts → b = ' '

/-- A space comes first behind each operator outside of strings. -/
inductive Spaced : List Char → Prop
  | nil : Spaced []
  | char {c : Char} {text : List Char} (hc : ¬ IsQuote c) (hspace : OperatorSpaced (c :: text))
      (h : Spaced text) : Spaced (c :: text)
  | string (v : QuotedText) {text : List Char} (h : Spaced text) : Spaced (v.chars ++ text)

variable {c : Char} {text text' next t front : List Char} {ls : List Lexeme}

/-! ### Characters of lexemes -/

theorem IsPlain.of_class {p : Char → Bool} (h : p c = true)
    (hp : [' ', '\t', '\n', '\x0c', '\r', '\'', '"'].all (!p ·) = true) : IsPlain c := by
  have hclass : ∀ b ∈ [' ', '\t', '\n', '\x0c', '\r', '\'', '"'], p b = false := by simpa using hp
  refine ⟨isAsciiBlank_of_class h ?_, ?_⟩
  · simp only [List.all_cons, Bool.and_eq_true] at hp ⊢
    tauto
  · rintro (rfl | rfl) <;> rw [hclass _ (by simp)] at h <;> cases h

theorem Mark.isPlain (m : Mark) : ∀ c ∈ m.text.toList, IsPlain c := by
  cases m <;> exact List.all_iff_forall_prop.1 rfl

theorem NameText.isPlain (n : NameText) : ∀ c ∈ n.text.toList, IsPlain c :=
  fun _ hc => .of_class (n.isName.2 _ hc) rfl

theorem isPlain_digits (digits : Digits) : ∀ c ∈ digits.chars, IsPlain c :=
  fun _ hc => .of_class (digits.isDigit _ hc) rfl

theorem Operator.isPlain (o : Operator) : ∀ c ∈ o.text.toList, IsPlain c := by
  cases o <;> exact List.all_iff_forall_prop.1 rfl

theorem isPlain_of_mem_operandStarts : ∀ x ∈ operandStarts, IsPlain x :=
  List.all_iff_forall_prop.1 rfl

theorem IsPlain.ne_quote (hc : IsPlain c) (v : QuotedText) : c ≠ v.quote :=
  fun h => hc.2 (h ▸ v.isQuote)

theorem isNameChar_of_isAsciiBlank (h : isAsciiBlank c = true) : isNameChar c = false := by
  rw [Bool.eq_false_iff]
  intro hname
  rw [isAsciiBlank_of_isNameChar hname] at h
  cases h

/-- The two operators begin with different characters. -/
theorem Operator.text_inj {o o' : Operator} (h : o.text.toList ++ text = o'.text.toList ++ text') :
    o = o' ∧ text = text' := by
  have ho : o = o' := by
    have hhead := congrArg List.head? h
    cases o <;> cases o' <;> first | rfl | exact absurd (Option.some.inj hhead) (by decide)
  subst ho
  exact ⟨rfl, List.append_cancel_left h⟩

/-- Where a string ends is seen in any text behind it. -/
theorem QuotedText.chars_inj {v v' : QuotedText} (h : v.chars ++ text = v'.chars ++ text') :
    v.chars = v'.chars ∧ text = text' := by
  simp only [QuotedText.chars, List.cons_append, List.append_assoc, List.nil_append] at h ⊢
  obtain ⟨hquote, hmore⟩ := List.cons.inj h
  -- both texts are cut at the first quote
  have hcut := cut_singleton v.fresh text
  rw [hmore, hquote, cut_singleton v'.fresh] at hcut
  obtain ⟨htext, hrest⟩ := Prod.mk.inj (Option.some.inj hcut)
  rw [htext, hquote]
  exact ⟨rfl, hrest.symm⟩

/-! ### Other blanks -/

namespace Respaced

/-- Respaced texts begin alike, unless both begin with blanks. -/
theorem head? (h : Respaced text text') : text'.head? = text.head? ∨
    ∃ b b', text.head? = some b ∧ text'.head? = some b' ∧ isAsciiBlank b = true ∧
      isAsciiBlank b' = true := by
  cases h with
  | nil | plain | string => exact .inl rfl
  | blanks hrun hrun' hne hne' =>
      obtain ⟨b, run, rfl⟩ := List.exists_cons_of_ne_nil hne
      obtain ⟨b', run', rfl⟩ := List.exists_cons_of_ne_nil hne'
      exact .inr ⟨b, b', rfl, rfl, hrun b List.mem_cons_self, hrun' b' List.mem_cons_self⟩

/-- What a text does not begin with, other than a blank, a respaced one does not begin with. -/
theorem head_class {p : Char → Bool} (h : Respaced text text')
    (hp : ∀ b, isAsciiBlank b = true → p b = false) (htext : ∀ c ∈ text.head?, p c = false) :
    ∀ c ∈ text'.head?, p c = false := by
  intro c hc
  obtain heq | ⟨b, b', -, hb', -, hblank⟩ := h.head?
  · exact htext c (heq ▸ hc)
  · obtain rfl : b' = c := Option.some.inj (hb'.symm.trans hc)
    exact hp b' hblank

/-- Behind the blanks of a text the respaced one is the same without those in front. -/
theorem afterBlanks (h : Respaced text text') :
    Respaced (afterBlanks text) (afterBlanks text') := by
  cases h with
  | nil => exact .nil
  | plain hc h =>
      rw [afterBlanks_cons hc.1, afterBlanks_cons hc.1]
      exact .plain hc h
  | string v h =>
      have hchars := (Lexeme.string v).afterBlanks_chars
      rw [Lexeme.chars] at hchars
      rw [hchars, hchars]
      exact .string v h
  | @blanks run run' text text' hrun hrun' hne hne' hmax h =>
      have hmax' : ∀ c ∈ text'.head?, isAsciiBlank c = false := by
        intro c hc
        obtain heq | ⟨b, b', hb, -, hblank, -⟩ := h.head?
        · exact hmax c (heq ▸ hc)
        · rw [hmax b hb] at hblank
          cases hblank
      rwa [Locator.afterBlanks, Locator.afterBlanks, dropWhile_append_of_head hrun hmax,
        dropWhile_append_of_head hrun' hmax']

theorem plains (hfront : ∀ c ∈ front, IsPlain c) (h : Respaced text text') :
    Respaced (front ++ text) (front ++ text') := by
  induction front with
  | nil => exact h
  | cons c front ih =>
      obtain ⟨hc, hmore⟩ := List.forall_mem_cons.1 hfront
      exact .plain hc (ih hmore)

/-- A plain character stays where it is. -/
theorem of_plain (h : Respaced (c :: text) t) (hc : IsPlain c) :
    ∃ text', t = c :: text' ∧ Respaced text text' := by
  generalize hs : c :: text = s at h
  cases h with
  | nil => cases hs
  | plain _ h =>
      obtain ⟨rfl, rfl⟩ := List.cons.inj hs
      exact ⟨_, rfl, h⟩
  | string v h => exact absurd (List.cons.inj hs).1 (hc.ne_quote v)
  | blanks hrun hrun' hne =>
      obtain ⟨b, run, rfl⟩ := List.exists_cons_of_ne_nil hne
      obtain ⟨rfl, -⟩ := List.cons.inj hs
      have hblank := hrun c List.mem_cons_self
      rw [hc.1] at hblank
      cases hblank

theorem of_plains (h : Respaced (front ++ text) t) (hfront : ∀ c ∈ front, IsPlain c) :
    ∃ text', t = front ++ text' ∧ Respaced text text' := by
  induction front generalizing t with
  | nil => exact ⟨t, rfl, h⟩
  | cons c front ih =>
      obtain ⟨hc, hmore⟩ := List.forall_mem_cons.1 hfront
      obtain ⟨t', rfl, h'⟩ := h.of_plain hc
      obtain ⟨text', rfl, htext'⟩ := ih h' hmore
      exact ⟨text', rfl, htext'⟩

/-- A string stays as it is. -/
theorem of_string {v : QuotedText} (h : Respaced (v.chars ++ text) t) :
    ∃ text', t = v.chars ++ text' ∧ Respaced text text' := by
  generalize hs : v.chars ++ text = s at h
  cases h with
  | nil => cases hs
  | plain hc h => exact absurd (List.cons.inj hs).1.symm (hc.ne_quote v)
  | string v' h =>
      obtain ⟨hchars, rfl⟩ := QuotedText.chars_inj hs
      exact ⟨_, by rw [hchars], h⟩
  | blanks hrun hrun' hne =>
      obtain ⟨b, run, rfl⟩ := List.exists_cons_of_ne_nil hne
      obtain ⟨rfl, -⟩ := List.cons.inj hs
      have hblank := hrun v.quote List.mem_cons_self
      rcases v.isQuote with hq | hq <;> rw [hq] at hblank <;> cases hblank

/-- A blank stays a blank, and what stands behind the blanks is respaced. -/
theorem of_blank {b : Char} (h : Respaced (b :: text) t) (hb : isAsciiBlank b = true) :
    ∃ b' text', t = b' :: text' ∧ isAsciiBlank b' = true ∧
      Respaced (Locator.afterBlanks text) (Locator.afterBlanks text') := by
  have hafter := h.afterBlanks
  obtain ⟨b', text', rfl, hb'⟩ : ∃ b' text', t = b' :: text' ∧ isAsciiBlank b' = true := by
    obtain heq | ⟨_, b', -, hhead, -, hb'⟩ := h.head?
    · obtain ⟨text', rfl⟩ := List.head?_eq_some_iff.1 heq
      exact ⟨b, text', rfl, hb⟩
    · obtain ⟨text', rfl⟩ := List.head?_eq_some_iff.1 hhead
      exact ⟨b', text', rfl, hb'⟩
  rw [Locator.afterBlanks, Locator.afterBlanks, List.dropWhile_cons_of_pos hb,
    List.dropWhile_cons_of_pos hb'] at hafter
  exact ⟨b', text', rfl, hb', hafter⟩

end Respaced

/-! ### The space behind an operator -/

/-- No operator begins the text if its front is neither the beginning of one nor begins with one. -/
theorem operatorSpaced_of_prefix
    (h : ∀ o : Operator, ¬ front <+: o.text.toList ∧ ¬ o.text.toList <+: front) :
    OperatorSpaced (front ++ text) := by
  intro o b x rest more heq _ _ _
  have hfront : front <+: o.text.toList ++ b :: rest := heq ▸ List.prefix_append front text
  rcases List.prefix_or_prefix_of_prefix hfront (List.prefix_append _ _) with hpre | hpre
  · exact absurd hpre (h o).1
  · exact absurd hpre (h o).2

/-- No operator begins with the character. -/
theorem operatorSpaced_of_head (hc : ∀ o : Operator, o.text.toList.head? ≠ some c) :
    OperatorSpaced (c :: text) := by
  intro o b x rest more h _ _ _
  refine absurd ?_ (hc o)
  cases o <;> exact congrArg some (List.cons.inj h).1.symm

/-- The text begins with a word that is an operator only if it is one as a whole. -/
theorem operatorSpaced_of_name (hfront : ∀ c ∈ front, isNameChar c = true)
    (htext : ∀ c ∈ text.head?, isNameChar c = false)
    (hnext : ∀ x ∈ (afterBlanks text).head?, x ∉ operandStarts) :
    OperatorSpaced (front ++ text) := by
  intro o b x rest more heq hb hx hstart
  -- both sides are cut where their first run of name characters ends
  have ho : ∀ c ∈ o.text.toList, isNameChar c = true := by
    cases o <;> exact List.all_iff_forall_prop.1 rfl
  have hhead : ∀ c ∈ (b :: rest).head?, isNameChar c = false :=
    fun c hc => Option.some.inj hc ▸ isNameChar_of_isAsciiBlank hb
  have hbehind : text = b :: rest := by
    have hdrop := dropWhile_append_of_head hfront htext
    rwa [heq, dropWhile_append_of_head ho hhead, eq_comm] at hdrop
  refine absurd hstart (hnext x ?_)
  rw [hbehind, afterBlanks, List.dropWhile_cons_of_pos hb, ← afterBlanks, hx]
  rfl

namespace Spaced

theorem of_char (h : Spaced (c :: text)) (hc : ¬ IsQuote c) :
    OperatorSpaced (c :: text) ∧ Spaced text := by
  generalize hs : c :: text = s at h
  cases h with
  | nil => cases hs
  | char _ hspace h =>
      obtain ⟨rfl, rfl⟩ := List.cons.inj hs
      exact ⟨hspace, h⟩
  | string v h => exact absurd ((List.cons.inj hs).1 ▸ v.isQuote) hc

/-- Characters that begin no string can be taken off. -/
theorem of_append (h : Spaced (front ++ text)) (hfront : ∀ c ∈ front, ¬ IsQuote c) :
    Spaced text := by
  induction front with
  | nil => exact h
  | cons c front ih =>
      obtain ⟨hc, hmore⟩ := List.forall_mem_cons.1 hfront
      exact ih (h.of_char hc).2 hmore

theorem of_string {v : QuotedText} (h : Spaced (v.chars ++ text)) : Spaced text := by
  generalize hs : v.chars ++ text = s at h
  cases h with
  | nil => cases hs
  | char hc => exact absurd ((List.cons.inj hs).1 ▸ v.isQuote) hc
  | string v' h =>
      obtain ⟨-, rfl⟩ := QuotedText.chars_inj hs
      exact h

theorem of_operator {o : Operator} (h : Spaced (o.text.toList ++ text)) :
    OperatorSpaced (o.text.toList ++ text) := by
  cases o <;> exact (h.of_char (by decide)).1

/-- Characters that begin no string can be put in front where no operator then begins. -/
theorem append (h : Spaced text) (hquote : ∀ c ∈ front, ¬ IsQuote c)
    (hspace : ∀ suffix, suffix ≠ [] → suffix <:+ front → OperatorSpaced (suffix ++ text)) :
    Spaced (front ++ text) := by
  induction front with
  | nil => exact h
  | cons c front ih =>
      obtain ⟨hc, hmore⟩ := List.forall_mem_cons.1 hquote
      refine .char hc (hspace (c :: front) (List.cons_ne_nil _ _) List.suffix_rfl) (ih hmore ?_)
      exact fun suffix hne hsuffix => hspace suffix hne (hsuffix.trans (List.suffix_cons c front))

/-- Characters that no operator begins with can be put in front. -/
theorem append_of_heads (h : Spaced text) (hquote : ∀ c ∈ front, ¬ IsQuote c)
    (hfront : ∀ c ∈ front, ∀ o : Operator, o.text.toList.head? ≠ some c) :
    Spaced (front ++ text) := by
  refine h.append hquote fun suffix hne hsuffix => ?_
  obtain ⟨c, more, rfl⟩ := List.exists_cons_of_ne_nil hne
  exact operatorSpaced_of_head (hfront c (hsuffix.subset List.mem_cons_self))

/-- Blanks are neither quotes nor what an operator begins with. -/
theorem blank (hc : isAsciiBlank c = true) :
    ¬ IsQuote c ∧ ∀ o : Operator, o.text.toList.head? ≠ some c := by
  refine ⟨?_, fun o ho => ?_⟩
  · rintro (rfl | rfl) <;> cases hc
  · cases o <;> obtain rfl := Option.some.inj ho <;> cases hc

/-- Blanks in front do not matter. -/
theorem afterBlanks_iff : Spaced (afterBlanks text) ↔ Spaced text := by
  have hblank : ∀ c ∈ text.takeWhile isAsciiBlank, isAsciiBlank c = true :=
    fun _ => List.mem_takeWhile_imp
  conv_rhs => rw [← List.takeWhile_append_dropWhile (p := isAsciiBlank) (l := text)]
  exact ⟨fun h => h.append_of_heads (fun c hc => (blank (hblank c hc)).1)
    fun c hc => (blank (hblank c hc)).2, fun h => h.of_append fun c hc => (blank (hblank c hc)).1⟩

theorem mark (m : Mark) (h : Spaced text) : Spaced (m.text.toList ++ text) := by
  refine h.append (fun c hc => (m.isPlain c hc).2) fun suffix hne hsuffix => ?_
  have hclear : ∀ suffix ∈ m.text.toList.tails, suffix ≠ [] → ∀ o : Operator,
      ¬ suffix <+: o.text.toList ∧ ¬ o.text.toList <+: suffix := by
    intro suffix hsuffix hne o
    revert suffix
    cases m <;> cases o <;> decide
  exact operatorSpaced_of_prefix (hclear suffix ((List.mem_tails _ _).2 hsuffix) hne)

theorem name (n : NameText) (h : Spaced text) (htext : ∀ c ∈ text.head?, isNameChar c = false)
    (hnext : ∀ x ∈ (afterBlanks text).head?, x ∉ operandStarts) :
    Spaced (n.text.toList ++ text) :=
  h.append (fun c hc => (n.isPlain c hc).2) fun _ _ hsuffix =>
    operatorSpaced_of_name (fun c hc => n.isName.2 c (hsuffix.subset hc)) htext hnext

theorem number (digits : Digits) (h : Spaced text) : Spaced (digits.chars ++ text) := by
  refine h.append_of_heads (fun c hc => (isPlain_digits digits c hc).2) fun c hc o ho => ?_
  have hdigit := digits.isDigit c hc
  cases o <;> obtain rfl := Option.some.inj ho <;> cases hdigit

theorem operator (o : Operator) (h : Spaced text) : Spaced (o.text.toList ++ ' ' :: text) := by
  have hspace : OperatorSpaced (o.text.toList ++ ' ' :: text) := by
    intro o' b x rest more heq _ _ _
    exact (List.cons.inj (Operator.text_inj heq).2).1.symm
  have hquote : ∀ c ∈ o.text.toList.tail ++ [' '], ¬ IsQuote c := by
    cases o <;> exact List.all_iff_forall_prop.1 rfl
  have hhead : ∀ o' : Operator, ∀ c ∈ o.text.toList.tail ++ [' '], o'.text.toList.head? ≠ some c := by
    intro o'
    cases o <;> cases o' <;> exact List.all_iff_forall_prop.1 rfl
  have hmore : Spaced (o.text.toList.tail ++ [' '] ++ text) :=
    h.append_of_heads hquote fun c hc o' => hhead o' c hc
  rw [List.append_assoc] at hmore
  cases o with
  | and => exact .char (by decide) hspace hmore
  | or => exact .char (by decide) hspace hmore

end Spaced

/-! ### Lexemes and layouts -/

/-- What can follow a name begins no operand. -/
theorem Lexeme.exists_cons_of_followsName {l : Lexeme} (h : l.followsName = true) :
    ∃ x more, l.chars = x :: more ∧ x ∉ operandStarts := by
  cases l with
  | operator o => cases o <;> exact ⟨_, _, rfl, by decide⟩
  | mark m => cases m <;> first | exact ⟨_, _, rfl, by decide⟩ | cases h
  | name | number | string => cases h

/-- A lexeme stays as it is where the blanks are others, and so does what it stops at. -/
theorem Respaced.of_lexeme {l : Lexeme} (h : Respaced (l.chars ++ next) t) (hstops : l.Stops next)
    (hspaced : Spaced t)
    (hoperand : ∀ o, l = .operator o → ∃ x more, Locator.afterBlanks next = x :: more ∧
      x ∈ operandStarts) :
    ∃ next', t = l.chars ++ next' ∧ l.Stops next' ∧
      Respaced (Locator.afterBlanks next) (Locator.afterBlanks next') ∧ Spaced next' := by
  cases l with
  | mark m =>
      obtain ⟨next', rfl, h'⟩ := h.of_plains m.isPlain
      exact ⟨next', rfl, trivial, h'.afterBlanks, hspaced.of_append fun c hc => (m.isPlain c hc).2⟩
  | name n =>
      obtain ⟨next', rfl, h'⟩ := h.of_plains n.isPlain
      exact ⟨next', rfl, h'.head_class (fun _ => isNameChar_of_isAsciiBlank) hstops, h'.afterBlanks,
        hspaced.of_append fun c hc => (n.isPlain c hc).2⟩
  | number digits =>
      obtain ⟨next', rfl, h'⟩ := h.of_plains (isPlain_digits digits)
      exact ⟨next', rfl, trivial, h'.afterBlanks,
        hspaced.of_append fun c hc => (isPlain_digits digits c hc).2⟩
  | string v =>
      obtain ⟨next', rfl, h'⟩ := h.of_string
      exact ⟨next', rfl, trivial, h'.afterBlanks, hspaced.of_string⟩
  | operator o =>
      rw [Lexeme.chars, List.append_assoc] at h
      obtain ⟨t', rfl, (h' : Respaced (' ' :: next) t')⟩ := h.of_plains o.isPlain
      obtain ⟨b, next', rfl, hb, hnext⟩ := h'.of_blank rfl
      obtain ⟨x, more, hx, hstart⟩ := hoperand o rfl
      -- the operand still begins as it did, so what stands in front of it still is an operator
      have hfirst : Respaced (x :: more) (Locator.afterBlanks next') := hx ▸ hnext
      obtain ⟨more', hx', -⟩ := hfirst.of_plain (isPlain_of_mem_operandStarts x hstart)
      obtain rfl : b = ' ' := hspaced.of_operator o b x next' more' rfl hb hx' hstart
      refine ⟨next', by rw [Lexeme.chars, List.append_assoc]; rfl, trivial, hnext, ?_⟩
      exact ((hspaced.of_append fun c hc => (o.isPlain c hc).2).of_char (by decide)).2

/-- If a text is spaced, so it is with a lexeme in front of it. -/
theorem Spaced.lexeme {l : Lexeme} (h : Spaced next) (hstops : l.Stops next)
    (hname : ∀ n, l = .name n → ∀ x ∈ (afterBlanks next).head?, x ∉ operandStarts) :
    Spaced (l.chars ++ next) := by
  cases l with
  | mark m => exact h.mark m
  | name n => exact h.name n hstops (hname n rfl)
  | number digits => exact h.number digits
  | string v => exact h.string v
  | operator o =>
      rw [Lexeme.chars, List.append_assoc]
      exact h.operator o

/-- Blanks in front are a run of blanks. -/
theorem Respaced.of_afterBlanks (h : Respaced (Locator.afterBlanks text) (Locator.afterBlanks text)) :
    Respaced text text := by
  have htext : text.takeWhile isAsciiBlank ++ Locator.afterBlanks text = text :=
    List.takeWhile_append_dropWhile
  by_cases hrun : text.takeWhile isAsciiBlank = []
  · rw [hrun, List.nil_append] at htext
    rwa [htext] at h
  · have hmax : ∀ c ∈ (Locator.afterBlanks text).head?, isAsciiBlank c = false := by
      intro c hc
      have hhead := List.head?_dropWhile_not isAsciiBlank text
      rw [show (text.dropWhile isAsciiBlank).head? = some c from hc] at hhead
      simpa using hhead
    have hblanks : Blanks (text.takeWhile isAsciiBlank) := fun _ => List.mem_takeWhile_imp
    rw [← htext]
    exact .blanks hblanks hblanks hrun hrun hmax h

/-- A layout can keep its blanks: outside of blanks and strings there are no quotes in it. -/
theorem Lays.respaced_self (hlays : Lays ls text []) : Respaced text text := by
  induction ls generalizing text with
  | nil =>
      refine .of_afterBlanks ?_
      rw [lays_nil.1 hlays]
      exact .nil
  | cons l ls ih =>
      obtain ⟨next, hnext, -, hmore⟩ := lays_cons.1 hlays
      refine .of_afterBlanks ?_
      rw [hnext]
      cases l with
      | mark m => exact .plains m.isPlain (ih hmore)
      | name n => exact .plains n.isPlain (ih hmore)
      | number digits => exact .plains (isPlain_digits digits) (ih hmore)
      | string v => exact .string v (ih hmore)
      | operator o =>
          rw [Lexeme.chars, List.append_assoc]
          exact .plains o.isPlain (.of_afterBlanks (ih hmore).afterBlanks)

/-- **A layout with other blanks is a layout of the same lexemes**, if a space comes first behind each
operator. -/
theorem Lays.respaced (hlays : Lays ls text []) (hchain : Chained ls)
    (h : Respaced (afterBlanks text) (afterBlanks text')) (hspaced : Spaced text') :
    Lays ls text' [] := by
  -- the texts are compared behind their blanks: an operator takes the first of the blanks behind it,
  -- and what it leaves of them may be nothing on one side only
  induction ls generalizing text text' with
  | nil =>
      rw [lays_nil.1 hlays] at h
      refine lays_nil.2 ?_
      cases h' : afterBlanks text' with
      | nil => rfl
      | cons c more =>
          obtain heq | ⟨b, b', hb, -⟩ := h.head?
          · rw [h'] at heq
            cases heq
          · cases hb
  | cons l ls ih =>
      obtain ⟨next, hnext, hstops, hmore⟩ := lays_cons.1 hlays
      rw [hnext] at h
      have hoperand : ∀ o, l = .operator o → ∃ x more, afterBlanks next = x :: more ∧
          x ∈ operandStarts := by
        rintro o rfl
        obtain ⟨l', ls', rfl, hl'⟩ := hchain.exists_operand
        obtain ⟨x, more, hx, hstart⟩ := l'.head_of_opensOperand hl'
        obtain ⟨next', hnext'⟩ := hmore.exists_head
        exact ⟨x, more ++ next', by rw [hnext', hx]; rfl, hstart⟩
      obtain ⟨next', hnext', hstops', hrest, hspaced'⟩ :=
        h.of_lexeme hstops (Spaced.afterBlanks_iff.2 hspaced) hoperand
      exact .cons hnext' hstops' (ih hmore hchain.tail hrest hspaced')

/-- In a layout a space comes first behind each operator. -/
theorem Lays.spaced (hlays : Lays ls text []) (hchain : Chained ls) : Spaced text := by
  induction ls generalizing text with
  | nil =>
      rw [← Spaced.afterBlanks_iff, lays_nil.1 hlays]
      exact .nil
  | cons l ls ih =>
      obtain ⟨next, hnext, hstops, hmore⟩ := lays_cons.1 hlays
      rw [← Spaced.afterBlanks_iff, hnext]
      refine (ih hmore hchain.tail).lexeme hstops ?_
      rintro n rfl x hx
      cases ls with
      | nil =>
          rw [lays_nil.1 hmore] at hx
          cases hx
      | cons l' ls =>
          obtain ⟨next', hnext'⟩ := hmore.exists_head
          obtain ⟨y, more, hy, hnot⟩ := l'.exists_cons_of_followsName (hchain.followsName l' rfl)
          rw [hnext', hy] at hx
          exact Option.some.inj hx ▸ hnot

end ViewCompiler.Locator

namespace ViewCompiler

open Locator

/-- **An expression with other blanks denotes the same path exactly if a space comes first behind each
of its operators**; otherwise it is refused. -/
theorem Path.parse_respaced {expression expression' : String} {p : Path}
    (hparse : Path.parse expression = .ok p) (h : Respaced expression.toList expression'.toList) :
    (Path.parse expression' = .ok ⟨expression', p.absolute, p.steps⟩ ↔ Spaced expression'.toList) ∧
      (¬ Spaced expression'.toList → ∃ e, Path.parse expression' = .error e) := by
  obtain ⟨-, ls, hsentence, hlays⟩ := Path.parse_eq_ok_iff.1 hparse
  have hspaced : ∀ p', Path.parse expression' = .ok p' → Spaced expression'.toList := by
    intro p' hp'
    obtain ⟨-, ls', hsentence', hlays'⟩ := Path.parse_eq_ok_iff.1 hp'
    exact hlays'.spaced hsentence'.chained
  refine ⟨⟨hspaced _, fun hs => ?_⟩, fun hs => ?_⟩
  · exact Path.parse_eq_ok_iff.2
      ⟨rfl, ls, hsentence, hlays.respaced hsentence.chained h.afterBlanks hs⟩
  · cases hp' : Path.parse expression' with
    | ok p' => exact absurd (hspaced p' hp') hs
    | error e => exact ⟨e, rfl⟩

/-- An expression that is read is itself with other blanks. -/
theorem Path.respaced_of_parse {expression : String} {p : Path}
    (h : Path.parse expression = .ok p) : Respaced expression.toList expression.toList := by
  obtain ⟨-, ls, -, hlays⟩ := Path.parse_eq_ok_iff.1 h
  exact hlays.respaced_self

/-- The path to the elements `a` with one of two attributes. -/
def Path.eitherAttribute (expression : String) : Path where
  source := expression
  absolute := true
  steps := [⟨.descendant, .named "a", [.condition (.any [.attrExists "x", .attrExists "y"])]⟩]

theorem respaced_eitherAttribute (before before' behind behind' : List Char)
    (hbefore : Blanks before ∧ before ≠ []) (hbefore' : Blanks before' ∧ before' ≠ [])
    (hbehind : Blanks behind ∧ behind ≠ []) (hbehind' : Blanks behind' ∧ behind' ≠ []) :
    Respaced ("//a[@x".toList ++ (before ++ ("or".toList ++ (behind ++ "@y]".toList))))
      ("//a[@x".toList ++ (before' ++ ("or".toList ++ (behind' ++ "@y]".toList)))) := by
  have hlast : Respaced ("@y]".toList ++ []) ("@y]".toList ++ []) :=
    .plains (List.all_iff_forall_prop.1 rfl) .nil
  refine .plains (List.all_iff_forall_prop.1 rfl) (.blanks hbefore.1 hbefore'.1 hbefore.2 hbefore'.2 ?_ ?_)
  · exact fun c hc => Option.some.inj hc ▸ rfl
  refine .plains (List.all_iff_forall_prop.1 rfl) (.blanks hbehind.1 hbehind'.1 hbehind.2 hbehind'.2 ?_ hlast)
  exact fun c hc => Option.some.inj hc ▸ rfl

/-- The condition can be written over several lines. -/
theorem Path.parse_respaced_lines :
    Path.parse "//a[@x or @y]" = .ok (.eitherAttribute "//a[@x or @y]") ∧
      Path.parse "//a[@x\n\tor \n@y]" = .ok (.eitherAttribute "//a[@x\n\tor \n@y]") ∧
      Spaced "//a[@x\n\tor \n@y]".toList := by
  have hparse : Path.parse "//a[@x or @y]" = .ok (.eitherAttribute "//a[@x or @y]") := by
    decide +kernel
  have hlines : Path.parse "//a[@x\n\tor \n@y]" = .ok (.eitherAttribute "//a[@x\n\tor \n@y]") := by
    decide +kernel
  have hrespaced : Respaced "//a[@x or @y]".toList "//a[@x\n\tor \n@y]".toList :=
    respaced_eitherAttribute [' '] ['\n', '\t'] [' '] [' ', '\n']
      (by decide) (by decide) (by decide) (by decide)
  exact ⟨hparse, hlines, (Path.parse_respaced hparse hrespaced).1.1 hlines⟩

/-- With a tab behind its operator the expression is refused. -/
theorem Path.parse_tab_behind_operator :
    Path.parse "//a[@x or @y]" = .ok (.eitherAttribute "//a[@x or @y]") ∧
      Respaced "//a[@x or @y]".toList "//a[@x or\t@y]".toList ∧
      Path.parse "//a[@x or\t@y]" = .error ⟨"//a[@x or\t@y]", 7, .missingBracket⟩ := by
  refine ⟨by decide +kernel, ?_, by decide +kernel⟩
  exact respaced_eitherAttribute [' '] [' '] [' '] ['\t']
    (by decide) (by decide) (by decide) (by decide)

end ViewCompiler
