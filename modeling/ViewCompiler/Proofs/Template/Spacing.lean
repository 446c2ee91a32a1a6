/-
**How expressions are spaced.**

An expression is divided into strings, commas with the blanks behind them, and single characters.  A
string goes from a quote to the next equal quote that no backslash takes the meaning from, or to the
end of the text; so the division depends on the text alone.  Spacing an expression changes the blanks
behind commas and nothing else.  Since blanks outside strings open and close no string, the result is
divided as the expression was, and spacing it again changes nothing.

Main definitions:

* `ViewCompiler.InString`, `ViewCompiler.Unclosed` — what stands between the quotes of a string, and
  behind a quote that is not closed;
* `ViewCompiler.ExpressionPart`, `ViewCompiler.Divided` — the parts of an expression, and the
  division of a text into them;
* `ViewCompiler.respaced` — the parts with other blanks behind commas.

Main results:

* `ViewCompiler.Divided.unique`, `ViewCompiler.exists_divided`, `ViewCompiler.Divided.sourceOf_eq` —
  every text is divided in one way, into parts that make it up;
* `ViewCompiler.Divided.spaceCommas_eq` — spacing changes the blanks behind commas;
* `ViewCompiler.normalize_respaces` — **an expression without blanks at its ends, spaced**, and
  spaced only once.
-/

import Mathlib.Logic.ExistsUnique
import ViewCompiler.Proofs.Text.Padding
import ViewCompiler.Template.Expression

set_option relaxedAutoImplicit false
set_option autoImplicit false

namespace ViewCompiler

/-! ### Strings -/

/-- The characters that strings begin and end with. -/
def isQuote (c : Char) : Bool :=
  c = '"' || c = '\''

/-- What stands between the quotes of a string: no such quote, unless behind a backslash, which
keeps the character behind it from meaning anything. -/
inductive InString (quote : Char) : List Char → Prop where
  | nil : InString quote []
  | char {c : Char} {text : List Char} (hquote : c ≠ quote) (hescape : c ≠ '\\')
      (h : InString quote text) : InString quote (c :: text)
  | escaped (c : Char) {text : List Char} (h : InString quote text) :
      InString quote ('\\' :: c :: text)

/-- What stands behind a quote that is not closed; the last character may be a backslash. -/
def Unclosed (quote : Char) (text : List Char) : Prop :=
  InString quote text ∨ ∃ front, InString quote front ∧ text = front ++ ['\\']

theorem ne_backslash_of_isQuote {quote : Char} (h : isQuote quote = true) : quote ≠ '\\' := by
  rintro rfl
  exact absurd h (by decide)

/-- Where a string ends: what stands between its quotes, and what stands behind it. -/
def stringEnd? (quote : Char) : List Char → Option (List Char × List Char)
  | [] => none
  | '\\' :: c :: text => (stringEnd? quote text).map fun p => ('\\' :: c :: p.1, p.2)
  | c :: text =>
      if c = quote then some ([], text)
      else (stringEnd? quote text).map fun p => (c :: p.1, p.2)

theorem stringEnd?_cons {quote c : Char} (h : c ≠ '\\') (text : List Char) :
    stringEnd? quote (c :: text) =
      if c = quote then some ([], text)
      else (stringEnd? quote text).map fun p => (c :: p.1, p.2) := by
  rw [stringEnd?]
  rintro d more rfl
  exact absurd rfl h

variable {quote : Char} {inner text : List Char}

/-- A string ends with the first quote that ends it. -/
theorem InString.stringEnd?_append (h : InString quote inner) (hquote : isQuote quote = true)
    (rest : List Char) : stringEnd? quote (inner ++ quote :: rest) = some (inner, rest) := by
  induction h with
  | nil =>
      rw [List.nil_append, stringEnd?_cons (ne_backslash_of_isQuote hquote), if_pos rfl]
  | char hne hescape _ ih =>
      rw [List.cons_append, stringEnd?_cons hescape, if_neg hne, ih]
      rfl
  | escaped c _ ih =>
      rw [List.cons_append, List.cons_append, stringEnd?, ih]
      rfl

theorem InString.stringEnd?_eq_none (h : InString quote inner) {rest : List Char}
    (hrest : stringEnd? quote rest = none) : stringEnd? quote (inner ++ rest) = none := by
  induction h with
  | nil => exact hrest
  | char hne hescape _ ih =>
      rw [List.cons_append, stringEnd?_cons hescape, if_neg hne, ih]
      rfl
  | escaped c _ ih =>
      rw [List.cons_append, List.cons_append, stringEnd?, ih]
      rfl

theorem Unclosed.stringEnd?_eq_none (h : Unclosed quote text) (hquote : isQuote quote = true) :
    stringEnd? quote text = none := by
  rcases h with h | ⟨front, hfront, rfl⟩
  · rw [← List.append_nil text]
    exact h.stringEnd?_eq_none rfl
  · refine hfront.stringEnd?_eq_none ?_
    rw [stringEnd?, if_neg (ne_backslash_of_isQuote hquote).symm]
    · rfl
    · rintro c more - hmore
      cases hmore

/-- A string ends somewhere, or it is not closed. -/
theorem string_ends (quote : Char) (text : List Char) :
    (∃ inner rest, InString quote inner ∧ text = inner ++ quote :: rest) ∨
      Unclosed quote text := by
  fun_induction stringEnd? quote text with
  | case1 => exact .inr (.inl .nil)
  | case2 c text ih =>
      rcases ih with ⟨inner, rest, hinner, rfl⟩ | hinner | ⟨front, hfront, rfl⟩
      · exact .inl ⟨'\\' :: c :: inner, rest, .escaped c hinner, rfl⟩
      · exact .inr (.inl (.escaped c hinner))
      · exact .inr (.inr ⟨'\\' :: c :: front, .escaped c hfront, rfl⟩)
  | case3 text => exact .inl ⟨[], text, .nil, rfl⟩
  | case4 c text hlast hne ih =>
      by_cases hescape : c = '\\'
      · -- the text ends with this backslash
        cases text with
        | nil => exact .inr (.inr ⟨[], .nil, by rw [hescape]; rfl⟩)
        | cons d more => exact (hlast d more hescape rfl).elim
      · rcases ih with ⟨inner, rest, hinner, rfl⟩ | hinner | ⟨front, hfront, rfl⟩
        · exact .inl ⟨c :: inner, rest, .char hne hescape hinner, rfl⟩
        · exact .inr (.inl (.char hne hescape hinner))
        · exact .inr (.inr ⟨c :: front, .char hne hescape hfront, rfl⟩)

/-! ### Parts -/

/-- A part of an expression. -/
inductive ExpressionPart where
  /-- A character outside strings that is no comma. -/
  | plain (c : Char)
  /-- A string with its quotes. -/
  | string (text : List Char)
  /-- A comma outside strings with the blanks behind it. -/
  | comma (blanks : List Char)
  deriving DecidableEq, Repr

/-- The text of a part. -/
def ExpressionPart.source : ExpressionPart → List Char
  | .plain c => [c]
  | .string text => text
  | .comma blanks => ',' :: blanks

/-- The parts that a text is divided into. -/
inductive Divided : List ExpressionPart → List Char → Prop where
  | nil : Divided [] []
  | plain {c : Char} {parts : List ExpressionPart} {rest : List Char}
      (hquote : isQuote c = false) (hcomma : c ≠ ',') (h : Divided parts rest) :
      Divided (.plain c :: parts) (c :: rest)
  | string {quote : Char} {inner : List Char} {parts : List ExpressionPart} {rest : List Char}
      (hquote : isQuote quote = true) (hinner : InString quote inner) (h : Divided parts rest) :
      Divided (.string (quote :: (inner ++ [quote])) :: parts) (quote :: (inner ++ quote :: rest))
  /-- A string that is not closed goes to the end. -/
  | unclosed {quote : Char} {inner : List Char} (hquote : isQuote quote = true)
      (hinner : Unclosed quote inner) :
      Divided [.string (quote :: inner)] (quote :: inner)
  /-- All blanks behind a comma are part of it. -/
  | comma {blanks : List Char} {parts : List ExpressionPart} {rest : List Char}
      (hblanks : ∀ c ∈ blanks, isBlank c = true) (hrest : ∀ c ∈ rest.head?, isBlank c = false)
      (h : Divided parts rest) :
      Divided (.comma blanks :: parts) (',' :: (blanks ++ rest))

/-- The first part of a text, and what stands behind it. -/
def firstPart? : List Char → Option (ExpressionPart × List Char)
  | [] => none
  | c :: text =>
      if isQuote c then
        match stringEnd? c text with
        | some (inner, rest) => some (.string (c :: (inner ++ [c])), rest)
        | none => some (.string (c :: text), [])
      else if c = ',' then some (.comma (text.takeWhile isBlank), text.dropWhile isBlank)
      else some (.plain c, text)

namespace Divided

variable {parts others : List ExpressionPart} {p : ExpressionPart}

/-- Nothing is divided into no parts. -/
theorem eq_nil_iff (h : Divided parts text) : parts = [] ↔ text = [] := by
  cases h <;> simp

/-- The first part can be read off the text. -/
theorem firstPart?_eq (h : Divided (p :: parts) text) :
    ∃ rest, firstPart? text = some (p, rest) ∧ Divided parts rest := by
  cases h with
  | plain hquote hcomma h =>
      exact ⟨_, by rw [firstPart?, if_neg (by simp [hquote]), if_neg hcomma], h⟩
  | string hquote hinner h =>
      exact ⟨_, by rw [firstPart?, if_pos hquote, hinner.stringEnd?_append hquote], h⟩
  | unclosed hquote hinner =>
      exact ⟨[], by rw [firstPart?, if_pos hquote, hinner.stringEnd?_eq_none hquote], .nil⟩
  | comma hblanks hrest h =>
      refine ⟨_, ?_, h⟩
      rw [firstPart?, if_neg (by decide), if_pos rfl, takeWhile_append_of_head hblanks hrest,
        dropWhile_append_of_head hblanks hrest]

/-- **A text is divided in one way.** -/
theorem unique (h : Divided parts text) (h' : Divided others text) : parts = others := by
  induction parts generalizing others text with
  | nil => exact (h'.eq_nil_iff.2 (h.eq_nil_iff.1 rfl)).symm
  | cons p parts ih =>
      cases others with
      | nil => exact absurd (h.eq_nil_iff.2 (h'.eq_nil_iff.1 rfl)) (by simp)
      | cons q others =>
          obtain ⟨rest, hfirst, hbehind⟩ := h.firstPart?_eq
          obtain ⟨rest', hfirst', hbehind'⟩ := h'.firstPart?_eq
          obtain ⟨rfl, rfl⟩ := Prod.mk.inj (Option.some.inj (hfirst.symm.trans hfirst'))
          rw [ih hbehind hbehind']

end Divided

/-- **Every text is divided into parts.** -/
theorem exists_divided (text : List Char) : ∃ parts, Divided parts text := by
  induction hlength : text.length using Nat.strongRecOn generalizing text with
  | _ n ih =>
      cases text with
      | nil => exact ⟨[], .nil⟩
      | cons c text =>
          by_cases hquote : isQuote c = true
          · rcases string_ends c text with ⟨inner, rest, hinner, rfl⟩ | hinner
            · obtain ⟨parts, hparts⟩ := ih rest.length (by simp at hlength; omega) rest rfl
              exact ⟨_, .string hquote hinner hparts⟩
            · exact ⟨_, .unclosed hquote hinner⟩
          by_cases hcomma : c = ','
          · have hshorter := Cursor.length_dropWhile_le isBlank text
            obtain ⟨parts, hparts⟩ := ih (text.dropWhile isBlank).length
              (by simp at hlength; omega) _ rfl
            have hblanks : ∀ d ∈ text.takeWhile isBlank, isBlank d = true :=
              List.all_eq_true.1 List.all_takeWhile
            have hdivided := Divided.comma hblanks (head_dropWhile isBlank text) hparts
            rw [List.takeWhile_append_dropWhile] at hdivided
            exact ⟨_, hcomma ▸ hdivided⟩
          · obtain ⟨parts, hparts⟩ := ih text.length (by simp at hlength; omega) text rfl
            exact ⟨_, .plain (by simpa using hquote) hcomma hparts⟩

/-! ### Other blanks -/

/-- One space behind every comma, and nothing behind one that comes last. -/
def respaced : List ExpressionPart → List ExpressionPart
  | [] => []
  | .comma _ :: parts => .comma (if parts = [] then [] else [' ']) :: respaced parts
  | .plain c :: parts => .plain c :: respaced parts
  | .string text :: parts => .string text :: respaced parts

/-- The text of parts one after the other. -/
def sourceOf (parts : List ExpressionPart) : List Char :=
  parts.flatMap ExpressionPart.source

@[simp] theorem respaced_eq_nil_iff {parts : List ExpressionPart} :
    respaced parts = [] ↔ parts = [] := by
  cases parts with
  | nil => simp [respaced]
  | cons p parts => cases p <;> simp [respaced]

/-- Respacing twice is respacing once. -/
theorem respaced_respaced (parts : List ExpressionPart) :
    respaced (respaced parts) = respaced parts := by
  induction parts with
  | nil => rfl
  | cons p parts ih => cases p <;> simp [respaced, ih]

theorem sourceOf_cons (p : ExpressionPart) (parts : List ExpressionPart) :
    sourceOf (p :: parts) = p.source ++ sourceOf parts :=
  List.flatMap_cons

namespace Divided

variable {parts : List ExpressionPart}

/-- The parts make up the text. -/
theorem sourceOf_eq (h : Divided parts text) : sourceOf parts = text := by
  induction h with
  | nil => rfl
  | plain _ _ _ ih => rw [sourceOf_cons, ih]; rfl
  | string _ _ _ ih => rw [sourceOf_cons, ih]; simp [ExpressionPart.source]
  | unclosed => rw [sourceOf_cons]; exact List.append_nil _
  | comma _ _ _ ih => rw [sourceOf_cons, ih]; rfl

/-- Respacing keeps the first character. -/
theorem head?_respaced (h : Divided parts text) :
    (sourceOf (respaced parts)).head? = text.head? := by
  cases h <;> rfl

/-- Respacing keeps the last character, unless it is a blank behind a comma. -/
theorem getLast?_respaced (h : Divided parts text)
    (hlast : ∀ c ∈ text.getLast?, isBlank c = false) :
    (sourceOf (respaced parts)).getLast? = text.getLast? := by
  -- what ends behind a first part ends the whole text
  have hbehind : ∀ (front : List Char) {rest : List Char},
      (∀ c ∈ (front ++ rest).getLast?, isBlank c = false) →
        ∀ c ∈ rest.getLast?, isBlank c = false := by
    intro front rest hends c hc
    refine hends c ?_
    rw [List.getLast?_append, hc]
    rfl
  induction h with
  | nil => rfl
  | @plain c _ rest hquote hcomma h ih =>
      have hends := ih (hbehind [c] hlast)
      rw [respaced, sourceOf_cons, List.getLast?_append, hends]
      exact List.getLast?_append.symm
  | @string quote inner _ rest hquote hinner h ih =>
      have hends := ih (hbehind (quote :: (inner ++ [quote])) (by simpa using hlast))
      rw [respaced, sourceOf_cons, List.getLast?_append, hends, ← List.getLast?_append]
      simp [ExpressionPart.source]
  | unclosed hquote hinner => exact congrArg List.getLast? (List.append_nil _)
  | @comma blanks parts rest hblanks hrest h ih =>
      rw [respaced, sourceOf_cons, List.getLast?_append]
      cases hlist : rest.getLast? with
      | some d =>
          have hends := ih (hbehind (',' :: blanks) hlast)
          rw [hends, hlist, ← List.cons_append, List.getLast?_append, hlist]
          rfl
      | none =>
          -- the comma comes last, so there is no blank behind it
          obtain rfl := List.getLast?_eq_none_iff.1 hlist
          obtain rfl := h.eq_nil_iff.2 rfl
          have hnone : blanks = [] := by
            rcases List.eq_nil_or_concat blanks with hnil | ⟨front, d, rfl⟩
            · exact hnil
            · have hends : (',' :: (front.concat d ++ [])).getLast? = some d := by
                rw [List.append_nil, List.concat_eq_append, ← List.cons_append,
                  List.getLast?_concat]
              have hblank := hblanks d (by simp)
              rw [hlast d hends] at hblank
              cases hblank
          rw [hnone]
          rfl

/-- What is divided into parts is divided, after respacing, into the respaced parts. -/
theorem respaced (h : Divided parts text) :
    Divided (respaced parts) (sourceOf (ViewCompiler.respaced parts)) := by
  induction h with
  | nil => exact .nil
  | plain hquote hcomma h ih => exact .plain hquote hcomma ih
  | string hquote hinner h ih =>
      rw [ViewCompiler.respaced, sourceOf_cons]
      simpa [ExpressionPart.source] using Divided.string hquote hinner ih
  | unclosed hquote hinner =>
      rw [ViewCompiler.respaced, sourceOf_cons]
      simpa [ExpressionPart.source, ViewCompiler.respaced, sourceOf] using
        Divided.unclosed hquote hinner
  | comma hblanks hrest h ih =>
      rw [ViewCompiler.respaced, sourceOf_cons]
      refine .comma ?_ ?_ ih
      · split
        · simp
        · simp; decide
      · rw [h.head?_respaced]
        exact hrest

end Divided

/-! ### The scanner -/

theorem spaceCommas_quoted_cons {c : Char} (h : c ≠ '\\') (rest : List Char) :
    spaceCommas (.quoted quote) (c :: rest) =
      c :: spaceCommas (if c = quote then .plain else .quoted quote) rest := by
  rw [spaceCommas]
  rintro d more rfl
  exact absurd rfl h

/-- In a string nothing changes up to its end. -/
theorem InString.spaceCommas_append (h : InString quote inner) (rest : List Char) :
    spaceCommas (.quoted quote) (inner ++ rest) = inner ++ spaceCommas (.quoted quote) rest := by
  induction h with
  | nil => rfl
  | char hne hescape h ih =>
      rw [List.cons_append, spaceCommas_quoted_cons hescape, if_neg hne, ih]
      rfl
  | escaped c _ ih =>
      rw [List.cons_append, List.cons_append, spaceCommas, ih]
      rfl

theorem Unclosed.spaceCommas_eq (h : Unclosed quote text) :
    spaceCommas (.quoted quote) text = text := by
  rcases h with h | ⟨front, hfront, rfl⟩
  · have hscan := h.spaceCommas_append []
    rw [List.append_nil] at hscan
    simpa [spaceCommas] using hscan
  · rw [hfront.spaceCommas_append]
    simp [spaceCommas]

/-- Blanks behind a comma are dropped. -/
theorem spaceCommas_comma_append {blanks : List Char} (h : ∀ c ∈ blanks, isBlank c = true)
    (rest : List Char) : spaceCommas .comma (blanks ++ rest) = spaceCommas .comma rest := by
  induction blanks with
  | nil => rfl
  | cons c blanks ih =>
      obtain ⟨hc, hblanks⟩ := List.forall_mem_cons.1 h
      rw [List.cons_append, spaceCommas, if_pos hc, ih hblanks]

/-- The first character behind a comma that is no blank comes behind a space. -/
theorem spaceCommas_comma_cons {c : Char} (h : isBlank c = false) (rest : List Char) :
    spaceCommas .comma (c :: rest) = ' ' :: spaceCommas .plain (c :: rest) := by
  simp [spaceCommas, h]

/-- **Spacing changes the blanks behind commas.** -/
theorem Divided.spaceCommas_eq {parts : List ExpressionPart} (h : Divided parts text) :
    spaceCommas .plain text = sourceOf (ViewCompiler.respaced parts) := by
  induction h with
  | nil => rfl
  | @plain c _ _ hquote hcomma h ih =>
      have hafter : Spacing.after c = .plain := by
        simp only [isQuote] at hquote
        rw [Spacing.after, if_neg (by simp [hquote]), if_neg hcomma]
      rw [spaceCommas, hafter, ih, ViewCompiler.respaced, sourceOf_cons]
      rfl
  | @string quote inner _ rest hquote hinner h ih =>
      have hafter : Spacing.after quote = .quoted quote := if_pos hquote
      rw [spaceCommas, hafter, hinner.spaceCommas_append,
        spaceCommas_quoted_cons (ne_backslash_of_isQuote hquote), if_pos rfl, ih,
        ViewCompiler.respaced, sourceOf_cons]
      simp [ExpressionPart.source]
  | @unclosed quote inner hquote hinner =>
      have hafter : Spacing.after quote = .quoted quote := if_pos hquote
      rw [spaceCommas, hafter, hinner.spaceCommas_eq, ViewCompiler.respaced, sourceOf_cons]
      exact (List.append_nil _).symm
  | @comma blanks parts rest hblanks hrest h ih =>
      have hafter : Spacing.after ',' = .comma := by decide
      rw [spaceCommas, hafter, spaceCommas_comma_append hblanks, ViewCompiler.respaced,
        sourceOf_cons]
      cases rest with
      | nil =>
          obtain rfl := h.eq_nil_iff.2 rfl
          rfl
      | cons c rest =>
          have hparts : parts ≠ [] := fun heq => by cases h.eq_nil_iff.1 heq
          rw [spaceCommas_comma_cons (hrest c rfl), ih, if_neg hparts]
          rfl

/-! ### Expressions -/

/-- **A normalized expression** is the trimmed one, in its only division into strings, commas and
other characters, with one space behind every comma, or nothing behind one that comes last.
Normalizing it again changes nothing. -/
theorem normalize_respaces (expression : String) :
    (∃! parts, Divided parts (trim expression.toList)) ∧
      (∃ parts, Divided parts (trim expression.toList) ∧
        (normalize expression).toList = sourceOf (respaced parts)) ∧
      normalize (normalize expression) = normalize expression := by
  obtain ⟨parts, hparts⟩ := exists_divided (trim expression.toList)
  have hnormalize : (normalize expression).toList = sourceOf (respaced parts) := by
    rw [normalize, String.toList_ofList, normalizeChars, hparts.spaceCommas_eq]
  have htrimmed : trim (sourceOf (respaced parts)) = sourceOf (respaced parts) := by
    refine trim_eq_self ?_ ?_
    · rw [hparts.head?_respaced]
      exact head_trim _
    · rw [hparts.getLast?_respaced (getLast_trim _)]
      exact getLast_trim _
  refine ⟨⟨parts, hparts, fun _ hother => hother.unique hparts⟩, ⟨parts, hparts, hnormalize⟩, ?_⟩
  rw [← String.toList_inj, hnormalize, normalize, String.toList_ofList, normalizeChars, hnormalize,
    htrimmed, hparts.respaced.spaceCommas_eq, respaced_respaced]

/-- A comma in a string, one in front of an escaped quote, and one at the end. -/
example : normalize " f('a,  \\', b' ,  c,d) ,\n" = "f('a,  \\', b' , c, d) ," := by decide +kernel

end ViewCompiler
