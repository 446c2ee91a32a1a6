/-
**Spellings of literals.**

A literal can be spelled in many ways: a string in either quote, a word in either case, blanks
between all tokens, a comma behind the last element or none.  Here the spellings are described as a
grammar, apart from how literals are read, and reading is shown to go back from every spelling to
the literal.  The texts of numbers are left open: a text will do if it is read as a whole or
refused, and one that is refused is all that can keep a spelling from being read.

Main definitions:

* `ViewCompiler.Spells` — a text spells a literal, elements or entries, its numbers in given texts;
* `ViewCompiler.Literal.Printed` — the same with blanks around it;
* `ViewCompiler.Literal.numbers` — the texts of the numbers in a literal.

Main results:

* `ViewCompiler.Spells.isRead` — what is read of a spelling in front of anything else;
* `ViewCompiler.Literal.Printed.parse_eq` — what is read of a whole text;
* `ViewCompiler.Literal.exists_printed` — every literal has a spelling.
-/

import ViewCompiler.Proofs.Template.Numerals

set_option relaxedAutoImplicit false
set_option autoImplicit false

namespace ViewCompiler

open LiteralReader

/-! ### The grammar -/

/-- A character in a string: backslashes and the quote of the string are escaped. -/
def escapedIn (quote c : Char) : List Char :=
  if c = quote ∨ c = '\\' then ['\\', c] else [c]

/-- A string in quotes. -/
def inQuotes (quote : Char) (text : List Char) : List Char :=
  quote :: (text.flatMap (escapedIn quote) ++ [quote])

/-- The text holds only the blanks that may stand between tokens. -/
def Blanks (text : List Char) : Prop :=
  ∀ c ∈ text, isAsciiBlank c = true

instance (text : List Char) : Decidable (Blanks text) :=
  List.decidableBAll _ text

/-- The words for a literal. -/
def Literal.words : Literal → List String
  | .bool true => ["True", "true"]
  | .bool false => ["False", "false"]
  | .none => ["None", "null"]
  | _ => []

/-- What a stretch of text stands for: a literal, the elements between brackets, or the entries
between braces. -/
inductive Phrase where
  | value (v : Literal)
  | items (vs : List Literal)
  | entries (es : List (Literal × Literal))

/-- The text spells the phrase, with texts for the numbers that `numeral` admits. -/
inductive Spells (numeral : String → Prop) : Phrase → List Char → Prop where
  | str (quote : Char) (hquote : quote = '\'' ∨ quote = '"') (s : String) :
      Spells numeral (.value (.str s)) (inQuotes quote s.toList)
  | number (s : String) (hs : numeral s) : Spells numeral (.value (.number s)) s.toList
  | word (v : Literal) (w : String) (hw : w ∈ v.words) : Spells numeral (.value v) w.toList
  | list {vs : List Literal} {text : List Char} (h : Spells numeral (.items vs) text) :
      Spells numeral (.value (.list vs)) ('[' :: (text ++ [']']))
  | tuple {vs : List Literal} {text : List Char} (h : Spells numeral (.items vs) text) :
      Spells numeral (.value (.tuple vs)) ('(' :: (text ++ [')']))
  | map {es : List (Literal × Literal)} {text : List Char} (h : Spells numeral (.entries es) text) :
      Spells numeral (.value (.map es)) ('\x7b' :: (text ++ ['\x7d']))
  | noItem {blanks : List Char} (hblanks : Blanks blanks) : Spells numeral (.items []) blanks
  | lastItem {v : Literal} {text before after : List Char} (h : Spells numeral (.value v) text)
      (hbefore : Blanks before) (hafter : Blanks after) :
      Spells numeral (.items [v]) (before ++ (text ++ after))
  | item {v : Literal} {vs : List Literal} {text more before after : List Char}
      (h : Spells numeral (.value v) text) (hmore : Spells numeral (.items vs) more)
      (hbefore : Blanks before) (hafter : Blanks after) :
      Spells numeral (.items (v :: vs)) (before ++ (text ++ (after ++ ',' :: more)))
  | noEntry {blanks : List Char} (hblanks : Blanks blanks) : Spells numeral (.entries []) blanks
  | lastEntry {k v : Literal} {key text before behind between after : List Char}
      (hkey : Spells numeral (.value k) key) (h : Spells numeral (.value v) text)
      (hbefore : Blanks before) (hbehind : Blanks behind) (hbetween : Blanks between)
      (hafter : Blanks after) :
      Spells numeral (.entries [(k, v)])
        (before ++ (key ++ (behind ++ ':' :: (between ++ (text ++ after)))))
  | entry {k v : Literal} {es : List (Literal × Literal)}
      {key text more before behind between after : List Char}
      (hkey : Spells numeral (.value k) key) (h : Spells numeral (.value v) text)
      (hmore : Spells numeral (.entries es) more)
      (hbefore : Blanks before) (hbehind : Blanks behind) (hbetween : Blanks between)
      (hafter : Blanks after) :
      Spells numeral (.entries ((k, v) :: es))
        (before ++ (key ++ (behind ++ ':' :: (between ++ (text ++ (after ++ ',' :: more))))))

/-- The text spells the literal, with blanks around it. -/
def Literal.Printed (numeral : String → Prop) (v : Literal) (text : String) : Prop :=
  ∃ before body after, Blanks before ∧ Spells numeral (.value v) body ∧ Blanks after ∧
    text.toList = before ++ (body ++ after)

mutual

/-- The texts of the numbers in a literal. -/
def Literal.numbers : Literal → List String
  | .number s => [s]
  | .list vs => numbersOfItems vs
  | .tuple vs => numbersOfItems vs
  | .map es => numbersOfEntries es
  | .str _ | .bool _ | .none => []

def numbersOfItems : List Literal → List String
  | [] => []
  | v :: more => v.numbers ++ numbersOfItems more

def numbersOfEntries : List (Literal × Literal) → List String
  | [] => []
  | (k, v) :: more => k.numbers ++ v.numbers ++ numbersOfEntries more

end

def Phrase.numbers : Phrase → List String
  | value v => v.numbers
  | items vs => numbersOfItems vs
  | entries es => numbersOfEntries es

/-- All numbers of the phrase are read. -/
def Phrase.readable (p : Phrase) : Bool :=
  p.numbers.all fun s => isNumberText s.toList

/-! ### Tokens -/

/-- A character that can stand neither in front of a value nor at its start: a blank, or the end of
a bracket. -/
def Skipped (c : Char) : Prop :=
  isAsciiBlank c = true ∨ c = ']' ∨ c = ')' ∨ c = '\x7d'

instance (c : Char) : Decidable (Skipped c) :=
  inferInstanceAs (Decidable (_ ∨ _ ∨ _ ∨ _))

/-- No value goes on with the text. -/
def ValueEnds (rest : List Char) : Prop :=
  ∀ c ∈ rest.head?, isWordChar c = false ∧ c ≠ '.'

theorem isWordChar_of_isAsciiBlank {c : Char} (h : isAsciiBlank c = true) :
    isWordChar c = false ∧ c ≠ '.' := by
  simp only [isAsciiBlank, Bool.or_eq_true, decide_eq_true_eq] at h
  rcases h with (((rfl | rfl) | rfl) | rfl) | rfl <;> decide

theorem Blanks.valueEnds {blanks : List Char} (h : Blanks blanks) : ValueEnds blanks := by
  intro c hc
  exact isWordChar_of_isAsciiBlank (h c (List.mem_of_mem_head? hc))

/-- A value ends in front of blanks and a character that no value goes on with. -/
theorem Blanks.valueEnds_append {blanks : List Char} (h : Blanks blanks) {c : Char}
    (hc : isWordChar c = false ∧ c ≠ '.') (rest : List Char) : ValueEnds (blanks ++ c :: rest) := by
  cases blanks with
  | nil =>
      intro x hx
      obtain rfl : c = x := Option.some.inj hx
      exact hc
  | cons b blanks =>
      intro x hx
      obtain rfl : b = x := Option.some.inj hx
      exact isWordChar_of_isAsciiBlank (h b List.mem_cons_self)

theorem ValueEnds.numberEnds {rest : List Char} (h : ValueEnds rest) : NumberEnds rest := by
  intro c hc
  obtain ⟨hword, hpoint⟩ := h c hc
  rw [Bool.eq_false_iff]
  intro hnumber
  simp only [isNumberChar, Bool.or_eq_true, decide_eq_true_eq] at hnumber
  rcases hnumber with (((hdigit | rfl) | rfl) | rfl) | rfl
  · simp [isWordChar, Char.isAlphanum, hdigit] at hword
  · exact hpoint rfl
  · cases hword
  · cases hword
  · cases hword

theorem token_append {blanks : List Char} (h : Blanks blanks) {c : Char}
    (hc : isAsciiBlank c = false) (rest : List Char) :
    token (blanks ++ c :: rest) = c :: rest := by
  refine dropWhile_append_of_head h fun x hx => ?_
  obtain rfl : c = x := Option.some.inj hx
  exact hc

theorem eat?_append {blanks : List Char} (h : Blanks blanks) {c : Char}
    (hc : isAsciiBlank c = false) (rest : List Char) :
    eat? c (blanks ++ c :: rest) = some rest := by
  rw [eat?, token_append h hc]
  exact if_pos rfl

theorem eat?_eq_none {blanks : List Char} (h : Blanks blanks) {c d : Char}
    (hd : isAsciiBlank d = false) (hne : d ≠ c) (rest : List Char) :
    eat? c (blanks ++ d :: rest) = none := by
  rw [eat?, token_append h hd]
  exact if_neg hne

/-! ### Strings and words -/

theorem string_close (quote : Char) (rest : List Char) :
    string quote (quote :: rest) = .ok ([], rest) := by
  rw [string.eq_def]
  exact if_pos rfl

theorem string_escaped {quote c : Char} (hquote : '\\' ≠ quote) (hc : c.toNat < 128)
    (rest : List Char) : string quote ('\\' :: c :: rest) =
      (string quote rest).map fun r => (unescaped c :: r.1, r.2) := by
  rw [string.eq_def]
  dsimp only
  rw [if_neg hquote, if_pos rfl, if_pos hc]

theorem string_plain {quote c : Char} (hquote : c ≠ quote) (hc : c ≠ '\\') (rest : List Char) :
    string quote (c :: rest) = (string quote rest).map fun r => (c :: r.1, r.2) := by
  rw [string.eq_def]
  dsimp only
  rw [if_neg hquote, if_neg hc]

/-- The content of a string is read back. -/
theorem string_inQuotes {quote : Char} (hquote : quote = '\'' ∨ quote = '"')
    (text rest : List Char) :
    string quote (text.flatMap (escapedIn quote) ++ quote :: rest) = .ok (text, rest) := by
  have hslash : '\\' ≠ quote := by rcases hquote with rfl | rfl <;> decide
  induction text with
  | nil => exact string_close quote rest
  | cons c text ih =>
      rw [List.flatMap_cons, List.append_assoc, escapedIn]
      split
      · next hc =>
          have hunescaped : unescaped c = c ∧ c.toNat < 128 := by
            rcases hc with rfl | rfl
            · rcases hquote with rfl | rfl <;> decide
            · decide
          rw [List.cons_append, List.singleton_append, string_escaped hslash hunescaped.2, ih,
            hunescaped.1]
          rfl
      · next hc =>
          rw [not_or] at hc
          rw [List.singleton_append, string_plain hc.1 hc.2, ih]
          rfl

/-- A word as it is read: a keyword of characters of words, the first of them a letter, with which
no number starts. -/
structure IsKeyword (w : String) (v : Literal) : Prop where
  find?_eq : keywords.find? (·.1 = w) = some (w, v)
  isWordChar : ∀ c ∈ w.toList, isWordChar c = true
  starts : ∃ c more, w.toList = c :: more ∧ c.isAlpha = true ∧ startsNumber c = false

/-- Every word for a literal is a keyword. -/
theorem isKeyword_of_mem_words {v : Literal} {w : String} (hw : w ∈ v.words) : IsKeyword w v := by
  cases v with
  | bool b =>
      cases b
      all_goals
        simp only [Literal.words, List.mem_cons, List.not_mem_nil, or_false] at hw
        rcases hw with rfl | rfl
        all_goals exact ⟨by simp [keywords], List.all_eq_true.1 rfl, _, _, rfl, rfl, rfl⟩
  | none =>
      simp only [Literal.words, List.mem_cons, List.not_mem_nil, or_false] at hw
      rcases hw with rfl | rfl
      all_goals exact ⟨by simp [keywords], List.all_eq_true.1 rfl, _, _, rfl, rfl, rfl⟩
  | str _ | number _ | list _ | tuple _ | map _ => cases hw

theorem Literal.numbers_of_mem_words {v : Literal} {w : String} (hw : w ∈ v.words) :
    v.numbers = [] := by
  cases v with
  | bool _ | none => rfl
  | str _ | number _ | list _ | tuple _ | map _ => cases hw

theorem keyword_word {v : Literal} {w : String} (hw : w ∈ v.words) {rest : List Char}
    (hrest : ValueEnds rest) : keyword (w.toList ++ rest) = .ok (v, rest) := by
  have hends : ∀ c ∈ rest.head?, isWordChar c = false := fun c hc => (hrest c hc).1
  have hkeyword := isKeyword_of_mem_words hw
  simp only [keyword, takeWhile_append_of_head hkeyword.isWordChar hends,
    dropWhile_append_of_head hkeyword.isWordChar hends, String.ofList_toList, hkeyword.find?_eq]

/-! ### Values -/

section Heads

variable {blanks : List Char} (hblanks : Blanks blanks) (bound : Nat) (rest : List Char)
include hblanks

theorem value_quote {quote : Char} (hquote : quote = '\'' ∨ quote = '"') :
    value (bound + 1) (blanks ++ quote :: rest) =
      (string quote rest).map fun r => (.str (.ofList r.1), r.2) := by
  have hblank : isAsciiBlank quote = false := by rcases hquote with rfl | rfl <;> rfl
  have hbranch : (quote = '\'' || quote = '"') = true := by simpa using hquote
  rw [value, token_append hblanks hblank]
  exact if_pos hbranch

theorem value_square :
    value (bound + 1) (blanks ++ '[' :: rest) =
      (items bound ']' rest).map fun r => (.list r.1, r.2) := by
  rw [value, token_append hblanks rfl]
  rfl

theorem value_round :
    value (bound + 1) (blanks ++ '(' :: rest) =
      (items bound ')' rest).map fun r => (.tuple r.1, r.2) := by
  rw [value, token_append hblanks rfl]
  rfl

theorem value_brace :
    value (bound + 1) (blanks ++ '\x7b' :: rest) =
      (entries bound rest).map fun r => (.map r.1, r.2) := by
  rw [value, token_append hblanks rfl]
  rfl

theorem value_number {c : Char} (hc : startsNumber c = true) :
    value (bound + 1) (blanks ++ c :: rest) = number (c :: rest) := by
  have hquote : (c = '\'' || c = '"') = false := by
    rw [decide_eq_false (ne_of_class hc rfl), decide_eq_false (ne_of_class hc rfl), Bool.or_false]
  rw [value, token_append hblanks (isAsciiBlank_of_class hc rfl)]
  dsimp only
  rw [hquote, if_neg Bool.false_ne_true, if_neg (ne_of_class hc rfl), if_neg (ne_of_class hc rfl),
    if_neg (ne_of_class hc rfl)]
  exact if_pos hc

theorem value_letter {c : Char} (hc : c.isAlpha = true) (hnumber : startsNumber c = false) :
    value (bound + 1) (blanks ++ c :: rest) = keyword (c :: rest) := by
  have hquote : (c = '\'' || c = '"') = false := by
    rw [decide_eq_false (ne_of_class hc rfl), decide_eq_false (ne_of_class hc rfl), Bool.or_false]
  rw [value, token_append hblanks (isAsciiBlank_of_class hc rfl)]
  dsimp only
  rw [hquote, if_neg Bool.false_ne_true, if_neg (ne_of_class hc rfl), if_neg (ne_of_class hc rfl),
    if_neg (ne_of_class hc rfl)]
  exact if_neg (by rw [← startsNumber, hnumber]; exact Bool.false_ne_true)

end Heads

/-- The first character of a spelling. -/
theorem Spells.exists_cons {numeral : String → Prop} (hnumeral : ∀ s, numeral s → Numeral s)
    {v : Literal} {text : List Char} (h : Spells numeral (.value v) text) :
    ∃ c more, text = c :: more ∧ ¬ Skipped c := by
  cases h with
  | str quote hquote s =>
      refine ⟨quote, _, rfl, ?_⟩
      rcases hquote with rfl | rfl <;> decide
  | number s hs =>
      obtain ⟨c, more, hmore, hc⟩ := (hnumeral s hs).starts
      refine ⟨c, more, hmore, ?_⟩
      rintro (hblank | rfl | rfl | rfl)
      · simp only [isAsciiBlank, Bool.or_eq_true, decide_eq_true_eq] at hblank
        rcases hblank with (((rfl | rfl) | rfl) | rfl) | rfl <;> cases hc
      all_goals cases hc
  | word v w hw =>
      obtain ⟨c, more, hmore, hc, -⟩ := (isKeyword_of_mem_words hw).starts
      refine ⟨c, more, hmore, ?_⟩
      rintro (hblank | rfl | rfl | rfl)
      · have hword := (isWordChar_of_isAsciiBlank hblank).1
        simp [isWordChar, Char.isAlphanum, hc] at hword
      all_goals cases hc
  | list h => exact ⟨'[', _, rfl, by decide⟩
  | tuple h => exact ⟨'(', _, rfl, by decide⟩
  | map h => exact ⟨'\x7b', _, rfl, by decide⟩

/-- What is read of a text: all of it, or nothing because of a number. -/
def outcome {α : Type} (readable : Bool) (a : α) (rest : List Char) : Reads α :=
  if readable then .ok (a, rest) else .error .invalidNumber

/-- The phrase is read off the text in front of everything that can follow it. -/
def Phrase.IsRead (text : List Char) : Phrase → Prop
  | .value v => ∀ bound blanks rest, 2 * text.length ≤ bound → Blanks blanks → ValueEnds rest →
      LiteralReader.value bound (blanks ++ (text ++ rest)) =
        outcome (Phrase.value v).readable v rest
  | .items vs => ∀ bound close rest, 2 * text.length < bound → close = ']' ∨ close = ')' →
      LiteralReader.items bound close (text ++ close :: rest) =
        outcome (Phrase.items vs).readable vs rest
  | .entries es => ∀ bound rest, 2 * text.length < bound →
      LiteralReader.entries bound (text ++ '\x7d' :: rest) =
        outcome (Phrase.entries es).readable es rest

variable {numeral : String → Prop}

@[simp] theorem outcome_map {α β : Type} (readable : Bool) (a : α) (rest : List Char) (f : α → β) :
    (outcome readable a rest).map (fun r => (f r.1, r.2)) = outcome readable (f a) rest := by
  cases readable <;> rfl

@[simp] theorem outcome_true {α : Type} (a : α) (rest : List Char) :
    outcome true a rest = .ok (a, rest) := rfl

namespace Phrase

theorem isRead_string {quote : Char} (hquote : quote = '\'' ∨ quote = '"') (s : String) :
    (value (.str s)).IsRead (inQuotes quote s.toList) := by
  intro bound blanks rest hbound hblanks hrest
  obtain ⟨bound, rfl⟩ : ∃ n, bound = n + 1 := ⟨bound - 1, by simp [inQuotes] at hbound; omega⟩
  rw [inQuotes, List.cons_append, value_quote hblanks _ _ hquote, List.append_assoc,
    List.singleton_append, string_inQuotes hquote]
  simp [Except.map, outcome, readable, numbers, Literal.numbers]

theorem isRead_number {s : String} (hs : Numeral s) : (value (.number s)).IsRead s.toList := by
  intro bound blanks rest hbound hblanks hrest
  obtain ⟨c, more, hmore, hc⟩ := hs.starts
  obtain ⟨bound, rfl⟩ : ∃ n, bound = n + 1 := ⟨bound - 1, by simp [hmore] at hbound; omega⟩
  have hnumber := hs.number_eq rest hrest.numberEnds
  rw [hmore, List.cons_append] at hnumber ⊢
  rw [value_number hblanks _ _ hc, hnumber, ← hmore]
  simp [outcome, readable, numbers, Literal.numbers]

theorem isRead_word {v : Literal} {w : String} (hw : w ∈ v.words) : (value v).IsRead w.toList := by
  intro bound blanks rest hbound hblanks hrest
  obtain ⟨c, more, hmore, hc, hstart⟩ := (isKeyword_of_mem_words hw).starts
  obtain ⟨bound, rfl⟩ : ∃ n, bound = n + 1 := ⟨bound - 1, by simp [hmore] at hbound; omega⟩
  have hkeyword := keyword_word hw hrest
  have hnumbers := Literal.numbers_of_mem_words hw
  rw [hmore, List.cons_append] at hkeyword ⊢
  rw [value_letter hblanks _ _ hc hstart, hkeyword]
  simp [outcome, readable, numbers, hnumbers]

/-! ### Elements and entries -/

theorem readable_list (vs : List Literal) : (value (.list vs)).readable = (items vs).readable := rfl

theorem readable_tuple (vs : List Literal) : (value (.tuple vs)).readable = (items vs).readable :=
  rfl

theorem readable_map (es : List (Literal × Literal)) :
    (value (.map es)).readable = (entries es).readable := rfl

theorem readable_cons_items (v : Literal) (vs : List Literal) :
    (items (v :: vs)).readable = ((value v).readable && (items vs).readable) := List.all_append

theorem readable_cons_entries (k v : Literal) (es : List (Literal × Literal)) :
    (entries ((k, v) :: es)).readable =
      ((value k).readable && ((value v).readable && (entries es).readable)) := by
  simp [readable, numbers, numbersOfEntries]

/-- A literal in brackets is read if what is between them is, up to the closing bracket. -/
theorem isRead_bracketed {v : Literal} {text : List Char} {opening close : Char}
    (h : ∀ bound blanks rest, 2 * text.length < bound → Blanks blanks →
      LiteralReader.value (bound + 1) (blanks ++ opening :: (text ++ close :: rest)) =
        outcome (value v).readable v rest) :
    (value v).IsRead (opening :: (text ++ [close])) := by
  intro bound blanks rest hbound hblanks hrest
  simp only [List.length_cons, List.length_append] at hbound
  obtain ⟨bound, rfl⟩ : ∃ n, bound = n + 1 := ⟨bound - 1, by omega⟩
  rw [List.cons_append, List.append_assoc, List.singleton_append]
  exact h bound blanks rest (by omega) hblanks

theorem isRead_list {vs : List Literal} {text : List Char} (h : (items vs).IsRead text) :
    (value (.list vs)).IsRead ('[' :: (text ++ [']'])) := by
  refine isRead_bracketed fun bound blanks rest hbound hblanks => ?_
  rw [value_square hblanks, h bound ']' rest hbound (.inl rfl), outcome_map, readable_list]

theorem isRead_tuple {vs : List Literal} {text : List Char} (h : (items vs).IsRead text) :
    (value (.tuple vs)).IsRead ('(' :: (text ++ [')'])) := by
  refine isRead_bracketed fun bound blanks rest hbound hblanks => ?_
  rw [value_round hblanks, h bound ')' rest hbound (.inr rfl), outcome_map, readable_tuple]

theorem isRead_map {es : List (Literal × Literal)} {text : List Char}
    (h : (entries es).IsRead text) : (value (.map es)).IsRead ('\x7b' :: (text ++ ['\x7d'])) := by
  refine isRead_bracketed fun bound blanks rest hbound hblanks => ?_
  rw [value_brace hblanks, h bound rest hbound, outcome_map, readable_map]

theorem isRead_noItem {blanks : List Char} (hblanks : Blanks blanks) :
    (items []).IsRead blanks := by
  intro bound close rest hbound hclose
  obtain ⟨bound, rfl⟩ : ∃ n, bound = n + 1 := ⟨bound - 1, by omega⟩
  have hblank : isAsciiBlank close = false := by rcases hclose with rfl | rfl <;> rfl
  rw [LiteralReader.items, eat?_append hblanks hblank]
  rfl

theorem isRead_noEntry {blanks : List Char} (hblanks : Blanks blanks) :
    (entries []).IsRead blanks := by
  intro bound rest hbound
  obtain ⟨bound, rfl⟩ : ∃ n, bound = n + 1 := ⟨bound - 1, by omega⟩
  rw [LiteralReader.entries, eat?_append hblanks rfl]
  rfl

/-- The text starts with a character that can be the first of a value. -/
def StartsValue (text : List Char) : Prop :=
  ∃ c more, text = c :: more ∧ ¬ Skipped c

/-- In front of a value no bracket ends. -/
theorem eat?_close {text before : List Char} (hstarts : StartsValue text) (hbefore : Blanks before)
    {close : Char} (hclose : close = ']' ∨ close = ')' ∨ close = '\x7d') (rest : List Char) :
    eat? close (before ++ (text ++ rest)) = none := by
  obtain ⟨c, more, rfl, hc⟩ := hstarts
  have hblank : isAsciiBlank c = false := by
    rw [Bool.eq_false_iff]
    exact fun h => hc (.inl h)
  refine eat?_eq_none hbefore hblank ?_ (more ++ rest)
  rintro rfl
  exact hc (.inr hclose)

section Items

variable {v : Literal} {text before after : List Char} (hstarts : StartsValue text)
  (h : (value v).IsRead text) (hbefore : Blanks before) (hafter : Blanks after)
include hstarts h hbefore hafter

theorem isRead_lastItem : (items [v]).IsRead (before ++ (text ++ after)) := by
  intro bound close rest hbound hclose
  simp only [List.length_append] at hbound
  obtain ⟨bound, rfl⟩ : ∃ n, bound = n + 1 := ⟨bound - 1, by omega⟩
  have hblank : isAsciiBlank close = false ∧ isWordChar close = false ∧ close ≠ '.' ∧
      close ≠ ',' := by rcases hclose with rfl | rfl <;> decide
  have hvalue := h bound before (after ++ close :: rest) (by omega) hbefore
    (hafter.valueEnds_append ⟨hblank.2.1, hblank.2.2.1⟩ rest)
  have hreadable : (items [v]).readable = (value v).readable := by
    rw [readable_cons_items]
    exact Bool.and_true _
  rw [List.append_assoc, List.append_assoc, LiteralReader.items,
    eat?_close hstarts hbefore (hclose.imp_right .inl), hvalue, hreadable]
  cases (value v).readable with
  | false => rfl
  | true =>
      simp only [outcome_true, eat?_eq_none hafter hblank.1 hblank.2.2.2,
        eat?_append hafter hblank.1]

theorem isRead_item {vs : List Literal} {more : List Char} (hmore : (items vs).IsRead more) :
    (items (v :: vs)).IsRead (before ++ (text ++ (after ++ ',' :: more))) := by
  intro bound close rest hbound hclose
  simp only [List.length_append, List.length_cons] at hbound
  obtain ⟨bound, rfl⟩ : ∃ n, bound = n + 1 := ⟨bound - 1, by omega⟩
  have hvalue := h bound before (after ++ ',' :: (more ++ close :: rest)) (by omega) hbefore
    (hafter.valueEnds_append (by decide) _)
  have hcomma : eat? ',' (after ++ ',' :: (more ++ close :: rest)) = some (more ++ close :: rest) :=
    eat?_append hafter rfl _
  have hitems := hmore bound close rest (by omega) hclose
  rw [List.append_assoc, List.append_assoc, List.append_assoc, List.cons_append,
    LiteralReader.items, eat?_close hstarts hbefore (hclose.imp_right .inl), hvalue,
    readable_cons_items]
  cases (value v).readable with
  | false => rfl
  | true =>
      rw [outcome_true, Bool.true_and]
      dsimp only
      rw [hcomma]
      dsimp only
      rw [hitems]
      exact outcome_map _ _ _ _

end Items

section Entries

variable {k v : Literal} {key text before behind between after : List Char}
  (hkeyStarts : StartsValue key) (hkey : (value k).IsRead key) (h : (value v).IsRead text)
  (hbefore : Blanks before) (hbehind : Blanks behind) (hbetween : Blanks between)
  (hafter : Blanks after)
include hkeyStarts hkey h hbefore hbehind hbetween

/-- A key and a value are read, and what is behind them is left. -/
theorem entries_entry (bound : Nat) {tail : List Char} (hends : ValueEnds tail)
    (hkeyBound : 2 * key.length ≤ bound) (hbound : 2 * text.length ≤ bound) :
    LiteralReader.entries (bound + 1)
        (before ++ (key ++ (behind ++ ':' :: (between ++ (text ++ tail))))) =
      if (value k).readable && (value v).readable then
        match eat? ',' tail with
        | some rest => (LiteralReader.entries bound rest).map fun r => ((k, v) :: r.1, r.2)
        | none =>
            match eat? '\x7d' tail with
            | some rest => .ok ([(k, v)], rest)
            | none => .error .missingMapSeparator
      else .error .invalidNumber := by
  have hkeyRead := hkey bound before (behind ++ ':' :: (between ++ (text ++ tail))) hkeyBound
    hbefore (hbehind.valueEnds_append (by decide) _)
  have hcolon : eat? ':' (behind ++ ':' :: (between ++ (text ++ tail))) =
      some (between ++ (text ++ tail)) := eat?_append hbehind rfl _
  have hvalue := h bound between tail hbound hbetween hends
  rw [LiteralReader.entries, eat?_close hkeyStarts hbefore (.inr (.inr rfl)), hkeyRead]
  cases (value k).readable with
  | false => rfl
  | true =>
      rw [outcome_true, Bool.true_and]
      dsimp only
      rw [hcolon]
      dsimp only
      rw [hvalue]
      cases (value v).readable with
      | false => rfl
      | true => rfl

include hafter

theorem isRead_lastEntry : (entries [(k, v)]).IsRead
    (before ++ (key ++ (behind ++ ':' :: (between ++ (text ++ after))))) := by
  intro bound rest hbound
  simp only [List.length_append, List.length_cons] at hbound
  obtain ⟨bound, rfl⟩ : ∃ n, bound = n + 1 := ⟨bound - 1, by omega⟩
  have hentry := entries_entry hkeyStarts hkey h hbefore hbehind hbetween bound
    (hafter.valueEnds_append (c := '\x7d') (by decide) rest) (by omega) (by omega)
  have hcomma : eat? ',' (after ++ '\x7d' :: rest) = none :=
    eat?_eq_none hafter rfl (by decide) rest
  have hclose : eat? '\x7d' (after ++ '\x7d' :: rest) = some rest := eat?_append hafter rfl rest
  have hreadable : (entries [(k, v)]).readable = ((value k).readable && (value v).readable) := by
    rw [readable_cons_entries]
    exact congrArg _ (Bool.and_true _)
  simp only [List.append_assoc, List.cons_append]
  rw [hentry, hreadable, hcomma, hclose]
  rfl

theorem isRead_entry {es : List (Literal × Literal)} {more : List Char}
    (hmore : (entries es).IsRead more) : (entries ((k, v) :: es)).IsRead
      (before ++ (key ++ (behind ++ ':' :: (between ++ (text ++ (after ++ ',' :: more)))))) := by
  intro bound rest hbound
  simp only [List.length_append, List.length_cons] at hbound
  obtain ⟨bound, rfl⟩ : ∃ n, bound = n + 1 := ⟨bound - 1, by omega⟩
  have hentry := entries_entry hkeyStarts hkey h hbefore hbehind hbetween bound
    (hafter.valueEnds_append (c := ',') (by decide) (more ++ '\x7d' :: rest)) (by omega) (by omega)
  have hcomma : eat? ',' (after ++ ',' :: (more ++ '\x7d' :: rest)) =
      some (more ++ '\x7d' :: rest) := eat?_append hafter rfl _
  have hentries := hmore bound rest (by omega)
  simp only [List.append_assoc, List.cons_append]
  rw [hentry, readable_cons_entries, hcomma, ← Bool.and_assoc]
  cases (value k).readable && (value v).readable with
  | false => rfl
  | true =>
      rw [if_pos rfl, Bool.true_and]
      dsimp only
      rw [hentries]
      exact outcome_map _ _ _ _

end Entries

end Phrase

/-- A spelling is read off in front of everything that can follow it. -/
theorem Spells.isRead (hnumeral : ∀ s, numeral s → Numeral s) {p : Phrase} {text : List Char}
    (h : Spells numeral p text) : p.IsRead text := by
  induction h with
  | str quote hquote s => exact Phrase.isRead_string hquote s
  | number s hs => exact Phrase.isRead_number (hnumeral s hs)
  | word v w hw => exact Phrase.isRead_word hw
  | list _ ih => exact Phrase.isRead_list ih
  | tuple _ ih => exact Phrase.isRead_tuple ih
  | map _ ih => exact Phrase.isRead_map ih
  | noItem hblanks => exact Phrase.isRead_noItem hblanks
  | lastItem h hbefore hafter ih =>
      exact Phrase.isRead_lastItem (h.exists_cons hnumeral) ih hbefore hafter
  | item h _ hbefore hafter ih ihmore =>
      exact Phrase.isRead_item (h.exists_cons hnumeral) ih hbefore hafter ihmore
  | noEntry hblanks => exact Phrase.isRead_noEntry hblanks
  | lastEntry hkey _ hbefore hbehind hbetween hafter ihkey ih =>
      exact Phrase.isRead_lastEntry (hkey.exists_cons hnumeral) ihkey ih hbefore hbehind hbetween
        hafter
  | entry hkey _ _ hbefore hbehind hbetween hafter ihkey ih ihmore =>
      exact Phrase.isRead_entry (hkey.exists_cons hnumeral) ihkey ih hbefore hbehind hbetween hafter
        ihmore

/-! ### Whole texts -/

namespace Literal

/-- **A printed literal is read back, unless one of its numbers is refused.** -/
theorem Printed.parse_eq (hnumeral : ∀ s, numeral s → Numeral s) {v : Literal} {text : String}
    (h : v.Printed numeral text) :
    parse text = if (Phrase.value v).readable then .ok v else .error .invalidNumber := by
  obtain ⟨before, body, after, hbefore, hbody, hafter, htext⟩ := h
  have hbound : 2 * body.length ≤ 2 * text.toList.length + 2 := by
    rw [htext, List.length_append, List.length_append]
    omega
  have hread := hbody.isRead hnumeral _ before after hbound hbefore hafter.valueEnds
  have hrest : token after = [] := List.dropWhile_eq_nil_iff.2 hafter
  rw [parse]
  rw [htext] at hread ⊢
  rw [hread]
  cases (Phrase.value v).readable with
  | false => rfl
  | true =>
      dsimp only [outcome_true]
      rw [hrest]
      rfl

/-! ### Spellings for all literals -/

mutual

/-- Every literal has a spelling, whatever its numbers may be written as. -/
theorem exists_spells : ∀ v : Literal, (∀ s ∈ v.numbers, numeral s) →
    ∃ text, Spells numeral (.value v) text
  | .str s, _ => ⟨_, .str '"' (.inr rfl) s⟩
  | .number s, h => ⟨_, .number s (h s List.mem_cons_self)⟩
  | .bool true, _ => ⟨_, .word _ "True" List.mem_cons_self⟩
  | .bool false, _ => ⟨_, .word _ "False" List.mem_cons_self⟩
  | .none, _ => ⟨_, .word _ "None" List.mem_cons_self⟩
  | .list vs, h =>
      let ⟨_, hvs⟩ := exists_spells_items vs h
      ⟨_, .list hvs⟩
  | .tuple vs, h =>
      let ⟨_, hvs⟩ := exists_spells_items vs h
      ⟨_, .tuple hvs⟩
  | .map es, h =>
      let ⟨_, hes⟩ := exists_spells_entries es h
      ⟨_, .map hes⟩

theorem exists_spells_items : ∀ vs : List Literal, (∀ s ∈ numbersOfItems vs, numeral s) →
    ∃ text, Spells numeral (.items vs) text
  | [], _ => ⟨[], .noItem (List.forall_mem_nil _)⟩
  | v :: vs, h =>
      let ⟨_, hv⟩ := exists_spells v fun s hs => h s (List.mem_append_left _ hs)
      let ⟨_, hvs⟩ := exists_spells_items vs fun s hs => h s (List.mem_append_right _ hs)
      ⟨_, .item hv hvs (List.forall_mem_nil _) (List.forall_mem_nil _)⟩

theorem exists_spells_entries : ∀ es : List (Literal × Literal),
    (∀ s ∈ numbersOfEntries es, numeral s) → ∃ text, Spells numeral (.entries es) text
  | [], _ => ⟨[], .noEntry (List.forall_mem_nil _)⟩
  | (k, v) :: es, h =>
      let ⟨_, hk⟩ := exists_spells k fun s hs =>
        h s (List.mem_append_left _ (List.mem_append_left _ hs))
      let ⟨_, hv⟩ := exists_spells v fun s hs =>
        h s (List.mem_append_left _ (List.mem_append_right _ hs))
      let ⟨_, hes⟩ := exists_spells_entries es fun s hs => h s (List.mem_append_right _ hs)
      ⟨_, .entry hk hv hes (List.forall_mem_nil _) (List.forall_mem_nil _)
        (List.forall_mem_nil _) (List.forall_mem_nil _)⟩

end

theorem exists_printed {v : Literal} (h : ∀ s ∈ v.numbers, numeral s) :
    ∃ text, v.Printed numeral text := by
  obtain ⟨body, hbody⟩ := exists_spells v h
  refine ⟨.ofList body, [], body, [], List.forall_mem_nil _, hbody, List.forall_mem_nil _, ?_⟩
  rw [String.toList_ofList, List.append_nil, List.nil_append]

end Literal

/-- The numbers of a phrase are written with the texts that its spellings admit. -/
theorem Spells.numeral_of_mem {p : Phrase} {text : List Char} (h : Spells numeral p text) :
    ∀ s ∈ p.numbers, numeral s := by
  induction h with
  | str quote hquote s => exact List.forall_mem_nil _
  | number s hs => exact List.forall_mem_singleton.2 hs
  | word v w hw =>
      rw [Phrase.numbers, Literal.numbers_of_mem_words hw]
      exact List.forall_mem_nil _
  | list _ ih => exact ih
  | tuple _ ih => exact ih
  | map _ ih => exact ih
  | noItem hblanks => exact List.forall_mem_nil _
  | lastItem _ _ _ ih => exact List.forall_mem_append.2 ⟨ih, List.forall_mem_nil _⟩
  | item _ _ _ _ ih ihmore => exact List.forall_mem_append.2 ⟨ih, ihmore⟩
  | noEntry hblanks => exact List.forall_mem_nil _
  | lastEntry _ _ _ _ _ _ ihkey ih =>
      exact List.forall_mem_append.2 ⟨List.forall_mem_append.2 ⟨ihkey, ih⟩, List.forall_mem_nil _⟩
  | entry _ _ _ _ _ _ _ ihkey ih ihmore =>
      exact List.forall_mem_append.2 ⟨List.forall_mem_append.2 ⟨ihkey, ih⟩, ihmore⟩

end ViewCompiler
