/-
**What the references in a text stand for.**

A reference is an ampersand, one of six names or a number in decimal or hexadecimal digits, and a
semicolon.  A number stands for the character that has it, so a number of no character makes no
reference.  A text with its references replaced is read from left to right: a reference gives its
character and the reading goes on behind it, and a character at which no reference begins is kept.
This is said here without a word on how references are found, and it determines the result.

References that are replaced have at most seven decimal or six hexadecimal digits, zeros in front
included.  How many digits there may be is a parameter, so that the same reading can be stated for
numbers of any length: the two differ only where a text has a longer reference.

Main definitions:

* `ViewCompiler.DenotesNumber` — the number of a run of digits;
* `ViewCompiler.StandsFor` — a reference and its character;
* `ViewCompiler.Replaced` — a text and what becomes of it.

Main results:

* `ViewCompiler.reference?_eq_some_iff` — the references that are read are the ones that stand for a
  character;
* `ViewCompiler.decode_eq_iff` — decoding replaces the references, and nothing else comes of a text;
* `ViewCompiler.replaceReferences_correct` — **replacing references does what it should**, for every
  text;
* `ViewCompiler.replaceReferences_padded` — a number with more zeros in front is kept;
* `ViewCompiler.replaceReferences_eq_iff_unlimited` — and without such numbers in a text, their
  length does not matter.
-/

import Mathlib.Data.ENat.Basic
import Mathlib.Data.List.Forall2
import Mathlib.Data.Nat.Digits.Defs
import ViewCompiler.Proofs.Markup.Quoting
import ViewCompiler.Proofs.Markup.Replacing

set_option relaxedAutoImplicit false
set_option autoImplicit false

namespace ViewCompiler

/-! ### References -/

/-- A digit of a base and its value; letters count in either case. -/
def IsDigit (base : Nat) (c : Char) (value : Nat) : Prop :=
  value < base ∧ (c = value.digitChar ∨ c = value.digitChar.toUpper)

/-- A run of at least one digit denotes a number, the first digit counting most. -/
def DenotesNumber (base : Nat) (digits : List Char) (n : Nat) : Prop :=
  digits ≠ [] ∧ ∃ values, List.Forall₂ (IsDigit base) digits values ∧
    Nat.ofDigits base values.reverse = n

/-- The characters that have names. -/
def characterNames : List (String × Char) :=
  [("amp", '&'), ("lt", '<'), ("gt", '>'), ("quot", '"'), ("apos", '\''), ("nbsp", '\u00a0')]

/-- A reference stands for the character that it names, or whose number it gives; `most` bounds the
digits of a number in each base. -/
inductive StandsFor (most : Nat → ℕ∞) : List Char → Char → Prop where
  | name {name : String} {c : Char} (h : (name, c) ∈ characterNames) :
      StandsFor most ('&' :: name.toList ++ [';']) c
  | decimal {digits : List Char} {c : Char} (h : DenotesNumber 10 digits c.toNat)
      (hmost : digits.length ≤ most 10) : StandsFor most ('&' :: '#' :: digits ++ [';']) c
  | hexadecimal {mark : Char} {digits : List Char} {c : Char} (hmark : mark = 'x' ∨ mark = 'X')
      (h : DenotesNumber 16 digits c.toNat) (hmost : digits.length ≤ most 16) :
      StandsFor most ('&' :: '#' :: mark :: digits ++ [';']) c

/-- A text with its references replaced from left to right: what is behind a reference is read on,
and where no reference begins the character is kept. -/
inductive Replaced (most : Nat → ℕ∞) : List Char → List Char → Prop where
  | nil : Replaced most [] []
  | reference {ref text result : List Char} {c : Char} (href : StandsFor most ref c)
      (h : Replaced most text result) : Replaced most (ref ++ text) (c :: result)
  | kept {c : Char} {text result : List Char}
      (hnone : ∀ ref d, StandsFor most ref d → ¬ ref <+: c :: text)
      (h : Replaced most text result) : Replaced most (c :: text) (c :: result)

/-- As many digits as the largest character needs. -/
def digitLimit (base : Nat) : ℕ∞ :=
  if base = 16 then 6 else 7

/-- Any number of digits. -/
def unlimited (_ : Nat) : ℕ∞ :=
  ⊤

/-! ### Digits -/

theorem digitValue?_filter {base : Nat} (hbase : base ≤ 16) (c : Char) :
    digitValue? base c = (digitValue? 16 c).filter (· < base) := by
  rw [digitValue?, digitValue?, Option.filter_filter]
  congr 1
  funext v
  rw [← Bool.decide_and]
  apply decide_eq_decide.mpr
  omega

/-- Among the characters of a single byte, the digits. -/
theorem digitValue?_ascii : ∀ n < 128, ∀ v < 16, digitValue? 16 (Char.ofNat n) = some v →
    Char.ofNat n = Nat.digitChar v ∨ Char.ofNat n = (Nat.digitChar v).toUpper := by
  decide +kernel

theorem digitValue?_toUpper : ∀ v < 16,
    digitValue? 16 (Nat.digitChar v).toUpper = some v := by
  decide

theorem digitValue?_eq_some_iff {base v : Nat} {c : Char} (hbase : base ≤ 16) :
    digitValue? base c = some v ↔ IsDigit base c v := by
  rw [digitValue?_filter hbase, Option.filter_eq_some_iff, decide_eq_true_eq, and_comm, IsDigit]
  refine and_congr_right fun hlt => ?_
  have hv : v < 16 := Nat.lt_of_lt_of_le hlt hbase
  constructor
  · intro h
    have hdigit := digitValue?_ascii c.toNat (digitValue?_bounds h).1 v hv
    rw [Char.ofNat_toNat] at hdigit
    exact hdigit h
  · rintro (rfl | rfl)
    · exact digitValue?_digitChar hv
    · exact digitValue?_toUpper v hv

/-- The value of a run of digits, by the values of the digits. -/
theorem digitsValue_eq_ofDigits {base : Nat} (hbase : base ≤ 16) {digits : List Char}
    {values : List Nat} (h : List.Forall₂ (IsDigit base) digits values) :
    digitsValue base digits = Nat.ofDigits base values.reverse := by
  have hfold : ∀ n, digits.foldl (fun n c => n * base + (digitValue? base c).getD 0) n =
      n * base ^ digits.length + Nat.ofDigits base values.reverse := by
    induction h with
    | nil => simp
    | @cons c v digits values hdigit hmore ih =>
        intro n
        have hvalue := (digitValue?_eq_some_iff hbase).mpr hdigit
        rw [List.foldl_cons, ih, hvalue, Option.getD_some, List.reverse_cons, Nat.ofDigits_append,
          Nat.ofDigits_singleton, List.length_reverse, ← hmore.length_eq, List.length_cons]
        ring
  rw [digitsValue, hfold 0, Nat.zero_mul, Nat.zero_add]

theorem denotesNumber_iff {base n : Nat} (hbase : base ≤ 16) {digits : List Char} :
    DenotesNumber base digits n ↔
      digits ≠ [] ∧ (∀ c ∈ digits, isDigitOf base c = true) ∧ digitsValue base digits = n := by
  refine and_congr_right fun _ => ?_
  constructor
  · rintro ⟨values, hvalues, rfl⟩
    have hboth : List.Forall₂ (fun c v => isDigitOf base c = true ∧ IsDigit base c v)
        digits values :=
      hvalues.imp fun c v hv =>
        ⟨Option.isSome_of_eq_some ((digitValue?_eq_some_iff hbase).mpr hv), hv⟩
    exact ⟨((List.forall₂_and_left _ _).mp hboth).1, digitsValue_eq_ofDigits hbase hvalues⟩
  · rintro ⟨hdigits, rfl⟩
    have hvalues : List.Forall₂ (IsDigit base) digits
        (digits.map fun c => (digitValue? base c).getD 0) := by
      rw [List.forall₂_map_right_iff, List.forall₂_same]
      intro c hc
      obtain ⟨v, hv⟩ := Option.isSome_iff_exists.mp (hdigits c hc)
      rw [hv, Option.getD_some]
      exact (digitValue?_eq_some_iff hbase).mp hv
    exact ⟨_, hvalues, (digitsValue_eq_ofDigits hbase hvalues).symm⟩

/-- The character with a number is the one that has it. -/
theorem scalar?_eq_some_iff {n : Nat} {c : Char} : scalar? n = some c ↔ c.toNat = n := by
  rw [scalar?]
  constructor
  · intro h
    split at h
    · next hvalid =>
        cases h
        rw [Char.ofNat, dif_pos hvalid]
        rfl
    · cases h
  · rintro rfl
    rw [if_pos (show c.toNat.isValidChar from c.valid), Char.ofNat_toNat]

/-! ### Reading one reference -/

theorem numberReference?_eq_some_iff {base limit : Nat} (hbase : base ≤ 16)
    {text rest : List Char} {c : Char} :
    numberReference? base limit text = some (c, rest) ↔
      ∃ digits, DenotesNumber base digits c.toNat ∧ digits.length ≤ limit ∧
        text = digits ++ ';' :: rest := by
  rw [numberReference?_eq, Option.bind_eq_some_iff]
  constructor
  · rintro ⟨⟨digits, behind⟩, hfound, hchar⟩
    obtain ⟨d, hscalar, heq⟩ := Option.map_eq_some_iff.mp hchar
    cases heq
    obtain ⟨hne, hlength, hdigits, htext⟩ := numberBehind?_eq_some_iff.mp hfound
    have hvalue := (scalar?_eq_some_iff.mp hscalar).symm
    exact ⟨digits, (denotesNumber_iff hbase).mpr ⟨hne, hdigits, hvalue⟩, hlength, htext⟩
  · rintro ⟨digits, hdenotes, hlength, htext⟩
    obtain ⟨hne, hdigits, hvalue⟩ := (denotesNumber_iff hbase).mp hdenotes
    refine ⟨(digits, rest), numberBehind?_eq_some_iff.mpr ⟨hne, hlength, hdigits, htext⟩, ?_⟩
    rw [scalar?_eq_some_iff.mpr hvalue.symm, Option.map_some]

theorem namedReferences_eq :
    namedReferences = characterNames.map fun named => (named.1.toList ++ [';'], named.2) := rfl

theorem named?_eq_some_iff {text rest : List Char} {c : Char} :
    (namedReferences.findSome? fun named =>
        (named.1.isPrefixOf? text).map fun rest => (named.2, rest)) = some (c, rest) ↔
      ∃ name, (name, c) ∈ characterNames ∧ text = name.toList ++ ';' :: rest := by
  constructor
  · intro h
    obtain ⟨named, hmem, hnamed⟩ := List.exists_of_findSome?_eq_some h
    obtain ⟨behind, hstarts, heq⟩ := Option.map_eq_some_iff.mp hnamed
    cases heq
    rw [namedReferences_eq, List.mem_map] at hmem
    obtain ⟨⟨name, c⟩, hmem, rfl⟩ := hmem
    have htext := isPrefixOf?_eq_append hstarts
    rw [List.append_assoc, List.singleton_append] at htext
    exact ⟨name, hmem, htext⟩
  · -- No name with its semicolon begins another, so the first that fits is the one.
    rintro ⟨name, hmem, rfl⟩
    simp only [characterNames, List.mem_cons, List.not_mem_nil, or_false, Prod.mk.injEq] at hmem
    rcases hmem with ⟨rfl, rfl⟩ | ⟨rfl, rfl⟩ | ⟨rfl, rfl⟩ | ⟨rfl, rfl⟩ | ⟨rfl, rfl⟩ | ⟨rfl, rfl⟩
    · rfl
    · rfl
    · rfl
    · rfl
    · rfl
    · rfl

/-- The first of the digits of a number tells it from a letter that announces a base. -/
theorem numbered?_digits {digits : List Char} (hdigits : ∀ c ∈ digits, isDigitOf 10 c = true)
    (rest : List Char) :
    numbered? ('#' :: (digits ++ ';' :: rest)) = numberReference? 10 7 (digits ++ ';' :: rest) := by
  apply numbered?_decimal
  intro c hc hmark
  have hdigit : isDigitOf 10 c = true ∨ c = ';' := by
    cases digits with
    | nil => exact Or.inr (Option.some.inj hc).symm
    | cons d digits =>
        obtain rfl : d = c := Option.some.inj hc
        exact Or.inl (hdigits d List.mem_cons_self)
  revert hdigit
  rcases hmark with rfl | rfl
  · decide
  · decide

theorem numbered?_eq_some_iff {text rest : List Char} {c : Char} :
    numbered? text = some (c, rest) ↔
      (∃ digits, DenotesNumber 10 digits c.toNat ∧ digits.length ≤ 7 ∧
        text = '#' :: (digits ++ ';' :: rest)) ∨
      ∃ mark digits, (mark = 'x' ∨ mark = 'X') ∧ DenotesNumber 16 digits c.toNat ∧
        digits.length ≤ 6 ∧ text = '#' :: mark :: (digits ++ ';' :: rest) := by
  constructor
  · intro h
    rw [numbered?.eq_def] at h
    split at h
    · obtain ⟨digits, hdenotes, hlength, rfl⟩ :=
        (numberReference?_eq_some_iff (by decide)).mp h
      exact Or.inr ⟨'x', digits, Or.inl rfl, hdenotes, hlength, rfl⟩
    · obtain ⟨digits, hdenotes, hlength, rfl⟩ :=
        (numberReference?_eq_some_iff (by decide)).mp h
      exact Or.inr ⟨'X', digits, Or.inr rfl, hdenotes, hlength, rfl⟩
    · obtain ⟨digits, hdenotes, hlength, rfl⟩ :=
        (numberReference?_eq_some_iff (by decide)).mp h
      exact Or.inl ⟨digits, hdenotes, hlength, rfl⟩
    · cases h
  · rintro (⟨digits, hdenotes, hlength, rfl⟩ | ⟨mark, digits, hmark, hdenotes, hlength, rfl⟩)
    · rw [numbered?_digits ((denotesNumber_iff (by decide)).mp hdenotes).2.1]
      exact (numberReference?_eq_some_iff (by decide)).mpr ⟨digits, hdenotes, hlength, rfl⟩
    · rw [numbered?_hexadecimal hmark]
      exact (numberReference?_eq_some_iff (by decide)).mpr ⟨digits, hdenotes, hlength, rfl⟩

theorem le_digitLimit_decimal {n : Nat} : (n : ℕ∞) ≤ digitLimit 10 ↔ n ≤ 7 := by
  rw [digitLimit, if_neg (by decide)]
  exact Nat.cast_le

theorem le_digitLimit_hexadecimal {n : Nat} : (n : ℕ∞) ≤ digitLimit 16 ↔ n ≤ 6 := by
  rw [digitLimit, if_pos rfl]
  exact Nat.cast_le

/-- What is read behind an ampersand is a reference that stands for a character, and all of them are
read. -/
theorem reference?_eq_some_iff {text rest : List Char} {c : Char} :
    reference? text = some (c, rest) ↔
      ∃ ref, StandsFor digitLimit ref c ∧ '&' :: text = ref ++ rest := by
  rw [reference?_eq]
  constructor
  · intro h
    rcases Option.or_eq_some_iff.mp h with hname | ⟨-, hnumber⟩
    · obtain ⟨name, hmem, rfl⟩ := named?_eq_some_iff.mp hname
      exact ⟨_, .name hmem, by simp⟩
    rcases numbered?_eq_some_iff.mp hnumber with ⟨digits, hdenotes, hlength, rfl⟩ |
      ⟨mark, digits, hmark, hdenotes, hlength, rfl⟩
    · exact ⟨_, .decimal hdenotes (le_digitLimit_decimal.mpr hlength), by simp⟩
    · exact ⟨_, .hexadecimal hmark hdenotes (le_digitLimit_hexadecimal.mpr hlength), by simp⟩
  · rintro ⟨ref, href, htext⟩
    cases href with
    | @name name c h =>
        obtain rfl : text = name.toList ++ ';' :: rest := by simpa using htext
        rw [named?_eq_some_iff.mpr ⟨name, h, rfl⟩, Option.some_or]
    | @decimal digits c h hmost =>
        obtain rfl : text = '#' :: (digits ++ ';' :: rest) := by simpa using htext
        exact numbered?_eq_some_iff.mpr
          (Or.inl ⟨digits, h, le_digitLimit_decimal.mp hmost, rfl⟩)
    | @hexadecimal mark digits c hmark h hmost =>
        obtain rfl : text = '#' :: mark :: (digits ++ ';' :: rest) := by simpa using htext
        exact numbered?_eq_some_iff.mpr
          (Or.inr ⟨mark, digits, hmark, h, le_digitLimit_hexadecimal.mp hmost, rfl⟩)

/-! ### The text with its references replaced -/

/-- A reference begins with an ampersand. -/
theorem StandsFor.ampersand {most : Nat → ℕ∞} {ref : List Char} {c : Char}
    (h : StandsFor most ref c) : ∃ name, ref = '&' :: name := by
  cases h with
  | name => exact ⟨_, rfl⟩
  | decimal => exact ⟨_, rfl⟩
  | hexadecimal => exact ⟨_, rfl⟩

theorem reference?_eq_none_iff {text : List Char} :
    reference? text = none ↔ ∀ ref c, StandsFor digitLimit ref c → ¬ ref <+: '&' :: text := by
  constructor
  · rintro hnone ref c href ⟨rest, htext⟩
    have hsome := reference?_eq_some_iff.mpr ⟨ref, href, htext.symm⟩
    rw [hnone] at hsome
    cases hsome
  · intro hnone
    cases hsome : reference? text with
    | none => rfl
    | some found =>
        obtain ⟨ref, href, htext⟩ := reference?_eq_some_iff.mp hsome
        exact absurd ⟨found.2, htext.symm⟩ (hnone ref found.1 href)

/-- Decoding does what is said of a text with its references replaced. -/
theorem decode_replaced (text : List Char) : Replaced digitLimit text (decode text) := by
  fun_induction decode text with
  | case1 => exact .nil
  | case2 text c rest hsome ih =>
      obtain ⟨ref, href, htext⟩ := reference?_eq_some_iff.mp hsome
      rw [htext]
      exact .reference href ih
  | case3 text hnone ih => exact .kept (reference?_eq_none_iff.mp hnone) ih
  | case4 c text hne ih =>
      refine .kept ?_ ih
      rintro ref d href hstarts
      obtain ⟨name, rfl⟩ := href.ampersand
      exact hne (List.cons_prefix_cons.mp hstarts).1.symm

/-- There is one text with the references replaced. -/
theorem Replaced.decode_eq {text result : List Char} (h : Replaced digitLimit text result) :
    decode text = result := by
  induction h with
  | nil => rw [decode]
  | @reference ref text result c href _ ih =>
      obtain ⟨name, rfl⟩ := href.ampersand
      have hsome : reference? (name ++ text) = some (c, text) :=
        reference?_eq_some_iff.mpr ⟨'&' :: name, href, rfl⟩
      rw [List.cons_append, decode_of_reference hsome, ih]
  | @kept c text result hnone _ ih =>
      by_cases hc : c = '&'
      · subst hc
        rw [decode_of_none (reference?_eq_none_iff.mpr hnone), ih]
      · rw [decode_of_ne hc, ih]

theorem decode_eq_iff {text result : List Char} :
    decode text = result ↔ Replaced digitLimit text result :=
  ⟨fun h => h ▸ decode_replaced text, Replaced.decode_eq⟩

theorem replaceReferences_eq_iff {text result : String} :
    replaceReferences text = result ↔ decode text.toList = result.toList := by
  rw [replaceReferences_eq, ← String.toList_inj, String.toList_ofList]

/-- Replacing the references of a text gives the text with its references replaced, and nothing
else. -/
theorem replaceReferences_correct (text result : String) :
    replaceReferences text = result ↔ Replaced digitLimit text.toList result.toList := by
  rw [replaceReferences_eq_iff, decode_eq_iff]

/-- A number with more digits than any character needs is kept, though it is the number of one. -/
theorem replaceReferences_padded :
    ¬ (replaceReferences "&#00000065;" = "A" ↔
        Replaced unlimited "&#00000065;".toList "A".toList) ∧
      replaceReferences "&#00000065;" = "&#00000065;" := by
  have hkept : replaceReferences "&#00000065;" = "&#00000065;" := by decide +kernel
  refine ⟨fun hclaim => ?_, hkept⟩
  have hdenotes : DenotesNumber 10 "00000065".toList 'A'.toNat :=
    (denotesNumber_iff (by decide)).mpr
      ⟨by decide, List.all_eq_true.mp (by decide), by decide⟩
  have hreplaced : Replaced unlimited ("&#00000065;".toList ++ []) ['A'] :=
    .reference (.decimal hdenotes le_top) .nil
  have hdone := hclaim.mpr hreplaced
  rw [hkept] at hdone
  revert hdone
  decide

/-! ### Numbers of any length -/

/-- How many digits a number may have matters only for the references that a text has. -/
theorem Replaced.congr {most most' : Nat → ℕ∞} {text result : List Char}
    (h : Replaced most text result)
    (hsame : ∀ ref c, ref <:+: text → (StandsFor most ref c ↔ StandsFor most' ref c)) :
    Replaced most' text result := by
  induction h with
  | nil => exact .nil
  | @reference ref text result c href _ ih =>
      have hbehind := ih fun ref' d hin => hsame ref' d (hin.trans (List.suffix_append _ _).isInfix)
      exact .reference ((hsame ref c (List.prefix_append _ _).isInfix).mp href) hbehind
  | @kept c text result hnone _ ih =>
      have hbehind := ih fun ref d hin => hsame ref d (hin.trans (List.suffix_cons c text).isInfix)
      refine .kept ?_ hbehind
      intro ref d href hstarts
      exact hnone ref d ((hsame ref d hstarts.isInfix).mpr href) hstarts

theorem StandsFor.unlimited {most : Nat → ℕ∞} {ref : List Char} {c : Char}
    (h : StandsFor most ref c) : StandsFor unlimited ref c := by
  cases h with
  | name h => exact .name h
  | decimal h _ => exact .decimal h le_top
  | hexadecimal hmark h _ => exact .hexadecimal hmark h le_top

/-- Where no reference has more digits than any character needs, replacing is the same as with
numbers of any length. -/
theorem replaceReferences_eq_iff_unlimited {text : String}
    (hfits : ∀ ref c, ref <:+: text.toList → StandsFor unlimited ref c →
      StandsFor digitLimit ref c) (result : String) :
    replaceReferences text = result ↔ Replaced unlimited text.toList result.toList := by
  have hsame : ∀ ref c, ref <:+: text.toList →
      (StandsFor digitLimit ref c ↔ StandsFor unlimited ref c) :=
    fun ref c hin => ⟨StandsFor.unlimited, hfits ref c hin⟩
  rw [replaceReferences_eq_iff, decode_eq_iff]
  exact ⟨fun h => h.congr hsame, fun h => h.congr fun ref c hin => (hsame ref c hin).symm⟩

end ViewCompiler
