/-
**Blank characters.**

Two sets of blanks are in use.  Between the tokens of a source, a locator or a literal only the
five ASCII blanks separate; where the text of a document is trimmed or split into words, every
character with the Unicode property `White_Space` counts.

Main definitions:

* `ViewCompiler.isAsciiBlank`, `ViewCompiler.isBlank` — the two sets;
* `ViewCompiler.trim` — a text without the blanks at its two ends;
* `ViewCompiler.words` — the maximal runs of characters that are not blank.
-/

set_option autoImplicit false

namespace ViewCompiler

/-- The blanks that may stand between tokens: space, tab, line feed, form feed, carriage return. -/
def isAsciiBlank (c : Char) : Bool :=
  c = ' ' || c = '\t' || c = '\n' || c = '\x0c' || c = '\r'

/-- The characters with the Unicode property `White_Space`. -/
def isBlank (c : Char) : Bool :=
  ('\t' ≤ c && c ≤ '\r') || c = ' ' || c = '\u0085' || c = '\u00a0' || c = '\u1680' ||
    ('\u2000' ≤ c && c ≤ '\u200a') || c = '\u2028' || c = '\u2029' || c = '\u202f' ||
    c = '\u205f' || c = '\u3000'

/-- A character of a class without blanks is no blank. -/
theorem isAsciiBlank_of_class {p : Char → Bool} {c : Char} (h : p c = true)
    (hp : [' ', '\t', '\n', '\x0c', '\r'].all (!p ·) = true) : isAsciiBlank c = false := by
  rw [Bool.eq_false_iff]
  intro hblank
  simp only [isAsciiBlank, Bool.or_eq_true, decide_eq_true_eq] at hblank
  have hclass : ∀ b ∈ [' ', '\t', '\n', '\x0c', '\r'], p b = false := by simpa using hp
  rw [hclass c (by rcases hblank with (((rfl | rfl) | rfl) | rfl) | rfl <;> simp)] at h
  cases h

/-! ### Trimming -/

/-- The text without its leading blanks. -/
def trimLeft (text : List Char) : List Char :=
  text.dropWhile isBlank

/-- The text without its trailing blanks. -/
def trimRight (text : List Char) : List Char :=
  (text.reverse.dropWhile isBlank).reverse

/-- The text without the blanks at its two ends. -/
def trim (text : List Char) : List Char :=
  trimRight (trimLeft text)

/-- The leading blanks of a text. -/
def leadingBlanks (text : List Char) : List Char :=
  text.takeWhile isBlank

/-- The trailing blanks of a text. -/
def trailingBlanks (text : List Char) : List Char :=
  (text.reverse.takeWhile isBlank).reverse

/-- The string without the blanks at its two ends. -/
def trimmed (text : String) : String :=
  .ofList (trim text.toList)

/-- The string holds blanks only. -/
def allBlank (text : String) : Bool :=
  text.toList.all isBlank

/-! ### Words -/

/-- The pieces of a text between its blanks, empty ones included. -/
def pieces : List Char → List (List Char)
  | [] => [[]]
  | c :: cs =>
      if isBlank c then [] :: pieces cs
      else match pieces cs with
        | [] => [[c]]
        | piece :: more => (c :: piece) :: more

/-- The words of a text: its maximal runs of characters that are not blank. -/
def words (text : List Char) : List (List Char) :=
  (pieces text).filter (!·.isEmpty)

end ViewCompiler
