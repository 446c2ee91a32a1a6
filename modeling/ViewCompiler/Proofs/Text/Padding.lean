/-
**Texts between blanks.**

A text that is not blank is divided in one way into leading blanks, a text that neither begins nor
ends with a blank, and trailing blanks.  The text in the middle is what trimming leaves.  Reading the
blanks from the front and from the back finds this division, although the run from the back is taken
of the whole text and not of what is behind the leading blanks: the two runs do not meet.

Main definitions:

* `ViewCompiler.Padded` — a text with the blanks at its two ends.

Main results:

* `ViewCompiler.padded_iff` — **a text is divided in one way**, if it is not blank;
* `ViewCompiler.trim_eq_self`, `ViewCompiler.head_trim`, `ViewCompiler.getLast_trim` — a text is
  trimmed exactly if it neither begins nor ends with a blank.
-/

import Mathlib.Data.List.TakeWhile
import ViewCompiler.Text.Blank
import ViewCompiler.Text.Cursor

set_option relaxedAutoImplicit false
set_option autoImplicit false

namespace ViewCompiler

/-- A run does not go on behind its end. -/
theorem head_dropWhile (p : Char → Bool) (text : List Char) :
    ∀ c ∈ (text.dropWhile p).head?, p c = false := by
  intro c hc
  have hhead := List.head?_dropWhile_not p text
  rw [hc] at hhead
  exact hhead

/-- A text is made of blanks, a text that begins and ends with no blank, and blanks. -/
structure Padded (before source behind text : List Char) : Prop where
  text_eq : text = before ++ (source ++ behind)
  before_blank : ∀ c ∈ before, isBlank c = true
  behind_blank : ∀ c ∈ behind, isBlank c = true
  source_ne : source ≠ []
  first : ∀ c ∈ source.head?, isBlank c = false
  last : ∀ c ∈ source.getLast?, isBlank c = false

namespace Padded

variable {before source behind text : List Char}

/-- A text that is padded is not blank. -/
theorem not_blank (h : Padded before source behind text) : ¬ ∀ c ∈ text, isBlank c = true := by
  intro hblank
  obtain ⟨c, rest, hsource⟩ := List.exists_cons_of_ne_nil h.source_ne
  have hc := h.first c (by rw [hsource]; rfl)
  rw [hblank c (by rw [h.text_eq, hsource]; simp)] at hc
  cases hc

/-- Read from the back, the trailing blanks come first. -/
theorem reverse (h : Padded before source behind text) :
    Padded behind.reverse source.reverse before.reverse text.reverse where
  text_eq := by simp [h.text_eq]
  before_blank c hc := h.behind_blank c (List.mem_reverse.1 hc)
  behind_blank c hc := h.before_blank c (List.mem_reverse.1 hc)
  source_ne := mt List.reverse_eq_nil_iff.1 h.source_ne
  first c hc := h.last c (List.head?_reverse ▸ hc)
  last c hc := h.first c (List.getLast?_reverse ▸ hc)

/-- No blank stands behind the leading ones. -/
theorem head_behind_before (h : Padded before source behind text) :
    ∀ c ∈ (source ++ behind).head?, isBlank c = false := by
  obtain ⟨c, rest, hsource⟩ := List.exists_cons_of_ne_nil h.source_ne
  have hfirst := h.first
  rw [hsource] at hfirst ⊢
  exact hfirst

theorem leadingBlanks_eq (h : Padded before source behind text) : leadingBlanks text = before := by
  rw [leadingBlanks, h.text_eq]
  exact takeWhile_append_of_head h.before_blank h.head_behind_before

theorem trailingBlanks_eq (h : Padded before source behind text) :
    trailingBlanks text = behind := by
  have hreverse := h.reverse.leadingBlanks_eq
  rw [leadingBlanks] at hreverse
  rw [trailingBlanks, hreverse, List.reverse_reverse]

theorem trim_eq (h : Padded before source behind text) : trim text = source := by
  have hleft : trimLeft text = source ++ behind := by
    rw [trimLeft, h.text_eq]
    exact dropWhile_append_of_head h.before_blank h.head_behind_before
  rw [trim, hleft, trimRight, List.reverse_append,
    dropWhile_append_of_head h.reverse.before_blank h.reverse.first, List.reverse_reverse]

end Padded

variable {text : List Char}

/-- A text that is not blank is padded. -/
theorem exists_padded (h : ¬ ∀ c ∈ text, isBlank c = true) :
    ∃ before source behind, Padded before source behind text := by
  have hblanks : ∀ l : List Char, ∀ c ∈ l.takeWhile isBlank, isBlank c = true := fun l =>
    List.all_eq_true.1 List.all_takeWhile
  have hright : trimLeft text = trimRight (trimLeft text) ++ trailingBlanks (trimLeft text) := by
    rw [trimRight, trailingBlanks, ← List.reverse_append, List.takeWhile_append_dropWhile,
      List.reverse_reverse]
  have hne : trimRight (trimLeft text) ≠ [] := by
    rw [trimRight, Ne, List.reverse_eq_nil_iff, List.dropWhile_eq_nil_iff]
    intro hall
    refine h fun c hc => ?_
    rw [← List.takeWhile_append_dropWhile (p := isBlank) (l := text), List.mem_append] at hc
    exact hc.elim (hblanks text c) fun hc => hall c (List.mem_reverse.2 hc)
  obtain ⟨c, rest, hsource⟩ := List.exists_cons_of_ne_nil hne
  refine ⟨leadingBlanks text, trimRight (trimLeft text), trailingBlanks (trimLeft text), ?_,
    hblanks text, ?_, hne, ?_, ?_⟩
  · rw [← hright]
    exact List.takeWhile_append_dropWhile.symm
  · exact fun c hc => hblanks _ c (List.mem_reverse.1 hc)
  · -- what trimming on the right leaves is a beginning
    have hhead := head_dropWhile isBlank text
    rw [← trimLeft, hright, hsource] at hhead
    rw [hsource]
    exact hhead
  · rw [trimRight, List.getLast?_reverse]
    exact head_dropWhile isBlank _

/-- **A text that is not blank is divided in one way**, and trimming finds the division. -/
theorem padded_iff {before source behind : List Char} :
    Padded before source behind text ↔ (¬ ∀ c ∈ text, isBlank c = true) ∧
      before = leadingBlanks text ∧ source = trim text ∧ behind = trailingBlanks text := by
  constructor
  · intro h
    exact ⟨h.not_blank, h.leadingBlanks_eq.symm, h.trim_eq.symm, h.trailingBlanks_eq.symm⟩
  · rintro ⟨hblank, rfl, rfl, rfl⟩
    obtain ⟨before, source, behind, h⟩ := exists_padded hblank
    rw [h.leadingBlanks_eq, h.trim_eq, h.trailingBlanks_eq]
    exact h

/-- Of blanks nothing is left. -/
theorem trim_of_blank (h : ∀ c ∈ text, isBlank c = true) : trim text = [] := by
  have hleft : trimLeft text = [] := List.dropWhile_eq_nil_iff.2 h
  rw [trim, hleft]
  rfl

theorem trim_eq_self (hfirst : ∀ c ∈ text.head?, isBlank c = false)
    (hlast : ∀ c ∈ text.getLast?, isBlank c = false) : trim text = text := by
  by_cases hne : text = []
  · rw [hne]
    rfl
  · have hpadded : Padded [] text [] text :=
      ⟨by simp, by simp, by simp, hne, hfirst, hlast⟩
    exact hpadded.trim_eq

/-- A trimmed text begins with no blank. -/
theorem head_trim (text : List Char) : ∀ c ∈ (trim text).head?, isBlank c = false := by
  by_cases hblank : ∀ c ∈ text, isBlank c = true
  · rw [trim_of_blank hblank]
    simp
  · obtain ⟨before, source, behind, h⟩ := exists_padded hblank
    rw [h.trim_eq]
    exact h.first

/-- A trimmed text ends with no blank. -/
theorem getLast_trim (text : List Char) : ∀ c ∈ (trim text).getLast?, isBlank c = false := by
  by_cases hblank : ∀ c ∈ text, isBlank c = true
  · rw [trim_of_blank hblank]
    simp
  · obtain ⟨before, source, behind, h⟩ := exists_padded hblank
    rw [h.trim_eq]
    exact h.last

end ViewCompiler
