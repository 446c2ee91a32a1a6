/-
**Escaping and decoding.**

What is escaped when it is written is decoded to itself when it is read, whatever stands behind it:
an ampersand is only ever written as the start of a reference that ends with its semicolon.  The
expressions in an attribute value are written as they are, so this holds of a value whose
expressions contain no ampersand; and it can be written between double quotes if they contain no
double quote either.

Main definitions:

* `ViewCompiler.spans` — the expressions in an attribute value, as they are cut when it is written.

Main results:

* `ViewCompiler.cut_eq_none_iff`, `ViewCompiler.cut_append`, `ViewCompiler.not_infix_of_cut` —
  cutting finds the first occurrence of a marker;
* `ViewCompiler.cut_singleton_eq_none_iff`, `ViewCompiler.cut_singleton`,
  `ViewCompiler.not_mem_of_cut` — the same of a marker that is one character;
* `ViewCompiler.decode_escapeText`, `ViewCompiler.decode_escapeValue` — decoding undoes escaping;
* `ViewCompiler.escapeText_angle`, `ViewCompiler.escapeValue_quote` — what the written form does
  not contain.
-/

import Mathlib.Data.List.Infix
import ViewCompiler.Markup.Escape
import ViewCompiler.Markup.Reference

set_option relaxedAutoImplicit false
set_option autoImplicit false

namespace ViewCompiler

/-! ### The first occurrence of a marker -/

theorem isPrefixOf?_append (marker rest : List Char) :
    marker.isPrefixOf? (marker ++ rest) = some rest := by
  induction marker with
  | nil => rfl
  | cons m ms ih =>
      change (if m == m then ms.isPrefixOf? (ms ++ rest) else none) = some rest
      rw [if_pos (beq_self_eq_true m)]
      exact ih

theorem isPrefixOf?_eq_none_iff {marker text : List Char} :
    marker.isPrefixOf? text = none ↔ ¬ marker <+: text := by
  constructor
  · intro h hstarts
    obtain ⟨rest, rfl⟩ := hstarts
    rw [isPrefixOf?_append] at h
    cases h
  · intro h
    cases hrest : marker.isPrefixOf? text with
    | none => rfl
    | some rest => exact absurd ⟨rest, (isPrefixOf?_eq_append hrest).symm⟩ h

/-- A cut fails when the marker does not occur. -/
theorem cut_eq_none_iff {marker text : List Char} (hm : marker ≠ []) :
    cut marker text = none ↔ ¬ marker <:+: text := by
  induction text with
  | nil => simp [cut, hm]
  | cons c cs ih =>
      rw [cut, List.infix_cons_iff]
      cases hfound : marker.isPrefixOf? (c :: cs) with
      | some rest =>
          have hstarts : marker <+: c :: cs := ⟨rest, (isPrefixOf?_eq_append hfound).symm⟩
          simp [hstarts]
      | none =>
          have hstarts := isPrefixOf?_eq_none_iff.1 hfound
          simp [hstarts, ih]

/-- What lies before a cut does not contain the marker. -/
theorem not_infix_of_cut {marker text before rest : List Char} (hm : marker ≠ [])
    (h : cut marker text = some (before, rest)) : ¬ marker <:+: before := by
  induction text generalizing before with
  | nil => simp [cut, hm] at h
  | cons c cs ih =>
      rw [cut] at h
      cases hfound : marker.isPrefixOf? (c :: cs) with
      | some found =>
          rw [hfound] at h
          cases h
          simp [hm]
      | none =>
          rw [hfound] at h
          obtain ⟨⟨before', rest'⟩, hcut, heq⟩ := Option.map_eq_some_iff.1 h
          cases heq
          intro hoccurs
          rcases List.infix_cons_iff.1 hoccurs with hstarts | hoccurs
          · have hwhole : c :: before' <+: c :: cs := by
              rw [cut_eq_append hcut, List.append_assoc]
              exact List.prefix_append (c :: before') _
            exact isPrefixOf?_eq_none_iff.1 hfound (hstarts.trans hwhole)
          · exact ih hcut hoccurs

/-- A cut is at the first occurrence: here at the one that is known, if none begins before it. -/
theorem cut_append {marker before : List Char} (rest : List Char) (hm : marker ≠ [])
    (h : ¬ marker <:+: before ++ marker.dropLast) :
    cut marker (before ++ marker ++ rest) = some (before, rest) := by
  induction before with
  | nil =>
      cases marker with
      | nil => exact absurd rfl hm
      | cons m ms =>
          rw [List.nil_append, List.cons_append, cut, ← List.cons_append, isPrefixOf?_append]
  | cons c before ih =>
      rw [List.cons_append, List.infix_cons_iff, not_or] at h
      have hnone : marker.isPrefixOf? (c :: (before ++ marker ++ rest)) = none := by
        rw [isPrefixOf?_eq_none_iff]
        intro hstarts
        -- The occurrence would end before the last character of the known one.
        have hsplit : c :: (before ++ marker ++ rest) =
            (c :: (before ++ marker.dropLast)) ++ (marker.getLast hm :: rest) :=
          calc c :: (before ++ marker ++ rest)
            _ = c :: (before ++ (marker.dropLast ++ [marker.getLast hm]) ++ rest) := by
              rw [List.dropLast_concat_getLast hm]
            _ = (c :: (before ++ marker.dropLast)) ++ (marker.getLast hm :: rest) := by simp
        have hlength : marker.length ≤ (c :: (before ++ marker.dropLast)).length := by
          simp
          omega
        rw [hsplit] at hstarts
        exact h.1 (List.prefix_of_prefix_length_le hstarts (List.prefix_append _ _) hlength)
      rw [List.cons_append, List.cons_append, cut, hnone, ih h.2]
      rfl

section Singleton

variable {mark : Char} {text : List Char}

theorem cut_singleton_eq_none_iff : cut [mark] text = none ↔ mark ∉ text := by
  rw [cut_eq_none_iff (List.cons_ne_nil mark []), List.singleton_infix_iff]

theorem not_mem_of_cut {before rest : List Char} (h : cut [mark] text = some (before, rest)) :
    mark ∉ before := by
  rw [← List.singleton_infix_iff]
  exact not_infix_of_cut (List.cons_ne_nil mark []) h

/-- A text is cut at the first of a character. -/
theorem cut_singleton (h : mark ∉ text) (rest : List Char) :
    cut [mark] (text ++ mark :: rest) = some (text, rest) := by
  have hfirst : ¬ [mark] <:+: text ++ [mark].dropLast := by
    rwa [List.dropLast_singleton, List.append_nil, List.singleton_infix_iff]
  have hcut := cut_append rest (List.cons_ne_nil mark []) hfirst
  rwa [List.append_assoc, List.singleton_append] at hcut

end Singleton

/-! ### Decoding -/

theorem decode_of_ne {c : Char} (h : c ≠ '&') (text : List Char) :
    decode (c :: text) = c :: decode text := by
  rw [decode]
  exact h

theorem decode_of_reference {text rest : List Char} {c : Char}
    (h : reference? text = some (c, rest)) : decode ('&' :: text) = c :: decode rest := by
  rw [decode]
  split
  · rename_i heq
    rw [h] at heq
    cases heq
    rfl
  · rename_i heq
    rw [h] at heq
    cases heq

theorem decode_of_none {text : List Char} (h : reference? text = none) :
    decode ('&' :: text) = '&' :: decode text := by
  rw [decode]
  split
  · rename_i heq
    rw [h] at heq
    cases heq
  · rfl

/-- Without an ampersand there is nothing to decode. -/
theorem decode_append_of_not_mem {text : List Char} (h : '&' ∉ text) (rest : List Char) :
    decode (text ++ rest) = text ++ decode rest := by
  induction text with
  | nil => rfl
  | cons c text ih =>
      rw [List.mem_cons, not_or] at h
      rw [List.cons_append, decode_of_ne (Ne.symm h.1), ih h.2, List.cons_append]

/-- Decoding undoes any escaping that works character by character. -/
theorem decode_flatMap {escape : Char → List Char}
    (h : ∀ c rest, decode (escape c ++ rest) = c :: decode rest) (text rest : List Char) :
    decode (text.flatMap escape ++ rest) = text ++ decode rest := by
  induction text with
  | nil => rfl
  | cons c text ih => rw [List.flatMap_cons, List.append_assoc, h, ih, List.cons_append]

/-- Decoding undoes the escaping of texts, whatever stands behind them. -/
theorem decode_escapeText_append (text rest : List Char) :
    decode (escapeText text ++ rest) = text ++ decode rest := by
  refine decode_flatMap ?_ text rest
  intro c rest
  split
  · exact decode_of_reference rfl
  · exact decode_of_reference rfl
  · exact decode_of_reference rfl
  · rename_i hamp _ _
    exact decode_of_ne hamp rest

/-- Decoding undoes the escaping of attribute values without expressions, whatever stands behind
them. -/
theorem decode_escapePlain_append (text rest : List Char) :
    decode (escapePlain text ++ rest) = text ++ decode rest := by
  refine decode_flatMap ?_ text rest
  intro c rest
  split
  · exact decode_of_reference rfl
  · exact decode_of_reference rfl
  · exact decode_of_reference rfl
  · rename_i hamp _ _
    exact decode_of_ne hamp rest

/-- Decoding undoes the escaping of texts. -/
theorem decode_escapeText (text : List Char) : decode (escapeText text) = text := by
  have h := decode_escapeText_append text []
  rwa [List.append_nil, decode, List.append_nil] at h

/-- Decoding undoes the escaping of attribute values without expressions. -/
theorem decode_escapePlain (text : List Char) : decode (escapePlain text) = text := by
  have h := decode_escapePlain_append text []
  rwa [List.append_nil, decode, List.append_nil] at h

/-- The expressions in an attribute value, as they are cut when it is written. -/
def spans (text : List Char) : List (List Char) :=
  match _ : cut openMark text with
  | none => []
  | some (_, inner) =>
      match _ : cut closeMark inner with
      | none => []
      | some (expression, rest) => expression :: spans rest
termination_by text.length
decreasing_by
  have h₁ := cut_length_lt (by decide) ‹cut openMark _ = _›
  have h₂ := cut_length_lt (by decide) ‹cut closeMark _ = _›
  omega

theorem spans_eq_nil {text : List Char} (h : cut openMark text = none) : spans text = [] := by
  rw [spans]
  split
  · rfl
  · rename_i hcut
    rw [h] at hcut
    cases hcut

theorem spans_eq_cons {text before inner expression rest : List Char}
    (hopen : cut openMark text = some (before, inner))
    (hclose : cut closeMark inner = some (expression, rest)) :
    spans text = expression :: spans rest := by
  rw [spans]
  split
  · rename_i hcut
    rw [hopen] at hcut
    cases hcut
  · rename_i hcut
    rw [hopen] at hcut
    cases hcut
    split
    · rename_i hcut
      rw [hclose] at hcut
      cases hcut
    · rename_i hcut
      rw [hclose] at hcut
      cases hcut
      rfl

/-- Decoding undoes the escaping of attribute values whose expressions contain no ampersand. -/
theorem decode_escapeValue {text : List Char} (h : ∀ s ∈ spans text, '&' ∉ s) :
    decode (escapeValue text) = text := by
  fun_induction escapeValue text with
  | case1 text _ => exact decode_escapePlain text
  | case2 text _ _ _ _ => exact decode_escapePlain text
  | case3 text before inner hopen expression rest hclose ih =>
      rw [spans_eq_cons hopen hclose] at h
      have hrest := ih fun s hs => h s (List.mem_cons_of_mem _ hs)
      have hexpression := h expression List.mem_cons_self
      rw [List.append_assoc, List.append_assoc, List.append_assoc, decode_escapePlain_append,
        decode_append_of_not_mem (by decide), decode_append_of_not_mem hexpression,
        decode_append_of_not_mem (by decide), hrest]
      rw [cut_eq_append hopen, cut_eq_append hclose]
      simp only [List.append_assoc]

/-! ### What the written form does not contain -/

/-- Escaped text contains no opening angle bracket. -/
theorem escapeText_angle (text : List Char) : '<' ∉ escapeText text := by
  rw [escapeText, List.mem_flatMap]
  rintro ⟨c, -, hc⟩
  split at hc
  · revert hc
    decide
  · revert hc
    decide
  · revert hc
    decide
  · rename_i hangle _
    exact hangle (List.mem_singleton.1 hc).symm

theorem escapePlain_quote (text : List Char) : '"' ∉ escapePlain text := by
  rw [escapePlain, List.mem_flatMap]
  rintro ⟨c, -, hc⟩
  split at hc
  · revert hc
    decide
  · revert hc
    decide
  · revert hc
    decide
  · rename_i hquote
    exact hquote (List.mem_singleton.1 hc).symm

/-- An escaped attribute value contains no double quote, if its expressions contain none. -/
theorem escapeValue_quote {text : List Char} (h : ∀ s ∈ spans text, '"' ∉ s) :
    '"' ∉ escapeValue text := by
  fun_induction escapeValue text with
  | case1 text _ => exact escapePlain_quote text
  | case2 text _ _ _ _ => exact escapePlain_quote text
  | case3 text before inner hopen expression rest hclose ih =>
      rw [spans_eq_cons hopen hclose] at h
      have hrest := ih fun s hs => h s (List.mem_cons_of_mem _ hs)
      have hexpression := h expression List.mem_cons_self
      have hopenMark : '"' ∉ openMark := by decide
      have hcloseMark : '"' ∉ closeMark := by decide
      simp only [List.mem_append, not_or]
      exact ⟨⟨⟨⟨escapePlain_quote before, hopenMark⟩, hexpression⟩, hcloseMark⟩, hrest⟩

end ViewCompiler
