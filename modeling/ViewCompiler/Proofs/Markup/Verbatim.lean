/-
**Attribute values that are written as they are.**

Escaping leaves an attribute value as it is exactly if no character around its expressions has to be
written as a reference.  Escaping only ever makes a value longer, so both directions follow from
counting the characters that it adds.

Main definitions:

* `ViewCompiler.outside` — the text around the expressions of an attribute value, as they are cut
  when it is written;
* `ViewCompiler.needsReference` — the characters that are escaped there.

Main results:

* `ViewCompiler.escapeValue_eq_self_iff` — the values that are written as they are;
* `ViewCompiler.cut_append_right` — the first occurrence of a marker does not depend on what stands
  behind it.
-/

import ViewCompiler.Proofs.Markup.Decoding

set_option relaxedAutoImplicit false
set_option autoImplicit false

namespace ViewCompiler

/-- The text around the expressions of an attribute value, as they are cut when it is written. -/
def outside (text : List Char) : List Char :=
  match _ : cut openMark text with
  | none => text
  | some (before, inner) =>
      match _ : cut closeMark inner with
      | none => text
      | some (_, rest) => before ++ outside rest
termination_by text.length
decreasing_by
  have h₁ := cut_length_lt (by decide) ‹cut openMark _ = _›
  have h₂ := cut_length_lt (by decide) ‹cut closeMark _ = _›
  omega

/-- The character is written as a reference in an attribute value outside expressions. -/
def needsReference (c : Char) : Bool :=
  c = '&' || c = '<' || c = '"'

theorem outside_of_not_open {text : List Char} (h : cut openMark text = none) :
    outside text = text := by
  rw [outside]
  split
  · rfl
  · rename_i hcut
    rw [h] at hcut
    cases hcut

theorem outside_of_not_closed {text before inner : List Char}
    (hopen : cut openMark text = some (before, inner)) (hclose : cut closeMark inner = none) :
    outside text = text := by
  rw [outside]
  split
  · rfl
  · rename_i hcut
    rw [hopen] at hcut
    cases hcut
    split
    · rfl
    · rename_i hcut
      rw [hclose] at hcut
      cases hcut

theorem outside_of_span {text before inner expression rest : List Char}
    (hopen : cut openMark text = some (before, inner))
    (hclose : cut closeMark inner = some (expression, rest)) :
    outside text = before ++ outside rest := by
  rw [outside]
  split
  · rename_i hcut
    rw [hopen] at hcut
    cases hcut
  · rename_i hcut
    rw [hopen] at hcut
    cases hcut
    split
    · rename_i hcut
      rw [hclose] at hcut
      cases hcut
    · rename_i hcut
      rw [hclose] at hcut
      cases hcut
      rfl

/-! ### How much escaping adds -/

theorem escapePlain_append (a b : List Char) :
    escapePlain (a ++ b) = escapePlain a ++ escapePlain b :=
  List.flatMap_append

theorem escapePlain_eq_self {text : List Char} (h : ∀ c ∈ text, needsReference c = false) :
    escapePlain text = text := by
  induction text with
  | nil => rfl
  | cons c text ih =>
      have hc := h c List.mem_cons_self
      have htext := ih fun d hd => h d (List.mem_cons_of_mem _ hd)
      simp only [needsReference, Bool.or_eq_false_iff, decide_eq_false_iff_not] at hc
      obtain ⟨⟨hamp, hangle⟩, hquote⟩ := hc
      have hsingle : escapePlain [c] = [c] := by
        simp [escapePlain]
      rw [← List.singleton_append, escapePlain_append, hsingle, htext]

/-- Every character that needs a reference makes the written form longer. -/
theorem length_escapePlain (text : List Char) :
    text.length + text.countP needsReference ≤ (escapePlain text).length := by
  induction text with
  | nil => exact Nat.le_refl _
  | cons c text ih =>
      have hsingle : 1 + (if needsReference c then 1 else 0) ≤ (escapePlain [c]).length := by
        cases hc : needsReference c with
        | false =>
            rw [escapePlain_eq_self (by simpa using hc)]
            exact Nat.le_refl _
        | true =>
            simp only [needsReference, Bool.or_eq_true, decide_eq_true_eq] at hc
            rcases hc with (rfl | rfl) | rfl
            · decide
            · decide
            · decide
      rw [← List.singleton_append, escapePlain_append, List.length_append, List.length_append,
        List.countP_append, List.length_singleton, List.countP_singleton]
      omega

/-- So does every such character around expressions. -/
theorem length_escapeValue (text : List Char) :
    text.length + (outside text).countP needsReference ≤ (escapeValue text).length := by
  fun_induction escapeValue text with
  | case1 text hopen =>
      rw [outside_of_not_open hopen]
      exact length_escapePlain text
  | case2 text before inner hopen hclose =>
      rw [outside_of_not_closed hopen hclose]
      exact length_escapePlain text
  | case3 text before inner hopen expression rest hclose ih =>
      have hbefore := length_escapePlain before
      have htext : text = before ++ openMark ++ (expression ++ closeMark ++ rest) := by
        rw [cut_eq_append hopen, cut_eq_append hclose]
      rw [outside_of_span hopen hclose, List.countP_append, htext]
      simp only [List.length_append]
      omega

/-- An attribute value is written as it is if, and only if, no character around its expressions
needs a reference. -/
theorem escapeValue_eq_self_iff {text : List Char} :
    escapeValue text = text ↔ ∀ c ∈ outside text, needsReference c = false := by
  constructor
  · intro h
    have hlength := length_escapeValue text
    rw [h] at hlength
    have hnone : (outside text).countP needsReference = 0 := by omega
    simpa [List.countP_eq_zero] using hnone
  · intro h
    fun_induction escapeValue text with
    | case1 text hopen =>
        rw [outside_of_not_open hopen] at h
        exact escapePlain_eq_self h
    | case2 text before inner hopen hclose =>
        rw [outside_of_not_closed hopen hclose] at h
        exact escapePlain_eq_self h
    | case3 text before inner hopen expression rest hclose ih =>
        rw [outside_of_span hopen hclose, List.forall_mem_append] at h
        rw [escapePlain_eq_self h.1, ih h.2, cut_eq_append hopen, cut_eq_append hclose]
        simp only [List.append_assoc]

/-! ### Longer texts -/

/-- The first occurrence of a marker does not depend on what stands behind it. -/
theorem cut_append_right {marker text before behind : List Char} (hm : marker ≠ [])
    (h : cut marker text = some (before, behind)) (more : List Char) :
    cut marker (text ++ more) = some (before, behind ++ more) := by
  induction text generalizing before with
  | nil => simp [cut, hm] at h
  | cons c cs ih =>
      rw [cut] at h
      cases hfound : marker.isPrefixOf? (c :: cs) with
      | some rest =>
          rw [hfound] at h
          cases h
          have hstarts : marker.isPrefixOf? (c :: (cs ++ more)) = some (behind ++ more) := by
            rw [← List.cons_append, isPrefixOf?_eq_append hfound, List.append_assoc]
            exact isPrefixOf?_append _ _
          rw [List.cons_append, cut, hstarts]
      | none =>
          rw [hfound] at h
          obtain ⟨⟨before', behind'⟩, hcut, heq⟩ := Option.map_eq_some_iff.1 h
          cases heq
          have hnone : marker.isPrefixOf? (c :: (cs ++ more)) = none := by
            rw [isPrefixOf?_eq_none_iff]
            intro hstarts
            -- The occurrence behind the first character leaves no room for one that ends later.
            have hlength : marker.length ≤ (c :: cs).length := by
              rw [cut_eq_append hcut]
              simp
              omega
            exact isPrefixOf?_eq_none_iff.1 hfound
              (List.prefix_of_prefix_length_le hstarts (List.prefix_append (c :: cs) more) hlength)
          rw [List.cons_append, cut, hnone, ih hcut]
          rfl

end ViewCompiler
