/-
**Reading quoted texts.**

The form of a character between quotes tells the character: it is the character itself, or a
backslash with a letter, or a number in braces.  None of these forms begins with a quote, and none
goes on in another, so a quoted text can be read back, and its end is seen in whatever stands behind
it.

Main definitions:

* `ViewCompiler.readQuoted` — the first character of a text between quotes.

Main results:

* `ViewCompiler.readQuoted_quotedChar` — the form of a character tells the character;
* `ViewCompiler.quoted_append_inj` — **a quoted text tells the text, and where it ends**.
-/

import ViewCompiler.Markup.Reference
import ViewCompiler.Proofs.Markup.Decoding
import ViewCompiler.Text.Quoted

set_option relaxedAutoImplicit false
set_option autoImplicit false

namespace ViewCompiler

/-! ### Hexadecimal numbers -/

theorem digitValue?_digitChar {d : Nat} (h : d < 16) : digitValue? 16 d.digitChar = some d := by
  have hall : ∀ d < 16, digitValue? 16 (Nat.digitChar d) = some d := by decide
  exact hall d h

/-- The digits of a number are digits, and have its value. -/
theorem digits_toDigits (n : Nat) :
    (∀ c ∈ Nat.toDigits 16 n, (digitValue? 16 c).isSome = true) ∧
      digitsValue 16 (Nat.toDigits 16 n) = n := by
  induction n using Nat.strongRecOn with
  | _ n ih =>
      rw [Nat.toDigits_eq_if (by decide)]
      split
      · next hlt =>
          have hdigit := digitValue?_digitChar hlt
          refine ⟨?_, by simp [digitsValue, hdigit]⟩
          rw [List.forall_mem_singleton, hdigit]
          rfl
      · next hle =>
          obtain ⟨hfront, hvalue⟩ := ih (n / 16) (by omega)
          have hdigit := digitValue?_digitChar (Nat.mod_lt n (by decide : 0 < 16))
          constructor
          · rw [List.forall_mem_append, List.forall_mem_singleton, hdigit]
            exact ⟨hfront, rfl⟩
          · rw [digitsValue_concat, hvalue, hdigit, Option.getD_some, Nat.mul_comm]
            exact Nat.div_add_mod n 16

/-! ### One character -/

/-- The character that a letter behind a backslash stands for. -/
def shortForm : Char → Char
  | 'n' => '\n'
  | 't' => '\t'
  | 'r' => '\r'
  | '0' => '\x00'
  | c => c

/-- The first character of a text between quotes, and what stands behind its form. -/
def readQuoted : List Char → Option (Char × List Char)
  | '\\' :: 'u' :: '\x7b' :: rest =>
      (cut ['\x7d'] rest).map fun p => (Char.ofNat (digitsValue 16 p.1), p.2)
  | '\\' :: c :: rest => some (shortForm c, rest)
  | c :: rest => some (c, rest)
  | [] => none

/-- **The form of a character tells the character.** -/
theorem readQuoted_quotedChar (c : Char) (rest : List Char) :
    readQuoted (quotedChar c ++ rest) = some (c, rest) := by
  unfold quotedChar
  split
  case h_7 hbackslash _ _ _ _ =>
    split
    · -- The number ends at the first closing brace, since no digit is one.
      obtain ⟨hdigits, hvalue⟩ := digits_toDigits c.toNat
      have hbrace : '\x7d' ∉ Nat.toDigits 16 c.toNat :=
        fun hmem => absurd (hdigits _ hmem) (by decide)
      have hcut := cut_singleton hbrace rest
      simp only [List.cons_append, List.nil_append, List.append_assoc] at hcut ⊢
      rw [readQuoted, hcut, Option.map_some, hvalue, Char.ofNat_toNat]
    · rw [List.singleton_append]
      unfold readQuoted
      split
      · next heq => exact absurd (List.cons.inj heq).1 hbackslash
      · next heq => exact absurd (List.cons.inj heq).1 hbackslash
      · next heq =>
          obtain ⟨rfl, rfl⟩ := List.cons.inj heq
          rfl
      · next heq => cases heq
  all_goals rfl

/-- No form begins with a quote. -/
theorem quotedChar_append_ne_quote (c : Char) (rest more : List Char) :
    quotedChar c ++ rest ≠ '"' :: more := by
  unfold quotedChar
  split
  case h_7 hquote _ _ _ _ _ =>
    split
    · simp
    · intro heq
      exact hquote (List.cons.inj heq).1
  all_goals simp

/-! ### Whole texts -/

theorem toList_quoted (text : String) :
    (quoted text).toList = '"' :: (text.toList.flatMap quotedChar ++ ['"']) := by
  rw [quoted, String.toList_ofList, List.cons_append]

/-- Between the quotes a text is known by its forms, and the closing quote is the first one. -/
theorem flatMap_quotedChar_append_inj {a b rest more : List Char}
    (h : a.flatMap quotedChar ++ '"' :: rest = b.flatMap quotedChar ++ '"' :: more) :
    a = b ∧ rest = more := by
  induction a generalizing b with
  | nil =>
      cases b with
      | nil => exact ⟨rfl, (List.cons.inj h).2⟩
      | cons d b =>
          rw [List.flatMap_cons, List.append_assoc] at h
          exact absurd h.symm (quotedChar_append_ne_quote d _ _)
  | cons c a ih =>
      cases b with
      | nil =>
          rw [List.flatMap_cons, List.append_assoc] at h
          exact absurd h (quotedChar_append_ne_quote c _ _)
      | cons d b =>
          have hread := congrArg readQuoted h
          rw [List.flatMap_cons, List.flatMap_cons, List.append_assoc, List.append_assoc,
            readQuoted_quotedChar, readQuoted_quotedChar] at hread
          obtain ⟨rfl, hbehind⟩ := Prod.mk.inj (Option.some.inj hread)
          obtain ⟨rfl, hrest⟩ := ih hbehind
          exact ⟨rfl, hrest⟩

/-- **A quoted text tells the text, and where it ends.** -/
theorem quoted_append_inj {a b : String} {rest more : List Char}
    (h : (quoted a).toList ++ rest = (quoted b).toList ++ more) : a = b ∧ rest = more := by
  rw [toList_quoted, toList_quoted, List.cons_append, List.cons_append, List.append_assoc,
    List.append_assoc] at h
  obtain ⟨htext, hrest⟩ := flatMap_quotedChar_append_inj (List.cons.inj h).2
  exact ⟨String.toList_inj.1 htext, hrest⟩

end ViewCompiler
