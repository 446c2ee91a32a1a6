/-
**Character references.**

In text and in attribute values, `&name;` stands for one of six characters, `&#digits;` and
`&#xdigits;` for a character by its number.  A number has at most seven decimal or six hexadecimal
digits and must belong to a character.  Whatever is not such a reference stays as it is, and what
a reference stands for is not read again.

Main definitions:

* `ViewCompiler.namedReferences` — the six names;
* `ViewCompiler.reference?` — the reference behind an ampersand;
* `ViewCompiler.decode` — a text with its references replaced.
-/

import ViewCompiler.Text.Cursor

set_option autoImplicit false

namespace ViewCompiler

/-- The characters that can be referred to by name, with what follows the ampersand. -/
def namedReferences : List (List Char × Char) :=
  [("amp;".toList, '&'), ("lt;".toList, '<'), ("gt;".toList, '>'), ("quot;".toList, '"'),
    ("apos;".toList, '\''), ("nbsp;".toList, '\u00a0')]

/-- The value of a digit in a base up to sixteen, in either case. -/
def digitValue? (base : Nat) (c : Char) : Option Nat :=
  let value? :=
    if '0' ≤ c && c ≤ '9' then some (c.toNat - '0'.toNat)
    else if 'a' ≤ c && c ≤ 'f' then some (c.toNat - 'a'.toNat + 10)
    else if 'A' ≤ c && c ≤ 'F' then some (c.toNat - 'A'.toNat + 10)
    else none
  value?.filter (· < base)

/-- The number that a run of digits denotes. -/
def digitsValue (base : Nat) (digits : List Char) : Nat :=
  digits.foldl (fun n c => n * base + (digitValue? base c).getD 0) 0

theorem digitsValue_concat (base : Nat) (digits : List Char) (c : Char) :
    digitsValue base (digits ++ [c]) =
      digitsValue base digits * base + (digitValue? base c).getD 0 := by
  rw [digitsValue, List.foldl_append]
  rfl

/-- The character with a given number, if there is one. -/
def scalar? (n : Nat) : Option Char :=
  if n.isValidChar then some (Char.ofNat n) else none

/-- A reference by number, from its first digit on: the digits, of which there are between one and
`limit`, and a semicolon. -/
def numberReference? (base limit : Nat) (text : List Char) : Option (Char × List Char) :=
  let digits := text.takeWhile fun c => (digitValue? base c).isSome
  match text.dropWhile fun c => (digitValue? base c).isSome with
  | ';' :: rest =>
      if digits.isEmpty || limit < digits.length then none
      else (scalar? (digitsValue base digits)).map fun c => (c, rest)
  | _ => none

/-- The reference whose ampersand has just been read, and the text behind it. -/
def reference? (text : List Char) : Option (Char × List Char) :=
  match namedReferences.findSome? fun named =>
      (named.1.isPrefixOf? text).map fun rest => (named.2, rest) with
  | some found => some found
  | none =>
      match text with
      | '#' :: 'x' :: rest => numberReference? 16 6 rest
      | '#' :: 'X' :: rest => numberReference? 16 6 rest
      | '#' :: rest => numberReference? 10 7 rest
      | _ => none

theorem numberReference?_length_lt {base limit : Nat} {text rest : List Char} {c : Char}
    (h : numberReference? base limit text = some (c, rest)) : rest.length < text.length := by
  simp only [numberReference?] at h
  split at h
  · next rest' hdrop =>
      split at h
      · simp at h
      · obtain ⟨_, _, heq⟩ := Option.map_eq_some_iff.mp h
        obtain ⟨_, rfl⟩ : _ ∧ rest' = rest := by simpa using heq
        have hsuffix : List.dropWhile (fun c => (digitValue? base c).isSome) text <:+ text :=
          List.dropWhile_suffix _
        have := hsuffix.length_le
        rw [hdrop] at this
        simp at this
        omega
  · simp at h

theorem reference?_length_lt {text rest : List Char} {c : Char}
    (h : reference? text = some (c, rest)) : rest.length < text.length := by
  simp only [reference?] at h
  split at h
  · next found hfound =>
      obtain ⟨named, hmem, hnamed⟩ := List.exists_of_findSome?_eq_some hfound
      obtain ⟨rest', hp, heq⟩ := Option.map_eq_some_iff.mp hnamed
      obtain rfl : found = (c, rest) := by simpa using h
      obtain ⟨_, rfl⟩ : named.2 = c ∧ rest' = rest := by simpa using heq
      have hlen := congrArg List.length (isPrefixOf?_eq_append hp)
      have hpos : 0 < named.1.length := by
        revert hmem
        simp only [namedReferences, List.mem_cons, List.not_mem_nil, or_false]
        rintro (rfl | rfl | rfl | rfl | rfl | rfl) <;> decide
      simp only [List.length_append] at hlen
      omega
  · split at h
    · have := numberReference?_length_lt h
      simp; omega
    · have := numberReference?_length_lt h
      simp; omega
    · have := numberReference?_length_lt h
      simp; omega
    · simp at h

/-- The text with every reference replaced by its character. -/
def decode : List Char → List Char
  | [] => []
  | '&' :: text =>
      match _ : reference? text with
      | some (c, rest) => c :: decode rest
      | none => '&' :: decode text
  | c :: text => c :: decode text
termination_by text => text.length
decreasing_by
  · have := reference?_length_lt ‹reference? _ = _›
    simp; omega
  · simp
  · simp

end ViewCompiler
