/-
**Replacing character references.**

The references in a text are looked for byte by byte.  Ampersands, semicolons, digits and the
letters of names are single bytes, and no byte of a longer character is one of them, so whatever
is found at a byte is a character, and the places before and behind it lie between characters.
What stands between two references is copied in one piece, when the second of them has been read.

Main definitions:

* `ViewCompiler.Ascii`, `ViewCompiler.asciiAt?` — a character that is a single byte, found at a
  byte offset;
* `ViewCompiler.markerEnd?`, `ViewCompiler.numberEnd?` — the last character of a marker, and the
  semicolon behind a number;
* `ViewCompiler.referenceAt?` — the reference whose ampersand is at a byte offset;
* `ViewCompiler.replaceReferences` — a text with its references replaced.
-/

import ViewCompiler.Markup.Reference

set_option autoImplicit false

namespace ViewCompiler

/-! ### Single bytes -/

/-- A place in a text at which a character of a single byte stands. -/
structure Ascii (text : String) where
  place : text.Pos
  inside : place ≠ text.endPos

/-- The place behind the character. -/
def Ascii.behind {text : String} (a : Ascii text) : text.Pos :=
  a.place.next a.inside

/-- A byte without its top bit is the first of a character. -/
theorem isValid_of_ascii {text : String} {i : Nat} {h : i < text.utf8ByteSize}
    (hbyte : text.getUTF8Byte ⟨i⟩ h &&& 0x80 = 0) : (⟨i⟩ : String.Pos.Raw).IsValid text :=
  String.Pos.Raw.isValid_iff_isUTF8FirstByte.mpr (.inr ⟨h, .inl hbyte⟩)

theorem ne_endPos_of_lt {text : String} {p : text.Pos}
    (h : p.offset.byteIdx < text.utf8ByteSize) : p ≠ text.endPos := by
  rintro rfl
  exact Nat.lt_irrefl _ h

/-- The character at a byte offset, if it is a single byte and belongs to the class. -/
def asciiAt? (text : String) (accepts : Char → Bool) (i : Nat) : Option (Ascii text) :=
  if h : i < text.utf8ByteSize then
    let byte := text.getUTF8Byte ⟨i⟩ h
    if hbyte : byte &&& 0x80 = 0 then
      if accepts (Char.ofUInt8 byte) then
        some ⟨⟨⟨i⟩, isValid_of_ascii hbyte⟩, ne_endPos_of_lt h⟩
      else none
    else none
  else none

theorem offset_lt_next {text : String} (p : text.Pos) (h : p ≠ text.endPos) :
    p.offset.byteIdx < (p.next h).offset.byteIdx :=
  String.Pos.Raw.lt_iff.mp (String.Pos.lt_iff.mp String.Pos.lt_next)

theorem Ascii.place_lt_behind {text : String} (a : Ascii text) :
    a.place.offset.byteIdx < a.behind.offset.byteIdx :=
  offset_lt_next a.place a.inside

theorem offset_of_asciiAt? {text : String} {accepts : Char → Bool} {i : Nat} {a : Ascii text}
    (h : asciiAt? text accepts i = some a) : a.place.offset.byteIdx = i := by
  simp only [asciiAt?] at h
  split at h
  · split at h
    · split at h
      · cases h
        rfl
      · cases h
    · cases h
  · cases h

/-! ### References -/

/-- The last character of a marker that is not empty, if the marker stands at a byte offset. -/
def markerEnd? (text : String) : List Char → Nat → Option (Ascii text)
  | [], _ => none
  | [c], i => asciiAt? text (· == c) i
  | c :: cs, i => (asciiAt? text (· == c) i).bind fun _ => markerEnd? text cs (i + 1)

theorem le_of_markerEnd? {text : String} {marker : List Char} {i : Nat} {a : Ascii text}
    (h : markerEnd? text marker i = some a) : i ≤ a.place.offset.byteIdx := by
  fun_induction markerEnd? text marker i with
  | case1 => cases h
  | case2 c i => exact Nat.le_of_eq (offset_of_asciiAt? h).symm
  | case3 i c cs _ ih =>
      obtain ⟨_, _, hrest⟩ := Option.bind_eq_some_iff.mp h
      exact Nat.le_of_succ_le (ih hrest)

/-- The semicolon behind a number that begins at the offset `start` and whose digits have been read
up to the offset `i`: there is a digit before it, and there are at most `limit`. -/
def numberEnd? (text : String) (base limit start i : Nat) : Option (Ascii text) :=
  if i < text.utf8ByteSize ∧ i - start ≤ limit then
    match asciiAt? text (· == ';') i with
    | some semicolon => if start < i then some semicolon else none
    | none =>
        match asciiAt? text (fun c => (digitValue? base c).isSome) i with
        | some _ => numberEnd? text base limit start (i + 1)
        | none => none
  else none
termination_by text.utf8ByteSize - i

theorem le_of_numberEnd? {text : String} {base limit start i : Nat} {a : Ascii text}
    (h : numberEnd? text base limit start i = some a) : i ≤ a.place.offset.byteIdx := by
  fun_induction numberEnd? text base limit start i with
  | case1 i _ semicolon hsemicolon =>
      cases h
      exact Nat.le_of_eq (offset_of_asciiAt? hsemicolon).symm
  | case2 => cases h
  | case3 i _ _ _ _ ih => exact Nat.le_of_succ_le (ih h)
  | case4 => cases h
  | case5 => cases h

/-- What stands behind the plus sign of a number, if it has one. -/
def unsigned : List Char → List Char
  | '+' :: digits => digits
  | digits => digits

/-- The number that a text denotes, if it is one of 32 bits; a plus sign may stand before its
digits. -/
def word? (base : Nat) (text : List Char) : Option Nat :=
  let digits := unsigned text
  if digits.isEmpty || !digits.all fun c => (digitValue? base c).isSome then none
  else (some (digitsValue base digits)).filter (· < UInt32.size)

/-- The reference by the number that begins at a place, with its semicolon. -/
def numberFrom? (text : String) (base limit : Nat) (start : text.Pos) :
    Option (Char × Ascii text) :=
  (numberEnd? text base limit start.offset.byteIdx start.offset.byteIdx).bind fun semicolon =>
    ((word? base (text.extract start semicolon.place).toList).bind scalar?).map fun c =>
      (c, semicolon)

theorem le_of_numberFrom? {text : String} {base limit : Nat} {start : text.Pos} {c : Char}
    {semicolon : Ascii text} (h : numberFrom? text base limit start = some (c, semicolon)) :
    start.offset.byteIdx ≤ semicolon.place.offset.byteIdx := by
  obtain ⟨_, hend, hchar⟩ := Option.bind_eq_some_iff.mp h
  obtain ⟨_, _, heq⟩ := Option.map_eq_some_iff.mp hchar
  cases heq
  exact le_of_numberEnd? hend

/-- The reference by name whose ampersand is at a byte offset, with its semicolon. -/
def nameAt? (text : String) (i : Nat) : Option (Char × Ascii text) :=
  namedReferences.findSome? fun named =>
    (markerEnd? text named.1 (i + 1)).map fun semicolon => (named.2, semicolon)

/-- The reference by number whose ampersand is at a byte offset, with its semicolon: at most six
hexadecimal or seven decimal digits, as the largest character needs them. -/
def numberAt? (text : String) (i : Nat) : Option (Char × Ascii text) :=
  (asciiAt? text (· == '#') (i + 1)).bind fun hash =>
    match asciiAt? text (fun c => c == 'x' || c == 'X') (i + 2) with
    | some mark => numberFrom? text 16 6 mark.behind
    | none => numberFrom? text 10 7 hash.behind

/-- The reference whose ampersand is at a byte offset, with its semicolon. -/
def referenceAt? (text : String) (i : Nat) : Option (Char × Ascii text) :=
  (nameAt? text i).or (numberAt? text i)

/-! ### The text with its references replaced -/

/-- The semicolon is behind the ampersand. -/
theorem lt_of_referenceAt? {text : String} {i : Nat} {c : Char} {semicolon : Ascii text}
    (h : referenceAt? text i = some (c, semicolon)) : i < semicolon.behind.offset.byteIdx := by
  suffices i < semicolon.place.offset.byteIdx from Nat.lt_trans this semicolon.place_lt_behind
  rcases Option.or_eq_some_iff.mp h with hname | ⟨-, hnumber⟩
  · obtain ⟨_, _, hnamed⟩ := List.exists_of_findSome?_eq_some hname
    obtain ⟨_, hend, heq⟩ := Option.map_eq_some_iff.mp hnamed
    cases heq
    exact le_of_markerEnd? hend
  · obtain ⟨hash, hhash, hnumber⟩ := Option.bind_eq_some_iff.mp hnumber
    have hoffset := offset_of_asciiAt? hhash
    split at hnumber
    · next mark hmark =>
        have := offset_of_asciiAt? hmark
        have := mark.place_lt_behind
        have := le_of_numberFrom? hnumber
        omega
    · have := hash.place_lt_behind
      have := le_of_numberFrom? hnumber
      omega

/-- The replaced text, when the bytes before the offset `i` have been looked at, `out` is what
stands for the text before `copied`, and what stands between `copied` and `i` is yet to be
copied. -/
def replaceFrom (text : String) (i : Nat) (copied : text.Pos) (out : String) : String :=
  if i < text.utf8ByteSize then
    match asciiAt? text (· == '&') i with
    | none => replaceFrom text (i + 1) copied out
    | some ampersand =>
        match _ : referenceAt? text i with
        | some (c, semicolon) =>
            replaceFrom text semicolon.behind.offset.byteIdx semicolon.behind
              ((out ++ text.extract copied ampersand.place).push c)
        | none => replaceFrom text (i + 1) copied out
  else out ++ text.extract copied text.endPos
termination_by text.utf8ByteSize - i
decreasing_by
  · omega
  · have := lt_of_referenceAt? ‹referenceAt? _ _ = _›
    omega
  · omega

/-- The text with every reference replaced by its character. -/
def replaceReferences (text : String) : String :=
  if '&' ∈ text.toList then replaceFrom text 0 text.startPos "" else text

end ViewCompiler
