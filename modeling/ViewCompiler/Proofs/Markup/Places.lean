/-
**Places in a text and the bytes at them.**

A byte without its top bit is a character of its own, and every other byte belongs to a longer
character.  So looking for such a character at a byte offset finds it exactly where the text has it:
at a place the character decides, and between the bytes of a longer character nothing is found.

Main definitions:

* `ViewCompiler.charsFrom` — the characters of a text from a place on;
* `ViewCompiler.SingleByte` — a class of characters that are single bytes.

Main results:

* `ViewCompiler.asciiAt?_eq` — what is found at a place is the character there;
* `ViewCompiler.asciiAt?_inside` — **nothing is found inside a longer character**;
* `ViewCompiler.charsFrom_append`, `ViewCompiler.charsFrom_of_ne` — the text between two places, and
  one step forward.
-/

import ViewCompiler.Markup.Replacement

set_option relaxedAutoImplicit false
set_option autoImplicit false

namespace ViewCompiler

variable {text : String} {p q r : text.Pos} {h : p ≠ text.endPos} {accepts : Char → Bool}

/-! ### The byte of a short character -/

theorem ascii_of_utf8Size (hsize : (p.get h).utf8Size = 1) : p.byte h &&& 0x80 = 0 := by
  have hbyte := String.Pos.utf8ByteSize_byte (h := h)
  rw [hsize, UInt8.utf8ByteSize] at hbyte
  split at hbyte
  · assumption
  · split at hbyte
    · cases hbyte
    · split at hbyte
      · cases hbyte
      · cases hbyte

theorem utf8Size_of_ascii (hbyte : p.byte h &&& 0x80 = 0) : (p.get h).utf8Size = 1 := by
  rw [← String.Pos.utf8ByteSize_byte, UInt8.utf8ByteSize, if_pos hbyte]

theorem byte_eq_of_utf8Size (hsize : (p.get h).utf8Size = 1) :
    p.byte h = (p.get h).val.toUInt8 := by
  have hencode := p.utf8Encode_get_eq_extract h
  rw [hsize, List.utf8Encode_singleton, String.utf8EncodeChar_eq_singleton hsize] at hencode
  have hlt : p.offset.byteIdx < text.toByteArray.size := p.byteIdx_lt_utf8ByteSize h
  have hpos : 0 < (text.toByteArray.extract p.offset.byteIdx (p.offset.byteIdx + 1)).size := by
    rw [← hencode]
    exact Nat.one_pos
  calc p.byte h
    _ = text.toByteArray[p.offset.byteIdx + 0] := by
      rw [← String.Pos.getUTF8Byte_offset, String.getUTF8Byte_eq_getElem]
      rfl
    _ = (text.toByteArray.extract p.offset.byteIdx (p.offset.byteIdx + 1))[0] :=
      (ByteArray.getElem_extract hpos).symm
    _ = (p.get h).val.toUInt8 := by
      simp only [← hencode]
      rfl

/-- The byte of a character that is a single byte is its number. -/
theorem ofUInt8_byte (hsize : (p.get h).utf8Size = 1) : Char.ofUInt8 (p.byte h) = p.get h := by
  have hval : (p.get h).val.toNat ≤ 127 :=
    UInt32.le_iff_toNat_le.mp (Char.utf8Size_eq_one_iff.mp hsize)
  have hnumber (byte : UInt8) : (Char.ofUInt8 byte).val = byte.toUInt32 := rfl
  apply Char.ext
  apply UInt32.toNat_inj.mp
  rw [byte_eq_of_utf8Size hsize, hnumber, UInt8.toNat_toUInt32, UInt32.toNat_toUInt8]
  omega

/-! ### What is found at a byte offset -/

/-- At a place, the character there is found if it is a single byte and belongs to the class. -/
theorem asciiAt?_eq (p : text.Pos) (h : p ≠ text.endPos) :
    asciiAt? text accepts p.offset.byteIdx =
      if (p.get h).utf8Size = 1 ∧ accepts (p.get h) = true then some ⟨p, h⟩ else none := by
  have hlt := p.byteIdx_lt_utf8ByteSize h
  have hbyte : text.getUTF8Byte ⟨p.offset.byteIdx⟩ hlt = p.byte h :=
    String.Pos.getUTF8Byte_offset
  rw [asciiAt?, dif_pos hlt]
  simp only [hbyte]
  by_cases hsize : (p.get h).utf8Size = 1
  · rw [dif_pos (ascii_of_utf8Size hsize), ofUInt8_byte hsize]
    simp only [hsize, true_and]
  · rw [dif_neg fun hascii => hsize (utf8Size_of_ascii hascii), if_neg fun hboth => hsize hboth.1]

theorem asciiAt?_endPos : asciiAt? text accepts text.endPos.offset.byteIdx = none := by
  rw [asciiAt?, dif_neg]
  exact Nat.lt_irrefl _

theorem asciiAt?_of_eq {c : Char} (hsize : c.utf8Size = 1) (hget : p.get h = c) :
    asciiAt? text (· == c) p.offset.byteIdx = some ⟨p, h⟩ := by
  rw [asciiAt?_eq p h, hget, if_pos ⟨hsize, beq_self_eq_true c⟩]

theorem asciiAt?_of_not (haccepts : accepts (p.get h) = false) :
    asciiAt? text accepts p.offset.byteIdx = none := by
  rw [asciiAt?_eq p h, haccepts, if_neg fun hboth => Bool.false_ne_true hboth.2]

theorem asciiAt?_of_ne {c : Char} (hget : p.get h ≠ c) :
    asciiAt? text (· == c) p.offset.byteIdx = none :=
  asciiAt?_of_not (h := h) (beq_false_of_ne hget)

/-- The characters of a class are single bytes. -/
def SingleByte (accepts : Char → Bool) : Prop :=
  ∀ c, accepts c = true → c.utf8Size = 1

theorem asciiAt?_of_accepts (hsingle : SingleByte accepts) (haccepts : accepts (p.get h) = true) :
    asciiAt? text accepts p.offset.byteIdx = some ⟨p, h⟩ := by
  rw [asciiAt?_eq p h, if_pos ⟨hsingle _ haccepts, haccepts⟩]

theorem offset_next (hsize : (p.get h).utf8Size = 1) :
    (p.next h).offset.byteIdx = p.offset.byteIdx + 1 := by
  rw [String.Pos.byteIdx_offset_next, hsize]

/-- Nothing is found inside a longer character: whatever is found lies at a place, and there is no
place between a character and the next. -/
theorem asciiAt?_inside {i : Nat} (hlow : p.offset.byteIdx < i)
    (hhigh : i < (p.next h).offset.byteIdx) : asciiAt? text accepts i = none := by
  rw [Option.eq_none_iff_forall_ne_some]
  intro a ha
  have hoffset := offset_of_asciiAt? ha
  have hbefore : p < a.place := by
    rw [String.Pos.lt_iff, String.Pos.Raw.lt_iff]
    omega
  have hbehind := String.Pos.next_le_of_lt (h := h) hbefore
  rw [String.Pos.le_iff, String.Pos.Raw.le_iff] at hbehind
  omega

/-! ### The text between two places -/

theorem extract_append (hpq : p ≤ q) (hqr : q ≤ r) :
    text.extract p q ++ text.extract q r = text.extract p r := by
  apply String.toByteArray_inj.mp
  rw [String.toByteArray_append, String.toByteArray_extract, String.toByteArray_extract,
    String.toByteArray_extract]
  exact (ByteArray.extract_eq_extract_append_extract _ hpq hqr).symm

theorem extract_self (p : text.Pos) : text.extract p p = "" := by
  apply String.toByteArray_inj.mp
  simp

theorem extract_next (p : text.Pos) (h : p ≠ text.endPos) :
    text.extract p (p.next h) = String.singleton (p.get h) := by
  rw [String.extract_eq_copy_slice p (p.next h) String.Pos.le_next, String.copy_slice_next]

theorem extract_startPos_endPos : text.extract text.startPos text.endPos = text := by
  rw [String.extract_eq_copy_slice _ _ (String.Pos.startPos_le _)]
  simp

/-- The characters of the text from a place on. -/
def charsFrom (p : text.Pos) : List Char :=
  (text.extract p text.endPos).toList

theorem charsFrom_startPos : charsFrom text.startPos = text.toList := by
  rw [charsFrom, extract_startPos_endPos]

theorem charsFrom_endPos : charsFrom text.endPos = [] := by
  rw [charsFrom, extract_self, String.toList_empty]

theorem charsFrom_append (hpq : p ≤ q) :
    (text.extract p q).toList ++ charsFrom q = charsFrom p := by
  rw [charsFrom, charsFrom, ← String.toList_append, extract_append hpq q.le_endPos]

theorem charsFrom_of_ne (p : text.Pos) (h : p ≠ text.endPos) :
    charsFrom p = p.get h :: charsFrom (p.next h) := by
  rw [← charsFrom_append (p.le_next (h := h)), extract_next, String.toList_singleton,
    List.singleton_append]

end ViewCompiler
