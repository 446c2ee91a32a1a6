/-
**Replacing references is decoding.**

References are replaced by a scan over the bytes of a text, decoding is a recursion over its
characters, and both come to the same.  The scan and the recursion agree reference by reference:
what is found at the byte of an ampersand is what is read behind it, with the same text behind its
semicolon.  Between references the scan copies nothing; it holds on to the place behind the last
one, so what it still has to copy is always the text between that place and the one it has come to.

Main definitions:

* `ViewCompiler.numberBehind?` — the rest of a number whose first digits have been passed;
* `ViewCompiler.numbered?` — the part of a reference that is by number.

Main results:

* `ViewCompiler.markerEnd?_eq`, `ViewCompiler.numberEnd?_eq` — markers and numbers are found where
  the text goes on with them;
* `ViewCompiler.referenceAt?_eq` — what is found at an ampersand is what is read behind it;
* `ViewCompiler.replaceFrom_eq` — what the scan has written and what it still writes, at each of its
  places;
* `ViewCompiler.replaceReferences_eq` — **replacing the references of a text decodes it**.
-/

import Mathlib.Algebra.Group.Nat.Defs
import ViewCompiler.Proofs.Markup.Decoding
import ViewCompiler.Proofs.Markup.Places

set_option relaxedAutoImplicit false
set_option autoImplicit false

namespace ViewCompiler

variable {text : String}

/-! ### Names -/

theorem isPrefixOf?_cons (m c : Char) (ms cs : List Char) :
    (m :: ms).isPrefixOf? (c :: cs) = if m == c then ms.isPrefixOf? cs else none := rfl

/-- The place of the last character of a marker is kept. -/
theorem markerEnd?_cons (c : Char) (cs : List Char) (i : Nat) :
    markerEnd? text (c :: cs) i =
      (asciiAt? text (· == c) i).bind fun a =>
        if cs = [] then some a else markerEnd? text cs (i + 1) := by
  cases cs with
  | nil => simp [markerEnd?]
  | cons d ds => simp [markerEnd?]

/-- A marker of single bytes is found exactly where the text goes on with it. -/
theorem markerEnd?_eq {marker : List Char} (hmarker : marker ≠ [])
    (hsize : ∀ c ∈ marker, c.utf8Size = 1) (p : text.Pos) :
    (markerEnd? text marker p.offset.byteIdx).map (fun a => charsFrom a.behind) =
      marker.isPrefixOf? (charsFrom p) := by
  induction marker generalizing p with
  | nil => exact absurd rfl hmarker
  | cons c cs ih =>
      have hc := hsize c List.mem_cons_self
      have hcs := fun d hd => hsize d (List.mem_cons_of_mem _ hd)
      rw [markerEnd?_cons]
      by_cases h : p = text.endPos
      · rw [h, asciiAt?_endPos, charsFrom_endPos]
        rfl
      rw [charsFrom_of_ne p h, isPrefixOf?_cons]
      by_cases hget : p.get h = c
      · rw [asciiAt?_of_eq hc hget, hget, beq_self_eq_true, if_pos rfl, Option.bind_some]
        by_cases hnil : cs = []
        · rw [if_pos hnil, hnil]
          rfl
        · rw [if_neg hnil, ← offset_next (h := h) (by rw [hget, hc])]
          exact ih hnil hcs _
      · rw [asciiAt?_of_ne hget, beq_false_of_ne (Ne.symm hget)]
        rfl

theorem findSome?_congr {α β : Type} {f g : α → Option β} {l : List α} (h : ∀ x ∈ l, f x = g x) :
    l.findSome? f = l.findSome? g := by
  induction l with
  | nil => rfl
  | cons x xs ih =>
      rw [List.findSome?_cons, List.findSome?_cons, h x List.mem_cons_self,
        ih fun y hy => h y (List.mem_cons_of_mem _ hy)]

theorem nameAt?_eq {p : text.Pos} {h : p ≠ text.endPos} (hamp : p.get h = '&') :
    (nameAt? text p.offset.byteIdx).map (fun found => (found.1, charsFrom found.2.behind)) =
      namedReferences.findSome? fun named =>
        (named.1.isPrefixOf? (charsFrom (p.next h))).map fun rest => (named.2, rest) := by
  have hsingle : ∀ named ∈ namedReferences,
      named.1 ≠ [] ∧ named.1.all (fun c => c.utf8Size == 1) = true := by
    decide
  rw [nameAt?, List.map_findSome?, ← offset_next (h := h) (by rw [hamp]; rfl)]
  apply findSome?_congr
  intro named hnamed
  obtain ⟨hmarker, hall⟩ := hsingle named hnamed
  have hsize : ∀ c ∈ named.1, c.utf8Size = 1 :=
    fun c hc => beq_iff_eq.mp (List.all_eq_true.mp hall c hc)
  rw [← markerEnd?_eq hmarker hsize, Function.comp_apply, Option.map_map, Option.map_map]
  rfl

/-! ### Digits -/

/-- The characters that are digits of a base. -/
abbrev isDigitOf (base : Nat) (c : Char) : Bool :=
  (digitValue? base c).isSome

theorem toNat_lt_of_le {c d : Char} (hle : c ≤ d) (hd : d.toNat < 128) : c.toNat < 128 :=
  Nat.lt_of_le_of_lt (UInt32.le_iff_toNat_le.mp hle) hd

theorem digitValue?_bounds {base v : Nat} {c : Char} (h : digitValue? base c = some v) :
    c.toNat < 128 ∧ v < base := by
  obtain ⟨hvalue, hlt⟩ := Option.filter_eq_some_iff.mp h
  refine ⟨?_, of_decide_eq_true hlt⟩
  split at hvalue
  · next hrange =>
      exact toNat_lt_of_le (of_decide_eq_true (Bool.and_eq_true_iff.mp hrange).2) (by decide)
  · split at hvalue
    · next hrange =>
        exact toNat_lt_of_le (of_decide_eq_true (Bool.and_eq_true_iff.mp hrange).2) (by decide)
    · split at hvalue
      · next hrange =>
          exact toNat_lt_of_le (of_decide_eq_true (Bool.and_eq_true_iff.mp hrange).2) (by decide)
      · cases hvalue

theorem singleByte_isDigitOf (base : Nat) : SingleByte (isDigitOf base) := by
  intro c hc
  obtain ⟨v, hv⟩ := Option.isSome_iff_exists.mp hc
  rw [Char.utf8Size_eq_one_iff, UInt32.le_iff_toNat_le]
  exact Nat.le_of_lt_succ (digitValue?_bounds hv).1

theorem isDigitOf_semicolon (base : Nat) : isDigitOf base ';' = false := rfl

theorem isDigitOf_plus (base : Nat) : isDigitOf base '+' = false := rfl

theorem digitsValue_lt {base : Nat} (hbase : 0 < base) (digits : List Char) :
    digitsValue base digits < base ^ digits.length := by
  induction digits using List.reverseRecOn with
  | nil => exact Nat.one_pos
  | append_singleton digits c ih =>
      have hvalue : (digitValue? base c).getD 0 < base := by
        cases hc : digitValue? base c with
        | none => exact hbase
        | some v => exact (digitValue?_bounds hc).2
      rw [digitsValue_concat, List.length_append, List.length_singleton, Nat.pow_succ]
      calc digitsValue base digits * base + (digitValue? base c).getD 0
        _ < digitsValue base digits * base + base := Nat.add_lt_add_left hvalue _
        _ = (digitsValue base digits + 1) * base := (Nat.succ_mul _ _).symm
        _ ≤ base ^ digits.length * base := Nat.mul_le_mul_right base ih

theorem unsigned_of_digits {base : Nat} {digits : List Char}
    (h : ∀ c ∈ digits, isDigitOf base c = true) : unsigned digits = digits := by
  cases digits with
  | nil => rfl
  | cons c digits =>
      have hc : c ≠ '+' := ne_of_class (h c List.mem_cons_self) (isDigitOf_plus base)
      rw [unsigned]
      rintro more ⟨⟩
      exact hc rfl

/-- As many digits as a reference may have never denote a number that is too large to be held. -/
theorem word?_digits {base limit : Nat} {digits : List Char} (hbase : 0 < base)
    (hlimit : base ^ limit ≤ UInt32.size) (hdigits : ∀ c ∈ digits, isDigitOf base c = true)
    (hne : digits ≠ []) (hlength : digits.length ≤ limit) :
    word? base digits = some (digitsValue base digits) := by
  have hsmall : digitsValue base digits < UInt32.size :=
    calc digitsValue base digits
      _ < base ^ digits.length := digitsValue_lt hbase digits
      _ ≤ base ^ limit := Nat.pow_le_pow_right hbase hlength
      _ ≤ UInt32.size := hlimit
  have hempty : digits.isEmpty = false := List.isEmpty_eq_false_iff.mpr hne
  have hall : digits.all (isDigitOf base) = true := List.all_eq_true.mpr hdigits
  simp only [word?, unsigned_of_digits hdigits, hempty, hall]
  rw [if_neg (by decide), Option.filter_some, if_pos (decide_eq_true hsmall)]

/-! ### Numbers, character by character -/

/-- The digits of a number whose first digits have been passed, and what is behind its
semicolon. -/
def numberBehind? (base limit : Nat) (passed rest : List Char) : Option (List Char × List Char) :=
  match rest.dropWhile (isDigitOf base) with
  | ';' :: behind =>
      let digits := passed ++ rest.takeWhile (isDigitOf base)
      if digits.isEmpty || limit < digits.length then none else some (digits, behind)
  | _ => none

section NumberBehind

variable {base limit : Nat} {passed rest : List Char} {c : Char}

theorem numberBehind?_semicolon :
    numberBehind? base limit passed (';' :: rest) =
      if passed.isEmpty || limit < passed.length then none else some (passed, rest) := by
  have hstop : ¬ isDigitOf base ';' = true := by
    rw [isDigitOf_semicolon]
    exact Bool.false_ne_true
  rw [numberBehind?, List.dropWhile_cons_of_neg hstop, List.takeWhile_cons_of_neg hstop]
  simp only [List.append_nil]

theorem numberBehind?_digit (hc : isDigitOf base c = true) :
    numberBehind? base limit passed (c :: rest) =
      numberBehind? base limit (passed ++ [c]) rest := by
  rw [numberBehind?, numberBehind?, List.dropWhile_cons_of_pos hc, List.takeWhile_cons_of_pos hc,
    List.append_assoc, List.singleton_append]

theorem numberBehind?_other (hc : isDigitOf base c = false) (hsemicolon : c ≠ ';') :
    numberBehind? base limit passed (c :: rest) = none := by
  have hstop : ¬ isDigitOf base c = true := by
    rw [hc]
    exact Bool.false_ne_true
  rw [numberBehind?, List.dropWhile_cons_of_neg hstop]
  split
  · next heq => exact absurd (List.cons.inj heq).1 hsemicolon
  · rfl

theorem numberBehind?_long (h : limit < passed.length) :
    numberBehind? base limit passed rest = none := by
  rw [numberBehind?]
  split
  · dsimp only
    rw [if_pos]
    rw [Bool.or_eq_true, decide_eq_true_eq, List.length_append]
    exact Or.inr (by omega)
  · rfl

/-- The rest of a number is read up to the first semicolon, if there are digits before it and
nothing else. -/
theorem numberBehind?_eq_some_iff {digits behind : List Char} :
    numberBehind? base limit [] rest = some (digits, behind) ↔
      digits ≠ [] ∧ digits.length ≤ limit ∧ (∀ c ∈ digits, isDigitOf base c = true) ∧
        rest = digits ++ ';' :: behind := by
  rw [numberBehind?, List.nil_append]
  constructor
  · intro h
    split at h
    · next hdrop =>
        dsimp only at h
        split at h
        · cases h
        · next hfits =>
            cases h
            rw [Bool.or_eq_true, not_or, List.isEmpty_iff, decide_eq_true_eq, Nat.not_lt] at hfits
            refine ⟨hfits.1, hfits.2, List.all_eq_true.1 List.all_takeWhile, ?_⟩
            rw [← hdrop, List.takeWhile_append_dropWhile]
    · cases h
  · rintro ⟨hne, hlength, hdigits, rfl⟩
    have hstop : ∀ c ∈ (';' :: behind).head?, isDigitOf base c = false := by
      rintro c ⟨⟩
      exact isDigitOf_semicolon base
    rw [takeWhile_append_of_head hdigits hstop, dropWhile_append_of_head hdigits hstop]
    have hfits : ¬ (digits.isEmpty || limit < digits.length) = true := by
      rw [Bool.or_eq_true, not_or, List.isEmpty_iff, decide_eq_true_eq, Nat.not_lt]
      exact ⟨hne, hlength⟩
    exact if_neg hfits

end NumberBehind

theorem numberReference?_eq (base limit : Nat) (rest : List Char) :
    numberReference? base limit rest =
      (numberBehind? base limit [] rest).bind fun found =>
        (scalar? (digitsValue base found.1)).map fun c => (c, found.2) := by
  change (match rest.dropWhile (isDigitOf base) with
    | ';' :: behind =>
        if (rest.takeWhile (isDigitOf base)).isEmpty ||
            limit < (rest.takeWhile (isDigitOf base)).length then none
        else (scalar? (digitsValue base (rest.takeWhile (isDigitOf base)))).map fun c =>
          (c, behind)
    | _ => none) = _
  rw [numberBehind?]
  split
  · rw [List.nil_append]
    dsimp only
    split
    · rfl
    · rfl
  · rfl

/-! ### Numbers, byte by byte -/

section NumberEnd

variable {base limit start : Nat} {p : text.Pos} {h : p ≠ text.endPos}

theorem numberEnd?_long (hlong : limit < p.offset.byteIdx - start) :
    numberEnd? text base limit start p.offset.byteIdx = none := by
  rw [numberEnd?, if_neg fun hboth => Nat.not_lt_of_le hboth.2 hlong]

theorem numberEnd?_endPos :
    numberEnd? text base limit start text.endPos.offset.byteIdx = none := by
  rw [numberEnd?, if_neg fun hboth => ne_endPos_of_lt hboth.1 rfl]

theorem numberEnd?_semicolon (hroom : p.offset.byteIdx - start ≤ limit) (hget : p.get h = ';') :
    numberEnd? text base limit start p.offset.byteIdx =
      if start < p.offset.byteIdx then some ⟨p, h⟩ else none := by
  rw [numberEnd?, if_pos ⟨p.byteIdx_lt_utf8ByteSize h, hroom⟩, asciiAt?_of_eq rfl hget]

theorem numberEnd?_digit (hroom : p.offset.byteIdx - start ≤ limit)
    (hdigit : isDigitOf base (p.get h) = true) :
    numberEnd? text base limit start p.offset.byteIdx =
      numberEnd? text base limit start (p.next h).offset.byteIdx := by
  have hsemicolon : p.get h ≠ ';' := ne_of_class hdigit (isDigitOf_semicolon base)
  rw [numberEnd?, if_pos ⟨p.byteIdx_lt_utf8ByteSize h, hroom⟩, asciiAt?_of_ne hsemicolon,
    offset_next (singleByte_isDigitOf base _ hdigit)]
  simp only [asciiAt?_of_accepts (h := h) (singleByte_isDigitOf base) hdigit]

theorem numberEnd?_other (hroom : p.offset.byteIdx - start ≤ limit) (hsemicolon : p.get h ≠ ';')
    (hdigit : isDigitOf base (p.get h) = false) :
    numberEnd? text base limit start p.offset.byteIdx = none := by
  rw [numberEnd?, if_pos ⟨p.byteIdx_lt_utf8ByteSize h, hroom⟩, asciiAt?_of_ne hsemicolon]
  simp only [asciiAt?_of_not (h := h) hdigit]

end NumberEnd

/-- The scan over the digits of a number finds its digits and its semicolon.  The digits that have
been passed are single bytes, so there are as many as there are bytes behind the first. -/
theorem numberEnd?_eq {base limit : Nat} {start p : text.Pos} (hstart : start ≤ p)
    (hlength : p.offset.byteIdx - start.offset.byteIdx = (text.extract start p).toList.length) :
    (numberEnd? text base limit start.offset.byteIdx p.offset.byteIdx).map
        (fun a => ((text.extract start a.place).toList, charsFrom a.behind)) =
      numberBehind? base limit (text.extract start p).toList (charsFrom p) := by
  by_cases h : p = text.endPos
  · rw [h, numberEnd?_endPos, charsFrom_endPos]
    rfl
  by_cases hlimit : limit < p.offset.byteIdx - start.offset.byteIdx
  · rw [numberEnd?_long hlimit, numberBehind?_long (hlength ▸ hlimit)]
    rfl
  have hroom := Nat.le_of_not_lt hlimit
  rw [charsFrom_of_ne p h]
  by_cases hsemicolon : p.get h = ';'
  · rw [numberEnd?_semicolon hroom hsemicolon, hsemicolon, numberBehind?_semicolon, ← hlength]
    have hpassed : (text.extract start p).toList.isEmpty = true ↔
        ¬ start.offset.byteIdx < p.offset.byteIdx := by
      rw [List.isEmpty_iff_length_eq_zero, ← hlength]
      omega
    by_cases hempty : start.offset.byteIdx < p.offset.byteIdx
    · rw [if_pos hempty, if_neg]
      · rfl
      · rw [Bool.or_eq_true, hpassed, decide_eq_true_eq]
        exact not_or_intro (not_not_intro hempty) hlimit
    · rw [if_neg hempty, if_pos]
      · rfl
      · rw [Bool.or_eq_true, hpassed]
        exact Or.inl hempty
  cases hdigit : isDigitOf base (p.get h) with
  | false =>
      rw [numberEnd?_other hroom hsemicolon hdigit, numberBehind?_other hdigit hsemicolon]
      rfl
  | true =>
      have hnext := offset_next (singleByte_isDigitOf base _ hdigit)
      have hmore : (text.extract start (p.next h)).toList =
          (text.extract start p).toList ++ [p.get h] := by
        rw [← extract_append hstart p.le_next, extract_next p h, String.toList_append,
          String.toList_singleton]
      rw [numberEnd?_digit hroom hdigit, numberBehind?_digit hdigit, ← hmore]
      refine numberEnd?_eq (Std.le_trans hstart p.le_next) ?_
      have := String.Pos.Raw.le_iff.mp (String.Pos.le_iff.mp hstart)
      rw [hnext, hmore, List.length_append, List.length_singleton, ← hlength]
      omega
termination_by text.utf8ByteSize - p.offset.byteIdx
decreasing_by
  have := p.byteIdx_lt_utf8ByteSize h
  omega

theorem numberFrom?_eq {base limit : Nat} (hbase : 0 < base) (hlimit : base ^ limit ≤ UInt32.size)
    (p : text.Pos) :
    (numberFrom? text base limit p).map (fun found => (found.1, charsFrom found.2.behind)) =
      numberReference? base limit (charsFrom p) := by
  have hend : (numberEnd? text base limit p.offset.byteIdx p.offset.byteIdx).map
      (fun a => ((text.extract p a.place).toList, charsFrom a.behind)) =
        numberBehind? base limit (text.extract p p).toList (charsFrom p) := by
    refine numberEnd?_eq (Std.le_refl p) ?_
    rw [extract_self, Nat.sub_self]
    rfl
  rw [extract_self, String.toList_empty] at hend
  rw [numberReference?_eq, ← hend, numberFrom?]
  cases hfound : numberEnd? text base limit p.offset.byteIdx p.offset.byteIdx with
  | none => simp only [Option.bind_none, Option.map_none]
  | some semicolon =>
      rw [hfound, Option.map_some, eq_comm] at hend
      obtain ⟨hne, hlength, hdigits, -⟩ := numberBehind?_eq_some_iff.mp hend
      rw [Option.bind_some, Option.map_some, Option.bind_some, Option.map_map,
        word?_digits hbase hlimit hdigits hne hlength, Option.bind_some]
      simp only [Function.comp_def]

/-! ### References -/

/-- The reference by number behind an ampersand. -/
def numbered? : List Char → Option (Char × List Char)
  | '#' :: 'x' :: rest => numberReference? 16 6 rest
  | '#' :: 'X' :: rest => numberReference? 16 6 rest
  | '#' :: rest => numberReference? 10 7 rest
  | _ => none

theorem numbered?_hexadecimal {c : Char} (hc : c = 'x' ∨ c = 'X') (rest : List Char) :
    numbered? ('#' :: c :: rest) = numberReference? 16 6 rest := by
  rcases hc with rfl | rfl
  · rfl
  · rfl

theorem numbered?_decimal {rest : List Char} (hrest : ∀ c ∈ rest.head?, ¬ (c = 'x' ∨ c = 'X')) :
    numbered? ('#' :: rest) = numberReference? 10 7 rest := by
  cases rest with
  | nil => rfl
  | cons c rest =>
      have hc := hrest c rfl
      rw [numbered?]
      · rintro more ⟨⟩
        exact hc (Or.inl rfl)
      · rintro more ⟨⟩
        exact hc (Or.inr rfl)

theorem numbered?_other {c : Char} (hc : c ≠ '#') (rest : List Char) :
    numbered? (c :: rest) = none := by
  rw [numbered?]
  · rintro more ⟨⟩
    exact hc rfl
  · rintro more ⟨⟩
    exact hc rfl
  · rintro more ⟨⟩
    exact hc rfl

theorem reference?_eq (rest : List Char) :
    reference? rest =
      (namedReferences.findSome? fun named =>
        (named.1.isPrefixOf? rest).map fun behind => (named.2, behind)).or (numbered? rest) := by
  rw [reference?.eq_def]
  cases namedReferences.findSome? fun named =>
      (named.1.isPrefixOf? rest).map fun behind => (named.2, behind) with
  | some found => rfl
  | none => rfl

theorem singleByte_mark : SingleByte fun c => c == 'x' || c == 'X' := by
  intro c hc
  rcases Bool.or_eq_true_iff.mp hc with hc | hc
  · rw [eq_of_beq hc]
    rfl
  · rw [eq_of_beq hc]
    rfl

theorem numberAt?_eq {p : text.Pos} {h : p ≠ text.endPos} (hamp : p.get h = '&') :
    (numberAt? text p.offset.byteIdx).map (fun found => (found.1, charsFrom found.2.behind)) =
      numbered? (charsFrom (p.next h)) := by
  have hfirst : p.offset.byteIdx + 1 = (p.next h).offset.byteIdx :=
    (offset_next (by rw [hamp]; rfl)).symm
  generalize p.next h = q at hfirst ⊢
  rw [numberAt?, hfirst]
  by_cases hq : q = text.endPos
  · rw [hq, asciiAt?_endPos, charsFrom_endPos]
    rfl
  rw [charsFrom_of_ne q hq]
  by_cases hhash : q.get hq = '#'
  · have hsecond : p.offset.byteIdx + 2 = (q.next hq).offset.byteIdx := by
      rw [offset_next (by rw [hhash]; rfl), ← hfirst]
    have hbehind : Ascii.behind ⟨q, hq⟩ = q.next hq := rfl
    rw [asciiAt?_of_eq rfl hhash, hhash, Option.bind_some, hsecond, hbehind]
    generalize q.next hq = r
    by_cases hr : r = text.endPos
    · have hnone : ∀ c ∈ (charsFrom r).head?, ¬ (c = 'x' ∨ c = 'X') := by
        rw [hr, charsFrom_endPos]
        simp
      rw [numbered?_decimal hnone, hr, asciiAt?_endPos]
      exact numberFrom?_eq (by decide) (by decide) _
    by_cases hmark : r.get hr = 'x' ∨ r.get hr = 'X'
    · have haccepts : (r.get hr == 'x' || r.get hr == 'X') = true := by
        simpa using hmark
      rw [asciiAt?_of_accepts (h := hr) singleByte_mark haccepts, charsFrom_of_ne r hr,
        numbered?_hexadecimal hmark]
      exact numberFrom?_eq (by decide) (by decide) _
    · have hrejects : (r.get hr == 'x' || r.get hr == 'X') = false := by
        simpa using hmark
      have hnone : ∀ c ∈ (charsFrom r).head?, ¬ (c = 'x' ∨ c = 'X') := by
        rw [charsFrom_of_ne r hr]
        rintro c ⟨⟩
        exact hmark
      rw [asciiAt?_of_not (h := hr) hrejects, numbered?_decimal hnone]
      exact numberFrom?_eq (by decide) (by decide) _
  · rw [asciiAt?_of_ne hhash, numbered?_other hhash]
    rfl

/-- What is found at the byte of an ampersand is what is read behind it. -/
theorem referenceAt?_eq {p : text.Pos} {h : p ≠ text.endPos} (hamp : p.get h = '&') :
    (referenceAt? text p.offset.byteIdx).map (fun found => (found.1, charsFrom found.2.behind)) =
      reference? (charsFrom (p.next h)) := by
  rw [referenceAt?, Option.map_or, nameAt?_eq hamp, numberAt?_eq hamp, reference?_eq]

/-! ### The whole text -/

section Scan

variable {p copied : text.Pos} {out : String} {h : p ≠ text.endPos}

theorem replaceFrom_endPos :
    replaceFrom text text.endPos.offset.byteIdx copied out =
      out ++ text.extract copied text.endPos := by
  rw [replaceFrom, if_neg fun hlt => ne_endPos_of_lt hlt rfl]

theorem replaceFrom_of_none {i : Nat} (hlt : i < text.utf8ByteSize)
    (hnone : asciiAt? text (· == '&') i = none) :
    replaceFrom text i copied out = replaceFrom text (i + 1) copied out := by
  rw [replaceFrom, if_pos hlt]
  simp only [hnone]

/-- The bytes of a character that is no ampersand are passed over. -/
theorem replaceFrom_of_ne (hget : p.get h ≠ '&') :
    replaceFrom text p.offset.byteIdx copied out =
      replaceFrom text (p.next h).offset.byteIdx copied out := by
  have hbehind := String.Pos.Raw.le_iff.mp (String.Pos.le_iff.mp (p.next h).le_endPos)
  rw [String.Pos.byteIdx_offset_next] at hbehind ⊢
  have hpass : ∀ n ≤ (p.get h).utf8Size,
      replaceFrom text p.offset.byteIdx copied out =
        replaceFrom text (p.offset.byteIdx + n) copied out := by
    intro n hn
    induction n with
    | zero => rfl
    | succ n ih =>
        have hnone : asciiAt? text (· == '&') (p.offset.byteIdx + n) = none := by
          rcases Nat.eq_zero_or_pos n with rfl | hpos
          · exact asciiAt?_of_ne hget
          · refine asciiAt?_inside (p := p) (h := h) (Nat.lt_add_of_pos_right hpos) ?_
            rw [String.Pos.byteIdx_offset_next]
            omega
        rw [ih (Nat.le_of_succ_le hn)]
        exact replaceFrom_of_none (Nat.lt_of_lt_of_le (by omega) hbehind) hnone
  exact hpass _ (Nat.le_refl _)

theorem replaceFrom_ampersand (hget : p.get h = '&')
    (hnone : referenceAt? text p.offset.byteIdx = none) :
    replaceFrom text p.offset.byteIdx copied out =
      replaceFrom text (p.next h).offset.byteIdx copied out := by
  rw [replaceFrom, if_pos (p.byteIdx_lt_utf8ByteSize h), asciiAt?_of_eq rfl hget,
    offset_next (by rw [hget]; rfl)]
  dsimp only
  split
  · next hfound =>
      rw [hnone] at hfound
      cases hfound
  · rfl

theorem replaceFrom_reference {c : Char} {semicolon : Ascii text} (hget : p.get h = '&')
    (hfound : referenceAt? text p.offset.byteIdx = some (c, semicolon)) :
    replaceFrom text p.offset.byteIdx copied out =
      replaceFrom text semicolon.behind.offset.byteIdx semicolon.behind
        ((out ++ text.extract copied p).push c) := by
  rw [replaceFrom, if_pos (p.byteIdx_lt_utf8ByteSize h), asciiAt?_of_eq rfl hget]
  dsimp only
  split
  · next hagain =>
      rw [hfound] at hagain
      cases hagain
      rfl
  · next hnone =>
      rw [hfound] at hnone
      cases hnone

/-- A character that has been passed is part of the text that is yet to be copied. -/
theorem copied_next (hcopied : copied ≤ p) (rest : List Char) :
    out ++ text.extract copied (p.next h) ++ String.ofList rest =
      out ++ text.extract copied p ++ String.ofList (p.get h :: rest) := by
  rw [← extract_append hcopied p.le_next, extract_next p h, ← List.singleton_append,
    String.ofList_append]
  simp only [String.append_assoc]
  rfl

/-- The scan from a place on: what has been written stays, what stands between the last reference
and the place is copied, and the rest of the text is decoded. -/
theorem replaceFrom_eq {p copied : text.Pos} {out : String} (hcopied : copied ≤ p) :
    replaceFrom text p.offset.byteIdx copied out =
      out ++ text.extract copied p ++ String.ofList (decode (charsFrom p)) := by
  by_cases h : p = text.endPos
  · rw [h, replaceFrom_endPos, charsFrom_endPos, decode, String.ofList_nil, String.append_empty]
  have hnext : copied ≤ p.next h := Std.le_trans hcopied p.le_next
  rw [charsFrom_of_ne p h]
  by_cases hget : p.get h = '&'
  · cases hfound : referenceAt? text p.offset.byteIdx with
    | none =>
        have hnone := referenceAt?_eq (h := h) hget
        rw [hfound, Option.map_none, eq_comm] at hnone
        rw [replaceFrom_ampersand hget hfound, replaceFrom_eq hnext, copied_next hcopied, hget,
          decode_of_none hnone]
    | some found =>
        obtain ⟨c, semicolon⟩ := found
        have hsome := referenceAt?_eq (h := h) hget
        rw [hfound, Option.map_some, eq_comm] at hsome
        rw [replaceFrom_reference hget hfound, replaceFrom_eq (Std.le_refl _), extract_self, hget,
          decode_of_reference hsome, String.append_empty, String.push_eq_append,
          ← List.singleton_append, String.ofList_append, ← String.append_assoc]
        rfl
  · rw [replaceFrom_of_ne hget, replaceFrom_eq hnext, copied_next hcopied, decode_of_ne hget]
termination_by text.utf8ByteSize - p.offset.byteIdx
decreasing_by
  · have := p.byteIdx_lt_utf8ByteSize h
    have := offset_lt_next p h
    omega
  · have := p.byteIdx_lt_utf8ByteSize h
    have := lt_of_referenceAt? hfound
    omega
  · have := p.byteIdx_lt_utf8ByteSize h
    have := offset_lt_next p h
    omega

end Scan

theorem replaceReferences_eq (text : String) :
    replaceReferences text = String.ofList (decode text.toList) := by
  rw [replaceReferences]
  by_cases h : '&' ∈ text.toList
  · have hscan : replaceFrom text 0 text.startPos "" =
        "" ++ text.extract text.startPos text.startPos ++
          String.ofList (decode (charsFrom text.startPos)) :=
      replaceFrom_eq (p := text.startPos) (Std.le_refl _)
    rw [extract_self, String.append_empty, String.empty_append, charsFrom_startPos] at hscan
    rw [if_pos h]
    exact hscan
  · have hdecode := decode_append_of_not_mem h []
    rw [List.append_nil, decode, List.append_nil] at hdecode
    rw [if_neg h, hdecode, String.ofList_toList]

theorem replaceReferences_ofList (text : List Char) :
    replaceReferences (.ofList text) = .ofList (decode text) := by
  rw [replaceReferences_eq, String.toList_ofList]

end ViewCompiler
