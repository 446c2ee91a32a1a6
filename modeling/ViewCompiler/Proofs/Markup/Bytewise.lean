/-
**Reading byte by byte is reading character by character.**

The tokens of a source are read by a scan over its bytes, and by a cursor that moves over its
characters.  Both come to the same, and the scan has an answer for every source: it only stops at
single bytes, so each of its offsets is that of a cursor, and every piece that it cuts out lies
between two characters.

Main definitions:

* `ViewCompiler.Cursor.StandsIn` — the offset of a cursor is a place in a text, and what is left at
  the cursor is the text from that place on.

Main results:

* `ViewCompiler.Cursor.StandsIn.runEnd_eq`, `ViewCompiler.Cursor.StandsIn.firstMarked?_eq` — runs
  and markers end where the cursor goes;
* `ViewCompiler.Cursor.StandsIn.slice?_eq` — what the cursor passes can be cut out;
* `ViewCompiler.scanOne_eq` — one lexeme;
* `ViewCompiler.scan_eq` — **the scan answers for every source, with its tokens**.
-/

import ViewCompiler.Markup.Bytewise
import ViewCompiler.Proofs.Markup.Positions
import ViewCompiler.Proofs.Markup.Replacing

set_option relaxedAutoImplicit false
set_option autoImplicit false

namespace ViewCompiler

variable {text : String} {c d : Cursor} {accepts : Char → Bool} {x : Char} {i : Nat}
  {passed rest chars marker : List Char} {p : text.Pos}

/-- A marker is made of single bytes. -/
structure PlainMarker (marker : List Char) : Prop where
  ne_nil : marker ≠ []
  singleBytes : marker.all (fun c => c.utf8Size == 1) = true

theorem PlainMarker.size (h : PlainMarker marker) : ∀ c ∈ marker, c.utf8Size = 1 :=
  fun c hc => beq_iff_eq.1 (List.all_eq_true.1 h.singleBytes c hc)

theorem plainMarker_single (hsize : x.utf8Size = 1) : PlainMarker [x] where
  ne_nil := List.cons_ne_nil x []
  singleBytes := by rw [List.all_cons, hsize]; rfl

/-! ### A cursor in a text -/

namespace Cursor

/-- The cursor stands in the text. -/
def StandsIn (c : Cursor) (text : String) : Prop :=
  ∃ p : text.Pos, c = ⟨p.offset.byteIdx, charsFrom p⟩

theorem standsIn_ofString (text : String) : (ofString text).StandsIn text :=
  ⟨text.startPos, by rw [charsFrom_startPos]; rfl⟩

namespace StandsIn

/-- Where nothing is left, the text ends. -/
theorem offset_of_nil (h : c.StandsIn text) (hrest : c.rest = []) :
    c.offset = text.endPos.offset.byteIdx := by
  obtain ⟨p, rfl⟩ := h
  by_cases hend : p = text.endPos
  · rw [hend]
  · have hchars : charsFrom p = [] := hrest
    rw [charsFrom_of_ne p hend] at hchars
    cases hchars

/-- Where something is left, its first character is at the place. -/
theorem exists_of_cons (h : StandsIn ⟨i, x :: rest⟩ text) :
    ∃ (p : text.Pos) (hp : p ≠ text.endPos), p.offset.byteIdx = i ∧ p.get hp = x ∧
      charsFrom (p.next hp) = rest := by
  obtain ⟨p, hp⟩ := h
  obtain ⟨rfl, hchars⟩ := Cursor.mk.inj hp
  have hend : p ≠ text.endPos := by
    rintro rfl
    rw [charsFrom_endPos] at hchars
    cases hchars
  rw [charsFrom_of_ne p hend] at hchars
  obtain ⟨hget, hnext⟩ := List.cons.inj hchars
  exact ⟨p, hend, rfl, hget.symm, hnext.symm⟩

theorem lt_size (h : StandsIn ⟨i, x :: rest⟩ text) : i < text.utf8ByteSize := by
  obtain ⟨p, hp, rfl, -, -⟩ := h.exists_of_cons
  exact p.byteIdx_lt_utf8ByteSize hp

/-- One character on. -/
theorem next (h : StandsIn ⟨i, x :: rest⟩ text) : StandsIn ⟨i + x.utf8Size, rest⟩ text := by
  obtain ⟨p, hp, rfl, rfl, rfl⟩ := h.exists_of_cons
  exact ⟨p.next hp, by rw [String.Pos.byteIdx_offset_next]⟩

theorem of_leadsTo (h : c.StandsIn text) (hcd : c.LeadsTo d) : d.StandsIn text := by
  obtain ⟨i, chars⟩ := c
  obtain ⟨j, rest⟩ := d
  obtain ⟨passed, hrest, hoffset⟩ := hcd
  dsimp only at hrest hoffset
  subst hrest hoffset
  induction passed generalizing i with
  | nil => exact h
  | cons x passed ih =>
      have hnext := ih _ (next h)
      rw [Nat.add_assoc] at hnext
      exact hnext

theorem skip (h : c.StandsIn text) (p : Char → Bool) : (c.skip p).StandsIn text :=
  h.of_leadsTo (c.leadsTo_skip p)

theorem size_le_iff (h : c.StandsIn text) : text.utf8ByteSize ≤ c.offset ↔ c.rest = [] := by
  obtain ⟨i, chars⟩ := c
  cases chars with
  | nil => exact iff_of_true (Nat.le_of_eq (h.offset_of_nil rfl).symm) rfl
  | cons x rest => exact iff_of_false (Nat.not_le.2 h.lt_size) (List.cons_ne_nil x rest)

/-! ### Bytes -/

theorem standsAt_eq (hsingle : SingleByte accepts) (h : c.StandsIn text) :
    standsAt text accepts c.offset = c.rest.head?.any accepts := by
  obtain ⟨i, chars⟩ := c
  cases chars with
  | nil =>
      rw [standsAt, h.offset_of_nil rfl, asciiAt?_endPos]
      rfl
  | cons x rest =>
      obtain ⟨p, hp, rfl, rfl, -⟩ := h.exists_of_cons
      rw [standsAt, asciiAt?_eq p hp, List.head?_cons, Option.any_some]
      cases haccepts : accepts (p.get hp) with
      | false => rw [if_neg fun hboth => Bool.false_ne_true hboth.2]; rfl
      | true => rw [if_pos ⟨hsingle _ haccepts, rfl⟩]; rfl

theorem standsAt_iff (hsize : x.utf8Size = 1) (h : c.StandsIn text) :
    standsAt text (· == x) c.offset = true ↔ c.rest.head? = some x := by
  have hsingle : SingleByte (· == x) := fun _ heq => eq_of_beq heq ▸ hsize
  rw [h.standsAt_eq hsingle]
  cases c.rest.head? <;> simp

/-- Runs end where the cursor goes. -/
theorem runEnd_eq (hsingle : SingleByte accepts) (h : c.StandsIn text) :
    runEnd text accepts c.offset = (c.skip accepts).offset := by
  obtain ⟨i, chars⟩ := c
  induction chars generalizing i with
  | nil =>
      rw [runEnd, h.standsAt_eq hsingle]
      rfl
  | cons x rest ih =>
      rw [runEnd, h.standsAt_eq hsingle, List.head?_cons, Option.any_some, Cursor.skip, span]
      cases haccepts : accepts x with
      | false =>
          rw [if_neg Bool.false_ne_true, List.takeWhile_cons_of_neg (by simp [haccepts])]
          rfl
      | true =>
          have hnext := h.next
          rw [hsingle x haccepts] at hnext
          rw [if_pos rfl, ih _ hnext, List.takeWhile_cons_of_pos haccepts]
          change i + 1 + _ = i + (x.utf8Size + _)
          rw [hsingle x haccepts, Nat.add_assoc]
          rfl

/-! ### Markers -/

/-- A marker is found where the cursor can pass it. -/
theorem isSome_markerEnd? (hmarker : PlainMarker marker) (h : c.StandsIn text) :
    (markerEnd? text marker c.offset).isSome = (marker.isPrefixOf? c.rest).isSome := by
  obtain ⟨p, rfl⟩ := h
  rw [← markerEnd?_eq hmarker.ne_nil hmarker.size p, Option.isSome_map]

theorem markerEnd?_inside {h : p ≠ text.endPos} (hmarker : marker ≠ [])
    (hlow : p.offset.byteIdx < i) (hhigh : i < (p.next h).offset.byteIdx) :
    markerEnd? text marker i = none := by
  obtain ⟨c, cs, rfl⟩ := List.exists_cons_of_ne_nil hmarker
  rw [markerEnd?_cons, asciiAt?_inside hlow hhigh, Option.bind_none]

theorem firstMarked?_of_none (hlt : i < text.utf8ByteSize)
    (hnone : markerEnd? text marker i = none) :
    firstMarked? text marker i = firstMarked? text marker (i + 1) := by
  rw [firstMarked?, if_pos hlt, hnone, Option.isSome_none, if_neg Bool.false_ne_true]

/-- The bytes of a character at which the marker does not stand are passed over. -/
theorem firstMarked?_next (hmarker : marker ≠ []) (hp : p ≠ text.endPos)
    (hnone : markerEnd? text marker p.offset.byteIdx = none) :
    firstMarked? text marker p.offset.byteIdx =
      firstMarked? text marker (p.next hp).offset.byteIdx := by
  have hbehind := String.Pos.Raw.le_iff.mp (String.Pos.le_iff.mp (p.next hp).le_endPos)
  rw [String.Pos.byteIdx_offset_next] at hbehind ⊢
  have hpass : ∀ n ≤ (p.get hp).utf8Size, firstMarked? text marker p.offset.byteIdx =
      firstMarked? text marker (p.offset.byteIdx + n) := by
    intro n hn
    induction n with
    | zero => rfl
    | succ n ih =>
        have hinside : markerEnd? text marker (p.offset.byteIdx + n) = none := by
          rcases Nat.eq_zero_or_pos n with rfl | hpos
          · exact hnone
          · refine markerEnd?_inside (h := hp) hmarker (Nat.lt_add_of_pos_right hpos) ?_
            rw [String.Pos.byteIdx_offset_next]
            omega
        rw [ih (Nat.le_of_succ_le hn)]
        exact firstMarked?_of_none (Nat.lt_of_lt_of_le (by omega) hbehind) hinside
  exact hpass _ (Nat.le_refl _)

/-- The first occurrence of a marker is where the cursor cuts. -/
theorem firstMarked?_eq (hmarker : PlainMarker marker) (h : StandsIn ⟨i, chars⟩ text) :
    firstMarked? text marker i = (cut marker chars).map fun parts => i + utf8Length parts.1 := by
  induction chars generalizing i with
  | nil =>
      have hi : i = text.utf8ByteSize := h.offset_of_nil rfl
      rw [firstMarked?, if_neg (Nat.not_lt.2 (Nat.le_of_eq hi.symm)), cut,
        if_neg (by simp [hmarker.ne_nil])]
      rfl
  | cons x rest ih =>
      have hstands := h.isSome_markerEnd? hmarker
      rw [cut]
      cases hstarts : marker.isPrefixOf? (x :: rest) with
      | some behind =>
          simp only [hstarts, Option.isSome_some] at hstands
          rw [firstMarked?, if_pos h.lt_size, if_pos hstands]
          rfl
      | none =>
          simp only [hstarts, Option.isSome_none, Option.isSome_eq_false_iff,
            Option.isNone_iff_eq_none] at hstands
          have hih := ih h.next
          obtain ⟨p, hp, rfl, rfl, -⟩ := h.exists_of_cons
          rw [firstMarked?_next hmarker.ne_nil hp hstands, String.Pos.byteIdx_offset_next]
          rw [Option.map_map]
          refine hih.trans (congrArg (fun f => (cut marker rest).map f) (funext fun parts => ?_))
          exact Nat.add_assoc _ _ _

/-! ### Cutting out -/

theorem placeAt?_offset (p : text.Pos) : placeAt? text p.offset.byteIdx = some p :=
  dif_pos p.isValid

/-- There is a place at the offset of a cursor. -/
theorem isSome_placeAt? (h : c.StandsIn text) : (placeAt? text c.offset).isSome = true := by
  obtain ⟨p, rfl⟩ := h
  rw [placeAt?_offset]
  rfl

/-- What the cursor passes can be cut out. -/
theorem slice?_eq (h : StandsIn ⟨i, passed ++ rest⟩ text) :
    slice? text i (i + utf8Length passed) = some (.ofList passed) := by
  obtain ⟨q, hq⟩ := h.of_leadsTo (d := ⟨i + utf8Length passed, rest⟩) ⟨passed, rfl, rfl⟩
  obtain ⟨hoffset, rfl⟩ := Cursor.mk.inj hq
  obtain ⟨p, hp⟩ := h
  obtain ⟨rfl, hchars⟩ := Cursor.mk.inj hp
  have hle : p ≤ q := String.Pos.le_iff.mpr (String.Pos.Raw.le_iff.mpr
    (Nat.le_trans (Nat.le_add_right _ _) (Nat.le_of_eq hoffset)))
  have hpassed : (text.extract p q).toList = passed :=
    List.append_cancel_right ((charsFrom_append hle).trans hchars.symm)
  rw [hoffset, slice?, placeAt?_offset, placeAt?_offset, Option.bind_some, Option.bind_some,
    if_pos hle, ← hpassed, String.ofList_toList]

/-- Up to a marker the text can be cut out. -/
theorem slice?_of_cut {before : List Char} (h : StandsIn ⟨i, chars⟩ text)
    (hcut : cut marker chars = some (before, rest)) :
    slice? text i (i + utf8Length before) = some (.ofList before) := by
  rw [cut_eq_append hcut, List.append_assoc] at h
  exact h.slice?_eq

/-- A run can be cut out. -/
theorem slice?_run (h : c.StandsIn text) (p : Char → Bool) :
    slice? text c.offset (c.skip p).offset = some (.ofList (c.span p).1) := by
  have hrun : StandsIn ⟨c.offset, c.rest.takeWhile p ++ c.rest.dropWhile p⟩ text := by
    rw [List.takeWhile_append_dropWhile]
    exact h
  exact hrun.slice?_eq

/-- A single byte is found where the cursor can pass its character. -/
theorem strip?_cases (hsize : x.utf8Size = 1) (h : c.StandsIn text) :
    (standsAt text (· == x) c.offset = false ∧ c.strip? [x] = none) ∨
      ∃ d : Cursor, standsAt text (· == x) c.offset = true ∧ c.strip? [x] = some d ∧
        d.offset = c.offset + 1 ∧ d.StandsIn text := by
  have hsingle : SingleByte (· == x) := fun _ heq => eq_of_beq heq ▸ hsize
  rw [h.standsAt_eq hsingle, strip?]
  obtain ⟨i, chars⟩ := c
  cases chars with
  | nil => exact .inl ⟨rfl, rfl⟩
  | cons y rest =>
      rw [List.head?_cons, Option.any_some, isPrefixOf?_cons, BEq.comm]
      by_cases hxy : x = y
      · have hnext := h.next
        rw [← hxy, hsize] at hnext
        rw [beq_iff_eq.2 hxy]
        have hpassed : (behind ⟨i, x :: rest⟩ [x] rest) = ⟨i + 1, rest⟩ := by
          rw [behind, utf8Length_cons, hsize]
          rfl
        exact .inr ⟨⟨i + 1, rest⟩, rfl, congrArg some hpassed, rfl, hnext⟩
      · rw [beq_false_of_ne hxy]
        exact .inl ⟨rfl, rfl⟩

end StandsIn

end Cursor

/-- A part of a text can be cut out by the lengths of what is before it and of the part. -/
theorem slice?_of_append {before source behind : List Char}
    (h : text.toList = before ++ (source ++ behind)) :
    slice? text (utf8Length before) (utf8Length before + utf8Length source) =
      some (.ofList source) := by
  have hbehind : (Cursor.ofString text).LeadsTo ⟨utf8Length before, source ++ behind⟩ :=
    ⟨before, h, (Nat.zero_add _).symm⟩
  exact ((Cursor.standsIn_ofString text).of_leadsTo hbehind).slice?_eq

/-! ### Tags -/

theorem utf8Size_eq_one_of_isAlphanum (h : x.isAlphanum = true) : x.utf8Size = 1 := by
  have hbelow : ∀ y : Char, y.val ≤ 127 → x.val ≤ y.val → x.utf8Size = 1 :=
    fun _ hy hx => Char.utf8Size_eq_one_iff.2 (UInt32.le_trans hx hy)
  rcases Bool.or_eq_true_iff.1 h with hletter | hdigit
  · rcases Bool.or_eq_true_iff.1 hletter with hupper | hlower
    · exact hbelow 'Z' (by decide) (of_decide_eq_true hupper).2
    · exact hbelow 'z' (by decide) (of_decide_eq_true (Bool.and_eq_true_iff.1 hlower).2)
  · exact hbelow '9' (by decide) (of_decide_eq_true (Bool.and_eq_true_iff.1 hdigit).2)

theorem singleByte_isNameChar : SingleByte isNameChar := by
  intro c hc
  simp only [isNameChar, Bool.or_eq_true, decide_eq_true_eq] at hc
  rcases hc with (((h | rfl) | rfl) | rfl) | rfl
  · exact utf8Size_eq_one_of_isAlphanum h
  all_goals rfl

theorem singleByte_isAsciiBlank : SingleByte isAsciiBlank := by
  intro c hc
  simp only [isAsciiBlank, Bool.or_eq_true, decide_eq_true_eq] at hc
  rcases hc with (((rfl | rfl) | rfl) | rfl) | rfl <;> rfl

/-- The answer of a scan that reads what a cursor reads. -/
def Scan.of {α : Type} (r : Except ParseError (α × Cursor)) : Scan (α × Nat) :=
  some (r.map fun found => (found.1, found.2.offset))

theorem utf8Length_eq_zero_iff {chars : List Char} : utf8Length chars = 0 ↔ chars = [] := by
  cases chars with
  | nil => exact iff_of_true rfl rfl
  | cons x chars =>
      have hpos := x.utf8Size_pos
      rw [utf8Length_cons]
      exact iff_of_false (by omega) (List.cons_ne_nil x chars)

/-- A run is empty if it ends where it begins. -/
theorem Cursor.skip_offset_eq_iff (p : Char → Bool) (c : Cursor) :
    (c.skip p).offset = c.offset ↔ (c.span p).1.isEmpty = true := by
  rw [List.isEmpty_iff, ← utf8Length_eq_zero_iff]
  exact Nat.add_eq_left

/-- The quoted value at a cursor. -/
def readValue (tag name : Nat) (c : Cursor) : Except ParseError (String × Cursor) :=
  match c.rest with
  | quote :: rest =>
      if quote = '"' ∨ quote = '\'' then
        match (c.behind [quote] rest).cut? [quote] with
        | none => .error ⟨.unterminatedTag, tag⟩
        | some (raw, behind) => .ok (replaceReferences (.ofList raw), behind)
      else .error ⟨.missingAttributeValue, name⟩
  | [] => .error ⟨.missingAttributeValue, name⟩

theorem readAttribute_of_sign {tag : Nat} {sign : Cursor}
    (hname : (c.span isNameChar).1.isEmpty = false)
    (hsign : ((c.skip isNameChar).skip isAsciiBlank).strip? ['='] = some sign) :
    readAttribute tag c = (readValue tag c.offset (sign.skip isAsciiBlank)).map fun found =>
      ((.ofList (c.span isNameChar).1, found.1), found.2) := by
  have hsign : ((c.span isNameChar).2.skip isAsciiBlank).strip? ['='] = some sign := hsign
  rw [readAttribute]
  simp only [hname, hsign, Bool.false_eq_true, if_false]
  generalize sign.skip isAsciiBlank = value
  obtain ⟨i, chars⟩ := value
  cases chars with
  | nil => rfl
  | cons quote rest =>
      have hstrip : Cursor.strip? [quote] ⟨i, quote :: rest⟩ =
          some (Cursor.behind ⟨i, quote :: rest⟩ [quote] rest) := by
        simp [Cursor.strip?, List.isPrefixOf?]
      simp only [readValue, hstrip, Bool.or_eq_true, decide_eq_true_eq]
      split
      · cases Cursor.cut? [quote] (Cursor.behind ⟨i, quote :: rest⟩ [quote] rest) <;> rfl
      · rfl

theorem quoteAt?_of_nil (h : Cursor.StandsIn ⟨i, []⟩ text) : quoteAt? text i = none := by
  have hi : i = text.endPos.offset.byteIdx := h.offset_of_nil rfl
  rw [quoteAt?, hi, asciiAt?_endPos, Option.map_none]

theorem quoteAt?_of_cons (h : Cursor.StandsIn ⟨i, x :: rest⟩ text) :
    quoteAt? text i = if x = '"' ∨ x = '\'' then some x else none := by
  obtain ⟨p, hp, rfl, rfl, -⟩ := h.exists_of_cons
  rw [quoteAt?, asciiAt?_eq p hp]
  by_cases hquote : p.get hp = '"' ∨ p.get hp = '\''
  · have hsize : (p.get hp).utf8Size = 1 := by
      rcases hquote with hquote | hquote <;> rw [hquote] <;> rfl
    rw [if_pos ⟨hsize, by simpa using hquote⟩, if_pos hquote, Option.map_some]
  · rw [if_neg fun hboth => hquote (by simpa using hboth.2), if_neg hquote, Option.map_none]

/-- The value of an attribute. -/
theorem scanValue_eq (tag name : Nat) (h : c.StandsIn text) :
    scanValue text tag name c.offset = .of (readValue tag name c) := by
  obtain ⟨i, chars⟩ := c
  cases chars with
  | nil =>
      rw [scanValue, quoteAt?_of_nil h]
      rfl
  | cons quote rest =>
      rw [scanValue, quoteAt?_of_cons h]
      simp only [readValue]
      by_cases hquote : quote = '"' ∨ quote = '\''
      · have hsize : quote.utf8Size = 1 := by
          rcases hquote with rfl | rfl <;> rfl
        have hinside := h.next
        rw [hsize] at hinside
        have hmarked : firstMarked? text [quote] (i + 1) =
            (cut [quote] rest).map fun parts => i + 1 + utf8Length parts.1 :=
          hinside.firstMarked?_eq (plainMarker_single hsize)
        rw [if_pos hquote, if_pos hquote]
        dsimp only
        rw [hmarked, Cursor.cut?, Cursor.rest_behind]
        cases hcut : cut [quote] rest with
        | none => rfl
        | some parts =>
            rw [Option.map_some]
            dsimp only
            rw [hinside.slice?_of_cut hcut]
            simp [Scan.of, Except.map, Cursor.behind, hsize, Nat.add_assoc]
      · rw [if_neg hquote, if_neg hquote]
        rfl

theorem readAttribute_of_noSign {tag : Nat} (hname : (c.span isNameChar).1.isEmpty = false)
    (hsign : ((c.skip isNameChar).skip isAsciiBlank).strip? ['='] = none) :
    readAttribute tag c = .error ⟨.missingAttributeValue, c.offset⟩ := by
  have hsign : ((c.span isNameChar).2.skip isAsciiBlank).strip? ['='] = none := hsign
  rw [readAttribute]
  simp only [hname, hsign, Bool.false_eq_true, if_false]

/-- One attribute. -/
theorem scanAttribute_eq (tag : Nat) (h : c.StandsIn text) :
    scanAttribute text tag c.offset = .of (readAttribute tag c) := by
  have hblank := singleByte_isAsciiBlank
  have hafter : (c.skip isNameChar).StandsIn text := h.skip isNameChar
  have hsign := hafter.skip isAsciiBlank
  rw [scanAttribute]
  dsimp only
  rw [h.runEnd_eq singleByte_isNameChar, hafter.runEnd_eq hblank]
  cases hname : (c.span isNameChar).1.isEmpty with
  | true =>
      rw [if_pos ((Cursor.skip_offset_eq_iff isNameChar c).2 hname), readAttribute]
      simp only [hname, if_true]
      rfl
  | false =>
      have hne : (c.skip isNameChar).offset ≠ c.offset := fun heq =>
        Bool.false_ne_true (hname.symm.trans ((Cursor.skip_offset_eq_iff isNameChar c).1 heq))
      rw [if_neg hne, h.slice?_run, Option.bind_some]
      rcases hsign.strip?_cases (x := '=') rfl with ⟨hstands, hstrip⟩ |
        ⟨d, hstands, hstrip, hd, hbehind⟩
      · rw [hstands, if_neg Bool.false_ne_true, readAttribute_of_noSign hname hstrip]
        rfl
      · have hvalue := hbehind.skip isAsciiBlank
        rw [hstands, if_pos rfl, ← hd, hbehind.runEnd_eq hblank, scanValue_eq tag c.offset hvalue,
          readAttribute_of_sign hname hstrip]
        cases readValue tag c.offset (d.skip isAsciiBlank) <;> rfl

/-- What the scan does behind an attribute. -/
def scanBehind (text : String) (tag : Nat) (found : Attributes) :
    Except ParseError ((String × String) × Nat) → Scan (Attributes × Bool × Nat)
  | .error e => some (.error e)
  | .ok (a, behind) => scanAttributes text tag behind (found ++ [a])

section

variable {tag j : Nat} {found : Attributes} {here : Cursor}

theorem scanAttributes_eq_ite (hrun : runEnd text isAsciiBlank i = j) :
    scanAttributes text tag i found =
      if text.utf8ByteSize ≤ j then some (.error ⟨.unterminatedTag, tag⟩)
      else if standsAt text (· == '>') j then some (.ok (found, false, j + 1))
      else if standsAt text (· == '/') j then
        if standsAt text (· == '>') (j + 1) then some (.ok (found, true, j + 2))
        else some (.error ⟨.unterminatedTag, j⟩)
      else (scanAttribute text tag j).bind (scanBehind text tag found) := by
  subst hrun
  rw [scanAttributes]
  repeat' refine if_congr Iff.rfl rfl ?_
  split <;> next h => rw [h]; rfl

/-- Where the tag does not end, an attribute is read. -/
theorem scanAttributes_of_attribute (tag : Nat) (found : Attributes) (hhere : here.StandsIn text)
    (hrun : runEnd text isAsciiBlank i = here.offset) (hrest : here.rest ≠ [])
    (hend : ∀ rest, here.rest ≠ '>' :: rest) (hslash : ∀ rest, here.rest ≠ '/' :: rest) :
    scanAttributes text tag i found =
      (Scan.of (readAttribute tag here)).bind (scanBehind text tag found) := by
  have hne : ∀ {x : Char}, x.utf8Size = 1 → (∀ rest, here.rest ≠ x :: rest) →
      standsAt text (· == x) here.offset ≠ true := fun hsize hx h =>
    (List.head?_eq_some_iff.1 ((hhere.standsAt_iff hsize).1 h)).elim hx
  rw [scanAttributes_eq_ite hrun, if_neg fun h => hrest (hhere.size_le_iff.1 h),
    if_neg (hne rfl hend), if_neg (hne rfl hslash), scanAttribute_eq tag hhere]

/-- Where the tag ends. -/
theorem scanAttributes_of_end (hhere : here.StandsIn text)
    (hrun : runEnd text isAsciiBlank i = here.offset) (hrest : here.rest = '>' :: rest) :
    scanAttributes text tag i found = some (.ok (found, false, here.offset + 1)) := by
  have hne : here.rest ≠ [] := hrest ▸ List.cons_ne_nil _ _
  have hstands := (hhere.standsAt_iff (x := '>') rfl).2 (hrest ▸ rfl)
  rw [scanAttributes_eq_ite hrun, if_neg fun h => hne (hhere.size_le_iff.1 h), if_pos hstands]

/-- At a slash. -/
theorem scanAttributes_of_slash (hhere : here.StandsIn text)
    (hrun : runEnd text isAsciiBlank i = here.offset) (hrest : here.rest = '/' :: rest) :
    scanAttributes text tag i found =
      if rest.head? = some '>' then some (.ok (found, true, here.offset + 2))
      else some (.error ⟨.unterminatedTag, here.offset⟩) := by
  have hne : here.rest ≠ [] := hrest ▸ List.cons_ne_nil _ _
  have hend : standsAt text (· == '>') here.offset ≠ true := by
    rw [Ne, hhere.standsAt_iff rfl, hrest, List.head?_cons]
    decide
  have hstands := (hhere.standsAt_iff (x := '/') rfl).2 (hrest ▸ rfl)
  have hnext := hhere.of_leadsTo (d := ⟨here.offset + 1, rest⟩) ⟨['/'], hrest, rfl⟩
  rw [scanAttributes_eq_ite hrun, if_neg fun h => hne (hhere.size_le_iff.1 h), if_neg hend,
    if_pos hstands]
  exact if_congr (hnext.standsAt_iff rfl) rfl rfl

end

/-- The attributes of a start tag. -/
theorem scanAttributes_eq (tag : Nat) (found : Attributes) (h : c.StandsIn text) :
    scanAttributes text tag c.offset found =
      some ((readAttributes tag c).map fun r => (found ++ r.1, r.2.1, r.2.2.offset)) := by
  have hhere := h.skip isAsciiBlank
  have hrun := h.runEnd_eq singleByte_isAsciiBlank
  fun_induction readAttributes tag c generalizing found with
  | case1 c here hrest =>
      rw [scanAttributes_eq_ite hrun, if_pos (hhere.size_le_iff.2 hrest)]
      rfl
  | case2 c here rest hrest =>
      rw [scanAttributes_of_end hhere hrun hrest, Except.map, List.append_nil]
      rfl
  | case3 c here rest hrest =>
      rw [scanAttributes_of_slash hhere hrun hrest, List.head?_cons, if_pos rfl, Except.map,
        List.append_nil]
      rfl
  | case4 c here rest hne hrest =>
      have hhead : rest.head? ≠ some '>' := fun h =>
        (List.head?_eq_some_iff.1 h).elim fun more hmore => hne more hmore
      rw [scanAttributes_of_slash hhere hrun hrest, if_neg hhead]
      rfl
  | case5 c here e hfirst hrest hend _ hslash =>
      have hread := scanAttributes_of_attribute tag found hhere hrun hrest hend hslash
      rw [hread, hfirst]
      rfl
  | case6 c here first behind hfirst e hmore hrest hend _ hslash ih =>
      have hplaces := readAttribute_places tag hrest
      have hread := scanAttributes_of_attribute tag found hhere hrun hrest hend hslash
      rw [hfirst] at hplaces hread
      have hbehind := hhere.of_leadsTo hplaces
      rw [hread]
      change scanAttributes text tag behind.offset (found ++ [first]) = _
      rw [ih _ hbehind (hbehind.skip _) (hbehind.runEnd_eq singleByte_isAsciiBlank), hmore]
      rfl
  | case7 c here first behind hfirst more result hmore hrest hend _ hslash ih =>
      have hplaces := readAttribute_places tag hrest
      have hread := scanAttributes_of_attribute tag found hhere hrun hrest hend hslash
      rw [hfirst] at hplaces hread
      have hbehind := hhere.of_leadsTo hplaces
      rw [hread]
      change scanAttributes text tag behind.offset (found ++ [first]) = _
      rw [ih _ hbehind (hbehind.skip _) (hbehind.runEnd_eq singleByte_isAsciiBlank), hmore,
        Except.map, Except.map, List.append_assoc, List.singleton_append]

/-- An empty name is a run that ends where it begins. -/
theorem runEnd_name_iff (h : c.StandsIn text) :
    runEnd text isNameChar c.offset = c.offset ↔ (c.span isNameChar).1.isEmpty = true := by
  rw [h.runEnd_eq singleByte_isNameChar, c.skip_offset_eq_iff]

/-- A start tag. -/
theorem scanStartTag_eq (h : c.StandsIn text) (hrest : c.rest = '<' :: rest) :
    scanStartTag text c.offset = .of (readStartTag c) := by
  have hstrip : c.strip? ['<'] = some ⟨c.offset + 1, rest⟩ := Cursor.strip?_append hrest
  have hinside := h.of_leadsTo (Cursor.leadsTo_of_strip? hstrip)
  have hname := runEnd_name_iff hinside
  have hslice := hinside.slice?_run isNameChar
  have hafter := hinside.skip isNameChar
  have hskip : Cursor.skip isNameChar ⟨c.offset + 1, rest⟩ =
      (Cursor.span isNameChar ⟨c.offset + 1, rest⟩).2 := rfl
  rw [scanStartTag, readStartTag, hstrip]
  dsimp only at hname hslice ⊢
  rw [hinside.runEnd_eq singleByte_isNameChar] at hname ⊢
  cases hempty : (Cursor.span isNameChar ⟨c.offset + 1, rest⟩).1.isEmpty with
  | true =>
      rw [if_pos (hname.2 hempty), if_pos rfl]
      rfl
  | false =>
      rw [if_neg fun heq => Bool.false_ne_true (hempty.symm.trans (hname.1 heq)), hslice,
        if_neg Bool.false_ne_true, Option.bind_some, scanAttributes_eq _ _ hafter, hskip]
      cases readAttributes c.offset (Cursor.span isNameChar ⟨c.offset + 1, rest⟩).2 <;> rfl

/-- An end tag, whose first two characters have been passed. -/
theorem scanEndTag_eq (hinside : Cursor.StandsIn ⟨i + 2, rest⟩ text) :
    scanEndTag text i = .of (readEndTag i ⟨i + 2, rest⟩) := by
  have hname := runEnd_name_iff hinside
  have hslice := hinside.slice?_run isNameChar
  have hafter := hinside.skip isNameChar
  have hskip : Cursor.skip isNameChar ⟨i + 2, rest⟩ =
      (Cursor.span isNameChar ⟨i + 2, rest⟩).2 := rfl
  rw [scanEndTag, readEndTag]
  dsimp only at hname hslice ⊢
  rw [hinside.runEnd_eq singleByte_isNameChar] at hname ⊢
  cases hempty : (Cursor.span isNameChar ⟨i + 2, rest⟩).1.isEmpty with
  | true =>
      rw [if_pos (hname.2 hempty), if_pos rfl]
      rfl
  | false =>
      rw [if_neg fun heq => Bool.false_ne_true (hempty.symm.trans (hname.1 heq)),
        if_neg Bool.false_ne_true, hafter.runEnd_eq singleByte_isAsciiBlank, ← hskip]
      rcases (hafter.skip isAsciiBlank).strip?_cases (x := '>') rfl with ⟨hstands, hstrip⟩ |
        ⟨d, hstands, hstrip, hd, -⟩
      · rw [hstands, if_neg Bool.false_ne_true, hstrip]
        rfl
      · rw [hstands, if_pos rfl, hstrip, hslice, ← hd]
        rfl

/-! ### One step -/

theorem plainMarker_comment : PlainMarker "<!--".toList :=
  ⟨by decide, by decide⟩

theorem plainMarker_section : PlainMarker "<![CDATA[".toList :=
  ⟨by decide, by decide⟩

theorem plainMarker_instruction : PlainMarker "<?".toList :=
  ⟨by decide, by decide⟩

theorem plainMarker_declaration : PlainMarker "<!".toList :=
  ⟨by decide, by decide⟩

/-- What stands between two markers. -/
theorem scanEnclosed_eq {inside : Cursor} {opening closing : List Char} (fault : ParseFault)
    (hclosing : PlainMarker closing) (h : c.StandsIn text)
    (hstrip : c.strip? opening = some inside) :
    scanEnclosed text fault opening closing c.offset =
      some ((enclosed fault c.offset closing inside).map fun found =>
        (.ofList found.1, found.2.offset)) := by
  have hinside := h.of_leadsTo (Cursor.leadsTo_of_strip? hstrip)
  obtain ⟨rest, -, rfl⟩ := Option.map_eq_some_iff.1 hstrip
  obtain ⟨place, hplace⟩ := Option.isSome_iff_exists.1 hinside.isSome_placeAt?
  have hmarked := hinside.firstMarked?_eq hclosing
  rw [scanEnclosed, enclosed, Cursor.cut?]
  dsimp only [Cursor.behind] at hplace hmarked ⊢
  rw [hplace, hmarked, Option.bind_some]
  cases hcut : cut closing rest with
  | none => rfl
  | some parts =>
      rw [Option.map_some]
      dsimp only
      rw [hinside.slice?_of_cut hcut]
      simp [Except.map, Nat.add_assoc]

theorem cut_cons_of_ne {y : Char} (h : y ≠ x) (rest : List Char) :
    cut [x] (y :: rest) = (cut [x] rest).map fun parts => (y :: parts.1, parts.2) := by
  rw [cut, isPrefixOf?_cons, beq_false_of_ne h.symm]
  rfl

/-- What is passed over. -/
theorem scanSkipped_eq {inside : Cursor} {second : Char} (hsecond : second ≠ '>')
    (h : c.StandsIn text) (hstrip : c.strip? ['<', second] = some inside) :
    scanSkipped text c.offset =
      some ((enclosed .unterminatedTag c.offset ['>'] inside).map fun found =>
        (none, found.2.offset)) := by
  obtain ⟨rest, hstarts, rfl⟩ := Option.map_eq_some_iff.1 hstrip
  obtain ⟨i, chars⟩ := c
  obtain rfl : chars = '<' :: second :: rest := isPrefixOf?_eq_append hstarts
  have hmarked := h.firstMarked?_eq (plainMarker_single (x := '>') rfl)
  rw [cut_cons_of_ne (by decide), cut_cons_of_ne hsecond, Option.map_map, Option.map_map] at hmarked
  rw [scanSkipped, enclosed, Cursor.cut?]
  dsimp only [Cursor.behind] at hmarked ⊢
  rw [hmarked]
  cases cut ['>'] rest with
  | none => rfl
  | some parts =>
      have hone : '>'.utf8Size = 1 := rfl
      simp [Except.map, Nat.add_assoc, hone]

/-- A text. -/
theorem scanText_eq (h : c.StandsIn text) :
    scanText text c.offset = .of (.ok (textToken? (replaceReferences
      (.ofList (c.span (· ≠ '<')).1)).toList, (c.span (· ≠ '<')).2)) := by
  have hstop : (firstMarked? text ['<'] c.offset).getD text.utf8ByteSize =
      (c.skip (· ≠ '<')).offset := by
    have hmarked := h.firstMarked?_eq (plainMarker_single (x := '<') rfl)
    have hsplit := List.takeWhile_append_dropWhile (p := (· ≠ '<')) (l := c.rest)
    have hrun : '<' ∉ c.rest.takeWhile (· ≠ '<') := fun hmem => by
      simpa using List.all_eq_true.1 List.all_takeWhile _ hmem
    cases hdrop : c.rest.dropWhile (· ≠ '<') with
    | nil =>
        rw [hdrop, List.append_nil] at hsplit
        rw [hmarked, cut_singleton_eq_none_iff.2 (hsplit ▸ hrun)]
        exact ((h.skip (· ≠ '<')).offset_of_nil hdrop).symm
    | cons x rest =>
        have hx := List.head?_dropWhile_not (· ≠ '<') c.rest
        rw [hdrop] at hx hsplit
        obtain rfl : x = '<' := by simpa using hx
        rw [hmarked, ← hsplit, cut_singleton hrun]
        rfl
  rw [scanText, hstop, h.slice?_run]
  rfl

/-- The lexeme at an angle bracket. -/
theorem scanMarkup_eq (h : c.StandsIn text) (hrest : c.rest = '<' :: rest) :
    scanMarkup text c.offset = .of (lexeme c) := by
  have hmarked : ∀ marker, PlainMarker marker →
      (markerEnd? text marker c.offset).isSome = (c.strip? marker).isSome := by
    intro marker hmarker
    rw [h.isSome_markerEnd? hmarker, Cursor.strip?, Option.isSome_map]
  have hhead : ¬ c.rest.head? ≠ some '<' := fun hne => hne (by rw [hrest]; rfl)
  rw [scanMarkup, lexeme, if_neg hhead, hmarked _ plainMarker_comment,
    hmarked _ plainMarker_section, hmarked _ plainMarker_instruction,
    hmarked _ plainMarker_declaration]
  cases hcomment : c.strip? "<!--".toList with
  | some inside =>
      rw [if_pos Option.isSome_some, scanEnclosed_eq _ ⟨by decide, by decide⟩ h hcomment]
      dsimp only
      cases enclosed .unterminatedComment c.offset "-->".toList inside <;> rfl
  | none =>
  rw [Option.isSome_none, if_neg Bool.false_ne_true]
  cases hsection : c.strip? "<![CDATA[".toList with
  | some inside =>
      rw [if_pos Option.isSome_some, scanEnclosed_eq _ ⟨by decide, by decide⟩ h hsection]
      dsimp only
      cases enclosed .unterminatedTag c.offset "]]>".toList inside with
      | error e => rfl
      | ok found => simp only [Scan.of, Option.map_some, Except.map, String.toList_ofList]
  | none =>
  rw [Option.isSome_none, if_neg Bool.false_ne_true]
  cases hinstruction : c.strip? "<?".toList with
  | some inside =>
      rw [Option.isSome_some, Bool.true_or, if_pos rfl, scanSkipped_eq (by decide) h hinstruction]
      dsimp only [Option.some_or]
      cases enclosed .unterminatedTag c.offset ['>'] inside <;> rfl
  | none =>
  rw [Option.isSome_none, Bool.false_or, Option.none_or]
  cases hdeclaration : c.strip? "<!".toList with
  | some inside =>
      rw [if_pos Option.isSome_some, scanSkipped_eq (by decide) h hdeclaration]
      dsimp only [Option.some_or]
      cases enclosed .unterminatedTag c.offset ['>'] inside <;> rfl
  | none =>
  rw [Option.isSome_none, if_neg Bool.false_ne_true]
  have hnext := h.of_leadsTo (d := ⟨c.offset + 1, rest⟩) ⟨['<'], hrest, rfl⟩
  by_cases hslash : rest.head? = some '/'
  · obtain ⟨more, rfl⟩ := List.head?_eq_some_iff.1 hslash
    have hstrip : c.strip? "</".toList = some ⟨c.offset + 2, more⟩ := Cursor.strip?_append hrest
    have hinside := h.of_leadsTo (Cursor.leadsTo_of_strip? hstrip)
    rw [if_pos ((hnext.standsAt_iff rfl).2 rfl), hstrip, scanEndTag_eq hinside]
    dsimp only
    cases readEndTag c.offset ⟨c.offset + 2, more⟩ <;> rfl
  · have hstrip : c.strip? "</".toList = none := by
      rw [Cursor.strip?, Option.map_eq_none_iff, isPrefixOf?_eq_none_iff, hrest]
      rintro ⟨more, hmore⟩
      exact hslash (congrArg List.head? (List.cons.inj hmore).2).symm
    rw [if_neg fun hstands => hslash ((hnext.standsAt_iff rfl).1 hstands), hstrip,
      scanStartTag_eq h hrest]
    dsimp only
    cases readStartTag c <;> rfl

theorem scanOne_eq (h : c.StandsIn text) : scanOne text c.offset = .of (lexeme c) := by
  rw [scanOne]
  by_cases hhead : c.rest.head? = some '<'
  · obtain ⟨rest, hrest⟩ := List.head?_eq_some_iff.1 hhead
    obtain ⟨place, hplace⟩ := Option.isSome_iff_exists.1 h.isSome_placeAt?
    rw [if_pos ((h.standsAt_iff rfl).2 hhead), hplace, Option.bind_some, scanMarkup_eq h hrest]
  · rw [if_neg fun hstands => hhead ((h.standsAt_iff rfl).1 hstands), scanText_eq h, lexeme,
      if_pos hhead]

/-! ### All tokens -/

theorem scanFrom_eq (found : List Token) (h : c.StandsIn text) :
    scanFrom text c.offset found = some ((tokensFrom c).map (found ++ ·)) := by
  fun_induction tokensFrom c generalizing found with
  | case1 c hnil => 
      rw [scanFrom, dif_neg (Nat.not_lt.2 (h.size_le_iff.2 hnil)), Except.map, List.append_nil]
  | case2 c hne e he => 
      have hone := scanOne_eq h
      rw [he] at hone
      rw [scanFrom, dif_pos (Nat.lt_of_not_le fun hle => hne (h.size_le_iff.1 hle))]
      split
      · next h => cases hone.symm.trans h
      · next h =>
          cases hone.symm.trans h
          rfl
      · next h => cases hone.symm.trans h
  | case3 c hne token? behind hlexeme ih => 
      have hone := scanOne_eq h
      rw [hlexeme] at hone
      have hbehind := h.of_leadsTo (leadsTo_of_lexeme hlexeme)
      rw [scanFrom, dif_pos (Nat.lt_of_not_le fun hle => hne (h.size_le_iff.1 hle))]
      split
      · next h => cases hone.symm.trans h
      · next h => cases hone.symm.trans h
      · next h =>
          cases hone.symm.trans h
          rw [ih _ hbehind]
          cases tokensFrom behind with
          | error e => rfl
          | ok tokens => simp only [Except.map, List.append_assoc]

/-- **The scan answers for every source, with its tokens.** -/
theorem scan_eq (source : String) : scan source = some (tokenize source) := by
  have hscan := scanFrom_eq [] (Cursor.standsIn_ofString source)
  rw [tokenize, scan]
  refine hscan.trans (congrArg some ?_)
  cases tokensFrom (.ofString source) <;> rfl

end ViewCompiler
