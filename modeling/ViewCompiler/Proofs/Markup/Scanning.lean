/-
**Scanning what was written.**

The scanner takes a written text apart where the writer has put it together: one token for every
text, comment and tag.  Each lemma here is about a cursor in front of a written piece with anything
behind it, and says which token is read and that the cursor then stands behind the piece.

Main definitions:

* `ViewCompiler.attributeChars`, `ViewCompiler.tagEnd`, `ViewCompiler.startTagChars`,
  `ViewCompiler.endTagChars` — the characters of written tags.

Main results:

* `ViewCompiler.lexeme_text`, `ViewCompiler.lexeme_comment`, `ViewCompiler.lexeme_startTag`,
  `ViewCompiler.lexeme_endTag` — one written piece is one token;
* `ViewCompiler.tokensFrom_of_lexeme` — and the tokens go on behind it.
-/

import ViewCompiler.Markup.Writer
import ViewCompiler.Proofs.Markup.Legible
import ViewCompiler.Proofs.Markup.Replacing

set_option relaxedAutoImplicit false
set_option autoImplicit false

namespace ViewCompiler

/-! ### Moving a cursor -/

namespace Cursor

variable {c : Cursor} {p : Char → Bool} {run more : List Char}

/-- Moving on twice is moving on once. -/
theorem behind_behind (c : Cursor) (a b rest rest' : List Char) :
    (c.behind a rest).behind b rest' = c.behind (a ++ b) rest' := by
  simp only [behind, utf8Length_append, Nat.add_assoc]

theorem behind_nil (h : c.rest = more) : c.behind [] more = c := by
  subst h
  rfl

/-- A class does not go on where another character stands. -/
theorem head_cons {x : Char} (h : p x = false) (more : List Char) :
    ∀ y ∈ (x :: more).head?, p y = false := by
  intro y hy
  cases hy
  exact h

/-- A run ends where the class ends. -/
theorem span_append (hrun : ∀ x ∈ run, p x = true) (hmore : ∀ x ∈ more.head?, p x = false)
    (h : c.rest = run ++ more) : c.span p = (run, c.behind run more) := by
  simp only [span, h]
  rw [takeWhile_append_of_head hrun hmore, dropWhile_append_of_head hrun hmore]

theorem skip_append (hrun : ∀ x ∈ run, p x = true) (hmore : ∀ x ∈ more.head?, p x = false)
    (h : c.rest = run ++ more) : c.skip p = c.behind run more := by
  rw [skip, span_append hrun hmore h]

/-- Where there is nothing to skip the cursor stays. -/
theorem skip_of_head (h : ∀ x ∈ c.rest.head?, p x = false) : c.skip p = c := by
  have hskip : c.skip p = c.behind [] c.rest :=
    skip_append (fun x hx => absurd hx List.not_mem_nil) h rfl
  rw [hskip, behind_nil rfl]

theorem strip?_append {marker : List Char} (h : c.rest = marker ++ more) :
    c.strip? marker = some (c.behind marker more) := by
  rw [strip?, h, isPrefixOf?_append]
  rfl

/-- A marker is not found where its second character does not stand. -/
theorem strip?_of_second {a x y : Char} {marker : List Char} (hxy : x ≠ y)
    (h : c.rest = a :: y :: more) : c.strip? (a :: x :: marker) = none := by
  rw [strip?, h, Option.map_eq_none_iff, isPrefixOf?_eq_none_iff]
  intro hstarts
  exact hxy (List.cons_prefix_cons.1 (List.cons_prefix_cons.1 hstarts).2).1

theorem cut?_append {marker before : List Char} (hm : marker ≠ [])
    (hfirst : ¬ marker <:+: before ++ marker.dropLast) (h : c.rest = before ++ marker ++ more) :
    c.cut? marker = some (before, c.behind (before ++ marker) more) := by
  rw [cut?, h, ViewCompiler.cut_append more hm hfirst]
  rfl

end Cursor

/-! ### Names -/

theorem isAsciiBlank_of_isNameChar {c : Char} (h : isNameChar c = true) :
    isAsciiBlank c = false :=
  isAsciiBlank_of_class h rfl

/-- The first character of a name. -/
theorem IsName.exists_cons {name : String} (h : IsName name) :
    ∃ c cs, name.toList = c :: cs ∧ isNameChar c = true := by
  cases hname : name.toList with
  | nil => exact absurd (String.toList_eq_nil_iff.1 hname) h.1
  | cons c cs => exact ⟨c, cs, rfl, h.2 c (by rw [hname]; exact List.mem_cons_self)⟩

theorem IsName.toList_isEmpty {name : String} (h : IsName name) : name.toList.isEmpty = false := by
  obtain ⟨c, cs, hname, -⟩ := h.exists_cons
  rw [hname]
  rfl

/-! ### Tags -/

/-- The characters of written attributes. -/
def attributeChars (attributes : Attributes) : List Char :=
  attributes.flatMap fun a =>
    ' ' :: (a.1.toList ++ ('=' :: '"' :: (escapeValue a.2.toList ++ ['"'])))

/-- The end of a start tag. -/
def tagEnd (selfClosing : Bool) : List Char :=
  if selfClosing then ['/', '>'] else ['>']

/-- The characters of a start tag. -/
def startTagChars (name : String) (attributes : Attributes) (selfClosing : Bool) : List Char :=
  '<' :: (name.toList ++ (attributeChars attributes ++ tagEnd selfClosing))

/-- The characters of an end tag. -/
def endTagChars (name : String) : List Char :=
  '<' :: '/' :: (name.toList ++ ['>'])

/-- The value of an attribute can be written: no expression in it contains a double quote or an
ampersand. -/
def KeepsSpans (value : String) : Prop :=
  ∀ s ∈ spans value.toList, '"' ∉ s ∧ '&' ∉ s

theorem readAttribute_written {tag : Nat} {c : Cursor} {name value : String} {more : List Char}
    (hname : IsName name) (hvalue : KeepsSpans value)
    (h : c.rest = name.toList ++ ('=' :: '"' :: (escapeValue value.toList ++ ['"'])) ++ more) :
    readAttribute tag c =
      .ok ((name, value),
        c.behind (name.toList ++ ('=' :: '"' :: (escapeValue value.toList ++ ['"']))) more) := by
  have hquote : '"' ∉ escapeValue value.toList := escapeValue_quote fun s hs => (hvalue s hs).1
  have hdecode : decode (escapeValue value.toList) = value.toList :=
    decode_escapeValue fun s hs => (hvalue s hs).2
  generalize escapeValue value.toList = raw at h hquote hdecode ⊢
  rw [List.append_assoc] at h
  have hspan := Cursor.span_append hname.2 (Cursor.head_cons rfl _) h
  have hfirst : ¬ ['"'] <:+: raw ++ ['"'].dropLast := by
    rwa [List.dropLast_singleton, List.append_nil, List.singleton_infix_iff]
  -- The sign and both quotes stand where they are looked for, without blanks before them.
  have hsign : ∀ d : Cursor, d.rest = '=' :: '"' :: (raw ++ ['"'] ++ more) →
      (d.skip isAsciiBlank).strip? ['='] =
        some (d.behind ['='] ('"' :: (raw ++ ['"'] ++ more))) := by
    intro d hd
    rw [Cursor.skip_of_head (by rw [hd]; exact Cursor.head_cons rfl _)]
    exact Cursor.strip?_append hd
  have hskip : ∀ d : Cursor, d.rest = '"' :: (raw ++ ['"'] ++ more) →
      d.skip isAsciiBlank = d := by
    intro d hd
    exact Cursor.skip_of_head (by rw [hd]; exact Cursor.head_cons rfl _)
  have hopen : ∀ d : Cursor, d.rest = '"' :: (raw ++ ['"'] ++ more) →
      d.strip? ['"'] = some (d.behind ['"'] (raw ++ ['"'] ++ more)) :=
    fun d hd => Cursor.strip?_append hd
  have hclose : ∀ d : Cursor, d.rest = raw ++ ['"'] ++ more →
      d.cut? ['"'] = some (raw, d.behind (raw ++ ['"']) more) :=
    fun d hd => Cursor.cut?_append (by decide) hfirst hd
  simp only [readAttribute, hspan, hname.toList_isEmpty]
  rw [if_neg Bool.false_ne_true, hsign _ rfl]
  simp only [hskip _ (Cursor.rest_behind _ _ _), Cursor.rest_behind]
  rw [if_pos (by decide), hopen _ rfl]
  simp only [hclose _ (Cursor.rest_behind _ _ _)]
  rw [replaceReferences_ofList, hdecode, String.ofList_toList, String.ofList_toList,
    Cursor.behind_behind, Cursor.behind_behind, Cursor.behind_behind]
  simp

/-- Where a name stands, one attribute is read and then the others. -/
theorem readAttributes_of_name {tag : Nat} {c behind : Cursor} {x : Char} {text : List Char}
    {first : String × String} (hrest : (c.skip isAsciiBlank).rest = x :: text)
    (hx : isNameChar x = true)
    (hfirst : readAttribute tag (c.skip isAsciiBlank) = .ok (first, behind)) :
    readAttributes tag c =
      (readAttributes tag behind).map fun found => (first :: found.1, found.2) := by
  have hends : x ≠ '>' ∧ x ≠ '/' := by
    constructor
    · rintro rfl
      exact absurd hx (by decide)
    · rintro rfl
      exact absurd hx (by decide)
  -- Only where a tag ends or the source does, no attribute is read.
  rw [readAttributes]
  split
  · rename_i hnil
    rw [hrest] at hnil
    cases hnil
  · rename_i hend
    rw [hrest] at hend
    exact absurd (List.cons.inj hend).1 hends.1
  · rename_i hend
    rw [hrest] at hend
    exact absurd (List.cons.inj hend).1 hends.2
  · rename_i hend
    rw [hrest] at hend
    exact absurd (List.cons.inj hend).1 hends.2
  · split
    · rename_i hread
      rw [hfirst] at hread
      cases hread
    · rename_i hread
      rw [hfirst] at hread
      cases hread
      cases readAttributes tag behind with
      | error e => rfl
      | ok found => rfl

/-- The attributes of a tag, up to its end. -/
theorem readAttributes_written {tag : Nat} {attributes : Attributes} {selfClosing : Bool}
    {more : List Char} (hattributes : ∀ a ∈ attributes, IsName a.1 ∧ KeepsSpans a.2) {c : Cursor}
    (h : c.rest = attributeChars attributes ++ tagEnd selfClosing ++ more) :
    readAttributes tag c =
      .ok (attributes, selfClosing,
        c.behind (attributeChars attributes ++ tagEnd selfClosing) more) := by
  induction attributes generalizing c with
  | nil =>
      have hskip : c.skip isAsciiBlank = c := by
        refine Cursor.skip_of_head ?_
        rw [h]
        cases selfClosing with
        | true => exact Cursor.head_cons rfl _
        | false => exact Cursor.head_cons rfl _
      rw [readAttributes]
      cases selfClosing with
      | true =>
          have hrest : c.rest = '/' :: '>' :: more := h
          simp only [hskip, hrest]
          rfl
      | false =>
          have hrest : c.rest = '>' :: more := h
          simp only [hskip, hrest]
          rfl
  | cons a attributes ih =>
      obtain ⟨hname, hvalue⟩ := hattributes a List.mem_cons_self
      obtain ⟨x, xs, hx, hnameChar⟩ := hname.exists_cons
      rw [attributeChars, List.flatMap_cons, ← attributeChars] at h ⊢
      -- The blank in front of the attribute is skipped, and the attribute begins with its name.
      generalize hpiece : a.1.toList ++ ('=' :: '"' :: (escapeValue a.2.toList ++ ['"'])) = piece
        at h ⊢
      have hhead : piece = x :: (xs ++ ('=' :: '"' :: (escapeValue a.2.toList ++ ['"']))) := by
        rw [← hpiece, hx]
        rfl
      let behindBlank := c.behind [' ']
        (piece ++ (attributeChars attributes ++ tagEnd selfClosing ++ more))
      have hskip : c.skip isAsciiBlank = behindBlank := by
        refine Cursor.skip_append ?_ ?_ ?_
        · intro y hy
          rw [List.mem_singleton.1 hy]
          decide
        · rw [hhead]
          exact Cursor.head_cons (isAsciiBlank_of_isNameChar hnameChar) _
        · rw [h]
          simp
      have hfirst : readAttribute tag behindBlank =
          .ok (a, behindBlank.behind piece
            (attributeChars attributes ++ tagEnd selfClosing ++ more)) := by
        subst hpiece
        exact readAttribute_written hname hvalue rfl
      have hmore := ih (fun b hb => hattributes b (List.mem_cons_of_mem a hb))
        (Cursor.rest_behind behindBlank piece _)
      have hrest : (c.skip isAsciiBlank).rest =
          x :: (xs ++ ('=' :: '"' :: (escapeValue a.2.toList ++ ['"'])) ++
            (attributeChars attributes ++ tagEnd selfClosing ++ more)) := by
        rw [hskip, Cursor.rest_behind, hhead]
        rfl
      rw [← hskip] at hfirst hmore
      rw [readAttributes_of_name hrest hnameChar hfirst, hmore, hskip]
      simp [Except.map, behindBlank, Cursor.behind_behind]

/-- Behind the name of a start tag stands no character of a name. -/
theorem head_behind_name (attributes : Attributes) (selfClosing : Bool) (more : List Char) :
    ∀ x ∈ (attributeChars attributes ++ tagEnd selfClosing ++ more).head?,
      isNameChar x = false := by
  cases attributes with
  | nil =>
      cases selfClosing with
      | true => exact Cursor.head_cons rfl _
      | false => exact Cursor.head_cons rfl _
  | cons a attributes => exact Cursor.head_cons rfl _

/-! ### One piece, one token -/

/-- An angle bracket without one of two marks behind it begins a tag. -/
theorem lexeme_tag {c : Cursor} {x : Char} {text : List Char} (hrest : c.rest = '<' :: x :: text)
    (hmark : '!' ≠ x) (hask : '?' ≠ x) :
    lexeme c = ((c.strip? "</".toList).elim (readStartTag c) (readEndTag c.offset)).map
      fun found => (some found.1, found.2) := by
  have hcomment : c.strip? "<!--".toList = none := Cursor.strip?_of_second hmark hrest
  have hsection : c.strip? "<![CDATA[".toList = none := Cursor.strip?_of_second hmark hrest
  have hinstruction : c.strip? "<?".toList = none := Cursor.strip?_of_second hask hrest
  have hdeclaration : c.strip? "<!".toList = none := Cursor.strip?_of_second hmark hrest
  rw [lexeme, if_neg (by rw [hrest]; simp)]
  simp only [hcomment, hsection, hinstruction, hdeclaration, Option.or_none]
  cases c.strip? "</".toList with
  | none => rfl
  | some inside => rfl

/-- A written start tag. -/
theorem lexeme_startTag {c : Cursor} {name : String} {attributes : Attributes}
    {selfClosing : Bool} {more : List Char} (hname : IsName name)
    (hattributes : ∀ a ∈ attributes, IsName a.1 ∧ KeepsSpans a.2)
    (h : c.rest = startTagChars name attributes selfClosing ++ more) :
    lexeme c = .ok (some (.startTag name attributes selfClosing c.offset),
      c.behind (startTagChars name attributes selfClosing) more) := by
  obtain ⟨x, xs, hx, hnameChar⟩ := hname.exists_cons
  have hrest : c.rest = '<' :: x :: (xs ++ (attributeChars attributes ++ tagEnd selfClosing) ++
      more) := by
    rw [h, startTagChars, hx]
    rfl
  -- None of the characters that tell other pieces from start tags is a character of names.
  have hne : ∀ y, isNameChar y = false → y ≠ x := by
    rintro y hy rfl
    rw [hnameChar] at hy
    cases hy
  have hend : c.strip? "</".toList = none := Cursor.strip?_of_second (hne '/' rfl) hrest
  have hstrip : c.strip? ['<'] = some (c.behind ['<']
      (name.toList ++ (attributeChars attributes ++ tagEnd selfClosing ++ more))) := by
    refine Cursor.strip?_append ?_
    rw [h, startTagChars]
    simp
  have hspan := fun d : Cursor => Cursor.span_append (c := d) hname.2
    (head_behind_name attributes selfClosing more)
  rw [lexeme_tag hrest (hne '!' rfl) (hne '?' rfl), hend, Option.elim_none]
  simp only [readStartTag, hstrip, hspan _ (Cursor.rest_behind _ _ _), hname.toList_isEmpty]
  rw [if_neg Bool.false_ne_true,
    readAttributes_written hattributes (Cursor.rest_behind _ _ _)]
  simp [Except.map, Cursor.behind_behind, startTagChars, String.ofList_toList]

/-- A written end tag. -/
theorem lexeme_endTag {c : Cursor} {name : String} {more : List Char} (hname : IsName name)
    (h : c.rest = endTagChars name ++ more) :
    lexeme c = .ok (some (.endTag name c.offset), c.behind (endTagChars name) more) := by
  have hrest : c.rest = '<' :: '/' :: (name.toList ++ ('>' :: more)) := by
    rw [h, endTagChars]
    simp
  have hend : c.strip? "</".toList =
      some (c.behind "</".toList (name.toList ++ ('>' :: more))) := Cursor.strip?_append hrest
  have hspan : ∀ d : Cursor, d.rest = name.toList ++ ('>' :: more) →
      d.span isNameChar = (name.toList, d.behind name.toList ('>' :: more)) :=
    fun d hd => Cursor.span_append hname.2 (Cursor.head_cons rfl _) hd
  have hclose : ∀ d : Cursor, d.rest = '>' :: more →
      (d.skip isAsciiBlank).strip? ['>'] = some (d.behind ['>'] more) := by
    intro d hd
    rw [Cursor.skip_of_head (by rw [hd]; exact Cursor.head_cons rfl _)]
    exact Cursor.strip?_append hd
  rw [lexeme_tag hrest (by decide) (by decide), hend, Option.elim_some]
  simp only [readEndTag, hspan _ (Cursor.rest_behind _ _ _), hname.toList_isEmpty]
  rw [if_neg Bool.false_ne_true, hclose _ rfl]
  simp [Except.map, Cursor.behind_behind, endTagChars, String.ofList_toList]

/-- A comment without an end of a comment in it does not end before its own: the first two
characters of the end add no earlier one. -/
theorem comment_first {text : List Char} (h : ¬ ['-', '-', '>'] <:+: text) :
    ¬ ['-', '-', '>'] <:+: text ++ ['-', '-'] := by
  rintro ⟨a, b, hab⟩
  rcases List.append_eq_append_iff.1 hab with ⟨inner, htext, -⟩ | ⟨inner, htext, hdashes⟩
  · exact h ⟨a, inner, htext.symm⟩
  · cases hlast : inner.getLast? with
    | none =>
        rw [List.getLast?_eq_none_iff.1 hlast, List.append_nil] at htext
        exact h ⟨a, [], by rw [List.append_nil, htext]⟩
    | some y =>
        have hy : some '>' = some y := by
          have hend := congrArg List.getLast? htext
          rwa [List.getLast?_append, List.getLast?_append, hlast] at hend
        have hmem : y ∈ ['-', '-'] := by
          rw [hdashes]
          exact List.mem_append_left b (List.mem_of_getLast? hlast)
        cases hy
        exact absurd hmem (by decide)

/-- A written comment. -/
theorem lexeme_comment {c : Cursor} {content : String} {more : List Char}
    (hcontent : LegibleLeaf .comment content)
    (h : c.rest = "<!--".toList ++ (content.toList ++ "-->".toList ++ more)) :
    lexeme c = .ok (some (.comment content),
      c.behind ("<!--".toList ++ (content.toList ++ "-->".toList)) more) := by
  have hstrip : c.strip? "<!--".toList =
      some (c.behind "<!--".toList (content.toList ++ "-->".toList ++ more)) :=
    Cursor.strip?_append h
  have hclose : ∀ d : Cursor, d.rest = content.toList ++ "-->".toList ++ more →
      d.cut? "-->".toList = some (content.toList, d.behind (content.toList ++ "-->".toList) more) :=
    fun d hd => Cursor.cut?_append (by decide) (comment_first hcontent) hd
  have hhead : c.rest.head? = some '<' := by
    rw [h]
    rfl
  rw [lexeme, if_neg (by rw [hhead]; simp)]
  simp only [hstrip, enclosed, hclose _ (Cursor.rest_behind _ _ _)]
  simp [Except.map, Cursor.behind_behind, String.ofList_toList]

/-- Written text, up to the next tag or comment. -/
theorem lexeme_text {c : Cursor} {content : List Char} {more : List Char} (hcontent : content ≠ [])
    (hmore : ∀ x ∈ more.head?, x = '<') (h : c.rest = escapeText content ++ more) :
    lexeme c = .ok (some (.text (.ofList content)), c.behind (escapeText content) more) := by
  have hangle : ∀ x ∈ escapeText content, decide (x ≠ '<') = true := by
    intro x hx
    rw [decide_eq_true_eq]
    rintro rfl
    exact escapeText_angle content hx
  have hspan := Cursor.span_append hangle (fun x hx => by rw [hmore x hx]; decide) h
  have hdecode := decode_escapeText content
  -- What is not empty is not empty when it is escaped, or it could not be decoded.
  have hhead : c.rest.head? ≠ some '<' := by
    rw [h]
    cases hescaped : escapeText content with
    | nil =>
        rw [hescaped, decode] at hdecode
        exact absurd hdecode.symm hcontent
    | cons x xs =>
        rw [hescaped] at hangle
        have hx := hangle x List.mem_cons_self
        simpa using hx
  have htoken : textToken? content = some (.text (.ofList content)) := by
    rw [textToken?, if_neg]
    simpa using hcontent
  rw [lexeme, if_pos hhead]
  simp only [hspan, replaceReferences_ofList, hdecode, String.toList_ofList, htoken]

/-- Tokens are read one by one. -/
theorem tokensFrom_of_lexeme {c d : Cursor} {t : Token} (h : lexeme c = .ok (some t, d)) :
    tokensFrom c = (tokensFrom d).map (t :: ·) := by
  have hc : c.rest ≠ [] := by
    intro hnil
    rw [lexeme, if_pos (by rw [hnil]; simp)] at h
    simp [Cursor.span, hnil, textToken?, replaceReferences_eq, decode] at h
  rw [tokensFrom, dif_neg hc]
  split
  · rename_i herror
    rw [h] at herror
    cases herror
  · rename_i hok
    rw [h] at hok
    cases hok
    rfl

end ViewCompiler
