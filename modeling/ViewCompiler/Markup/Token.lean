/-
**Tokens of a source.**

A source is a sequence of start tags, end tags, texts and comments.  Declarations and processing
instructions are passed over, and marked sections are texts without references.  Names hold ASCII
letters, digits and `-`, `_`, `:`, `.`; every attribute has a quoted value.

Main definitions:

* `ViewCompiler.Token`, `ViewCompiler.ParseError` — what a source consists of, and why it cannot
  be read;
* `ViewCompiler.lexeme` — the token at the cursor and the place behind it;
* `ViewCompiler.tokenize` — all tokens of a source.

Main results:

* `ViewCompiler.lexeme_length_lt` — each step moves forward, so reading ends.
-/

import ViewCompiler.Markup.Forest
import ViewCompiler.Markup.Replacement
import ViewCompiler.Outcome
import ViewCompiler.Text.Blank

set_option autoImplicit false

namespace ViewCompiler

/-- The faults of a source. -/
inductive ParseFault where
  | unexpectedEndTag
  | unclosedElement
  | unterminatedTag
  | unterminatedComment
  | missingAttributeValue
  | invalidTagName
  deriving DecidableEq, Repr

/-- The name of a fault as messages show it. -/
def ParseFault.name : ParseFault → String
  | unexpectedEndTag => "UnexpectedEndTag"
  | unclosedElement => "UnclosedElement"
  | unterminatedTag => "UnterminatedTag"
  | unterminatedComment => "UnterminatedComment"
  | missingAttributeValue => "MissingAttributeValue"
  | invalidTagName => "InvalidTagName"

/-- A fault and the byte offset where it shows. -/
structure ParseError where
  fault : ParseFault
  position : Nat
  deriving DecidableEq, Repr

def ParseError.message (e : ParseError) : String :=
  e.fault.name ++ " at byte " ++ toString e.position

/-- A piece of a source; tags carry the byte offset of their angle bracket. -/
inductive Token where
  | startTag (name : String) (attributes : Attributes) (selfClosing : Bool) (position : Nat)
  | endTag (name : String) (position : Nat)
  | text (content : String)
  | comment (content : String)
  deriving DecidableEq, Repr

/-- The characters of names. -/
def isNameChar (c : Char) : Bool :=
  c.isAlphanum || c = '-' || c = '_' || c = ':' || c = '.'

/-! ### Tags -/

/-- One attribute: a name, an equals sign and a quoted value, blanks around the sign allowed.
`tag` is the offset of the tag that it belongs to. -/
def readAttribute (tag : Nat) (c : Cursor) : Except ParseError ((String × String) × Cursor) :=
  let (name, afterName) := c.span isNameChar
  if name.isEmpty then .error ⟨.invalidTagName, c.offset⟩
  else match (afterName.skip isAsciiBlank).strip? ['='] with
    | none => .error ⟨.missingAttributeValue, c.offset⟩
    | some afterSign =>
        let value := afterSign.skip isAsciiBlank
        match value.rest with
        | quote :: _ =>
            if quote = '"' || quote = '\'' then
              match value.strip? [quote] with
              | none => .error ⟨.missingAttributeValue, c.offset⟩
              | some inside =>
                  match inside.cut? [quote] with
                  | none => .error ⟨.unterminatedTag, tag⟩
                  | some (raw, behind) =>
                      .ok ((.ofList name, replaceReferences (.ofList raw)), behind)
            else .error ⟨.missingAttributeValue, c.offset⟩
        | [] => .error ⟨.missingAttributeValue, c.offset⟩

theorem readAttribute_length_lt {tag : Nat} {c d : Cursor} {a : String × String}
    (h : readAttribute tag c = .ok (a, d)) : d.rest.length < c.rest.length := by
  simp only [readAttribute] at h
  split at h
  · simp at h
  · split at h
    · simp at h
    · next afterSign hsign =>
        have h₁ := Cursor.length_strip?_lt (by simp) hsign
        have h₂ := Cursor.length_skip_le isAsciiBlank (c.span isNameChar).2
        have h₃ := Cursor.length_skip_le isNameChar c
        have h₄ := Cursor.length_skip_le isAsciiBlank afterSign
        simp only [Cursor.skip] at h₁ h₂ h₃ h₄
        split at h
        · split at h
          · split at h
            · simp at h
            · next inside hinside =>
                split at h
                · simp at h
                · next raw behind hcut =>
                    obtain ⟨_, rfl⟩ : _ ∧ behind = d := by simpa using h
                    have h₅ := Cursor.length_strip?_lt (by simp) hinside
                    have h₆ := Cursor.length_cut?_lt (by simp) hcut
                    simp only [Cursor.skip] at h₅
                    omega
          · simp at h
        · simp at h

/-- The attributes of a start tag up to its end: whether it closes itself comes with them. -/
def readAttributes (tag : Nat) (c : Cursor) : Except ParseError (Attributes × Bool × Cursor) :=
  let here := c.skip isAsciiBlank
  match here.rest with
  | [] => .error ⟨.unterminatedTag, tag⟩
  | '>' :: rest => .ok ([], false, here.behind ['>'] rest)
  | '/' :: '>' :: rest => .ok ([], true, here.behind ['/', '>'] rest)
  | '/' :: _ => .error ⟨.unterminatedTag, here.offset⟩
  | _ =>
      match _ : readAttribute tag here with
      | .error e => .error e
      | .ok (first, behind) =>
          match readAttributes tag behind with
          | .error e => .error e
          | .ok (more, result) => .ok (first :: more, result)
termination_by c.rest.length
decreasing_by
  have h₁ := readAttribute_length_lt ‹readAttribute _ _ = _›
  have h₂ : here.rest.length ≤ c.rest.length := Cursor.length_skip_le isAsciiBlank c
  omega

/-- The start tag at the cursor. -/
def readStartTag (c : Cursor) : Except ParseError (Token × Cursor) :=
  match c.strip? ['<'] with
  | none => .error ⟨.invalidTagName, c.offset⟩
  | some inside =>
      let (name, afterName) := inside.span isNameChar
      if name.isEmpty then .error ⟨.invalidTagName, c.offset⟩
      else match readAttributes c.offset afterName with
        | .error e => .error e
        | .ok (attributes, selfClosing, behind) =>
            .ok (.startTag (.ofList name) attributes selfClosing c.offset, behind)

/-- An end tag whose first two characters have been read; `tag` is its offset. -/
def readEndTag (tag : Nat) (inside : Cursor) : Except ParseError (Token × Cursor) :=
  let (name, afterName) := inside.span isNameChar
  if name.isEmpty then .error ⟨.invalidTagName, tag⟩
  else match (afterName.skip isAsciiBlank).strip? ['>'] with
    | none => .error ⟨.unterminatedTag, tag⟩
    | some behind => .ok (.endTag (.ofList name) tag, behind)

/-! ### One step -/

/-- The text token for a text that is not empty. -/
def textToken? (content : List Char) : Option Token :=
  if content.isEmpty then none else some (.text (.ofList content))

/-- What stands between an opening marker, already read, and the next closing one. -/
def enclosed (fault : ParseFault) (start : Nat) (closing : List Char) (inside : Cursor) :
    Except ParseError (List Char × Cursor) :=
  match inside.cut? closing with
  | none => .error ⟨fault, start⟩
  | some found => .ok found

/-- The lexeme at a cursor that is not at the end: the token it stands for, if any, and the place
behind it. -/
def lexeme (c : Cursor) : Except ParseError (Option Token × Cursor) :=
  if c.rest.head? ≠ some '<' then
    let (raw, behind) := c.span (· ≠ '<')
    .ok (textToken? (replaceReferences (.ofList raw)).toList, behind)
  else match c.strip? "<!--".toList with
  | some inside =>
      (enclosed .unterminatedComment c.offset "-->".toList inside).map fun found =>
        (some (.comment (.ofList found.1)), found.2)
  | none =>
  match c.strip? "<![CDATA[".toList with
  | some inside =>
      (enclosed .unterminatedTag c.offset "]]>".toList inside).map fun found =>
        (textToken? found.1, found.2)
  | none =>
  match (c.strip? "<?".toList).or (c.strip? "<!".toList) with
  | some inside =>
      (enclosed .unterminatedTag c.offset ['>'] inside).map fun found => (none, found.2)
  | none =>
  match c.strip? "</".toList with
  | some inside => (readEndTag c.offset inside).map fun found => (some found.1, found.2)
  | none => (readStartTag c).map fun found => (some found.1, found.2)

/-! ### Each step moves forward -/

theorem readAttributes_length_lt {tag : Nat} {c d : Cursor} {a : Attributes} {closing : Bool}
    (h : readAttributes tag c = .ok (a, closing, d)) : d.rest.length < c.rest.length := by
  fun_induction readAttributes tag c generalizing a closing d with
  | case1 => simp at h
  | case2 c here rest =>
      rename_i hrest
      have hskip : here.rest.length ≤ c.rest.length := Cursor.length_skip_le isAsciiBlank c
      obtain ⟨_, _, rfl⟩ : _ ∧ _ ∧ here.behind ['>'] rest = d := by simpa using h
      simp only [hrest, List.length_cons, Cursor.rest_behind] at hskip ⊢
      omega
  | case3 c here rest =>
      rename_i hrest
      have hskip : here.rest.length ≤ c.rest.length := Cursor.length_skip_le isAsciiBlank c
      obtain ⟨_, _, rfl⟩ : _ ∧ _ ∧ here.behind ['/', '>'] rest = d := by simpa using h
      simp only [hrest, List.length_cons, Cursor.rest_behind] at hskip ⊢
      omega
  | case4 => simp at h
  | case5 => simp at h
  | case6 => simp at h
  | case7 =>
      rename_i c here first behind hfirst more result hmore _ _ _ _ ih
      obtain ⟨_, rfl⟩ : _ ∧ result = (closing, d) := by simpa using h
      have h₁ := readAttribute_length_lt hfirst
      have h₂ : here.rest.length ≤ c.rest.length := Cursor.length_skip_le isAsciiBlank c
      have h₃ := ih hmore
      omega

theorem enclosed_length_lt {fault : ParseFault} {start : Nat} {closing text : List Char}
    {c d : Cursor} (hc : closing ≠ []) (h : enclosed fault start closing c = .ok (text, d)) :
    d.rest.length < c.rest.length := by
  simp only [enclosed] at h
  split at h
  · simp at h
  · next found hfound =>
      obtain rfl : found = (text, d) := by simpa using h
      exact Cursor.length_cut?_lt hc hfound

theorem readStartTag_length_lt {c d : Cursor} {t : Token} (h : readStartTag c = .ok (t, d)) :
    d.rest.length < c.rest.length := by
  simp only [readStartTag] at h
  split at h
  · simp at h
  · next inside hinside =>
      have h₁ := Cursor.length_strip?_lt (by simp) hinside
      have h₂ := Cursor.length_skip_le isNameChar inside
      simp only [Cursor.skip] at h₂
      split at h
      · simp at h
      · split at h
        · simp at h
        · next a closing behind hattributes =>
            have h₃ := readAttributes_length_lt hattributes
            obtain ⟨_, rfl⟩ : _ ∧ behind = d := by simpa using h
            omega

theorem readEndTag_length_lt {tag : Nat} {c d : Cursor} {t : Token}
    (h : readEndTag tag c = .ok (t, d)) : d.rest.length < c.rest.length := by
  simp only [readEndTag] at h
  split at h
  · simp at h
  · split at h
    · simp at h
    · next behind hstrip =>
        have h₁ := Cursor.length_strip?_lt (by simp) hstrip
        have h₂ := Cursor.length_skip_le isAsciiBlank (c.span isNameChar).2
        have h₃ := Cursor.length_skip_le isNameChar c
        simp only [Cursor.skip] at h₁ h₂ h₃
        obtain ⟨_, rfl⟩ : _ ∧ behind = d := by simpa using h
        omega

/-- A lexeme is never empty. -/
theorem lexeme_length_lt {c d : Cursor} {t : Option Token} (hc : c.rest ≠ [])
    (h : lexeme c = .ok (t, d)) : d.rest.length < c.rest.length := by
  simp only [lexeme] at h
  split at h
  · next hhead =>
      obtain ⟨_, rfl⟩ : _ ∧ (c.span fun x => decide (x ≠ '<')).2 = d := by simpa using h
      cases hrest : c.rest with
      | nil => exact absurd hrest hc
      | cons x xs =>
          have hx : x ≠ '<' := by simpa [hrest] using hhead
          have := Cursor.length_dropWhile_le (fun x => decide (x ≠ '<')) xs
          simp only [Cursor.rest_span, hrest, List.dropWhile_cons, hx, ne_eq, not_false_eq_true,
            decide_true, if_true, List.length_cons]
          simp only [ne_eq] at this
          omega
  · split at h
    · next inside hinside =>
        obtain ⟨found, hfound, heq⟩ := map_eq_ok_iff.mp h
        have h₁ := Cursor.length_strip?_lt (by decide) hinside
        have h₂ := enclosed_length_lt (by decide) hfound
        obtain ⟨_, rfl⟩ : _ ∧ found.2 = d := by simpa using heq
        omega
    · split at h
      · next inside hinside =>
          obtain ⟨found, hfound, heq⟩ := map_eq_ok_iff.mp h
          have h₁ := Cursor.length_strip?_lt (by decide) hinside
          have h₂ := enclosed_length_lt (by decide) hfound
          obtain ⟨_, rfl⟩ : _ ∧ found.2 = d := by simpa using heq
          omega
      · split at h
        · next inside hinside =>
            obtain ⟨found, hfound, heq⟩ := map_eq_ok_iff.mp h
            have h₁ : inside.rest.length < c.rest.length := by
              rcases Option.or_eq_some_iff.mp hinside with hq | ⟨_, hb⟩
              · exact Cursor.length_strip?_lt (by decide) hq
              · exact Cursor.length_strip?_lt (by decide) hb
            have h₂ := enclosed_length_lt (by decide) hfound
            obtain ⟨_, rfl⟩ : _ ∧ found.2 = d := by simpa using heq
            omega
        · split at h
          · next inside hinside =>
              obtain ⟨found, hfound, heq⟩ := map_eq_ok_iff.mp h
              have h₁ := Cursor.length_strip?_lt (by decide) hinside
              have h₂ := readEndTag_length_lt hfound
              obtain ⟨_, rfl⟩ : _ ∧ found.2 = d := by simpa using heq
              omega
          · obtain ⟨found, hfound, heq⟩ := map_eq_ok_iff.mp h
            have h₁ := readStartTag_length_lt hfound
            obtain ⟨_, rfl⟩ : _ ∧ found.2 = d := by simpa using heq
            omega

/-! ### All tokens -/

/-- The tokens from the cursor on. -/
def tokensFrom (c : Cursor) : Except ParseError (List Token) :=
  if _ : c.rest = [] then .ok []
  else match _ : lexeme c with
    | .error e => .error e
    | .ok (token?, behind) => (tokensFrom behind).map (token?.toList ++ ·)
termination_by c.rest.length
decreasing_by exact lexeme_length_lt ‹¬_› ‹lexeme _ = _›

/-- The tokens of a source. -/
def tokenize (source : String) : Except ParseError (List Token) :=
  tokensFrom (.ofString source)

end ViewCompiler
