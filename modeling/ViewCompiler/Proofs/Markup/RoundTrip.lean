/-
**Reading undoes writing.**

A legible forest that is written in either style and read again is the same forest, except that
texts side by side have become one text, and written again it gives the same source.  The one
condition that reading does not ensure by itself is on attribute values: an expression in a value
is written as it is, and must not contain what is decoded or what ends the value.

The written form of a forest and that of the forest with its texts merged are the same, so only
forests without texts side by side have to be read.  For these the induction is on the forest, for
a cursor in front of its written form and a reader in any state: the tokens of the written form
take the reader to the state that has the siblings in front of what it had.

Main definitions:

* `ViewCompiler.Forest.chars` — the characters of the written form;
* `ViewCompiler.Forest.merged` — texts side by side made one;
* `ViewCompiler.Yields` — tokens from which a reader makes given siblings.

Main results:

* `ViewCompiler.Forest.toList_write` — the written form, by recursion on the forest;
* `ViewCompiler.Forest.chars_merged` — merging texts does not change it;
* `ViewCompiler.tokensFrom_chars` — its tokens yield the forest;
* `ViewCompiler.parse_write` — **reading undoes writing**.
-/

import ViewCompiler.Proofs.Markup.Scanning

set_option relaxedAutoImplicit false
set_option autoImplicit false

namespace ViewCompiler

variable {ι κ : Type}

/-! ### The written form -/

/-- An element without children closes its own tag when it is written. -/
def closesItself (style : WriteStyle) (name : String) : Bool :=
  style = .xml || voidElements.contains name

namespace Forest

/-- The characters of the written form. -/
def chars (style : WriteStyle) : Forest ι → List Char
  | nil => []
  | element _ name attributes children rest =>
      (if children.isEmpty && closesItself style name then startTagChars name attributes true
        else startTagChars name attributes false ++ (children.chars style ++ endTagChars name)) ++
        rest.chars style
  | leaf _ kind content rest => (writeLeaf kind content).toList ++ rest.chars style

/-- Texts side by side in front of siblings whose texts are merged already. -/
def mergeText (label : ι) (content : String) : Forest ι → Forest ι
  | leaf _ .text more rest => leaf label .text (content ++ more) rest
  | rest => leaf label .text content rest

/-- Texts side by side made one. -/
def merged : Forest ι → Forest ι
  | nil => nil
  | element label name attributes children rest =>
      element label name attributes children.merged rest.merged
  | leaf label .text content rest => mergeText label content rest.merged
  | leaf label kind content rest => leaf label kind content rest.merged

/-- The first of the siblings is a text. -/
def beginsWithText : Forest ι → Bool
  | leaf _ .text _ _ => true
  | _ => false

/-- No two texts stand side by side. -/
def Separated : Forest ι → Prop
  | nil => True
  | element _ _ _ children rest => children.Separated ∧ rest.Separated
  | leaf _ kind _ rest => (kind = .text → rest.beginsWithText = false) ∧ rest.Separated

/-- All attribute values can be written. -/
def ValuesKept : Forest ι → Prop
  | nil => True
  | element _ _ attributes children rest =>
      (∀ a ∈ attributes, KeepsSpans a.2) ∧ children.ValuesKept ∧ rest.ValuesKept
  | leaf _ _ _ rest => rest.ValuesKept

end Forest

theorem toList_writeAttributes (attributes : Attributes) :
    (writeAttributes attributes).toList = attributeChars attributes := by
  have honto : ∀ out : String,
      (attributes.foldl (fun out a =>
        out ++ " " ++ a.1 ++ "=\"" ++ .ofList (escapeValue a.2.toList) ++ "\"") out).toList =
        out.toList ++ attributeChars attributes := by
    induction attributes with
    | nil => intro out; simp [attributeChars]
    | cons a attributes ih =>
        intro out
        rw [List.foldl_cons, ih]
        simp [attributeChars, String.toList_append, String.toList_ofList]
  exact honto ""

theorem toList_writeChildless (style : WriteStyle) (name : String) :
    (writeChildless style name).toList =
      if closesItself style name then tagEnd true else tagEnd false ++ endTagChars name := by
  rw [writeChildless, closesItself]
  split
  · rfl
  · simp [tagEnd, endTagChars, String.toList_append]

namespace Forest

theorem isEmpty_iff {f : Forest ι} : f.isEmpty = true ↔ f = nil := by
  cases f <;> simp [isEmpty]

theorem toList_writeOnto (style : WriteStyle) (f : Forest ι) (out : String) :
    (f.writeOnto style out).toList = out.toList ++ f.chars style := by
  induction f generalizing out with
  | nil => simp [writeOnto, chars]
  | leaf label kind content rest ih =>
      rw [writeOnto, ih, chars, String.toList_append, List.append_assoc]
  | element label name attributes children rest ihc ihr =>
      rw [writeOnto, ihr, chars, ← List.append_assoc]
      congr 1
      cases hempty : children.isEmpty with
      | true =>
          obtain rfl := isEmpty_iff.1 hempty
          simp only [if_true, String.toList_append, toList_writeChildless, writeOpening,
            toList_writeAttributes]
          cases closesItself style name with
          | true => simp [startTagChars]
          | false => simp [startTagChars, chars]
      | false =>
          simp [ihc, writeOpening, startTagChars, endTagChars, tagEnd, toList_writeAttributes,
            String.toList_append]

/-- The written form, by recursion on the forest. -/
theorem toList_write (style : WriteStyle) (f : Forest ι) :
    (f.write style).toList = f.chars style := by
  rw [write, toList_writeOnto]
  rfl

theorem chars_plain (style : WriteStyle) (f : Forest ι) : f.plain.chars style = f.chars style := by
  induction f with
  | nil => rfl
  | leaf _ _ _ _ ih => exact congrArg _ ih
  | element label name attributes children rest ihc ihr =>
      have hempty : children.plain.isEmpty = children.isEmpty := by
        cases children <;> rfl
      rw [plain, map, ← plain, ← plain, chars, chars, ihc, ihr, hempty]

/-! ### Merging texts -/

theorem chars_mergeText (style : WriteStyle) (label : ι) (content : String) (f : Forest ι) :
    (mergeText label content f).chars style = (leaf label .text content f).chars style := by
  unfold mergeText
  split
  · simp [chars, writeLeaf, escapeText, String.toList_append, String.toList_ofList]
  · rfl

theorem isEmpty_merged (f : Forest ι) : f.merged.isEmpty = f.isEmpty := by
  cases f with
  | nil => rfl
  | element _ _ _ _ _ => rfl
  | leaf label kind content rest =>
      cases kind with
      | text =>
          rw [merged]
          unfold mergeText
          split <;> rfl
      | comment => rfl
      | raw => rfl

/-- Merging texts does not change the written form. -/
theorem chars_merged (style : WriteStyle) (f : Forest ι) :
    f.merged.chars style = f.chars style := by
  induction f with
  | nil => rfl
  | element _ _ _ children _ ihc ihr => rw [merged, chars, chars, ihc, ihr, isEmpty_merged]
  | leaf label kind content rest ih =>
      cases kind with
      | text => rw [merged, chars_mergeText, chars, chars, ih]
      | comment => rw [merged, chars, chars, ih]; exact LeafKind.noConfusion
      | raw => rw [merged, chars, chars, ih]; exact LeafKind.noConfusion

theorem separated_mergeText {label : ι} {content : String} {f : Forest ι} (h : f.Separated) :
    (mergeText label content f).Separated := by
  unfold mergeText
  split
  · exact ⟨h.1, h.2⟩
  · rename_i hother
    refine ⟨fun _ => ?_, h⟩
    cases f with
    | nil => rfl
    | element _ _ _ _ _ => rfl
    | leaf label kind more rest =>
        cases kind with
        | text => exact absurd rfl (hother label more rest)
        | comment => rfl
        | raw => rfl

/-- After merging, no two texts stand side by side. -/
theorem separated_merged (f : Forest ι) : f.merged.Separated := by
  induction f with
  | nil => trivial
  | element _ _ _ _ _ ihc ihr => exact ⟨ihc, ihr⟩
  | leaf label kind content rest ih =>
      cases kind with
      | text => exact separated_mergeText ih
      | comment => exact ⟨fun h => LeafKind.noConfusion h, ih⟩
      | raw => exact ⟨fun h => LeafKind.noConfusion h, ih⟩

theorem Legible.merged {f : Forest ι} (h : f.Legible) : f.merged.Legible := by
  induction f with
  | nil => trivial
  | element _ _ _ _ _ ihc ihr => exact ⟨h.1, ihc h.2.1, ihr h.2.2⟩
  | leaf label kind content rest ih =>
      have hrest := ih h.2
      cases kind with
      | comment => exact ⟨h.1, hrest⟩
      | raw => exact ⟨h.1, hrest⟩
      | text =>
          have hcontent : content ≠ "" := h.1
          rw [Forest.merged]
          unfold mergeText
          split
          · rename_i heq
            rw [heq] at hrest
            refine ⟨?_, hrest.2⟩
            intro hempty
            exact hcontent (String.append_eq_empty_iff.1 hempty).1
          · exact ⟨hcontent, hrest⟩

theorem ValuesKept.merged {f : Forest ι} (h : f.ValuesKept) : f.merged.ValuesKept := by
  induction f with
  | nil => trivial
  | element _ _ _ _ _ ihc ihr => exact ⟨h.1, ihc h.2.1, ihr h.2.2⟩
  | leaf label kind content rest ih =>
      have hrest := ih h
      cases kind with
      | comment => exact hrest
      | raw => exact hrest
      | text =>
          rw [Forest.merged]
          unfold mergeText
          split
          · rename_i heq
            rw [heq] at hrest
            exact hrest
          · exact hrest

/-- What follows a text, when no text does: a tag, a comment, or what stands behind the siblings. -/
theorem head_chars (style : WriteStyle) {f : Forest ι} {more : List Char} (hf : f.Legible)
    (htext : f.beginsWithText = false) (hmore : ∀ x ∈ more.head?, x = '<') :
    ∀ x ∈ (f.chars style ++ more).head?, x = '<' := by
  cases f with
  | nil => exact hmore
  | element label name attributes children rest =>
      rw [chars]
      split
      · intro x hx
        cases hx
        rfl
      · intro x hx
        cases hx
        rfl
  | leaf label kind content rest =>
      cases kind with
      | text => cases htext
      | raw => exact absurd hf.1 id
      | comment =>
          intro x hx
          rw [chars, writeLeaf] at hx
          simp only [String.toList_append, List.append_assoc] at hx
          cases hx
          rfl

end Forest

/-! ### What the reader makes of tokens -/

theorem Forest.reverseOnto_reverseOnto (f g h : Forest ι) :
    (f.reverseOnto g).reverseOnto h = g.reverseOnto (f ++ h) := by
  induction f generalizing g with
  | nil => rfl
  | element _ _ _ _ _ _ ih => exact ih _
  | leaf _ _ _ _ ih => exact ih _

@[simp] theorem Forest.reverse_reverse (f : Forest ι) : f.reverse.reverse = f := by
  rw [reverse, reverse, reverseOnto_reverseOnto, append_nil]
  rfl

theorem Reading.steps_cons {r s : Reading} {t : Token} {more : List Token}
    (h : r.step t = .ok s) : r.steps (t :: more) = s.steps more := by
  rw [Reading.steps, h]

theorem Reading.steps_append {r s : Reading} {a b : List Token} (h : r.steps a = .ok s) :
    r.steps (a ++ b) = s.steps b := by
  induction a generalizing r with
  | nil =>
      cases h
      rfl
  | cons t a ih =>
      rw [Reading.steps] at h
      split at h
      · cases h
      · rename_i r' hr'
        rw [List.cons_append, Reading.steps_cons hr']
        exact ih h

/-- From the tokens a reader in any state makes the siblings, under some labels, and puts them in
front of what it has. -/
def Yields (tokens : List Token) (f : Forest ι) : Prop :=
  ∀ r : Reading, ∃ (g : Forest NodeId) (next : NodeId), g.plain = f.plain ∧
    r.steps tokens = .ok ⟨r.opened, g.reverseOnto r.done, next⟩

section Yields

variable {label : ι} {name content : String} {attributes : Attributes} {children rest : Forest ι}
  {tokens inner : List Token}

theorem yields_nil : Yields [] (.nil : Forest ι) :=
  fun r => ⟨.nil, r.next, rfl, rfl⟩

theorem Yields.text (h : Yields tokens rest) :
    Yields (.text content :: tokens) (.leaf label .text content rest) := by
  intro r
  obtain ⟨g, next, hg, hsteps⟩ := h (r.addLeaf .text content)
  refine ⟨.leaf r.next .text content g, next, ?_, hsteps⟩
  exact congrArg (Forest.leaf () .text content) hg

theorem Yields.comment (h : Yields tokens rest) :
    Yields (.comment content :: tokens) (.leaf label .comment content rest) := by
  intro r
  obtain ⟨g, next, hg, hsteps⟩ := h (r.addLeaf .comment content)
  refine ⟨.leaf r.next .comment content g, next, ?_, hsteps⟩
  exact congrArg (Forest.leaf () .comment content) hg

/-- A tag that closes itself. -/
theorem Yields.closed {position : Nat} (h : Yields tokens rest) :
    Yields (.startTag name attributes true position :: tokens)
      (.element label name attributes .nil rest) := by
  intro r
  obtain ⟨g, next, hg, hsteps⟩ :=
    h { r with done := .element r.next name attributes .nil r.done, next := r.next + 1 }
  refine ⟨.element r.next name attributes .nil g, next, ?_, hsteps⟩
  exact congrArg (Forest.element () name attributes .nil) hg

/-- Two tags around the tokens of the children. -/
theorem Yields.element {position behind : Nat} (hinner : Yields inner children)
    (h : Yields tokens rest) :
    Yields (.startTag name attributes false position :: (inner ++ .endTag name behind :: tokens))
      (.element label name attributes children rest) := by
  intro r
  obtain ⟨g, next, hg, hsteps⟩ :=
    hinner ⟨⟨r.next, name, attributes, position, r.done⟩ :: r.opened, .nil, r.next + 1⟩
  obtain ⟨g', next', hg', hsteps'⟩ :=
    h ⟨r.opened, .element r.next name attributes g r.done, next⟩
  refine ⟨.element r.next name attributes g g', next', ?_, ?_⟩
  · rw [Forest.plain, Forest.map, ← Forest.plain, ← Forest.plain, hg, hg']
    rfl
  · -- The end tag takes the children out of the reversed order in which they were read.
    have hend : Reading.step
        ⟨⟨r.next, name, attributes, position, r.done⟩ :: r.opened, g.reverse, next⟩
        (.endTag name behind) =
          .ok ⟨r.opened, .element r.next name attributes g r.done, next⟩ := by
      simp [Reading.step]
    rw [Reading.steps_cons rfl, Reading.steps_append hsteps]
    exact (Reading.steps_cons hend).trans hsteps'

end Yields

/-! ### What the scanner makes of the written form -/

/-- The tokens from a place on are given tokens, and then those from another place on. -/
def Scans (c : Cursor) (tokens : List Token) (d : Cursor) : Prop :=
  tokensFrom c = (tokensFrom d).map (tokens ++ ·)

theorem scans_refl (c : Cursor) : Scans c [] c := by
  rw [Scans]
  cases tokensFrom c <;> rfl

theorem Scans.cons {c d e : Cursor} {t : Token} {tokens : List Token}
    (h : lexeme c = .ok (some t, d)) (hd : Scans d tokens e) : Scans c (t :: tokens) e := by
  rw [Scans, tokensFrom_of_lexeme h, hd]
  cases tokensFrom e <;> rfl

theorem Scans.append {c d e : Cursor} {a b : List Token} (hc : Scans c a d) (hd : Scans d b e) :
    Scans c (a ++ b) e := by
  rw [Scans, hc, hd]
  cases tokensFrom e with
  | error e => rfl
  | ok tokens => simp [Except.map]

/-- **The tokens of a written form yield the forest**, whatever stands behind it that is no
text. -/
theorem tokensFrom_chars (style : WriteStyle) {f : Forest ι} (hf : f.Legible) (hv : f.ValuesKept)
    (hs : f.Separated) {c : Cursor} {more : List Char} (hmore : ∀ x ∈ more.head?, x = '<')
    (h : c.rest = f.chars style ++ more) :
    ∃ tokens, Yields tokens f ∧ Scans c tokens (c.behind (f.chars style) more) := by
  induction f generalizing c more with
  | nil =>
      have hstay : c.behind (Forest.chars style (.nil : Forest ι)) more = c := Cursor.behind_nil h
      refine ⟨[], yields_nil, ?_⟩
      rw [hstay]
      exact scans_refl c
  | leaf label kind content rest ih =>
      rw [Forest.chars] at h ⊢
      rw [List.append_assoc] at h
      obtain ⟨tokens, hyields, hscans⟩ := ih hf.2 hv hs.2 hmore
        (Cursor.rest_behind c (writeLeaf kind content).toList _)
      rw [Cursor.behind_behind] at hscans
      cases kind with
      | text =>
          -- A text ends where the next piece begins, as no other text follows it.
          have hcontent : content.toList ≠ [] := by
            intro hnil
            exact hf.1 (String.toList_eq_nil_iff.1 hnil)
          have hhead := Forest.head_chars style hf.2 (hs.1 rfl) hmore
          rw [writeLeaf, String.toList_ofList] at h hscans ⊢
          have hlexeme := lexeme_text hcontent hhead h
          rw [String.ofList_toList] at hlexeme
          exact ⟨.text content :: tokens, hyields.text, hscans.cons hlexeme⟩
      | comment =>
          have hlexeme : lexeme c = .ok (some (.comment content),
              c.behind (writeLeaf .comment content).toList (rest.chars style ++ more)) := by
            simp only [writeLeaf, String.toList_append, List.append_assoc] at h ⊢
            exact lexeme_comment hf.1 (by rw [h, List.append_assoc])
          exact ⟨.comment content :: tokens, hyields.comment, hscans.cons hlexeme⟩
      | raw => exact absurd hf.1 id
  | element label name attributes children rest ihc ihr =>
      obtain ⟨⟨hname, hnames⟩, hchildren, hrest⟩ := hf
      have htag : ∀ a ∈ attributes, IsName a.1 ∧ KeepsSpans a.2 :=
        fun a ha => ⟨hnames a ha, hv.1 a ha⟩
      rw [Forest.chars] at h ⊢
      split at h
      · -- One tag, without children.
        rename_i hcloses
        obtain rfl := Forest.isEmpty_iff.1 (Bool.and_eq_true_iff.1 hcloses).1
        rw [if_pos hcloses]
        rw [List.append_assoc] at h
        obtain ⟨tokens, hyields, hscans⟩ := ihr hrest hv.2.2 hs.2 hmore
          (Cursor.rest_behind c (startTagChars name attributes true) _)
        rw [Cursor.behind_behind] at hscans
        exact ⟨_, hyields.closed, hscans.cons (lexeme_startTag hname htag h)⟩
      · -- Two tags: the children end where the end tag begins.
        rename_i hcloses
        rw [if_neg hcloses]
        rw [List.append_assoc, List.append_assoc, List.append_assoc] at h
        have hhead : ∀ x ∈ (endTagChars name ++ (rest.chars style ++ more)).head?, x = '<' := by
          intro x hx
          cases hx
          rfl
        obtain ⟨inner, hinner, hscansInner⟩ := ihc hchildren hv.2.1 hs.1 hhead
          (Cursor.rest_behind c (startTagChars name attributes false) _)
        rw [Cursor.behind_behind] at hscansInner
        have hend := lexeme_endTag hname (Cursor.rest_behind c
          (startTagChars name attributes false ++ children.chars style)
          (endTagChars name ++ (rest.chars style ++ more)))
        rw [Cursor.behind_behind] at hend
        obtain ⟨tokens, hyields, hscans⟩ := ihr hrest hv.2.2 hs.2 hmore
          (Cursor.rest_behind c (startTagChars name attributes false ++ children.chars style ++
            endTagChars name) _)
        rw [Cursor.behind_behind] at hscans
        have hall := (hscansInner.append (hscans.cons hend)).cons (lexeme_startTag hname htag h)
        rw [List.append_assoc (startTagChars name attributes false)] at hall
        exact ⟨_, hinner.element hyields, hall⟩

/-- What is left of a source behind its last token. -/
theorem tokensFrom_nil {c : Cursor} (h : c.rest = []) : tokensFrom c = .ok [] := by
  rw [tokensFrom, dif_pos h]

/-- **Reading undoes writing.**  Whatever has been read is legible.  A legible forest whose
attribute values can be written is read again from its written form, in either style: with texts
side by side made one text, and otherwise as it was; and what has been read is written as the same
source. -/
theorem parse_write :
    (∀ (source : String) (t : Tree), parse source = .ok t → t.content.Legible) ∧
      ∀ (style : WriteStyle) (f : Forest ι), f.Legible → f.ValuesKept →
        ∃ t, parse (f.write style) = .ok t ∧ t.content.plain = f.merged.plain ∧
          t.content.write style = f.write style := by
  refine ⟨fun source t h => parse_legible h, fun style f hf hv => ?_⟩
  have hrest : (Cursor.ofString (f.write style)).rest = f.merged.chars style ++ [] := by
    rw [Forest.chars_merged, List.append_nil, ← Forest.toList_write]
    rfl
  obtain ⟨tokens, hyields, hscans⟩ := tokensFrom_chars style hf.merged hv.merged
    f.separated_merged (fun x hx => by cases hx) hrest
  obtain ⟨g, next, hg, hsteps⟩ := hyields Reading.start
  have htokens : tokenize (f.write style) = .ok tokens := by
    rw [tokenize, hscans, tokensFrom_nil (Cursor.rest_behind _ _ _)]
    simp [Except.map]
  have hfinish : Reading.finish ⟨[], g.reverse, next⟩ = .ok ⟨g, .nil, next⟩ := by
    rw [Reading.finish, Forest.reverse_reverse]
  refine ⟨⟨g, .nil, next⟩, ?_, hg, ?_⟩
  · rw [parse, htokens]
    exact (congrArg (fun r => Except.bind r Reading.finish) hsteps).trans hfinish
  · -- Writing does not look at labels, and merging texts changes nothing that is written.
    rw [← String.toList_inj, Forest.toList_write, Forest.toList_write, ← Forest.chars_plain, hg,
      Forest.chars_plain, Forest.chars_merged]

/-- Texts side by side, references in a text and in a value around an expression, an attribute that
occurs twice, an element without content, and a comment that ends in a dash. -/
def cardForest : Forest Unit :=
  .leaf () .text "a < b" <|
  .leaf () .text " & c" <|
  .element () "div" [("class", "\"x\" \x7b\x7b a < b \x7d\x7d &amp;"), ("class", "")]
    (.leaf () .comment "note-" <|
    .element () "br" [] .nil .nil) <|
  .element () "p" [] .nil .nil

/-- The card is read again as it was, but for its first two texts. -/
theorem cardForest_roundTrip :
    ∃ t, parse (cardForest.write .html) = .ok t ∧ t.content.Legible ∧
      t.content.plain = cardForest.merged.plain ∧
      t.content.write .html = cardForest.write .html := by
  have hlegible : cardForest.Legible := by
    have hdiv : LegibleTag "div"
        [("class", "\"x\" \x7b\x7b a < b \x7d\x7d &amp;"), ("class", "")] := by decide
    have hnote : LegibleLeaf .comment "note-" := by decide
    have hbr : LegibleTag "br" [] := by decide
    have hp : LegibleTag "p" [] := by decide
    exact ⟨by decide, by decide, hdiv, ⟨hnote, hbr, trivial, trivial⟩, hp, trivial, trivial⟩
  have hclass : KeepsSpans "\"x\" \x7b\x7b a < b \x7d\x7d &amp;" := by
    have hopen : cut openMark "\"x\" \x7b\x7b a < b \x7d\x7d &amp;".toList =
        some ("\"x\" ".toList, " a < b \x7d\x7d &amp;".toList) := by decide
    have hclose : cut closeMark " a < b \x7d\x7d &amp;".toList =
        some (" a < b ".toList, " &amp;".toList) := by decide
    intro s hs
    rw [spans_eq_cons hopen hclose, spans_eq_nil (by decide)] at hs
    rw [List.mem_singleton.1 hs]
    decide
  have hblank : KeepsSpans "" := by
    intro s hs
    rw [spans_eq_nil (by decide)] at hs
    cases hs
  have hkept : cardForest.ValuesKept := by
    simp [cardForest, Forest.ValuesKept, hclass, hblank]
  obtain ⟨t, hparse, hplain, hwrite⟩ := (@parse_write Unit).2 .html cardForest hlegible hkept
  exact ⟨t, hparse, (@parse_write Unit).1 _ t hparse, hplain, hwrite⟩

end ViewCompiler
