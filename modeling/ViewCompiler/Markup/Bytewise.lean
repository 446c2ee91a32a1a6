/-
**Reading a source byte by byte.**

The scanner looks at bytes and keeps byte offsets.  A piece of the source is cut out between two
offsets, and that is possible only between two characters: whether the scanner cuts at such places
alone is no part of what it does, so a cut anywhere else leaves it without an answer.

Main definitions:

* `ViewCompiler.runEnd`, `ViewCompiler.firstMarked?` — the end of a run, and the first occurrence of
  a marker;
* `ViewCompiler.Scan` — an answer of the scanner, if it has one;
* `ViewCompiler.scanOne` — the lexeme at a byte offset and the offset behind it;
* `ViewCompiler.scan` — all tokens of a source.
-/

import ViewCompiler.Markup.Token

set_option autoImplicit false

namespace ViewCompiler

/-! ### Bytes -/

/-- The byte at an offset is a character of the class. -/
def standsAt (text : String) (accepts : Char → Bool) (i : Nat) : Bool :=
  (asciiAt? text accepts i).isSome

theorem lt_of_asciiAt? {text : String} {accepts : Char → Bool} {i : Nat} {a : Ascii text}
    (h : asciiAt? text accepts i = some a) : i < text.utf8ByteSize := by
  rw [asciiAt?] at h
  split at h
  · assumption
  · cases h

theorem lt_of_standsAt {text : String} {accepts : Char → Bool} {i : Nat}
    (h : standsAt text accepts i = true) : i < text.utf8ByteSize := by
  obtain ⟨a, ha⟩ := Option.isSome_iff_exists.mp h
  exact lt_of_asciiAt? ha

/-- Where the run of single bytes of a class that begins at an offset ends. -/
def runEnd (text : String) (accepts : Char → Bool) (i : Nat) : Nat :=
  if standsAt text accepts i then runEnd text accepts (i + 1) else i
termination_by text.utf8ByteSize - i
decreasing_by
  have := lt_of_standsAt ‹_›
  omega

/-- The first offset from `i` on at which a marker stands. -/
def firstMarked? (text : String) (marker : List Char) (i : Nat) : Option Nat :=
  if i < text.utf8ByteSize then
    if (markerEnd? text marker i).isSome then some i else firstMarked? text marker (i + 1)
  else none
termination_by text.utf8ByteSize - i

theorem le_runEnd (text : String) (accepts : Char → Bool) (i : Nat) :
    i ≤ runEnd text accepts i := by
  fun_induction runEnd text accepts i with
  | case1 i _ ih => exact Nat.le_of_succ_le ih
  | case2 i _ => exact Nat.le_refl i

theorem le_of_firstMarked? {text : String} {marker : List Char} {i j : Nat}
    (h : firstMarked? text marker i = some j) : i ≤ j := by
  fun_induction firstMarked? text marker i with
  | case1 i => exact Nat.le_of_eq (Option.some.inj h)
  | case2 i _ _ ih => exact Nat.le_of_succ_le (ih h)
  | case3 => cases h

/-! ### Answers -/

/-- An answer of the scanner.  It has none if the source is cut inside a character. -/
abbrev Scan (α : Type) := Option (Except ParseError α)

/-- The scan moves forward: behind what it reads at the offset is a larger one. -/
def MovesOn {α : Type} (i : Nat) (r : Scan (α × Nat)) : Prop :=
  ∀ a j, r = some (.ok (a, j)) → i < j

theorem MovesOn.map {α β : Type} {i : Nat} {r : Scan (α × Nat)} (h : MovesOn i r) (f : α → β) :
    MovesOn i (r.map fun answer => answer.map fun found => (f found.1, found.2)) := by
  intro b j heq
  obtain ⟨answer, rfl, hanswer⟩ := Option.map_eq_some_iff.mp heq
  obtain ⟨⟨a, j'⟩, rfl, hfound⟩ := map_eq_ok_iff.mp hanswer
  cases hfound
  exact h a _ rfl

theorem MovesOn.bind {α β : Type} {i : Nat} {r : Option α} {f : α → Scan (β × Nat)}
    (h : ∀ a, MovesOn i (f a)) : MovesOn i (r.bind f) := by
  intro b j heq
  obtain ⟨a, _, heq⟩ := Option.bind_eq_some_iff.mp heq
  exact h a b j heq

theorem MovesOn.of_le {α : Type} {i i' : Nat} {r : Scan (α × Nat)} (h : MovesOn i' r)
    (hle : i ≤ i') : MovesOn i r :=
  fun a j heq => Nat.lt_of_le_of_lt hle (h a j heq)

/-! ### Tags -/

/-- The quote at a byte offset. -/
def quoteAt? (text : String) (i : Nat) : Option Char :=
  (asciiAt? text (fun c => c = '"' || c = '\'') i).map fun a => a.place.get a.inside

/-- The value of an attribute, whose quotes begin at an offset, and the offset behind them; `tag`
and `name` are the offsets of the tag and of the name. -/
def scanValue (text : String) (tag name i : Nat) : Scan (String × Nat) :=
  match quoteAt? text i with
  | none => some (.error ⟨.missingAttributeValue, name⟩)
  | some quote =>
      match firstMarked? text [quote] (i + 1) with
      | none => some (.error ⟨.unterminatedTag, tag⟩)
      | some stop =>
          (slice? text (i + 1) stop).map fun raw => .ok (replaceReferences raw, stop + 1)

/-- The attribute whose name begins at an offset, and the offset behind it. -/
def scanAttribute (text : String) (tag i : Nat) : Scan ((String × String) × Nat) :=
  let nameEnd := runEnd text isNameChar i
  if nameEnd = i then some (.error ⟨.invalidTagName, i⟩)
  else (slice? text i nameEnd).bind fun name =>
    let sign := runEnd text isAsciiBlank nameEnd
    if standsAt text (· == '=') sign then
      (scanValue text tag i (runEnd text isAsciiBlank (sign + 1))).map fun value =>
        value.map fun found => ((name, found.1), found.2)
    else some (.error ⟨.missingAttributeValue, i⟩)

theorem movesOn_scanValue (text : String) (tag name i : Nat) :
    MovesOn i (scanValue text tag name i) := by
  intro value j h
  rw [scanValue] at h
  split at h
  · cases h
  · split at h
    · cases h
    · next stop hstop =>
        obtain ⟨_, _, heq⟩ := Option.map_eq_some_iff.mp h
        cases heq
        exact Nat.lt_succ_of_lt (le_of_firstMarked? hstop)

theorem movesOn_scanAttribute (text : String) (tag i : Nat) :
    MovesOn i (scanAttribute text tag i) := by
  have hname := le_runEnd text isNameChar i
  have hsign := le_runEnd text isAsciiBlank (runEnd text isNameChar i)
  have hquote := le_runEnd text isAsciiBlank
    (runEnd text isAsciiBlank (runEnd text isNameChar i) + 1)
  simp only [scanAttribute]
  split
  · exact fun _ _ h => nomatch h
  · refine .bind fun name => ?_
    split
    · exact ((movesOn_scanValue text tag i _).map fun value => (name, value)).of_le (by omega)
    · exact fun _ _ h => nomatch h

/-- The attributes of a start tag from an offset on up to its end: whether it closes itself comes
with them, and the offset behind it.  `found` are those before the offset. -/
def scanAttributes (text : String) (tag i : Nat) (found : Attributes) :
    Scan (Attributes × Bool × Nat) :=
  let here := runEnd text isAsciiBlank i
  if text.utf8ByteSize ≤ here then some (.error ⟨.unterminatedTag, tag⟩)
  else if standsAt text (· == '>') here then some (.ok (found, false, here + 1))
  else if standsAt text (· == '/') here then
    if standsAt text (· == '>') (here + 1) then some (.ok (found, true, here + 2))
    else some (.error ⟨.unterminatedTag, here⟩)
  else
    match _ : scanAttribute text tag here with
    | none => none
    | some (.error e) => some (.error e)
    | some (.ok (a, behind)) => scanAttributes text tag behind (found ++ [a])
termination_by text.utf8ByteSize - i
decreasing_by
  have := movesOn_scanAttribute _ _ _ _ _ ‹scanAttribute _ _ _ = _›
  have : i ≤ here := le_runEnd text isAsciiBlank i
  omega

/-- The start tag at an offset, and the offset behind it. -/
def scanStartTag (text : String) (i : Nat) : Scan (Token × Nat) :=
  let nameEnd := runEnd text isNameChar (i + 1)
  if nameEnd = i + 1 then some (.error ⟨.invalidTagName, i⟩)
  else (slice? text (i + 1) nameEnd).bind fun name =>
    (scanAttributes text i nameEnd []).map fun attributes =>
      attributes.map fun found => (.startTag name found.1 found.2.1 i, found.2.2)

/-- The end tag at an offset, and the offset behind it. -/
def scanEndTag (text : String) (i : Nat) : Scan (Token × Nat) :=
  let nameEnd := runEnd text isNameChar (i + 2)
  if nameEnd = i + 2 then some (.error ⟨.invalidTagName, i⟩)
  else
    let stop := runEnd text isAsciiBlank nameEnd
    if standsAt text (· == '>') stop then
      (slice? text (i + 2) nameEnd).map fun name => .ok (.endTag name i, stop + 1)
    else some (.error ⟨.unterminatedTag, i⟩)

/-! ### One step -/

/-- What stands between the opening marker at an offset and the next closing one, and the offset
behind that.  The closing marker is looked for in what is left of the source behind the opening
one. -/
def scanEnclosed (text : String) (fault : ParseFault) (opening closing : List Char) (i : Nat) :
    Scan (String × Nat) :=
  let start := i + utf8Length opening
  (placeAt? text start).bind fun _ =>
    match firstMarked? text closing start with
    | none => some (.error ⟨fault, i⟩)
    | some stop =>
        (slice? text start stop).map fun inside => .ok (inside, stop + utf8Length closing)

/-- The text up to the next angle bracket, and the offset of that. -/
def scanText (text : String) (i : Nat) : Scan (Option Token × Nat) :=
  let stop := (firstMarked? text ['<'] i).getD text.utf8ByteSize
  (slice? text i stop).map fun raw => .ok (textToken? (replaceReferences raw).toList, stop)

/-- What is passed over up to the next closing angle bracket. -/
def scanSkipped (text : String) (i : Nat) : Scan (Option Token × Nat) :=
  match firstMarked? text ['>'] i with
  | none => some (.error ⟨.unterminatedTag, i⟩)
  | some stop => some (.ok (none, stop + 1))

/-- The lexeme at the offset of an angle bracket. -/
def scanMarkup (text : String) (i : Nat) : Scan (Option Token × Nat) :=
  if (markerEnd? text "<!--".toList i).isSome then
    (scanEnclosed text .unterminatedComment "<!--".toList "-->".toList i).map fun comment =>
      comment.map fun found => (some (.comment found.1), found.2)
  else if (markerEnd? text "<![CDATA[".toList i).isSome then
    (scanEnclosed text .unterminatedTag "<![CDATA[".toList "]]>".toList i).map fun marked =>
      marked.map fun found => (textToken? found.1.toList, found.2)
  else if (markerEnd? text "<?".toList i).isSome || (markerEnd? text "<!".toList i).isSome then
    scanSkipped text i
  else
    (if standsAt text (· == '/') (i + 1) then scanEndTag text i else scanStartTag text i).map
      fun tag => tag.map fun found => (some found.1, found.2)

/-- The lexeme at an offset before the end of the source: the token it stands for, if any, and the
offset behind it. -/
def scanOne (text : String) (i : Nat) : Scan (Option Token × Nat) :=
  if standsAt text (· == '<') i then (placeAt? text i).bind fun _ => scanMarkup text i
  else scanText text i

/-! ### Each step moves forward -/

theorem lt_of_scanAttributes {text : String} {tag i j : Nat} {found a : Attributes} {closing : Bool}
    (h : scanAttributes text tag i found = some (.ok (a, closing, j))) : i < j := by
  fun_induction scanAttributes text tag i found with
  | case1 => cases h
  | case2 i _ here =>
      have : i ≤ here := le_runEnd text isAsciiBlank i
      cases h
      omega
  | case3 i _ here =>
      have : i ≤ here := le_runEnd text isAsciiBlank i
      cases h
      omega
  | case4 => cases h
  | case5 => cases h
  | case6 => cases h
  | case7 i _ here _ _ _ _ behind hfirst ih =>
      have := movesOn_scanAttribute _ _ _ _ _ hfirst
      have : i ≤ here := le_runEnd text isAsciiBlank i
      have := ih h
      omega

theorem movesOn_scanStartTag (text : String) (i : Nat) : MovesOn i (scanStartTag text i) := by
  intro t j h
  simp only [scanStartTag] at h
  split at h
  · cases h
  · obtain ⟨name, _, h⟩ := Option.bind_eq_some_iff.mp h
    obtain ⟨answer, hattributes, hanswer⟩ := Option.map_eq_some_iff.mp h
    obtain ⟨⟨a, closing, j'⟩, rfl, hfound⟩ := map_eq_ok_iff.mp hanswer
    cases hfound
    have : runEnd text isNameChar (i + 1) < j' := lt_of_scanAttributes hattributes
    change i < j'
    have := le_runEnd text isNameChar (i + 1)
    omega

theorem movesOn_scanEndTag (text : String) (i : Nat) : MovesOn i (scanEndTag text i) := by
  intro t j h
  simp only [scanEndTag] at h
  split at h
  · cases h
  · split at h
    · obtain ⟨name, _, heq⟩ := Option.map_eq_some_iff.mp h
      cases heq
      have := le_runEnd text isNameChar (i + 2)
      have := le_runEnd text isAsciiBlank (runEnd text isNameChar (i + 2))
      omega
    · cases h

theorem movesOn_scanEnclosed (text : String) (fault : ParseFault) {opening : List Char}
    (closing : List Char) (i : Nat) (h : 0 < utf8Length opening) :
    MovesOn i (scanEnclosed text fault opening closing i) := by
  intro inside j heq
  simp only [scanEnclosed] at heq
  obtain ⟨_, _, heq⟩ := Option.bind_eq_some_iff.mp heq
  split at heq
  · cases heq
  · next stop hstop =>
      obtain ⟨_, _, heq⟩ := Option.map_eq_some_iff.mp heq
      cases heq
      have := le_of_firstMarked? hstop
      omega

theorem movesOn_scanSkipped (text : String) (i : Nat) : MovesOn i (scanSkipped text i) := by
  intro t j h
  rw [scanSkipped] at h
  split at h
  · cases h
  · next stop hstop =>
      cases h
      exact Nat.lt_succ_of_le (le_of_firstMarked? hstop)

/-- A text ends behind its first byte, as there is no angle bracket at that. -/
theorem movesOn_scanText {text : String} {i : Nat} (hi : i < text.utf8ByteSize)
    (h : standsAt text (· == '<') i = false) : MovesOn i (scanText text i) := by
  intro t j heq
  obtain ⟨_, _, heq⟩ := Option.map_eq_some_iff.mp heq
  cases heq
  cases hstop : firstMarked? text ['<'] i with
  | none => exact hi
  | some stop =>
      rw [firstMarked?, if_pos hi, markerEnd?, ← standsAt, h, if_neg Bool.false_ne_true] at hstop
      exact le_of_firstMarked? hstop

theorem movesOn_scanMarkup (text : String) (i : Nat) : MovesOn i (scanMarkup text i) := by
  have hcomment : 0 < utf8Length "<!--".toList := by decide
  have hsection : 0 < utf8Length "<![CDATA[".toList := by decide
  rw [scanMarkup]
  split
  · exact (movesOn_scanEnclosed text _ _ i hcomment).map fun inside => some (Token.comment inside)
  split
  · exact (movesOn_scanEnclosed text _ _ i hsection).map fun inside => textToken? inside.toList
  split
  · exact movesOn_scanSkipped text i
  split
  · exact (movesOn_scanEndTag text i).map some
  · exact (movesOn_scanStartTag text i).map some

/-- A lexeme is never empty. -/
theorem movesOn_scanOne {text : String} {i : Nat} (hi : i < text.utf8ByteSize) :
    MovesOn i (scanOne text i) := by
  rw [scanOne]
  split
  · exact .bind fun _ => movesOn_scanMarkup text i
  · next h => exact movesOn_scanText hi (Bool.eq_false_iff.mpr h)

/-! ### All tokens -/

/-- The tokens from an offset on; `found` are those before it. -/
def scanFrom (text : String) (i : Nat) (found : List Token) : Scan (List Token) :=
  if _ : i < text.utf8ByteSize then
    match _ : scanOne text i with
    | none => none
    | some (.error e) => some (.error e)
    | some (.ok (token?, behind)) => scanFrom text behind (found ++ token?.toList)
  else some (.ok found)
termination_by text.utf8ByteSize - i
decreasing_by
  have := movesOn_scanOne ‹_› _ _ ‹scanOne _ _ = _›
  omega

/-- The tokens of a source. -/
def scan (source : String) : Scan (List Token) :=
  scanFrom source 0 []

end ViewCompiler
