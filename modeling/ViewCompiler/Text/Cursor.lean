/-
**A place in a source text.**

A cursor holds what is left of a text and how many bytes of its UTF-8 form lie before.  A reader
moves a cursor forward over characters, so an error can name the byte offset at which it was found.
A scanner of bytes has the offset alone, and may cut the text only between characters.

Main definitions:

* `ViewCompiler.utf8Length` — the length of a text in bytes;
* `ViewCompiler.Cursor` — the rest of a text with its byte offset;
* `ViewCompiler.Cursor.span` — the longest run of characters of a class;
* `ViewCompiler.Cursor.strip?` — behind a marker that stands at the cursor;
* `ViewCompiler.cut`, `ViewCompiler.Cursor.cut?` — up to and behind the first occurrence of a
  marker;
* `ViewCompiler.slice?` — the text between two byte offsets, if they lie between characters.

Main results:

* `ViewCompiler.cut_eq_append` — cutting loses nothing;
* `ViewCompiler.cut_length_lt` — what is behind a non-empty marker is shorter;
* `ViewCompiler.takeWhile_append_of_head`, `ViewCompiler.dropWhile_append_of_head` — a run and what
  is behind it.
-/

set_option autoImplicit false

namespace ViewCompiler

/-- The number of bytes of a text in UTF-8. -/
def utf8Length (text : List Char) : Nat :=
  text.foldr (fun c length => c.utf8Size + length) 0

@[simp] theorem utf8Length_nil : utf8Length [] = 0 := rfl

@[simp] theorem utf8Length_cons (c : Char) (cs : List Char) :
    utf8Length (c :: cs) = c.utf8Size + utf8Length cs := rfl

@[simp] theorem utf8Length_append (a b : List Char) :
    utf8Length (a ++ b) = utf8Length a + utf8Length b := by
  induction a with
  | nil => simp
  | cons c cs ih => rw [List.cons_append, utf8Length_cons, ih, utf8Length_cons, Nat.add_assoc]

/-- The parts of a text before and after the first occurrence of `marker`. -/
def cut (marker : List Char) : List Char → Option (List Char × List Char)
  | [] => if marker.isEmpty then some ([], []) else none
  | c :: cs =>
      match marker.isPrefixOf? (c :: cs) with
      | some rest => some ([], rest)
      | none => (cut marker cs).map fun p => (c :: p.1, p.2)

theorem isPrefixOf?_eq_append {marker text rest : List Char}
    (h : marker.isPrefixOf? text = some rest) : text = marker ++ rest := by
  induction marker generalizing text with
  | nil => exact Option.some.inj h
  | cons m ms ih =>
      cases text with
      | nil => exact nomatch h
      | cons c cs =>
          change (if m == c then ms.isPrefixOf? cs else none) = some rest at h
          split at h
          · next hmc => rw [ih h, eq_of_beq hmc, List.cons_append]
          · exact nomatch h

/-- Cutting loses nothing: the two parts around the marker make up the text. -/
theorem cut_eq_append {marker text before rest : List Char}
    (h : cut marker text = some (before, rest)) : text = before ++ marker ++ rest := by
  induction text generalizing before with
  | nil =>
      simp only [cut] at h
      split at h <;> simp_all
  | cons c cs ih =>
      simp only [cut] at h
      split at h
      · next rest' hp =>
          obtain ⟨rfl, rfl⟩ : [] = before ∧ rest' = rest := by simpa using h
          simpa using isPrefixOf?_eq_append hp
      · obtain ⟨⟨before', rest'⟩, hcut, heq⟩ := Option.map_eq_some_iff.mp h
        obtain ⟨rfl, rfl⟩ : c :: before' = before ∧ rest' = rest := by simpa using heq
        simp [ih hcut]

/-- Behind a non-empty marker less is left than before it. -/
theorem cut_length_lt {marker text before rest : List Char} (hm : marker ≠ [])
    (h : cut marker text = some (before, rest)) : rest.length < text.length := by
  have hlen := congrArg List.length (cut_eq_append h)
  have hpos : 0 < marker.length := List.length_pos_iff.mpr hm
  simp only [List.length_append] at hlen
  omega

/-! ### Runs -/

/-- A character of a class is none outside it. -/
theorem ne_of_class {p : Char → Bool} {c x : Char} (h : p c = true) (hx : p x = false) : c ≠ x := by
  rintro rfl
  rw [h] at hx
  cases hx

/-- A run ends where its class ends. -/
theorem takeWhile_append_of_head {p : Char → Bool} {run rest : List Char}
    (hrun : ∀ c ∈ run, p c = true) (hrest : ∀ c ∈ rest.head?, p c = false) :
    (run ++ rest).takeWhile p = run := by
  rw [List.takeWhile_append_of_pos hrun]
  cases rest with
  | nil => simp
  | cons c rest => simp [hrest c rfl]

/-- Behind a run is what its class does not go on to. -/
theorem dropWhile_append_of_head {p : Char → Bool} {run rest : List Char}
    (hrun : ∀ c ∈ run, p c = true) (hrest : ∀ c ∈ rest.head?, p c = false) :
    (run ++ rest).dropWhile p = rest := by
  rw [List.dropWhile_append_of_pos hrun]
  cases rest with
  | nil => rfl
  | cons c rest => simp [hrest c rfl]

/-! ### Cursors -/

/-- What is left of a text, and the number of bytes that lie before it. -/
structure Cursor where
  offset : Nat
  rest : List Char
  deriving Repr, DecidableEq

namespace Cursor

/-- The start of a text. -/
def ofString (text : String) : Cursor :=
  ⟨0, text.toList⟩

/-- The place behind `passed`, when the text at the cursor is `passed` followed by `rest`. -/
def behind (c : Cursor) (passed rest : List Char) : Cursor :=
  ⟨c.offset + utf8Length passed, rest⟩

/-- The longest run of characters of the class, and the place behind it. -/
def span (p : Char → Bool) (c : Cursor) : List Char × Cursor :=
  let run := c.rest.takeWhile p
  (run, c.behind run (c.rest.dropWhile p))

/-- The place behind the longest run of characters of the class. -/
def skip (p : Char → Bool) (c : Cursor) : Cursor :=
  (c.span p).2

/-- The place behind `marker`, if the text at the cursor starts with it. -/
def strip? (marker : List Char) (c : Cursor) : Option Cursor :=
  (marker.isPrefixOf? c.rest).map (c.behind marker)

/-- The text up to the first occurrence of `marker`, and the place behind that. -/
def cut? (marker : List Char) (c : Cursor) : Option (List Char × Cursor) :=
  (ViewCompiler.cut marker c.rest).map fun p => (p.1, c.behind (p.1 ++ marker) p.2)

@[simp] theorem rest_behind (c : Cursor) (passed rest : List Char) :
    (c.behind passed rest).rest = rest := rfl

@[simp] theorem rest_span (p : Char → Bool) (c : Cursor) :
    (c.span p).2.rest = c.rest.dropWhile p := rfl

@[simp] theorem run_span (p : Char → Bool) (c : Cursor) :
    (c.span p).1 = c.rest.takeWhile p := rfl

@[simp] theorem rest_skip (p : Char → Bool) (c : Cursor) :
    (c.skip p).rest = c.rest.dropWhile p := rfl

theorem length_dropWhile_le (p : Char → Bool) (text : List Char) :
    (text.dropWhile p).length ≤ text.length :=
  (List.dropWhile_suffix p).length_le

theorem length_skip_le (p : Char → Bool) (c : Cursor) :
    (c.skip p).rest.length ≤ c.rest.length :=
  length_dropWhile_le p c.rest

theorem length_strip?_lt {marker : List Char} {c d : Cursor} (hm : marker ≠ [])
    (h : c.strip? marker = some d) : d.rest.length < c.rest.length := by
  obtain ⟨rest, hp, rfl⟩ := Option.map_eq_some_iff.mp h
  have hlen := congrArg List.length (isPrefixOf?_eq_append hp)
  have hpos : 0 < marker.length := List.length_pos_iff.mpr hm
  simp only [List.length_append, rest_behind] at hlen ⊢
  omega

theorem length_cut?_lt {marker before : List Char} {c d : Cursor} (hm : marker ≠ [])
    (h : c.cut? marker = some (before, d)) : d.rest.length < c.rest.length := by
  obtain ⟨⟨before', rest⟩, hcut, heq⟩ := Option.map_eq_some_iff.mp h
  obtain ⟨rfl, rfl⟩ : before' = before ∧ c.behind (before' ++ marker) rest = d := by
    simpa using heq
  exact cut_length_lt hm hcut

end Cursor

/-! ### Cutting at byte offsets -/

/-- The place at a byte offset, if it lies between two characters. -/
def placeAt? (text : String) (i : Nat) : Option text.Pos :=
  if h : (⟨i⟩ : String.Pos.Raw).IsValid text then some ⟨⟨i⟩, h⟩ else none

/-- The text between two byte offsets, if both lie between characters. -/
def slice? (text : String) (i j : Nat) : Option String :=
  (placeAt? text i).bind fun p => (placeAt? text j).bind fun q =>
    if p ≤ q then some (text.extract p q) else none

end ViewCompiler
