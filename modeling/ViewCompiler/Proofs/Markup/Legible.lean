/-
**What can be written and read again.**

Not every tree has a written form that gives the tree back: names have to be names of the source
language, a comment must not end before its end, raw text is read as something else, and an empty
text is not read at all.  Trees that have been read meet these conditions by construction: the
scanner makes no other tokens, and the reader puts nothing but tokens into the tree.

Main definitions:

* `ViewCompiler.IsName` — the names of the source language;
* `ViewCompiler.Forest.Legible` — a forest whose written form can be read again.

Main results:

* `ViewCompiler.tokenize_legible` — the scanner makes legible tokens only;
* `ViewCompiler.parse_legible` — a tree that has been read is legible.
-/

import ViewCompiler.Markup.Reader
import ViewCompiler.Proofs.Markup.Decoding

set_option relaxedAutoImplicit false
set_option autoImplicit false

namespace ViewCompiler

variable {ι : Type}

/-! ### Legible trees and tokens -/

/-- The names of the source language. -/
def IsName (name : String) : Prop :=
  name ≠ "" ∧ ∀ c ∈ name.toList, isNameChar c = true

/-- A tag whose element and attributes have names. -/
def LegibleTag (name : String) (attributes : Attributes) : Prop :=
  IsName name ∧ ∀ a ∈ attributes, IsName a.1

/-- A text that is not empty, or a comment that does not contain the end of a comment. -/
def LegibleLeaf (kind : LeafKind) (content : String) : Prop :=
  match kind with
  | .text => content ≠ ""
  | .comment => ¬ "-->".toList <:+: content.toList
  | .raw => False

/-- A forest whose written form can be read again. -/
def Forest.Legible : Forest ι → Prop
  | nil => True
  | element _ name attributes children rest =>
      LegibleTag name attributes ∧ children.Legible ∧ rest.Legible
  | leaf _ kind content rest => LegibleLeaf kind content ∧ rest.Legible

instance (name : String) : Decidable (IsName name) :=
  decidable_of_iff (name ≠ "" ∧ name.toList.all isNameChar = true)
    (and_congr Iff.rfl List.all_eq_true)

instance (name : String) (attributes : Attributes) : Decidable (LegibleTag name attributes) :=
  decidable_of_iff (IsName name ∧ attributes.all (fun a => decide (IsName a.1)) = true)
    (and_congr Iff.rfl (List.all_eq_true.trans (by simp only [decide_eq_true_eq])))

instance (kind : LeafKind) (content : String) : Decidable (LegibleLeaf kind content) :=
  match kind with
  | .text => inferInstanceAs (Decidable (content ≠ ""))
  | .comment =>
      decidable_of_iff (cut "-->".toList content.toList = none) (cut_eq_none_iff (by decide))
  | .raw => inferInstanceAs (Decidable False)

instance Forest.decidableLegible : (f : Forest ι) → Decidable f.Legible
  | nil => inferInstanceAs (Decidable True)
  | element _ name attributes children rest =>
      have := children.decidableLegible
      have := rest.decidableLegible
      inferInstanceAs (Decidable (LegibleTag name attributes ∧ children.Legible ∧ rest.Legible))
  | leaf _ kind content rest =>
      have := rest.decidableLegible
      inferInstanceAs (Decidable (LegibleLeaf kind content ∧ rest.Legible))

/-- A token of a legible tree. -/
def Token.Legible : Token → Prop
  | .startTag name attributes _ _ => LegibleTag name attributes
  | .endTag _ _ => True
  | .text content => LegibleLeaf .text content
  | .comment content => LegibleLeaf .comment content

/-! ### The scanner -/

/-- A run of name characters that is not empty is a name. -/
theorem isName_span {c : Cursor} (h : (c.span isNameChar).1.isEmpty = false) :
    IsName (.ofList (c.span isNameChar).1) := by
  constructor
  · intro hempty
    have hnil := congrArg String.toList hempty
    rw [String.toList_ofList] at hnil
    rw [hnil] at h
    cases h
  · intro x hx
    rw [String.toList_ofList] at hx
    exact List.all_eq_true.1 List.all_takeWhile x hx

theorem readAttribute_isName {tag : Nat} {c d : Cursor} {a : String × String}
    (h : readAttribute tag c = .ok (a, d)) : IsName a.1 := by
  simp only [readAttribute] at h
  split at h
  · cases h
  · rename_i hname
    split at h
    · cases h
    · split at h
      · split at h
        · split at h
          · cases h
          · split at h
            · cases h
            · cases h
              exact isName_span (Bool.eq_false_iff.2 hname)
        · cases h
      · cases h

theorem readAttributes_isName {tag : Nat} {c d : Cursor} {attributes : Attributes}
    {closing : Bool} (h : readAttributes tag c = .ok (attributes, closing, d)) :
    ∀ a ∈ attributes, IsName a.1 := by
  fun_induction readAttributes tag c generalizing attributes closing d with
  | case1 => cases h
  | case2 =>
      cases h
      exact fun a ha => absurd ha List.not_mem_nil
  | case3 =>
      cases h
      exact fun a ha => absurd ha List.not_mem_nil
  | case4 => cases h
  | case5 => cases h
  | case6 => cases h
  | case7 =>
      rename_i first behind hfirst more result hmore _ _ _ _ ih
      cases h
      intro a ha
      rcases List.mem_cons.1 ha with rfl | ha
      · exact readAttribute_isName hfirst
      · exact ih hmore a ha

theorem readStartTag_legible {c d : Cursor} {t : Token} (h : readStartTag c = .ok (t, d)) :
    t.Legible := by
  simp only [readStartTag] at h
  split at h
  · cases h
  · split at h
    · cases h
    · rename_i hname
      split at h
      · cases h
      · rename_i hattributes
        cases h
        exact ⟨isName_span (Bool.eq_false_iff.2 hname), readAttributes_isName hattributes⟩

theorem readEndTag_legible {tag : Nat} {c d : Cursor} {t : Token}
    (h : readEndTag tag c = .ok (t, d)) : t.Legible := by
  simp only [readEndTag] at h
  split at h
  · cases h
  · split at h
    · cases h
    · cases h
      trivial

/-- A text token is never empty. -/
theorem textToken?_legible {content : List Char} {t : Token} (h : textToken? content = some t) :
    t.Legible := by
  rw [textToken?] at h
  split at h
  · cases h
  · rename_i hcontent
    cases h
    intro hempty
    have hnil := congrArg String.toList hempty
    rw [String.toList_ofList] at hnil
    rw [hnil] at hcontent
    exact hcontent rfl

/-- A comment ends at the first end of a comment. -/
theorem enclosed_legible {c d : Cursor} {content : List Char} {start : Nat}
    (h : enclosed .unterminatedComment start "-->".toList c = .ok (content, d)) :
    LegibleLeaf .comment (.ofList content) := by
  rw [enclosed] at h
  split at h
  · cases h
  · rename_i found hfound
    cases h
    obtain ⟨⟨before, rest⟩, hcut, heq⟩ := Option.map_eq_some_iff.1 hfound
    cases heq
    have hfree : ¬ "-->".toList <:+: before := not_infix_of_cut (by decide) hcut
    rwa [← String.toList_ofList (l := before)] at hfree

theorem lexeme_legible {c d : Cursor} {token? : Option Token} {t : Token}
    (h : lexeme c = .ok (token?, d)) (ht : token? = some t) : t.Legible := by
  subst ht
  rw [lexeme] at h
  split at h
  · exact textToken?_legible (congrArg Prod.fst (Except.ok.inj h))
  · split at h
    · obtain ⟨⟨content, behind⟩, hfound, heq⟩ := map_eq_ok_iff.1 h
      cases heq
      exact enclosed_legible hfound
    · split at h
      · obtain ⟨found, -, heq⟩ := map_eq_ok_iff.1 h
        exact textToken?_legible (congrArg Prod.fst heq)
      · split at h
        · obtain ⟨found, -, heq⟩ := map_eq_ok_iff.1 h
          cases heq
        · split at h
          · obtain ⟨⟨found, behind⟩, hfound, heq⟩ := map_eq_ok_iff.1 h
            cases heq
            exact readEndTag_legible hfound
          · obtain ⟨⟨found, behind⟩, hfound, heq⟩ := map_eq_ok_iff.1 h
            cases heq
            exact readStartTag_legible hfound

theorem tokensFrom_legible {c : Cursor} {tokens : List Token} (h : tokensFrom c = .ok tokens) :
    ∀ t ∈ tokens, t.Legible := by
  fun_induction tokensFrom c generalizing tokens with
  | case1 =>
      cases h
      exact fun t ht => absurd ht List.not_mem_nil
  | case2 => cases h
  | case3 c hc token? behind hlexeme ih =>
      obtain ⟨more, hmore, rfl⟩ := map_eq_ok_iff.1 h
      intro t ht
      rcases List.mem_append.1 ht with ht | ht
      · exact lexeme_legible hlexeme (Option.mem_toList.1 ht)
      · exact ih hmore t ht

/-- The scanner makes legible tokens only. -/
theorem tokenize_legible {source : String} {tokens : List Token}
    (h : tokenize source = .ok tokens) : ∀ t ∈ tokens, t.Legible :=
  tokensFrom_legible h

/-! ### The reader -/

theorem Forest.legible_reverseOnto {f g : Forest ι} :
    (f.reverseOnto g).Legible ↔ f.Legible ∧ g.Legible := by
  induction f generalizing g with
  | nil => simp [reverseOnto, Legible]
  | element _ _ _ _ _ _ ih =>
      rw [reverseOnto, ih, Legible, Legible]
      constructor
      · rintro ⟨hrest, htag, hchildren, hg⟩
        exact ⟨⟨htag, hchildren, hrest⟩, hg⟩
      · rintro ⟨⟨htag, hchildren, hrest⟩, hg⟩
        exact ⟨hrest, htag, hchildren, hg⟩
  | leaf _ _ _ _ ih =>
      rw [reverseOnto, ih, Legible, Legible]
      constructor
      · rintro ⟨hrest, hleaf, hg⟩
        exact ⟨⟨hleaf, hrest⟩, hg⟩
      · rintro ⟨⟨hleaf, hrest⟩, hg⟩
        exact ⟨hrest, hleaf, hg⟩

theorem Forest.Legible.reverse {f : Forest ι} (h : f.Legible) : f.reverse.Legible :=
  legible_reverseOnto.2 ⟨h, trivial⟩

namespace Reading

/-- What has been read is legible. -/
structure Legible (r : Reading) : Prop where
  done : r.done.Legible
  opened : ∀ e ∈ r.opened, LegibleTag e.name e.attributes ∧ e.before.Legible

theorem Legible.step {r s : Reading} {t : Token} (hr : r.Legible) (ht : t.Legible)
    (h : r.step t = .ok s) : s.Legible := by
  cases t with
  | text content =>
      cases h
      exact ⟨⟨ht, hr.done⟩, hr.opened⟩
  | comment content =>
      cases h
      exact ⟨⟨ht, hr.done⟩, hr.opened⟩
  | startTag name attributes selfClosing position =>
      cases selfClosing with
      | true =>
          cases h
          exact ⟨⟨ht, trivial, hr.done⟩, hr.opened⟩
      | false =>
          cases h
          refine ⟨trivial, fun e he => ?_⟩
          rcases List.mem_cons.1 he with rfl | he
          · exact ⟨ht, hr.done⟩
          · exact hr.opened e he
  | endTag name position =>
      rw [Reading.step] at h
      split at h
      · cases h
      · rename_i e opened hopened
        split at h
        · -- What was read since the start tag becomes the children of its element.
          cases h
          have he := hr.opened e (by rw [hopened]; exact List.mem_cons_self)
          refine ⟨⟨he.1, hr.done.reverse, he.2⟩, fun e' he' => hr.opened e' ?_⟩
          rw [hopened]
          exact List.mem_cons_of_mem e he'
        · cases h

theorem Legible.steps {r s : Reading} {tokens : List Token} (hr : r.Legible)
    (ht : ∀ t ∈ tokens, t.Legible) (h : r.steps tokens = .ok s) : s.Legible := by
  induction tokens generalizing r with
  | nil =>
      cases h
      exact hr
  | cons t more ih =>
      rw [Reading.steps] at h
      split at h
      · cases h
      · rename_i r' hr'
        exact ih (hr.step (ht t List.mem_cons_self) hr')
          (fun t ht' => ht t (List.mem_cons_of_mem _ ht')) h

end Reading

/-- A tree that has been read is legible. -/
theorem parse_legible {source : String} {t : Tree} (h : parse source = .ok t) :
    t.content.Legible := by
  obtain ⟨tokens, htokens, h⟩ := bind_eq_ok_iff.1 h
  obtain ⟨r, hr, h⟩ := bind_eq_ok_iff.1 h
  have hstart : Reading.start.Legible := ⟨trivial, fun e he => absurd he List.not_mem_nil⟩
  have hlegible := hstart.steps (tokenize_legible htokens) hr
  rw [Reading.finish] at h
  split at h
  · cases h
    exact hlegible.done.reverse
  · cases h

end ViewCompiler
