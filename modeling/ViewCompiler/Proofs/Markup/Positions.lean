/-
**Where errors and tags are.**

Errors and tags carry the byte offset of a place in the source.  A cursor only ever goes on over
characters and adds up their bytes, so every offset that it has had is the beginning of a character,
or the end of the source.  The end is never reported: the loop looks for a lexeme only where
something is left, and within a tag a place behind which nothing is left is answered with the offset
of the tag.  Each turn of the loop passes at least one character, which bounds the number of turns
and puts the tags in order.

Main definitions:

* `ViewCompiler.Cursor.LeadsTo` — going on over some characters;
* `ViewCompiler.ParseError.PointsInto` — the error is at a character that is still ahead;
* `ViewCompiler.Turns` — the turns of the loop, with the cursors that they begin at;
* `ViewCompiler.WellPlaced` — where the errors and the tags of a source have to be.

Main results:

* `ViewCompiler.lexeme_places` — what one turn reports lies ahead;
* `ViewCompiler.turns_tokensFrom` — the loop takes turns that move forward, until it ends;
* `ViewCompiler.parse_wellPlaced` — **every error and every tag is at a character of the source**.
-/

import Mathlib.Data.List.Perm.Subperm
import ViewCompiler.Proofs.Markup.Balance

set_option relaxedAutoImplicit false
set_option autoImplicit false

namespace ViewCompiler

/-! ### Going on -/

namespace Cursor

/-- Going on over some characters. -/
def LeadsTo (c d : Cursor) : Prop :=
  ∃ passed, c.rest = passed ++ d.rest ∧ d.offset = c.offset + utf8Length passed

variable {c d e : Cursor}

theorem LeadsTo.refl (c : Cursor) : c.LeadsTo c :=
  ⟨[], rfl, rfl⟩

theorem LeadsTo.trans (hcd : c.LeadsTo d) (hde : d.LeadsTo e) : c.LeadsTo e := by
  obtain ⟨first, hfirst, hd⟩ := hcd
  obtain ⟨second, hsecond, he⟩ := hde
  refine ⟨first ++ second, ?_, ?_⟩
  · rw [hfirst, hsecond, List.append_assoc]
  · rw [he, hd, utf8Length_append, Nat.add_assoc]

theorem leadsTo_behind {passed rest : List Char} (h : c.rest = passed ++ rest) :
    c.LeadsTo (c.behind passed rest) :=
  ⟨passed, h, rfl⟩

theorem leadsTo_span (c : Cursor) (p : Char → Bool) : c.LeadsTo (c.span p).2 :=
  leadsTo_behind List.takeWhile_append_dropWhile.symm

theorem leadsTo_skip (c : Cursor) (p : Char → Bool) : c.LeadsTo (c.skip p) :=
  c.leadsTo_span p

theorem leadsTo_of_strip? {marker : List Char} (h : c.strip? marker = some d) : c.LeadsTo d := by
  obtain ⟨rest, hrest, rfl⟩ := Option.map_eq_some_iff.1 h
  exact leadsTo_behind (isPrefixOf?_eq_append hrest)

theorem leadsTo_of_cut? {marker before : List Char} (h : c.cut? marker = some (before, d)) :
    c.LeadsTo d := by
  obtain ⟨⟨first, rest⟩, hcut, heq⟩ := Option.map_eq_some_iff.1 h
  obtain ⟨-, rfl⟩ := Prod.mk.inj heq
  exact leadsTo_behind (cut_eq_append hcut)

/-- Going on over something leads to a larger offset. -/
theorem LeadsTo.offset_lt (h : c.LeadsTo d) (hlt : d.rest.length < c.rest.length) :
    c.offset < d.offset := by
  obtain ⟨passed, hrest, hoffset⟩ := h
  cases passed with
  | nil =>
      rw [hrest] at hlt
      exact absurd hlt (Nat.lt_irrefl _)
  | cons x passed =>
      have hx := x.utf8Size_pos
      rw [hoffset, utf8Length_cons]
      omega

theorem LeadsTo.offset_le (h : c.LeadsTo d) : c.offset ≤ d.offset := by
  obtain ⟨passed, -, hoffset⟩ := h
  omega

end Cursor

/-! ### Reading a tag -/

/-- The faults that show at an angle bracket. -/
def ParseFault.showsAtBracket : ParseFault → Bool
  | .unexpectedEndTag | .unclosedElement | .unterminatedComment => true
  | _ => false

/-- An angle bracket is ahead at this offset. -/
def Cursor.BracketAhead (c : Cursor) (position : Nat) : Prop :=
  ∃ d more, c.LeadsTo d ∧ position = d.offset ∧ d.rest = '<' :: more

/-- The error is at a character that is still ahead, and at an angle bracket if its fault shows at
one. -/
def ParseError.PointsInto (e : ParseError) (c : Cursor) : Prop :=
  ∃ d x more, c.LeadsTo d ∧ e.position = d.offset ∧ d.rest = x :: more ∧
    (e.fault.showsAtBracket = true → x = '<')

theorem ParseError.PointsInto.of_leadsTo {e : ParseError} {c d : Cursor} (h : e.PointsInto d)
    (hcd : c.LeadsTo d) : e.PointsInto c := by
  obtain ⟨here, x, more, hd, hrest⟩ := h
  exact ⟨here, x, more, hcd.trans hd, hrest⟩

/-- An error within a tag is at its bracket, or at a character of the tag. -/
def ParseError.WithinTag (e : ParseError) (tag : Nat) (c : Cursor) : Prop :=
  e.fault.showsAtBracket = false ∧
    (e.position = tag ∨ ∃ d, c.LeadsTo d ∧ d.rest ≠ [] ∧ e.position = d.offset)

/-- Where reading a part of a tag may lead. -/
def PlacesInTag {α : Type} (tag : Nat) (c : Cursor) : Except ParseError (α × Cursor) → Prop
  | .ok (_, d) => c.LeadsTo d
  | .error e => e.WithinTag tag c

theorem readAttribute_places (tag : Nat) {c : Cursor} (hc : c.rest ≠ []) :
    PlacesInTag tag c (readAttribute tag c) := by
  have hhere : ∀ fault : ParseFault, fault.showsAtBracket = false →
      PlacesInTag tag c (.error ⟨fault, c.offset⟩ : Except _ ((String × String) × Cursor)) :=
    fun fault hfault => ⟨hfault, .inr ⟨c, .refl c, hc, rfl⟩⟩
  rw [readAttribute]
  dsimp only
  split
  · exact hhere _ rfl
  · split
    · exact hhere _ rfl
    · next afterSign hsign =>
        have hvalue : c.LeadsTo (afterSign.skip isAsciiBlank) :=
          (((c.leadsTo_span isNameChar).trans (Cursor.leadsTo_skip _ _)).trans
            (Cursor.leadsTo_of_strip? hsign)).trans (Cursor.leadsTo_skip _ _)
        split
        · split
          · split
            · exact hhere _ rfl
            · next inside hinside =>
                split
                · exact ⟨rfl, .inl rfl⟩
                · next raw behind hcut =>
                    exact (hvalue.trans (Cursor.leadsTo_of_strip? hinside)).trans
                      (Cursor.leadsTo_of_cut? hcut)
          · exact hhere _ rfl
        · exact hhere _ rfl

theorem ParseError.WithinTag.of_leadsTo {e : ParseError} {tag : Nat} {c d : Cursor}
    (h : e.WithinTag tag d) (hcd : c.LeadsTo d) : e.WithinTag tag c :=
  ⟨h.1, h.2.imp_right fun ⟨here, hd, hrest⟩ => ⟨here, hcd.trans hd, hrest⟩⟩

theorem readAttributes_places (tag : Nat) (c : Cursor) :
    PlacesInTag tag c
      ((readAttributes tag c).map fun found => ((found.1, found.2.1), found.2.2)) := by
  fun_induction readAttributes tag c with
  | case1 => exact ⟨rfl, .inl rfl⟩
  | case2 c here rest hrest => exact (c.leadsTo_skip _).trans (Cursor.leadsTo_behind hrest)
  | case3 c here rest hrest => exact (c.leadsTo_skip _).trans (Cursor.leadsTo_behind hrest)
  | case4 c here rest _ hslash =>
      have hrest : here.rest ≠ [] := by
        rw [hslash]
        exact List.cons_ne_nil _ _
      exact ⟨rfl, .inr ⟨here, c.leadsTo_skip _, hrest, rfl⟩⟩
  | case5 c here e hfirst hrest =>
      have hplaces := readAttribute_places tag hrest
      rw [hfirst] at hplaces
      exact hplaces.of_leadsTo (c.leadsTo_skip _)
  | case6 c here first behind hfirst e hmore hrest _ _ _ ih =>
      have hplaces := readAttribute_places tag hrest
      rw [hfirst] at hplaces
      rw [hmore] at ih
      exact ih.of_leadsTo ((c.leadsTo_skip _).trans hplaces)
  | case7 c here first behind hfirst more result hmore hrest _ _ _ ih =>
      have hplaces := readAttribute_places tag hrest
      rw [hfirst] at hplaces
      rw [hmore] at ih
      exact ((c.leadsTo_skip _).trans hplaces).trans ih

theorem readEndTag_places (tag : Nat) (c : Cursor) :
    PlacesInTag tag c (readEndTag tag c) := by
  rw [readEndTag]
  dsimp only
  split
  · exact ⟨rfl, .inl rfl⟩
  · split
    · exact ⟨rfl, .inl rfl⟩
    · next behind hbehind =>
        exact ((c.leadsTo_span isNameChar).trans (Cursor.leadsTo_skip _ _)).trans
          (Cursor.leadsTo_of_strip? hbehind)

theorem readStartTag_places (c : Cursor) : PlacesInTag c.offset c (readStartTag c) := by
  rw [readStartTag]
  split
  · exact ⟨rfl, .inl rfl⟩
  · next inside hinside =>
      have hname := (Cursor.leadsTo_of_strip? hinside).trans (inside.leadsTo_span isNameChar)
      have hplaces := readAttributes_places c.offset (inside.span isNameChar).2
      dsimp only
      split
      · exact ⟨rfl, .inl rfl⟩
      · split
        · next e he =>
            rw [he] at hplaces
            exact hplaces.of_leadsTo hname
        · next attributes selfClosing behind hread =>
            rw [hread] at hplaces
            exact hname.trans hplaces

/-! ### One turn -/

/-- The offset that a tag carries. -/
def Token.position? : Token → Option Nat
  | .startTag _ _ _ position | .endTag _ position => some position
  | _ => none

/-- Where one turn may lead: on to a place ahead, with a token that, if it is a tag, stands at an
angle bracket at the cursor; or to an error at a character ahead. -/
def Places (c : Cursor) : Except ParseError (Option Token × Cursor) → Prop
  | .ok (token?, d) => c.LeadsTo d ∧ ∀ t ∈ token?, ∀ p ∈ t.position?,
      p = c.offset ∧ c.rest.head? = some '<'
  | .error e => e.PointsInto c

/-- The error is at the cursor. -/
theorem pointsInto_here {c : Cursor} {x : Char} {more : List Char} (hc : c.rest = x :: more)
    {fault : ParseFault} (hx : fault.showsAtBracket = true → x = '<') :
    ParseError.PointsInto ⟨fault, c.offset⟩ c :=
  ⟨c, x, more, .refl c, rfl, hc, hx⟩

section

variable {c inside : Cursor} {more : List Char}

/-- An error within a tag is at a character ahead. -/
theorem ParseError.WithinTag.pointsInto {e : ParseError} (h : e.WithinTag c.offset inside)
    (hc : c.rest = '<' :: more) (hinside : c.LeadsTo inside) : e.PointsInto c := by
  obtain ⟨hfault, hpos | ⟨d, hd, hrest, hpos⟩⟩ := h
  · exact ⟨c, '<', more, .refl c, hpos, hc, fun _ => rfl⟩
  · obtain ⟨x, rest, hcons⟩ := List.exists_cons_of_ne_nil hrest
    refine ⟨d, x, rest, hinside.trans hd, hpos, hcons, fun h => ?_⟩
    rw [hfault] at h
    cases h

/-- A tag is read. -/
theorem places_tag {r : Except ParseError (Token × Cursor)}
    (hr : PlacesInTag c.offset inside r) (hc : c.rest = '<' :: more) (hinside : c.LeadsTo inside)
    (htag : ∀ t d, r = .ok (t, d) → t.position? = some c.offset) :
    Places c (r.map fun found => (some found.1, found.2)) := by
  cases r with
  | error e => exact hr.pointsInto hc hinside
  | ok found =>
      refine ⟨hinside.trans hr, fun t ht p hp => ?_⟩
      obtain rfl := Option.some.inj ht
      rw [htag _ _ rfl] at hp
      exact ⟨(Option.some.inj hp).symm, by rw [hc]; rfl⟩

/-- What is between markers is read: no tag. -/
theorem places_enclosed {fault : ParseFault} {closing : List Char}
    (token? : List Char → Option Token) (hc : c.rest = '<' :: more) (hinside : c.LeadsTo inside)
    (htoken : ∀ text, ∀ t ∈ token? text, t.position? = none) :
    Places c ((enclosed fault c.offset closing inside).map fun found =>
      (token? found.1, found.2)) := by
  rw [enclosed]
  split
  · exact pointsInto_here hc fun _ => rfl
  · next found hfound =>
      refine ⟨hinside.trans (Cursor.leadsTo_of_cut? hfound), fun t ht p hp => ?_⟩
      rw [htoken _ t ht] at hp
      cases hp

end

theorem textToken?_position {content : List Char} {t : Token} (ht : t ∈ textToken? content) :
    t.position? = none := by
  rw [textToken?] at ht
  split at ht
  · cases ht
  · obtain rfl := Option.some.inj ht
    rfl

theorem readEndTag_position {tag : Nat} {c d : Cursor} {t : Token}
    (h : readEndTag tag c = .ok (t, d)) : t.position? = some tag := by
  rw [readEndTag] at h
  dsimp only at h
  split at h
  · cases h
  · split at h
    · cases h
    · cases h
      rfl

theorem readStartTag_position {c d : Cursor} {t : Token} (h : readStartTag c = .ok (t, d)) :
    t.position? = some c.offset := by
  rw [readStartTag] at h
  split at h
  · cases h
  · dsimp only at h
    split at h
    · cases h
    · split at h
      · cases h
      · cases h
        rfl

/-- **What one turn reports lies ahead.** -/
theorem lexeme_places (c : Cursor) : Places c (lexeme c) := by
  rw [lexeme]
  split
  · refine ⟨c.leadsTo_span _, fun t ht p hp => ?_⟩
    rw [textToken?_position ht] at hp
    cases hp
  · next hhead =>
      obtain ⟨more, hrest⟩ := List.head?_eq_some_iff.1 (not_not.1 hhead)
      split
      · next inside hinside =>
          refine places_enclosed (fun text => some (.comment (.ofList text))) hrest
            (Cursor.leadsTo_of_strip? hinside) fun text t ht => ?_
          obtain rfl := Option.some.inj ht
          rfl
      · split
        · next inside hinside =>
            exact places_enclosed textToken? hrest (Cursor.leadsTo_of_strip? hinside)
              fun _ _ => textToken?_position
        · split
          · next inside hinside =>
              have hlead : c.LeadsTo inside := (Option.or_eq_some_iff.1 hinside).elim
                Cursor.leadsTo_of_strip? fun h => Cursor.leadsTo_of_strip? h.2
              exact places_enclosed (fun _ => none) hrest hlead fun _ _ ht => by cases ht
          · split
            · next inside hinside =>
                exact places_tag (readEndTag_places c.offset inside) hrest
                  (Cursor.leadsTo_of_strip? hinside) fun _ _ => readEndTag_position
            · exact places_tag (readStartTag_places c) hrest (.refl c) fun _ _ =>
                readStartTag_position

/-! ### All turns -/

/-- The turns of the loop: `visited` are the cursors that they begin at.  Each turn leads to a
larger offset, unless it ends the loop. -/
inductive Turns : Cursor → List Cursor → Except ParseError (List Token) → Prop
  | ended {c : Cursor} (h : c.rest = []) : Turns c [] (.ok [])
  | failed {c : Cursor} {e : ParseError} (h : c.rest ≠ []) (he : lexeme c = .error e) :
      Turns c [c] (.error e)
  | turn {c d : Cursor} {token? : Option Token} {visited : List Cursor}
      {result : Except ParseError (List Token)} (h : c.rest ≠ [])
      (hd : lexeme c = .ok (token?, d)) (hforward : c.offset < d.offset)
      (hmore : Turns d visited result) :
      Turns c (c :: visited) (result.map (token?.toList ++ ·))

theorem leadsTo_of_lexeme {c d : Cursor} {token? : Option Token}
    (h : lexeme c = .ok (token?, d)) : c.LeadsTo d := by
  have hplaces := lexeme_places c
  rw [h] at hplaces
  exact hplaces.1

theorem pointsInto_of_lexeme {c : Cursor} {e : ParseError} (h : lexeme c = .error e) :
    e.PointsInto c := by
  have hplaces := lexeme_places c
  rw [h] at hplaces
  exact hplaces

/-- A turn that succeeds moves forward. -/
theorem offset_lt_of_lexeme {c d : Cursor} {token? : Option Token} (hc : c.rest ≠ [])
    (h : lexeme c = .ok (token?, d)) : c.offset < d.offset :=
  (leadsTo_of_lexeme h).offset_lt (lexeme_length_lt hc h)

/-- **The loop takes turns that move forward, until it ends.** -/
theorem turns_tokensFrom (c : Cursor) : ∃ visited, Turns c visited (tokensFrom c) := by
  fun_induction tokensFrom c with
  | case1 c h => exact ⟨[], .ended h⟩
  | case2 c h e he => exact ⟨[c], .failed h he⟩
  | case3 c h token? behind hlexeme ih =>
      obtain ⟨visited, hmore⟩ := ih
      exact ⟨c :: visited, .turn h hlexeme (offset_lt_of_lexeme h hlexeme) hmore⟩

namespace Turns

variable {c : Cursor} {visited : List Cursor} {result : Except ParseError (List Token)}

/-- Every turn begins at a character, and further on than the turns before. -/
theorem forward (h : Turns c visited result) :
    (∀ v ∈ visited, c.LeadsTo v ∧ v.rest ≠ []) ∧
      visited.Pairwise fun v w => v.offset < w.offset := by
  induction h with
  | ended => exact ⟨List.forall_mem_nil _, .nil⟩
  | failed hc => exact ⟨List.forall_mem_singleton.2 ⟨.refl _, hc⟩, List.pairwise_singleton _ _⟩
  | turn hc hd hforward _ ih =>
      refine ⟨List.forall_mem_cons.2 ⟨⟨.refl _, hc⟩, fun v hv => ?_⟩, ?_⟩
      · exact ⟨(leadsTo_of_lexeme hd).trans (ih.1 v hv).1, (ih.1 v hv).2⟩
      · refine List.pairwise_cons.2 ⟨fun v hv => ?_, ih.2⟩
        exact Nat.lt_of_lt_of_le hforward (ih.1 v hv).1.offset_le

/-- An error of the loop is at a character ahead. -/
theorem pointsInto (h : Turns c visited result) {e : ParseError} (he : result = .error e) :
    e.PointsInto c := by
  induction h with
  | ended => cases he
  | failed _ hlexeme =>
      obtain rfl := Except.error.inj he
      exact pointsInto_of_lexeme hlexeme
  | turn _ hd _ _ ih => exact (ih (map_eq_error_iff.1 he)).of_leadsTo (leadsTo_of_lexeme hd)

/-- The tags stand at angle brackets ahead, each further on than the ones before. -/
theorem tags (h : Turns c visited result) {tokens : List Token} (htokens : result = .ok tokens) :
    (∀ p ∈ tokens.filterMap Token.position?, c.BracketAhead p) ∧
      (tokens.filterMap Token.position?).Pairwise (· < ·) := by
  induction h generalizing tokens with
  | ended =>
      obtain rfl := Except.ok.inj htokens
      exact ⟨List.forall_mem_nil _, .nil⟩
  | failed => cases htokens
  | @turn c d token? visited result hc hd hforward hmore ih =>
      obtain ⟨found, hfound, rfl⟩ := map_eq_ok_iff.1 htokens
      obtain ⟨hahead, hordered⟩ := ih hfound
      have hplaces := lexeme_places c
      rw [hd] at hplaces
      -- the tags of the turns that follow are behind where this one leads
      have hlater : ∀ p ∈ found.filterMap Token.position?, c.offset < p ∧ c.BracketAhead p := by
        intro p hp
        obtain ⟨here, more, hhere, rfl, hrest⟩ := hahead p hp
        exact ⟨Nat.lt_of_lt_of_le hforward hhere.offset_le, here, more,
          hplaces.1.trans hhere, rfl, hrest⟩
      rw [List.filterMap_append]
      cases hown : token?.bind Token.position? with
      | none =>
          have hnil : token?.toList.filterMap Token.position? = [] := by
            cases token? with
            | none => rfl
            | some t => exact List.filterMap_cons_none hown
          rw [hnil]
          exact ⟨fun p hp => (hlater p hp).2, hordered⟩
      | some p =>
          obtain ⟨t, rfl, hp⟩ := Option.bind_eq_some_iff.1 hown
          obtain ⟨rfl, hhead⟩ := hplaces.2 t rfl p hp
          obtain ⟨more, hrest⟩ := List.head?_eq_some_iff.1 hhead
          rw [Option.toList_some, List.filterMap_cons_some hp, List.filterMap_nil,
            List.singleton_append]
          exact ⟨List.forall_mem_cons.2 ⟨⟨c, more, .refl c, rfl, hrest⟩,
              fun p hp => (hlater p hp).2⟩,
            List.pairwise_cons.2 ⟨fun p hp => (hlater p hp).1, hordered⟩⟩

end Turns

/-! ### In the source -/

/-- A character of the source begins at this byte. -/
structure Stands (source : String) (position : Nat) : Prop where
  lt_size : position < source.utf8ByteSize
  boundary : String.Pos.Raw.IsValid source ⟨position⟩

/-- The byte at this position is an angle bracket. -/
def IsBracket (source : String) (position : Nat) : Prop :=
  source.toByteArray[position]? = some '<'.toUInt8

theorem utf8ByteSize_ofList (text : List Char) :
    (String.ofList text).utf8ByteSize = utf8Length text := by
  induction text with
  | nil => rfl
  | cons c cs ih =>
      rw [String.ofList_cons, String.utf8ByteSize_append, String.utf8ByteSize_singleton, ih,
        utf8Length_cons]

section

variable {source : String} {d : Cursor} {x : Char} {more : List Char}

theorem exists_split (h : (Cursor.ofString source).LeadsTo d) :
    ∃ before : String, source = before ++ .ofList d.rest ∧ d.offset = before.utf8ByteSize := by
  obtain ⟨passed, hrest, hoffset⟩ := h
  refine ⟨.ofList passed, ?_, ?_⟩
  · rw [← String.ofList_append, ← hrest]
    exact String.ofList_toList.symm
  · rw [hoffset, utf8ByteSize_ofList]
    exact Nat.zero_add _

/-- Where something is left of the source, a character begins. -/
theorem stands_of_leadsTo (h : (Cursor.ofString source).LeadsTo d) (hrest : d.rest ≠ []) :
    Stands source d.offset := by
  obtain ⟨before, hsource, hoffset⟩ := exists_split h
  obtain ⟨x, more, hcons⟩ := List.exists_cons_of_ne_nil hrest
  refine ⟨?_, String.Pos.Raw.isValid_iff_exists_append.2 ⟨before, _, hsource, ?_⟩⟩
  · have hx := x.utf8Size_pos
    have hsize : (String.ofList d.rest).utf8ByteSize = x.utf8Size + utf8Length more := by
      rw [utf8ByteSize_ofList, hcons, utf8Length_cons]
    rw [hsource, String.utf8ByteSize_append, hoffset]
    omega
  · rw [hoffset]
    rfl

theorem isBracket_of_leadsTo (h : (Cursor.ofString source).LeadsTo d)
    (hrest : d.rest = '<' :: more) : IsBracket source d.offset := by
  obtain ⟨before, hsource, hoffset⟩ := exists_split h
  have hbracket : (String.singleton '<').toByteArray.data = #['<'.toUInt8] := by decide
  have hsize : d.offset = before.toByteArray.data.size := hoffset
  have hdata : source.toByteArray.data =
      before.toByteArray.data ++ (#['<'.toUInt8] ++ (String.ofList more).toByteArray.data) := by
    rw [hsource, hrest, String.ofList_cons, String.toByteArray_append, String.toByteArray_append,
      ByteArray.data_append, ByteArray.data_append, hbracket]
  change source.toByteArray.data[d.offset]? = _
  rw [hdata, hsize, Array.getElem?_append_right (Nat.le_refl _), Nat.sub_self,
    Array.getElem?_append_left Nat.zero_lt_one]
  rfl

end

/-- Where the errors and the tags of a source have to be, and how it is read. -/
structure WellPlaced (source : String) : Prop where
  /-- An error is at a character of the source. -/
  error_stands : ∀ e, parse source = .error e → Stands source e.position
  /-- The faults that show at an angle bracket are at one. -/
  error_isBracket : ∀ e, parse source = .error e →
    e.fault ∈ [.unexpectedEndTag, .unclosedElement, .unterminatedComment] →
      IsBracket source e.position
  /-- The tags come in order. -/
  tags_increasing : ∀ tokens, tokenize source = .ok tokens →
    (tokens.filterMap Token.position?).Pairwise (· < ·)
  /-- Every tag is at an angle bracket of the source. -/
  tags_isBracket : ∀ tokens, tokenize source = .ok tokens →
    ∀ p ∈ tokens.filterMap Token.position?, Stands source p ∧ IsBracket source p
  /-- The loop ends: each of its turns moves forward and begins at a character of the source, so
  there are not more turns than bytes. -/
  turns : ∃ visited, Turns (.ofString source) visited (tokenize source) ∧
    (visited.Pairwise fun v w => v.offset < w.offset) ∧
    (∀ v ∈ visited, Stands source v.offset) ∧ visited.length ≤ source.utf8ByteSize

namespace ParseError.PointsInto

variable {source : String} {e : ParseError}

theorem stands (h : e.PointsInto (.ofString source)) : Stands source e.position := by
  obtain ⟨d, x, more, hd, hpos, hrest, -⟩ := h
  rw [hpos]
  refine stands_of_leadsTo hd ?_
  rw [hrest]
  exact List.cons_ne_nil _ _

theorem isBracket (h : e.PointsInto (.ofString source)) (he : e.fault.showsAtBracket = true) :
    IsBracket source e.position := by
  obtain ⟨d, x, more, hd, hpos, hrest, hx⟩ := h
  obtain rfl := hx he
  rw [hpos]
  exact isBracket_of_leadsTo hd hrest

end ParseError.PointsInto

/-- The builder reports the position of a tag. -/
theorem Unbalanced.mem_positions {tokens : List Token} {e : ParseError} (h : Unbalanced tokens e) :
    e.position ∈ tokens.filterMap Token.position? := by
  cases h with
  | misfit hmisfit =>
      obtain ⟨before, name, behind, opened, rfl, -⟩ := hmisfit
      exact List.mem_filterMap.2
        ⟨_, List.mem_append_right _ List.mem_cons_self, rfl⟩
  | unclosed hopen =>
      cases hopen with
      | inside =>
          exact List.mem_filterMap.2
            ⟨_, List.mem_append_right _ List.mem_cons_self, rfl⟩

/-- An error is found by the loop, or it is at one of the tags. -/
theorem pointsInto_of_parse {source : String} {e : ParseError} (h : parse source = .error e) :
    e.PointsInto (.ofString source) := by
  obtain ⟨visited, hturns⟩ := turns_tokensFrom (.ofString source)
  rw [parse] at h
  cases htokens : tokenize source with
  | error found =>
      rw [htokens] at h
      obtain rfl := Except.error.inj h
      exact hturns.pointsInto htokens
  | ok tokens =>
      rw [htokens] at h
      have hmem := (Tree.ofTokens_eq_error_iff.1 h).mem_positions
      obtain ⟨d, more, hd, hpos, hrest⟩ := (hturns.tags htokens).1 _ hmem
      exact ⟨d, '<', more, hd, hpos, hrest, fun _ => rfl⟩

/-- **Every error and every tag is at a character of the source.** -/
theorem parse_wellPlaced (source : String) : WellPlaced source := by
  obtain ⟨visited, hturns⟩ := turns_tokensFrom (.ofString source)
  obtain ⟨hahead, hordered⟩ := hturns.forward
  have hstands : ∀ v ∈ visited, Stands source v.offset :=
    fun v hv => stands_of_leadsTo (hahead v hv).1 (hahead v hv).2
  refine ⟨fun e he => (pointsInto_of_parse he).stands, fun e he hfault => ?_, ?_, ?_,
    visited, hturns, hordered, hstands, ?_⟩
  · refine (pointsInto_of_parse he).isBracket ?_
    simp only [List.mem_cons, List.not_mem_nil, or_false] at hfault
    rcases hfault with hfault | hfault | hfault <;> rw [hfault] <;> rfl
  · exact fun tokens htokens => (hturns.tags htokens).2
  · intro tokens htokens p hp
    obtain ⟨d, more, hd, rfl, hrest⟩ := (hturns.tags htokens).1 p hp
    refine ⟨stands_of_leadsTo hd ?_, isBracket_of_leadsTo hd hrest⟩
    rw [hrest]
    exact List.cons_ne_nil _ _
  · -- different offsets below the size of the source
    have hnodup : (visited.map (·.offset)).Nodup :=
      (List.pairwise_map.2 hordered).imp fun hlt => Nat.ne_of_lt hlt
    have hsub : visited.map (·.offset) ⊆ List.range source.utf8ByteSize := by
      intro p hp
      obtain ⟨v, hv, rfl⟩ := List.mem_map.1 hp
      exact List.mem_range.2 (hstands v hv).lt_size
    have hlength := (hnodup.subperm hsub).length_le
    rwa [List.length_map, List.length_range] at hlength

/-- An end tag without a start tag behind an umlaut of two bytes, an attribute without a value, and
a comment without an end. -/
theorem umlaut_wellPlaced :
    WellPlaced "<p>\u00fc</q>" ∧ parse "<p>\u00fc</q>" = .error ⟨.unexpectedEndTag, 5⟩ ∧
      parse "<p>\u00fc<q a>" = .error ⟨.missingAttributeValue, 8⟩ ∧
      parse "\u00fc<!-- a" = .error ⟨.unterminatedComment, 2⟩ :=
  ⟨parse_wellPlaced _, by decide +kernel, by decide +kernel, by decide +kernel⟩

end ViewCompiler
