/-
**Format texts in the written text.**

A format text is scanned twice.  When the arch is compiled, what stands between `#{` and the next
`}` is found and marked for output; when the value is written, the marks are found again in the text
that has come out, and what stands around them is escaped.  The second scan finds the spans of the
first, whatever braces stand around them: an expression contains no closing brace, so it ends where
it has ended before, and if the text before it ends with an opening brace, the scan takes that brace
for the first of the mark and one brace of the mark for the beginning of the expression, which
changes nothing because no brace is escaped.  Only a text that contains two opening braces side by
side would open an expression of its own.

Main definitions:

* `ViewCompiler.FormatParts` — a format text as texts and expressions by turns;
* `ViewCompiler.FormatParts.Divides` — the leftmost division of a text;
* `ViewCompiler.FormatParts.written` — the written value: every text escaped, every expression
  normalized between its marks;
* `ViewCompiler.CompilerOptions.Formats` — a directive of an element computes an attribute from a
  format text, and no later one computes it again.

Main results:

* `ViewCompiler.FormatParts.exists_divides`, `ViewCompiler.FormatParts.Divides.unique` — every text
  has one leftmost division;
* `ViewCompiler.FormatParts.Divides.escapeValue_eq` — **a format text is written in its parts**;
* `ViewCompiler.CompilerOptions.BecomesBy.get?_format` — the value that compiling sets;
* `ViewCompiler.compile_formats` — what becomes of an element with such a directive has the
  attribute in its start tag, written in its parts.
-/

import ViewCompiler.Proofs.Inheritance.Splicing
import ViewCompiler.Proofs.Template.Interpolation
import ViewCompiler.Proofs.Template.Residue

set_option relaxedAutoImplicit false
set_option autoImplicit false

namespace ViewCompiler

variable {ι : Type}

/-! ### Texts and expressions by turns -/

/-- An expression of a format text, and the text before it. -/
structure FormatSpan where
  text : List Char
  expression : List Char
  deriving DecidableEq, Repr

namespace FormatSpan

def source (s : FormatSpan) : List Char :=
  s.text ++ formatMark ++ s.expression ++ ['\x7d']

/-- The expression is marked for output. -/
def marked (s : FormatSpan) : List Char :=
  s.text ++ markedChars (normalizeChars s.expression)

/-- The text is escaped, and the expression is not. -/
def written (s : FormatSpan) : List Char :=
  escapePlain s.text ++ markedChars (normalizeChars s.expression)

end FormatSpan

/-- A format text as texts and expressions by turns; `last` is the text behind all expressions. -/
structure FormatParts where
  spans : List FormatSpan
  last : List Char
  deriving DecidableEq, Repr

namespace FormatParts

def source (p : FormatParts) : List Char :=
  p.spans.flatMap FormatSpan.source ++ p.last

/-- All expressions are marked for output. -/
def marked (p : FormatParts) : List Char :=
  p.spans.flatMap FormatSpan.marked ++ p.last

/-- The written value: all texts are escaped, and no expression is. -/
def written (p : FormatParts) : List Char :=
  p.spans.flatMap FormatSpan.written ++ escapePlain p.last

/-- The texts around the expressions. -/
def texts (p : FormatParts) : List (List Char) :=
  p.spans.map FormatSpan.text ++ [p.last]

/-- The parts are the leftmost division of a text: no expression is opened in a text before it is
opened behind it, every expression ends with the first closing brace, and behind the last one no
expression is opened and closed. -/
structure Divides (p : FormatParts) (text : List Char) : Prop where
  source_eq : p.source = text
  text_opens : ∀ s ∈ p.spans, ¬ formatMark <:+: s.text
  expression_closes : ∀ s ∈ p.spans, '\x7d' ∉ s.expression
  last_spans : ¬ ∃ before expression behind,
    p.last = before ++ formatMark ++ expression ++ '\x7d' :: behind

theorem source_cons (s : FormatSpan) (spans : List FormatSpan) (last : List Char) :
    source ⟨s :: spans, last⟩ =
      s.text ++ formatMark ++ (s.expression ++ '\x7d' :: source ⟨spans, last⟩) := by
  simp [source, FormatSpan.source]

theorem marked_cons (s : FormatSpan) (spans : List FormatSpan) (last : List Char) :
    marked ⟨s :: spans, last⟩ =
      s.text ++ markedChars (normalizeChars s.expression) ++ marked ⟨spans, last⟩ := by
  simp [marked, FormatSpan.marked]

theorem written_cons (s : FormatSpan) (spans : List FormatSpan) (last : List Char) :
    written ⟨s :: spans, last⟩ =
      escapePlain s.text ++ markedChars (normalizeChars s.expression) ++
        written ⟨spans, last⟩ := by
  simp [written, FormatSpan.written]

end FormatParts

/-! ### Where an expression is opened and closed -/

/-- An opening brace does not stand behind a number sign that has just been written. -/
theorem formatMark_infix_concat {text : List Char} :
    formatMark <:+: text ++ formatMark.dropLast ↔ formatMark <:+: text := by
  rw [show formatMark.dropLast = ['#'] from rfl, List.infix_concat_iff, or_iff_right]
  rintro ⟨before, hends⟩
  have hreverse := congrArg List.reverse hends
  simp [formatMark] at hreverse

theorem cut_formatMark {text : List Char} (h : ¬ formatMark <:+: text) (rest : List Char) :
    cut formatMark (text ++ formatMark ++ rest) = some (text, rest) :=
  cut_append rest (by decide) (mt formatMark_infix_concat.1 h)

/-- Two closing braces are found where the first closing brace stands. -/
theorem cut_closeMark {inner : List Char} (h : '\x7d' ∉ inner) (rest : List Char) :
    cut closeMark (inner ++ closeMark ++ rest) = some (inner, rest) := by
  refine cut_append rest (by decide) fun hoccurs => ?_
  have hcount := hoccurs.sublist.count_le '\x7d'
  rw [List.count_append, List.count_eq_zero_of_not_mem h] at hcount
  exact absurd hcount (by decide)

/-- What stands behind any opening stands behind the first one. -/
theorem suffix_of_cut {text before inner front rest : List Char}
    (hcut : cut formatMark text = some (before, inner))
    (htext : text = front ++ formatMark ++ rest) : rest <:+ inner := by
  have hfirst : ¬ formatMark <:+: before ++ formatMark.dropLast :=
    mt formatMark_infix_concat.1 (not_infix_of_cut (by decide) hcut)
  have hsplit := cut_eq_append hcut
  have hrest : rest <:+ text := ⟨front ++ formatMark, htext.symm⟩
  have hinner : inner <:+ text := ⟨before ++ formatMark, hsplit.symm⟩
  rcases List.suffix_or_suffix_of_suffix hrest hinner with hshorter | ⟨between, hbetween⟩
  · exact hshorter
  · -- otherwise the opening ends before the first one does
    rcases List.eq_nil_or_concat between with rfl | ⟨most, c, rfl⟩
    · exact ⟨[], hbetween.symm⟩
    · refine absurd ⟨front, most, ?_⟩ hfirst
      rw [htext, ← hbetween, ← List.append_assoc] at hsplit
      have hinit := congrArg List.dropLast (List.append_cancel_right hsplit)
      rw [List.concat_eq_append, ← List.append_assoc, List.dropLast_concat] at hinit
      rw [hinit, List.dropLast_append_of_ne_nil (by decide)]

/-! ### The division -/

section Formatting

variable {text before inner expression rest : List Char}

theorem formatChars_of_not_open (h : cut formatMark text = none) : formatChars text = text := by
  fun_cases formatChars text with
  | case1 => rfl
  | case2 => rfl
  | case3 before inner hopen => cases h.symm.trans hopen

theorem formatChars_of_not_closed (hopen : cut formatMark text = some (before, inner))
    (hclose : cut ['\x7d'] inner = none) : formatChars text = text := by
  fun_cases formatChars text with
  | case1 => rfl
  | case2 => rfl
  | case3 before' inner' hopen' expression rest hclose' =>
      cases hopen.symm.trans hopen'
      cases hclose.symm.trans hclose'

theorem formatChars_of_span (hopen : cut formatMark text = some (before, inner))
    (hclose : cut ['\x7d'] inner = some (expression, rest)) :
    formatChars text = before ++ markedChars (normalizeChars expression) ++ formatChars rest := by
  fun_cases formatChars text with
  | case1 hopen' => cases hopen.symm.trans hopen'
  | case2 before' inner' hopen' hclose' =>
      cases hopen.symm.trans hopen'
      cases hclose.symm.trans hclose'
  | case3 before' inner' hopen' expression' rest' hclose' =>
      cases hopen.symm.trans hopen'
      cases hclose.symm.trans hclose'
      rfl

theorem escapeValue_of_not_open (h : cut openMark text = none) :
    escapeValue text = escapePlain text := by
  fun_cases escapeValue text with
  | case1 => rfl
  | case2 => rfl
  | case3 before inner hopen => cases h.symm.trans hopen

theorem escapeValue_of_span (hopen : cut openMark text = some (before, inner))
    (hclose : cut closeMark inner = some (expression, rest)) :
    escapeValue text =
      escapePlain before ++ openMark ++ expression ++ closeMark ++ escapeValue rest := by
  fun_cases escapeValue text with
  | case1 hopen' => cases hopen.symm.trans hopen'
  | case2 before' inner' hopen' hclose' =>
      cases hopen.symm.trans hopen'
      cases hclose.symm.trans hclose'
  | case3 before' inner' hopen' expression' rest' hclose' =>
      cases hopen.symm.trans hopen'
      cases hclose.symm.trans hclose'
      rfl

end Formatting

namespace FormatParts

variable {p q : FormatParts} {text : List Char}

/-- **Every text has a leftmost division.** -/
theorem exists_divides (text : List Char) : ∃ p : FormatParts, p.Divides text := by
  fun_induction formatChars text with
  | case1 text hopen =>
      refine ⟨⟨[], text⟩, rfl, by simp, by simp, ?_⟩
      rintro ⟨before, expression, behind, htext⟩
      refine (cut_eq_none_iff (by decide)).1 hopen ⟨before, expression ++ '\x7d' :: behind, ?_⟩
      rw [← List.append_assoc]
      exact htext.symm
  | case2 text before inner hopen hclose =>
      refine ⟨⟨[], text⟩, rfl, by simp, by simp, ?_⟩
      rintro ⟨front, expression, behind, htext⟩
      have hbehind := suffix_of_cut hopen (htext.trans (List.append_assoc _ _ _))
      exact cut_singleton_eq_none_iff.1 hclose (hbehind.subset (by simp))
  | case3 text before inner hopen expression rest hclose ih =>
      obtain ⟨⟨spans, last⟩, hrest⟩ := ih
      have hexpression : '\x7d' ∉ expression := not_mem_of_cut hclose
      refine ⟨⟨⟨before, expression⟩ :: spans, last⟩, ?_, ?_, ?_, hrest.last_spans⟩
      · rw [source_cons, hrest.source_eq, cut_eq_append hopen, cut_eq_append hclose]
        simp
      · exact List.forall_mem_cons.2 ⟨not_infix_of_cut (by decide) hopen, hrest.text_opens⟩
      · exact List.forall_mem_cons.2 ⟨hexpression, hrest.expression_closes⟩

namespace Divides

variable {s : FormatSpan} {spans : List FormatSpan} {last : List Char}

/-- Behind the first expression the text is divided into the other parts. -/
theorem tail (h : Divides ⟨s :: spans, last⟩ text) :
    Divides ⟨spans, last⟩ (source ⟨spans, last⟩) :=
  ⟨rfl, (List.forall_mem_cons.1 h.text_opens).2, (List.forall_mem_cons.1 h.expression_closes).2,
    h.last_spans⟩

/-- The first expression is found by cutting. -/
theorem cut_eq (h : Divides ⟨s :: spans, last⟩ text) :
    ∃ inner, cut formatMark text = some (s.text, inner) ∧
      cut ['\x7d'] inner = some (s.expression, source ⟨spans, last⟩) := by
  refine ⟨s.expression ++ '\x7d' :: source ⟨spans, last⟩, ?_, ?_⟩
  · rw [← h.source_eq, source_cons]
    exact cut_formatMark (h.text_opens s List.mem_cons_self) _
  · exact cut_singleton (h.expression_closes s List.mem_cons_self) _

/-- Without expressions none is found. -/
theorem cut_eq_none (h : Divides ⟨[], last⟩ text) {before inner : List Char}
    (hopen : cut formatMark text = some (before, inner)) : cut ['\x7d'] inner = none := by
  rw [cut_singleton_eq_none_iff]
  intro hmem
  obtain ⟨expression, behind, rfl⟩ := List.append_of_mem hmem
  refine h.last_spans ⟨before, expression, behind, ?_⟩
  rw [List.append_assoc, ← cut_eq_append hopen]
  exact h.source_eq

/-- **A text has one leftmost division.** -/
theorem unique (hp : p.Divides text) (hq : q.Divides text) : p = q := by
  obtain ⟨spans, last⟩ := p
  obtain ⟨others, end'⟩ := q
  induction spans generalizing others text with
  | nil =>
      cases others with
      | nil =>
          obtain rfl : last = end' := hp.source_eq.trans hq.source_eq.symm
          rfl
      | cons o others =>
          obtain ⟨inner, hopen, hclose⟩ := hq.cut_eq
          rw [hp.cut_eq_none hopen] at hclose
          cases hclose
  | cons s spans ih =>
      obtain ⟨inner, hopen, hclose⟩ := hp.cut_eq
      cases others with
      | nil =>
          rw [hq.cut_eq_none hopen] at hclose
          cases hclose
      | cons o others =>
          obtain ⟨inner', hopen', hclose'⟩ := hq.cut_eq
          obtain ⟨htext, rfl⟩ := Prod.mk.inj (Option.some.inj (hopen.symm.trans hopen'))
          obtain ⟨hexpression, hrest⟩ := Prod.mk.inj (Option.some.inj (hclose.symm.trans hclose'))
          have hs : s = o := by
            cases s
            cases o
            cases htext
            cases hexpression
            rfl
          have hothers := ih hp.tail others (hrest ▸ hq.tail)
          cases hothers
          rw [hs]

/-- Formatting marks the expressions. -/
theorem formatChars_eq (h : p.Divides text) : formatChars text = p.marked := by
  obtain ⟨spans, last⟩ := p
  induction spans generalizing text with
  | nil =>
      obtain rfl : last = text := h.source_eq
      change _ = last
      cases hopen : cut formatMark last with
      | none => exact formatChars_of_not_open hopen
      | some found => exact formatChars_of_not_closed hopen (h.cut_eq_none hopen)
  | cons s spans ih =>
      obtain ⟨inner, hopen, hclose⟩ := h.cut_eq
      rw [formatChars_of_span hopen hclose, ih h.tail, marked_cons]

end Divides

end FormatParts

/-! ### The second scan -/

/-- Spacing writes no character but spaces that was not there. -/
theorem mem_spaceCommas {spacing : Spacing} {text : List Char} {c : Char}
    (h : c ∈ spaceCommas spacing text) : c = ' ' ∨ c ∈ text := by
  fun_induction spaceCommas spacing text with
  | case1 => cases h
  | case2 d text ih =>
      rcases List.mem_cons.1 h with rfl | h
      · exact .inr List.mem_cons_self
      · exact (ih h).imp_right (List.mem_cons_of_mem _)
  | case3 d text hblank ih => exact (ih h).imp_right (List.mem_cons_of_mem _)
  | case4 d text hblank ih =>
      rcases List.mem_cons.1 h with rfl | h
      · exact .inl rfl
      rcases List.mem_cons.1 h with rfl | h
      · exact .inr List.mem_cons_self
      · exact (ih h).imp_right (List.mem_cons_of_mem _)
  | case5 quote d text ih =>
      rcases List.mem_cons.1 h with rfl | h
      · exact .inr List.mem_cons_self
      rcases List.mem_cons.1 h with rfl | h
      · exact .inr (List.mem_cons_of_mem _ List.mem_cons_self)
      · exact (ih h).imp_right fun h => List.mem_cons_of_mem _ (List.mem_cons_of_mem _ h)
  | case6 quote d text hlast ih =>
      rcases List.mem_cons.1 h with rfl | h
      · exact .inr List.mem_cons_self
      · exact (ih h).imp_right (List.mem_cons_of_mem _)

/-- A normalized expression has no closing brace that was not there. -/
theorem brace_notMem_normalizeChars {expression : List Char} (h : '\x7d' ∉ expression) :
    '\x7d' ∉ normalizeChars expression := by
  intro hmem
  rcases mem_spaceCommas hmem with hspace | hmem
  · cases hspace
  · have hright := (List.dropWhile_suffix isBlank).subset (List.mem_reverse.1 hmem)
    exact h ((List.dropWhile_suffix isBlank).subset (List.mem_reverse.1 hright))

/-- The output of an expression is found behind a text that opens none, also if that text ends with
an opening brace. -/
theorem escapeValue_marked_append {text expression : List Char} (htext : ¬ openMark <:+: text)
    (hexpression : '\x7d' ∉ expression) (rest : List Char) :
    escapeValue (text ++ markedChars expression ++ rest) =
      escapePlain text ++ markedChars expression ++ escapeValue rest := by
  have hspaced : '\x7d' ∉ ' ' :: (expression ++ [' ']) := by
    simp [hexpression]
  by_cases hends : openMark <:+: text ++ openMark.dropLast
  · -- the last brace of the text is taken for the first of the mark
    obtain ⟨front, rfl⟩ : ∃ front, text = front ++ ['\x7b'] := by
      rw [show openMark.dropLast = ['\x7b'] from rfl, List.infix_concat_iff,
        or_iff_left htext] at hends
      obtain ⟨front, hfront⟩ := hends
      have hmark : openMark = ['\x7b'] ++ ['\x7b'] := rfl
      rw [hmark, ← List.append_assoc] at hfront
      exact ⟨front, (List.append_cancel_right hfront).symm⟩
    have hopen := cut_append ('\x7b' :: (' ' :: (expression ++ [' ']) ++ closeMark ++ rest))
      (by decide) htext
    have hbraced : '\x7d' ∉ '\x7b' :: ' ' :: (expression ++ [' ']) := by
      simp [hexpression]
    have hclose := cut_closeMark hbraced rest
    have hscan := escapeValue_of_span hopen hclose
    have hbrace : escapePlain ['\x7b'] = ['\x7b'] := by decide
    rw [escapePlain_append, hbrace]
    simpa [markedChars, openMark] using hscan
  · have hopen := cut_append (' ' :: (expression ++ [' ']) ++ closeMark ++ rest) (by decide) hends
    have hscan := escapeValue_of_span hopen (cut_closeMark hspaced rest)
    simpa [markedChars] using hscan

/-- **A format text is written in its parts**, if none of its texts opens an expression. -/
theorem FormatParts.Divides.escapeValue_eq {p : FormatParts} {text : List Char}
    (h : p.Divides text) (htexts : ∀ t ∈ p.texts, ¬ openMark <:+: t) :
    escapeValue (formatChars text) = p.written := by
  rw [h.formatChars_eq]
  obtain ⟨spans, last⟩ := p
  induction spans generalizing text with
  | nil =>
      have hlast : ¬ openMark <:+: last := htexts last (by simp [texts])
      exact escapeValue_of_not_open ((cut_eq_none_iff (by decide)).2 hlast)
  | cons s spans ih =>
      have hs : ¬ openMark <:+: s.text := htexts s.text (by simp [texts])
      have hexpression := h.expression_closes s List.mem_cons_self
      have hrest : ∀ t ∈ texts ⟨spans, last⟩, ¬ openMark <:+: t := fun t ht =>
        htexts t (List.mem_cons_of_mem _ ht)
      rw [marked_cons, escapeValue_marked_append hs (brace_notMem_normalizeChars hexpression),
        ih h.tail hrest, written_cons]

/-! ### The directive -/

/-- The key of an attribute that is computed from a format text is none of the other directives. -/
theorem ofKey_attf (name format : String) :
    Directive.ofKey ("attf-" ++ name) format = some (.dynamic (.format name format)) := by
  unfold Directive.ofKey
  split
  case h_13 => rw [dropStart?_append]
  -- all other keys are without the dash
  all_goals
    rename_i hkey
    have hlist := congrArg String.toList hkey
    simp [String.toList_append] at hlist

namespace CompilerOptions

/-- The name of the directive that computes an attribute from a format text. -/
def formatDirective (o : CompilerOptions) (name : String) : String :=
  o.directivePrefix ++ ("attf-" ++ name)

theorem directive?_formatDirective (o : CompilerOptions) (name format : String) :
    o.directive? (o.formatDirective name, format) = some (.dynamic (.format name format)) := by
  rw [directive?_eq_parse, Directive.parse, formatDirective, dropStart?_append]
  exact ofKey_attf name format

/-- A directive of the element computes the attribute `name` from `format`, and no later one
computes an attribute of that name. -/
def Formats (o : CompilerOptions) (name format : String) (x : Element ι) : Prop :=
  ∃ before behind, x.attributes = before ++ (o.formatDirective name, format) :: behind ∧
    ∀ a ∈ behind, ∀ computed, o.directive? a = some (.dynamic computed) → name ∉ computed.names

/-- The computed attributes of such an element, in the order in which they are set. -/
theorem Formats.directivesOf_attributes {o : CompilerOptions} {name format : String}
    {x : Element ι} (h : o.Formats name format x) :
    ∃ earlier later, (o.directivesOf x.attributes).attributes =
      earlier ++ .format name format :: later ∧ ∀ computed ∈ later, name ∉ computed.names := by
  obtain ⟨before, behind, hattributes, hbehind⟩ := h
  refine ⟨(before.filterMap o.directive?).filterMap Directive.dynamic?,
    (behind.filterMap o.directive?).filterMap Directive.dynamic?, ?_, ?_⟩
  · rw [directivesOf, (Directives.files_foldl_add _).attributes, hattributes,
      List.filterMap_append, List.filterMap_append,
      List.filterMap_cons_some (o.directive?_formatDirective name format)]
    rfl
  · intro computed hcomputed
    obtain ⟨directive, hdirective, hdynamic⟩ := List.mem_filterMap.1 hcomputed
    obtain ⟨a, ha, hparse⟩ := List.mem_filterMap.1 hdirective
    refine hbehind a ha computed ?_
    cases directive with
    | dynamic found =>
        cases hdynamic
        exact hparse
    | _ => cases hdynamic

end CompilerOptions

section Set

variable {attributes found : Attributes} {name : String}

theorem get?_setEach {more : Attributes} (h : name ∉ more.map (·.1)) :
    (more.foldl (fun attributes b => attributes.set b.1 b.2) attributes).get? name =
      attributes.get? name := by
  induction more generalizing attributes with
  | nil => rfl
  | cons b more ih =>
      rw [List.map_cons, List.mem_cons, not_or] at h
      rw [List.foldl_cons, ih h.2, Attributes.get?_set, if_neg (Ne.symm h.1)]

/-- A computed attribute changes no attribute of another name. -/
theorem get?_setDynamic {computed : DynamicAttribute} (h : name ∉ computed.names)
    (hset : setDynamic attributes computed = .ok found) :
    found.get? name = attributes.get? name := by
  cases computed with
  | expression key value | format key value =>
      cases hset
      rw [Attributes.get?_set, if_neg (Ne.symm (by simpa [DynamicAttribute.names] using h))]
  | spread spec =>
      obtain ⟨more, hmore, rfl⟩ := map_eq_ok_iff.1 hset
      rw [DynamicAttribute.names, hmore] at h
      exact get?_setEach h

/-- Computed attributes change no attribute of another name. -/
theorem get?_setAllDynamic {computed : List DynamicAttribute}
    (h : ∀ c ∈ computed, name ∉ c.names) (hset : setAllDynamic attributes computed = .ok found) :
    found.get? name = attributes.get? name := by
  induction computed generalizing attributes with
  | nil =>
      cases hset
      rfl
  | cons c more ih =>
      obtain ⟨hc, hmore⟩ := List.forall_mem_cons.1 h
      rw [setAllDynamic] at hset
      split at hset
      · cases hset
      · rename_i between hbetween
        rw [ih hmore hset, get?_setDynamic hc hbetween]

/-- The last computed attribute of a name tells its value. -/
theorem get?_setAllDynamic_format {earlier later : List DynamicAttribute} {format : String}
    (h : ∀ c ∈ later, name ∉ c.names)
    (hset : setAllDynamic attributes (earlier ++ .format name format :: later) = .ok found) :
    found.get? name = some (formatString format) := by
  induction earlier generalizing attributes with
  | nil =>
      rw [List.nil_append, setAllDynamic, setDynamic] at hset
      rw [get?_setAllDynamic h hset, Attributes.get?_set, if_pos rfl]
  | cons c more ih =>
      rw [List.cons_append, setAllDynamic] at hset
      split at hset
      · cases hset
      · exact ih hset

end Set

/-- The formatted text is the value of the attribute before the hook comes. -/
theorem CompilerOptions.BecomesBy.get?_format {o : CompilerOptions} {hook : FieldHook}
    {name format : String} {d : Element ι} {attributes : Attributes} {x : Element Mark}
    (hx : o.BecomesBy hook d attributes x) (h : o.Formats name format d) :
    attributes.get? name = some (formatString format) := by
  obtain ⟨earlier, later, hdirectives, hlater⟩ := h.directivesOf_attributes
  have hset := hx.attributes_eq
  rw [hdirectives] at hset
  exact get?_setAllDynamic_format hlater hset

theorem Attributes.mem_of_get? {attributes : Attributes} {name value : String}
    (h : attributes.get? name = some value) : (name, value) ∈ attributes := by
  obtain ⟨a, hfound, rfl⟩ := Option.map_eq_some_iff.1 h
  have hname : a.1 = name := by simpa using List.find?_some hfound
  rw [← hname]
  exact List.mem_of_find?_eq_some hfound

/-! ### From the arch to the text -/

/-- The elements of a compiled arch are what compiling, and the field hook, make of elements of the
arch.  If a directive of such an element computes an attribute from a format text, and no later one
computes it again, then the formatted text is the value of the attribute before the hook comes.  The
format text has one leftmost division.  If the hook leaves the attribute alone, as it does if there
is none, and no text of the division opens an expression, then the start tag in the written text has
the attribute with all texts escaped and all expressions normalized between their marks. -/
theorem compile_formats {o : CompilerOptions} {hook : FieldHook} {arch : Forest ι} {text : String}
    (h : compile o hook arch = .ok text) :
    ∃ lowered, lower o hook arch = .ok lowered ∧ text = lowered.content.write o.output ∧
      (∀ x ∈ lowered.content.elements,
        ∃ d ∈ arch.elements, ∃ attributes, o.BecomesBy hook d attributes x) ∧
      ∀ x ∈ lowered.content.elements, ∀ (d : Element ι) (attributes : Attributes),
        o.BecomesBy hook d attributes x → ∀ name format, o.Formats name format d →
          attributes.get? name = some (formatString format) ∧
            ∃ parts : FormatParts, parts.Divides format.toList ∧
              (∀ other : FormatParts, other.Divides format.toList → other = parts) ∧
              (x.attributes.get? name = attributes.get? name →
                (∀ t ∈ parts.texts, ¬ openMark <:+: t) →
                  x.WritesIn name parts.written text.toList) := by
  obtain ⟨lowered, hlower, rfl⟩ := map_eq_ok_iff.1 h
  refine ⟨lowered, hlower, rfl, fun x hx => exists_becomesBy hlower hx, ?_⟩
  intro x hx d attributes hbecomes name format hformats
  have hvalue := hbecomes.get?_format hformats
  obtain ⟨parts, hparts⟩ := FormatParts.exists_divides format.toList
  refine ⟨hvalue, parts, hparts, fun other hother => hother.unique hparts, ?_⟩
  intro hleft htexts
  obtain ⟨closed, hstart⟩ := startTag_infix o.output hx
  rw [← Forest.toList_write] at hstart
  have hquoted := quotedAttribute_infix (Attributes.mem_of_get? (hleft.trans hvalue)) x.name closed
  rw [formatString, String.toList_ofList, hparts.escapeValue_eq htexts] at hquoted
  exact ⟨closed, hstart, hquoted⟩

/-- A format text with a brace before its first expression, one behind it, and an opening at the
end. -/
def bracedFormat : String :=
  "\x7b#\x7bf(1,2) < 3\x7d\x7d & #\x7b'\"'\x7d #\x7b"

/-- The parts of that format text. -/
def bracedParts : FormatParts where
  spans := [⟨['\x7b'], "f(1,2) < 3".toList⟩, ⟨['\x7d', ' ', '&', ' '], "'\"'".toList⟩]
  last := " #\x7b".toList

theorem divides_bracedParts : bracedParts.Divides bracedFormat.toList where
  source_eq := by decide +kernel
  text_opens := by decide +kernel
  expression_closes := by decide +kernel
  last_spans := by
    rintro ⟨before, expression, behind, hlast⟩
    have hmem : '\x7d' ∈ bracedParts.last := by
      rw [hlast]
      simp
    exact absurd hmem (by decide +kernel)

/-- A link with a class that is computed from the format text. -/
def bracedArch : Forest Unit :=
  .element () "a" [("id", "top"), ("t-attf-class", bracedFormat)] .nil .nil

/-- The ampersand is escaped, the angle bracket and the quote in the expressions are not. -/
theorem compile_bracedArch :
    ∃ lowered, lower {} .none bracedArch = .ok lowered ∧
      ∃ x ∈ lowered.content.elements, x.WritesIn "class"
        "\x7b\x7b\x7b f(1, 2) < 3 \x7d\x7d\x7d &amp; \x7b\x7b '\"' \x7d\x7d #\x7b".toList
        ("<a id=\"top\" class=\"\x7b\x7b\x7b f(1, 2) < 3 \x7d\x7d\x7d &amp; " ++
          "\x7b\x7b '\"' \x7d\x7d #\x7b\"></a>").toList := by
  let asked : Directives := { attributes := [.format "class" bracedFormat] }
  let x : Element Mark :=
    ⟨.source asked, "a", [("id", "top"), ("class", formatString bracedFormat)], .nil⟩
  have hcompile : compile {} .none bracedArch = .ok
      ("<a id=\"top\" class=\"\x7b\x7b\x7b f(1, 2) < 3 \x7d\x7d\x7d &amp; " ++
        "\x7b\x7b '\"' \x7d\x7d #\x7b\"></a>") := by
    decide +kernel
  have hlowered : lower {} .none bracedArch =
      .ok ⟨.element x.label x.name x.attributes x.children .nil, 2⟩ := by
    decide +kernel
  obtain ⟨lowered, hlower, -, -, hwritten⟩ := compile_formats hcompile
  obtain rfl := Except.ok.inj (hlowered.symm.trans hlower)
  have hbecomes : ({} : CompilerOptions).BecomesBy .none
      (⟨(), "a", [("id", "top"), ("t-attf-class", bracedFormat)], .nil⟩ : Element Unit)
      x.attributes x :=
    ⟨rfl, by decide +kernel, [], rfl⟩
  have hformats : ({} : CompilerOptions).Formats "class" bracedFormat
      (⟨(), "a", [("id", "top"), ("t-attf-class", bracedFormat)], .nil⟩ : Element Unit) :=
    ⟨[("id", "top")], [], by decide +kernel, by simp⟩
  obtain ⟨-, parts, -, honly, hparts⟩ :=
    hwritten x List.mem_cons_self _ _ hbecomes "class" bracedFormat hformats
  obtain rfl := honly bracedParts divides_bracedParts
  have hvalue : bracedParts.written =
      "\x7b\x7b\x7b f(1, 2) < 3 \x7d\x7d\x7d &amp; \x7b\x7b '\"' \x7d\x7d #\x7b".toList := by
    decide +kernel
  rw [← hvalue]
  exact ⟨_, hlower, x, List.mem_cons_self, hparts rfl (by decide +kernel)⟩

end ViewCompiler
