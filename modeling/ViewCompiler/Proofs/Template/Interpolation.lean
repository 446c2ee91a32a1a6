/-
**Computed attributes in the written text.**

A computed attribute is written as an output of its expression, so that the template engine finds
the expression between two marks.  The value is only set when the arch is compiled, and escaped much
later, when the result is written: there the expression is found again in the text of the value, and
it ends at the first `}}`, also if that closes two braces of the expression itself.  What stands
behind is text again, up to the next `{{`.  So an expression reaches the text as it is unless a
character that needs a reference stands there.

Main definitions:

* `ViewCompiler.CompilerOptions.Interpolates` — the only directive of an element computes an
  attribute from an expression;
* `ViewCompiler.KeptBetweenMarks` — an expression of which nothing is escaped when it is written
  between its marks;
* `ViewCompiler.Element.WritesIn` — a start tag in a text, with an attribute in it.

Main results:

* `ViewCompiler.escapeValue_marked_iff` — the expressions that are written as they are between
  their marks;
* `ViewCompiler.CompilerOptions.Becomes.mem_attributes` — the value that compiling sets;
* `ViewCompiler.compile_interpolates` — what becomes of such an element has the attribute in its
  start tag, and the expression in it as it is exactly if it is kept between its marks.
-/

import ViewCompiler.Proofs.Markup.RoundTrip
import ViewCompiler.Proofs.Markup.Verbatim
import ViewCompiler.Proofs.Template.Survivors

set_option relaxedAutoImplicit false
set_option autoImplicit false

namespace ViewCompiler

variable {ι : Type}

/-! ### An expression between its marks -/

/-- The mark behind an expression is found if the expression contains none. -/
theorem cut_closing {expression : List Char} (h : cut closeMark expression = none) :
    cut closeMark (' ' :: (expression ++ ' ' :: closeMark)) =
      some (' ' :: (expression ++ [' ']), []) := by
  have habsent := (cut_eq_none_iff (by decide)).1 h
  have hfirst : ¬ closeMark <:+: ' ' :: (expression ++ [' ']) ++ closeMark.dropLast := by
    rw [show closeMark.dropLast = ['\x7d'] from rfl, List.infix_concat_iff, not_or]
    constructor
    · rintro ⟨before, hends⟩
      have hreverse := congrArg List.reverse hends
      simp [closeMark] at hreverse
    · rw [List.infix_cons_iff, List.infix_concat_iff, not_or, not_or]
      refine ⟨?_, ?_, habsent⟩
      · rintro ⟨behind, hstarts⟩
        simp [closeMark] at hstarts
      · rintro ⟨before, hends⟩
        have hreverse := congrArg List.reverse hends
        simp [closeMark] at hreverse
  have hcut := cut_append [] (by decide) hfirst
  simpa using hcut

/-- Nothing of an expression is escaped when it is written between its marks: no character that
needs a reference stands behind its first `}}`, unless a later `{{` opens an expression again. -/
def KeptBetweenMarks (expression : List Char) : Prop :=
  ∀ parts ∈ cut closeMark expression,
    ∀ c ∈ outside (parts.2 ++ ' ' :: closeMark), needsReference c = false

instance (expression : List Char) : Decidable (KeptBetweenMarks expression) :=
  inferInstanceAs (Decidable (∀ parts ∈ cut closeMark expression,
    ∀ c ∈ outside (parts.2 ++ ' ' :: closeMark), needsReference c = false))

/-- An expression without two closing braces side by side is kept. -/
theorem keptBetweenMarks_of_absent {expression : List Char}
    (h : ¬ closeMark <:+: expression) : KeptBetweenMarks expression := by
  intro parts hparts
  rw [(cut_eq_none_iff (by decide)).2 h] at hparts
  cases hparts

/-- An expression between its marks is written as it is if, and only if, nothing behind its first
`}}` needs a reference. -/
theorem escapeValue_marked_iff {expression : List Char} :
    escapeValue (markedChars expression) = markedChars expression ↔
      KeptBetweenMarks expression := by
  have hopen : cut openMark (markedChars expression) =
      some ([], ' ' :: (expression ++ ' ' :: closeMark)) := by
    have hcut : cut openMark ([] ++ openMark ++ (' ' :: (expression ++ ' ' :: closeMark))) =
        some ([], _) := cut_append _ (by decide) (by decide)
    simpa [markedChars] using hcut
  rw [escapeValue_eq_self_iff]
  cases hclose : cut closeMark expression with
  | none =>
      have hempty : outside [] = [] := outside_of_not_open rfl
      rw [outside_of_span hopen (cut_closing hclose), hempty]
      simp [KeptBetweenMarks, hclose]
  | some parts =>
      obtain ⟨before, behind⟩ := parts
      have hspan : cut closeMark (' ' :: (expression ++ ' ' :: closeMark)) =
          some (' ' :: before, behind ++ ' ' :: closeMark) := by
        rw [cut, cut_append_right (by decide) hclose]
        rfl
      rw [outside_of_span hopen hspan]
      simp [KeptBetweenMarks, hclose]

/-! ### The directive -/

theorem dropStart?_append (start rest : String) : dropStart? start (start ++ rest) = some rest := by
  simp [dropStart?, String.toList_append, isPrefixOf?_append]

/-- The key of a computed attribute is none of the other directives. -/
theorem ofKey_att (name expression : String) :
    Directive.ofKey ("att-" ++ name) expression =
      some (.dynamic (.expression name (normalize expression))) := by
  have hformat : dropStart? "attf-" ("att-" ++ name) = none := by
    simp [dropStart?, String.toList_append, List.isPrefixOf?]
  unfold Directive.ofKey
  split
  case h_13 =>
    rw [hformat, dropStart?_append]
    rfl
  -- all other keys are without the dash
  all_goals
    rename_i hkey
    have hlist := congrArg String.toList hkey
    simp [String.toList_append] at hlist

namespace CompilerOptions

/-- The name of the directive that computes an attribute. -/
def attributeDirective (o : CompilerOptions) (name : String) : String :=
  o.directivePrefix ++ ("att-" ++ name)

theorem directive?_attributeDirective (o : CompilerOptions) (name expression : String) :
    o.directive? (o.attributeDirective name, expression) =
      some (.dynamic (.expression name (normalize expression))) := by
  have hother : o.attributeDirective name ≠ translationDirective := by
    intro heq
    have hinfix : "att-".toList <:+: translationDirective.toList := by
      rw [← heq, attributeDirective, String.toList_append, String.toList_append]
      exact List.infix_append' _ _ _
    have habsent : ¬ "att-".toList <:+: translationDirective.toList := by
      simp only [translationDirective, String.reduceToList]
      decide
    exact habsent hinfix
  rw [directive?, if_neg hother, Directive.parse, attributeDirective, dropStart?_append]
  exact ofKey_att name expression

/-- The only directive of an element computes the attribute `name` from `expression`. -/
def Interpolates (o : CompilerOptions) (name expression : String) (x : Element ι) : Prop :=
  (x.attributes.filter fun a => (o.directive? a).isSome) = [(o.attributeDirective name, expression)]

instance (o : CompilerOptions) (name expression : String) (x : Element ι) :
    Decidable (o.Interpolates name expression x) :=
  inferInstanceAs (Decidable (_ = _))

theorem directivesOf_interpolates {o : CompilerOptions} {name expression : String} {x : Element ι}
    (h : o.Interpolates name expression x) :
    o.directivesOf x.attributes =
      { attributes := [.expression name (normalize expression)] } := by
  have hfound : x.attributes.filterMap o.directive? =
      (x.attributes.filter fun a => (o.directive? a).isSome).filterMap o.directive? := by
    rw [List.filterMap_filter]
    congr 1
    funext a
    cases o.directive? a <;> rfl
  rw [directivesOf, hfound, h, List.filterMap_cons, directive?_attributeDirective]
  rfl

end CompilerOptions

theorem Attributes.mem_set (attributes : Attributes) (name value : String) :
    (name, value) ∈ attributes.set name value := by
  fun_induction Attributes.set attributes name value with
  | case1 => exact List.mem_singleton.2 rfl
  | case2 => exact List.mem_cons_self
  | case3 key old more hne ih => exact List.mem_cons_of_mem _ ih

/-- What becomes of the element has the output of the expression as the value of the attribute. -/
theorem CompilerOptions.Becomes.mem_attributes {o : CompilerOptions} {name expression : String}
    {d : Element ι} {x : Element Mark} (hx : o.Becomes d x)
    (h : o.Interpolates name expression d) :
    (name, outputText (normalize expression)) ∈ x.attributes := by
  have hset := hx.attributes_eq
  rw [directivesOf_interpolates h] at hset
  have hattributes := Except.ok.inj hset
  rw [← hattributes]
  exact Attributes.mem_set _ _ _

/-! ### The written form -/

/-- An attribute with the given characters between its quotes. -/
def quotedAttribute (name : String) (value : List Char) : List Char :=
  ' ' :: (name.toList ++ ('=' :: '"' :: (value ++ ['"'])))

/-- In the text stands a start tag of the element, and in that tag the attribute `name` with
`value` between its quotes. -/
def Element.WritesIn (x : Element ι) (name : String) (value text : List Char) : Prop :=
  ∃ closed, startTagChars x.name x.attributes closed <:+: text ∧
    quotedAttribute name value <:+: startTagChars x.name x.attributes closed

/-- Every attribute of a start tag stands in it, escaped. -/
theorem quotedAttribute_infix {name value : String} {attributes : Attributes}
    (h : (name, value) ∈ attributes) (tag : String) (closed : Bool) :
    quotedAttribute name (escapeValue value.toList) <:+: startTagChars tag attributes closed := by
  obtain ⟨before, behind, rfl⟩ := List.append_of_mem h
  refine ⟨'<' :: tag.toList ++ attributeChars before,
    attributeChars behind ++ tagEnd closed, ?_⟩
  simp [startTagChars, attributeChars, quotedAttribute]

/-- The start tags of all elements stand in the written form. -/
theorem startTag_infix (style : WriteStyle) {f : Forest ι} {x : Element ι} (h : x ∈ f.elements) :
    ∃ closed, startTagChars x.name x.attributes closed <:+: f.chars style := by
  induction f with
  | nil => cases h
  | leaf label kind content rest ih =>
      obtain ⟨closed, hinfix⟩ := ih h
      exact ⟨closed, hinfix.trans (List.suffix_append _ _).isInfix⟩
  | element label name attributes children rest ihc ihr =>
      rw [Forest.chars]
      rcases List.mem_cons.1 h with rfl | h
      · split
        · exact ⟨true, (List.prefix_append _ _).isInfix⟩
        · rw [List.append_assoc]
          exact ⟨false, (List.prefix_append _ _).isInfix⟩
      · rcases List.mem_append.1 h with h | h
        · obtain ⟨closed, hinfix⟩ := ihc h
          refine ⟨closed, hinfix.trans ?_⟩
          split
          · rename_i hclosed
            obtain rfl := Forest.isEmpty_iff.1 (Bool.and_eq_true_iff.1 hclosed).1
            cases h
          · exact (List.infix_append' _ _ _).trans (List.prefix_append _ _).isInfix
        · obtain ⟨closed, hinfix⟩ := ihr h
          exact ⟨closed, hinfix.trans (List.suffix_append _ _).isInfix⟩

/-! ### From the arch to the text -/

/-- The elements of a compiled arch are what compiling makes of elements of the arch.  If the only
directive of such an element computes an attribute from an expression, and compiling makes `x` of
it, the start tag of `x` in the text has that attribute, with the escaped output of the expression
as its value; and nothing of it is escaped if, and only if, the expression is kept between its
marks. -/
theorem compile_interpolates {o : CompilerOptions} {arch : Forest ι} {text : String}
    (h : compile o .none arch = .ok text) :
    ∃ lowered, lower o .none arch = .ok lowered ∧ text = lowered.content.write o.output ∧
      (∃ kept : List (Element ι), kept.Subperm arch.elements ∧
        List.Forall₂ o.Becomes kept lowered.content.elements) ∧
      ∀ d : Element ι, ∀ x ∈ lowered.content.elements, o.Becomes d x →
        ∀ name expression, o.Interpolates name expression d →
          let marked := markedChars (normalize expression).toList
          x.WritesIn name (escapeValue marked) text.toList ∧
            (escapeValue marked = marked ↔ KeptBetweenMarks (normalize expression).toList) := by
  obtain ⟨lowered, hlower, rfl⟩ := map_eq_ok_iff.1 h
  refine ⟨lowered, hlower, rfl, lower_elements hlower, ?_⟩
  intro d x hx hbecomes name expression honly
  refine ⟨?_, escapeValue_marked_iff⟩
  obtain ⟨closed, hinfix⟩ := startTag_infix o.output hx
  rw [← Forest.toList_write] at hinfix
  have hquoted := quotedAttribute_infix (hbecomes.mem_attributes honly) x.name closed
  rw [outputText, String.toList_ofList] at hquoted
  exact ⟨closed, hinfix, hquoted⟩

/-- A link whose target is computed by a call with two arguments. -/
def linkArch : Forest Unit :=
  .element () "a" [("id", "top"), ("t-att-href", "url('shop',2 < 3)")] .nil .nil

/-- The call reaches the text of the link with its angle bracket as it is. -/
theorem compile_linkArch :
    ∃ lowered, lower {} .none linkArch = .ok lowered ∧
      ∃ x ∈ lowered.content.elements, x.WritesIn "href" (markedChars "url('shop', 2 < 3)".toList)
        "<a id=\"top\" href=\"\x7b\x7b url('shop', 2 < 3) \x7d\x7d\"></a>".toList := by
  have hcompile : compile {} .none linkArch =
      .ok "<a id=\"top\" href=\"\x7b\x7b url('shop', 2 < 3) \x7d\x7d\"></a>" := by
    decide +kernel
  have hnormal : normalize "url('shop',2 < 3)" = "url('shop', 2 < 3)" := by decide +kernel
  have hcount : (lower {} .none linkArch).map (·.content.elements.length) = .ok 1 := by
    decide +kernel
  obtain ⟨lowered, hlower, -, ⟨kept, hkept, hmatch⟩, hwritten⟩ := compile_interpolates hcompile
  refine ⟨lowered, hlower, ?_⟩
  rw [hlower] at hcount
  change Except.ok lowered.content.elements.length = _ at hcount
  generalize lowered.content.elements = elements at hmatch hcount hwritten ⊢
  cases hmatch with
  | nil => cases hcount
  | @cons d x _ _ hx _ =>
      have hd : d = ⟨(), "a", [("id", "top"), ("t-att-href", "url('shop',2 < 3)")], .nil⟩ :=
        List.mem_singleton.1 (hkept.subset List.mem_cons_self)
      have honly : ({} : CompilerOptions).Interpolates "href" "url('shop',2 < 3)" d := by
        rw [hd]
        decide +kernel
      obtain ⟨hwrites, hverbatim⟩ := hwritten d x List.mem_cons_self hx _ _ honly
      rw [hnormal] at hwrites hverbatim
      rw [hverbatim.2 (keptBetweenMarks_of_absent (by decide +kernel))] at hwrites
      exact ⟨x, List.mem_cons_self, hwrites⟩

/-- A literal with two closing braces side by side, and an angle bracket behind them. -/
def nestedLiteral : String :=
  "\x7b1: \x7b2: 3\x7d\x7d[1][2] < 4"

/-- The angle bracket is escaped, although it stands in the middle of the expression. -/
theorem compile_nestedLiteral :
    ∃ t lowered text, parse "<p t-att-x=\"\x7b1: \x7b2: 3\x7d\x7d[1][2] &lt; 4\"/>" = .ok t ∧
      (∃ d ∈ t.content.elements, d.name = "p" ∧
        ({} : CompilerOptions).Interpolates "x" nestedLiteral d) ∧
      lower {} .none t.content = .ok lowered ∧ lowered.content.elements.map (·.name) = ["p"] ∧
      compile {} .none t.content = .ok text ∧
      text = "<p x=\"\x7b\x7b \x7b1: \x7b2: 3\x7d\x7d[1][2] &lt; 4 \x7d\x7d\"></p>" ∧
      ¬ quotedAttribute "x" (markedChars (normalize nestedLiteral).toList) <:+: text.toList := by
  let asked : Directives := { attributes := [.expression "x" nestedLiteral] }
  refine ⟨⟨.element 1 "p" [("t-att-x", nestedLiteral)] .nil .nil, .nil, 2⟩,
    ⟨.element (.source asked) "p" [("x", outputText nestedLiteral)] .nil .nil, 2⟩, _, ?_,
    ⟨_, List.mem_cons_self, rfl, ?_⟩, ?_, rfl, ?_, rfl, ?_⟩
  · decide +kernel
  · decide +kernel
  · decide +kernel
  · decide +kernel
  · decide +kernel

end ViewCompiler
