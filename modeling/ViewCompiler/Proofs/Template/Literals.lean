/-
**Literals, printed and read.**

What is read of a text is settled by the grammar of literals: a literal that is printed is read
back, and one with decimal numbers in it is read back unless the exponent of a number has a sign.
Names with scalar values give the same attributes in each of the three ways to write them.

Main definitions:

* `ViewCompiler.asMap`, `ViewCompiler.asList`, `ViewCompiler.asTuple` — the three ways to write
  names and values;
* `ViewCompiler.attributeNamed` — the attribute that a name and a scalar give.

Main results:

* `ViewCompiler.Literal.parse_printed` — **reading a literal undoes printing it**;
* `ViewCompiler.Literal.parse_decimal` — which decimal numbers are read, alone and inside literals.
-/

import ViewCompiler.Proofs.Template.Spelling
import ViewCompiler.Template.Spread

set_option relaxedAutoImplicit false
set_option autoImplicit false

namespace ViewCompiler

open LiteralReader

/-! ### Attributes -/

/-- The literals that can stand for the value of an attribute. -/
def Literal.isScalar : Literal → Bool
  | .str _ | .number _ | .bool _ | .none => true
  | .list _ | .tuple _ | .map _ => false

/-- The attribute that a scalar gives to a name: its text, the name itself for true, nothing for
false and for nothing. -/
def attributeNamed : String × Literal → Option (String × String)
  | (name, .str text) => some (name, text)
  | (name, .number source) => some (name, source)
  | (name, .bool true) => some (name, name)
  | _ => none

/-- Names and values as a map. -/
def asMap (pairs : List (String × Literal)) : Literal :=
  .map (pairs.map fun p => (.str p.1, p.2))

/-- Names and values by turns in a list. -/
def asList (pairs : List (String × Literal)) : Literal :=
  .list (pairs.flatMap fun p => [.str p.1, p.2])

/-- A name and a value as a tuple. -/
def asTuple (pair : String × Literal) : Literal :=
  .tuple [.str pair.1, pair.2]

theorem pairUp_flatMap {α β : Type} (f g : β → α) (xs : List β) :
    pairUp (xs.flatMap fun x => [f x, g x]) = some (xs.map fun x => (f x, g x)) := by
  induction xs with
  | nil => rfl
  | cons x xs ih =>
      rw [List.flatMap_cons]
      dsimp only [List.cons_append, List.nil_append, pairUp]
      rw [ih]
      rfl

theorem attributeOf_scalar {pair : String × Literal} (h : pair.2.isScalar = true) :
    Literal.attributeOf (.str pair.1, pair.2) = .ok (attributeNamed pair) := by
  obtain ⟨name, v⟩ := pair
  cases v with
  | bool b => cases b <;> rfl
  | str _ | number _ | none => rfl
  | list _ | tuple _ | map _ => cases h

theorem attributes_scalars {pairs : List (String × Literal)}
    (h : ∀ p ∈ pairs, p.2.isScalar = true) :
    Literal.attributes (pairs.map fun p => (.str p.1, p.2)) =
      .ok (pairs.filterMap attributeNamed) := by
  induction pairs with
  | nil => rfl
  | cons p pairs ih =>
      obtain ⟨hp, hpairs⟩ := List.forall_mem_cons.1 h
      rw [List.map_cons, Literal.attributes, attributeOf_scalar hp]
      dsimp only
      rw [ih hpairs]
      cases hnamed : attributeNamed p with
      | none => rw [List.filterMap_cons_none hnamed]; rfl
      | some a => rw [List.filterMap_cons_some hnamed]; rfl

/-- A text that is read as a literal with given entries gives the attributes of the entries. -/
theorem expandAttributes_of_pairs {pairs : List (String × Literal)}
    (h : ∀ p ∈ pairs, p.2.isScalar = true) {text : String} {v : Literal}
    (hparse : Literal.parse text = .ok v)
    (hpairs : v.pairs? = .ok (pairs.map fun p => (.str p.1, p.2))) :
    expandAttributes text = .ok (pairs.filterMap attributeNamed) := by
  rw [expandAttributes, spreadAttributes, hparse]
  dsimp only
  rw [hpairs]
  dsimp only
  rw [attributes_scalars h]
  rfl

/-! ### Reading undoes printing -/

/-- The text is read as the number that it is the text of. -/
def IsNumeral (s : String) : Prop :=
  Literal.parse s = .ok (.number s)

namespace Literal

theorem Printed.parse_eq_ok {v : Literal} {text : String} (h : v.Printed IsNumeral text) :
    parse text = .ok v := by
  obtain ⟨_, _, _, -, hbody, -, -⟩ := id h
  have hreadable : (Phrase.value v).readable = true := by
    refine List.all_eq_true.2 fun s hs => ?_
    exact (numeral_of_parse (hbody.numeral_of_mem s hs)).2
  rw [h.parse_eq fun s hs => (numeral_of_parse hs).1, if_pos hreadable]

/-- **Reading a literal undoes printing it.**  Every literal has spellings and is read back from all
of them; and names with scalar values give the same attributes as a map, as a list, and, for a
single one, as a tuple. -/
theorem parse_printed :
    (∀ v : Literal, (∀ s ∈ v.numbers, IsNumeral s) → ∃ text, v.Printed IsNumeral text) ∧
    (∀ (v : Literal) (text : String), v.Printed IsNumeral text → parse text = .ok v) ∧
    (∀ pairs : List (String × Literal), (∀ p ∈ pairs, p.2.isScalar = true) →
      (∀ text, (asMap pairs).Printed IsNumeral text →
        expandAttributes text = .ok (pairs.filterMap attributeNamed)) ∧
      (∀ text, (asList pairs).Printed IsNumeral text →
        expandAttributes text = .ok (pairs.filterMap attributeNamed)) ∧
      ∀ pair text, pairs = [pair] → (asTuple pair).Printed IsNumeral text →
        expandAttributes text = .ok (pairs.filterMap attributeNamed)) := by
  refine ⟨fun v h => exists_printed h, fun v text h => h.parse_eq_ok, fun pairs hpairs => ?_⟩
  refine ⟨fun text h => ?_, fun text h => ?_, fun pair text hpair h => ?_⟩
  · exact expandAttributes_of_pairs hpairs h.parse_eq_ok rfl
  · refine expandAttributes_of_pairs hpairs h.parse_eq_ok ?_
    simp only [asList, pairs?, pairUp_flatMap]
  · subst hpair
    exact expandAttributes_of_pairs hpairs h.parse_eq_ok rfl

/-- A list with blanks and with commas behind the last elements, and two attributes in the three
ways to write them. -/
theorem parse_printed_nested :
    parse "[ 'it\\'s',(True , ),\x7b\"k\" :-1.5\x7d, ] " =
      .ok (.list [.str "it's", .tuple [.bool true], .map [(.str "k", .number "-1.5")]]) ∧
    expandAttributes "\x7b'a': None,'b': true\x7d" = .ok [("b", "b")] ∧
    expandAttributes "['a',None,'b',true,]" = .ok [("b", "b")] ∧
    expandAttributes "('b',True)" = .ok [("b", "b")] := by
  have no : Blanks [] := by decide
  have one : Blanks [' '] := by decide
  have hstr : ∀ s : String, Spells IsNumeral (.value (.str s)) (inQuotes '\'' s.toList) :=
    fun s => .str '\'' (.inl rfl) s
  have htrue : Spells IsNumeral (.value (.bool true)) "True".toList := .word _ "True" (by decide)
  have hlower : Spells IsNumeral (.value (.bool true)) "true".toList := .word _ "true" (by decide)
  have hnone : Spells IsNumeral (.value .none) "None".toList := .word _ "None" (by decide)
  refine ⟨?_, ?_, ?_, ?_⟩
  · have hnumber : Spells IsNumeral (.value (.number "-1.5")) "-1.5".toList := .number _ rfl
    have hmap := Spells.map (.lastEntry (.str '"' (.inr rfl) "k") hnumber no one no no)
    have htuple := Spells.tuple (.item htrue (.noItem one) no one)
    have hlist := Spells.list (.item (hstr "it's") (.item htuple (.item hmap (.noItem one) no no)
      no no) one no)
    exact parse_printed.2.1 _ _ ⟨[], _, [' '], no, hlist, one, rfl⟩
  · have hmap := Spells.map (.entry (hstr "a") hnone (.lastEntry (hstr "b") hlower no no one no)
      no no one no)
    exact (parse_printed.2.2 [("a", .none), ("b", .bool true)] (by decide)).1 _
      ⟨[], _, [], no, hmap, no, rfl⟩
  · have hlist := Spells.list (.item (hstr "a") (.item hnone (.item (hstr "b")
      (.item hlower (.noItem no) no no) no no) no no) no no)
    exact (parse_printed.2.2 [("a", .none), ("b", .bool true)] (by decide)).2.1 _
      ⟨[], _, [], no, hlist, no, rfl⟩
  · have htuple := Spells.tuple (.item (hstr "b") (.lastItem htrue no no) no no)
    exact (parse_printed.2.2 [("b", .bool true)] (by decide)).2.2 ("b", .bool true) _ rfl
      ⟨[], _, [], no, htuple, no, rfl⟩

/-! ### Decimal numbers -/

/-- The text is a decimal number, or it is read as a number anyway, as with underscores. -/
def Numeric (s : String) : Prop :=
  IsNumeral s ∨ ∃ d : Decimal, d.text = s

theorem Numeric.numeral {s : String} (h : Numeric s) : Numeral s := by
  rcases h with hs | ⟨d, rfl⟩
  · exact (numeral_of_parse hs).1
  · exact d.numeral

/-- **A decimal number is read if its exponent has no sign**, and refused otherwise; and one that is
refused is all that keeps a literal of decimal numbers from being read. -/
theorem parse_decimal (d : Decimal) :
    parse d.text =
      (if d.signsExponent then .error .invalidNumber else .ok (.number d.text)) ∧
    ∀ (v : Literal) (text : String), d.text ∈ v.numbers → v.Printed Numeric text →
      ((∀ other : Decimal, other.text ∈ v.numbers → other.signsExponent = false) →
        parse text = .ok v) ∧
      (d.signsExponent = true → parse text = .error .invalidNumber) := by
  refine ⟨?_, fun v text hd h => ?_⟩
  · have hprinted : (Literal.number d.text).Printed (· = d.text) d.text :=
      ⟨[], _, [], List.forall_mem_nil _, .number d.text rfl, List.forall_mem_nil _,
        (List.append_nil _).symm⟩
    have hreadable : (Phrase.value (.number d.text)).readable = !d.signsExponent := by
      rw [← d.isNumberText_chars, ← d.toList_text]
      exact Bool.and_true _
    have hnumeral : ∀ s, s = d.text → Numeral s := by
      rintro s rfl
      exact d.numeral
    rw [hprinted.parse_eq hnumeral, hreadable]
    cases d.signsExponent <;> rfl
  · obtain ⟨_, _, _, -, hbody, -, -⟩ := id h
    have hparse := h.parse_eq fun s hs => Numeric.numeral hs
    refine ⟨fun hsigns => ?_, fun hsigns => ?_⟩
    · rw [hparse, if_pos]
      refine List.all_eq_true.2 fun s hs => ?_
      rcases hbody.numeral_of_mem s hs with hnumeral | ⟨other, rfl⟩
      · exact (numeral_of_parse hnumeral).2
      · rw [other.toList_text, other.isNumberText_chars, hsigns other hs]
        rfl
    · rw [hparse, if_neg]
      intro hall
      have hread := List.all_eq_true.1 hall d.text hd
      rw [d.toList_text, d.isNumberText_chars, hsigns] at hread
      cases hread

end Literal

/-- A number with a fraction and an exponent: `-1.5e3`. -/
def Decimal.manyParts : Decimal where
  sign := .minus
  mantissa := .pointed (.ofChars ['1'] rfl) ['5'] (List.all_eq_true.1 rfl)
  exponent := some ⟨'e', .inl rfl, .none, .ofChars ['3'] rfl⟩

/-- A number whose exponent has a sign: `1e+5`. -/
def Decimal.signed : Decimal where
  sign := .none
  mantissa := .whole (.ofChars ['1'] rfl)
  exponent := some ⟨'e', .inl rfl, .plus, .ofChars ['5'] rfl⟩

theorem Literal.parse_decimal_exponents :
    parse "-1.5e3" = .ok (.number "-1.5e3") ∧
    parse "(.5,-1.5e3)" = .ok (.tuple [.number ".5", .number "-1.5e3"]) ∧
    parse "(1e+5)" = .error .invalidNumber := by
  have no : Blanks [] := by decide
  refine ⟨(parse_decimal .manyParts).1, ?_, ?_⟩
  · have hhalf : Spells Numeric (.value (.number ".5")) ".5".toList := .number _ (.inl rfl)
    have htuple := Spells.tuple (.item hhalf (.lastItem
      (.number "-1.5e3" (.inr ⟨.manyParts, rfl⟩)) no no) no no)
    refine ((parse_decimal .manyParts).2 _ _ (List.mem_cons_of_mem _ List.mem_cons_self)
      ⟨[], _, [], no, htuple, no, rfl⟩).1 fun d hd => ?_
    have hmem : d.text ∈ [".5", "-1.5e3"] := hd
    have hread : isNumberText d.text.toList = true := by
      simp only [List.mem_cons, List.not_mem_nil, or_false] at hmem
      rcases hmem with h | h
      · rw [h]
        rfl
      · rw [h]
        rfl
    rw [d.toList_text, d.isNumberText_chars] at hread
    simpa using hread
  · have htuple : Spells Numeric _ _ :=
      .tuple (.lastItem (.number "1e+5" (.inr ⟨.signed, rfl⟩)) no no)
    exact ((parse_decimal .signed).2 _ _ List.mem_cons_self
      ⟨[], _, [], no, htuple, no, rfl⟩).2 rfl

/-- A decimal number that is refused. -/
theorem Literal.parse_signedExponent :
    ∃ d : Decimal, d.text = "1e+5" ∧ parse d.text ≠ .ok (.number d.text) := by
  have hrefused : parse Decimal.signed.text = .error .invalidNumber := rfl
  refine ⟨.signed, rfl, ?_⟩
  rw [hrefused]
  intro h
  cases h

end ViewCompiler
