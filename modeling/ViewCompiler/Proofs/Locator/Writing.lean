/-
**Writing paths.**

Every path has a canonical text: no blanks but one space on each side of an operator, and parentheses
only where the structure of a condition would be lost without them, around an operand of `and` that
has operators of its own and around an operand of `or` that is an `or` itself.  A conjunction among
alternatives needs none, since `and` binds tighter.  Reading the canonical text gives the path back.

What is to be written is a path with its choices made: which quote each string stands in, and names
and positions that are such.  No other restriction is put on it, so conditions nest as they like.

Main definitions:

* `ViewCompiler.Locator.ConditionText`, `ViewCompiler.Locator.PredicateText`,
  `ViewCompiler.Locator.StepText`, `ViewCompiler.Locator.PathText` — what can be written, with what it
  denotes and its lexemes;
* `ViewCompiler.Locator.written` — the canonical text of a row of lexemes.

Main results:

* `ViewCompiler.Locator.lays_written` — the canonical text of lexemes that fit is a layout of them;
* `ViewCompiler.Locator.ConditionText.spelled`, `ViewCompiler.Locator.PathText.sentence` — what is
  written is a sentence of the grammar;
* `ViewCompiler.Locator.PathText.parse_text` — **the canonical text of a path is read as that path**.
-/

import ViewCompiler.Proofs.Locator.Parsing

set_option relaxedAutoImplicit false
set_option autoImplicit false

namespace ViewCompiler.Locator

open PathReader (combined conjunction disjunction maxPosition)

/-! ### Canonical texts -/

/-- A lexeme as it is written: an operator between two spaces, everything else as it is. -/
def Lexeme.written : Lexeme → List Char
  | operator o => ' ' :: (o.text.toList ++ [' '])
  | l => l.chars

/-- The canonical text of a row of lexemes. -/
def written (ls : List Lexeme) : List Char :=
  ls.flatMap Lexeme.written

theorem Lexeme.afterBlanks_written (l : Lexeme) (rest : List Char) :
    afterBlanks (l.written ++ rest) = l.chars ++ rest := by
  cases l with
  | operator o => exact (Lexeme.operator o).afterBlanks_chars rest
  | mark m => exact (Lexeme.mark m).afterBlanks_chars rest
  | name n => exact (Lexeme.name n).afterBlanks_chars rest
  | number digits => exact (Lexeme.number digits).afterBlanks_chars rest
  | string v => exact (Lexeme.string v).afterBlanks_chars rest

/-- What follows a name does not go on with it. -/
theorem Lexeme.head_of_followsName {l : Lexeme} (h : l.followsName = true) (rest : List Char) :
    ∀ c ∈ (l.written ++ rest).head?, isNameChar c = false := by
  intro c hc
  cases l with
  | operator o => exact Option.some.inj hc ▸ rfl
  | mark m => cases m <;> first | exact Option.some.inj hc ▸ rfl | cases h
  | name | number | string => cases h

/-- The canonical text of lexemes that fit is a layout of them. -/
theorem lays_written {ls : List Lexeme} (h : ls.IsChain Lexeme.Fits) : Lays ls (written ls) [] := by
  induction ls with
  | nil => exact .refl []
  | cons l ls ih =>
      obtain ⟨hfits, hchain⟩ := List.isChain_cons.1 h
      refine .cons (l.afterBlanks_written (written ls)) ?_ (ih hchain)
      cases l with
      | name n =>
          cases ls with
          | nil => exact fun c hc => absurd hc (Option.not_mem_none c)
          | cons l' ls => exact Lexeme.head_of_followsName (hfits l' rfl) (written ls)
      | mark | number | string | operator => trivial

/-! ### Conditions -/

/-- A condition to be written. -/
inductive ConditionText where
  | attrExists (a : NameText)
  | attrEquals (a : NameText) (v : QuotedText)
  | attrContains (a : NameText) (v : QuotedText)
  | hasClass (first : QuotedText) (more : List QuotedText)
  | textEquals (v : QuotedText)
  | all (first second : ConditionText) (more : List ConditionText)
  | any (first second : ConditionText) (more : List ConditionText)

/-- An operand of the operator is put in parentheses. -/
def Operator.groups : Operator → ConditionText → Bool
  | .and, .all .. | .and, .any .. | .or, .any .. => true
  | _, _ => false

/-- The lexemes, in parentheses if so required. -/
def grouped (parentheses : Bool) (ls : List Lexeme) : List Lexeme :=
  if parentheses then .mark .openParen :: (ls ++ [.mark .closeParen]) else ls

/-- The strings of a class list. -/
def classLexemes (first : QuotedText) : List QuotedText → List Lexeme
  | [] => [.string first, .mark .closeParen]
  | second :: more => .string first :: .mark .comma :: classLexemes second more

namespace ConditionText

mutual

/-- The condition that is written. -/
def condition : ConditionText → Condition
  | attrExists a => .attrExists a.text
  | attrEquals a v => .attrEquals a.text v.text
  | attrContains a v => .attrContains a.text v.text
  | hasClass first more => .hasClass (first.text :: more.map (·.text))
  | textEquals v => .textEquals v.text
  | all first second more => .all (first.condition :: second.condition :: conditions more)
  | any first second more => .any (first.condition :: second.condition :: conditions more)

def conditions : List ConditionText → List Condition
  | [] => []
  | c :: more => c.condition :: conditions more

end

mutual

/-- The lexemes that a condition is written with. -/
def lexemes : ConditionText → List Lexeme
  | attrExists a => [.mark .atSign, .name a]
  | attrEquals a v => [.mark .atSign, .name a, .mark .equals, .string v]
  | attrContains a v =>
      [.mark .contains, .mark .atSign, .name a, .mark .comma, .string v, .mark .closeParen]
  | hasClass first more => .mark .hasClass :: classLexemes first more
  | textEquals v => [.mark .textOf, .mark .equals, .string v]
  | all first second more =>
      grouped (Operator.and.groups first) first.lexemes ++ .operator .and ::
        (grouped (Operator.and.groups second) second.lexemes ++ operands .and more)
  | any first second more =>
      grouped (Operator.or.groups first) first.lexemes ++ .operator .or ::
        (grouped (Operator.or.groups second) second.lexemes ++ operands .or more)

/-- More operands, the operator in front of each. -/
def operands (o : Operator) : List ConditionText → List Lexeme
  | [] => []
  | c :: more => .operator o :: (grouped (o.groups c) c.lexemes ++ operands o more)

end

/-- The lexemes of a condition as an operand of the operator. -/
def operandOf (o : Operator) (c : ConditionText) : List Lexeme :=
  grouped (o.groups c) c.lexemes

end ConditionText

theorem classes_classLexemes (first : QuotedText) (more : List QuotedText) :
    Classes (first.text :: more.map (·.text)) (classLexemes first more) := by
  induction more generalizing first with
  | nil => exact .last first
  | cons second more ih => exact .cons first (ih second)

/-- The lexemes spell one alternative of the conjuncts, and they do so too in front of more
alternatives. -/
structure Conjoined (parts : List Condition) (ls : List Lexeme) : Prop where
  alone : Spelled (.alternatives [parts]) ls
  first {alts : List (List Condition)} {more : List Lexeme} (h : Spelled (.alternatives alts) more) :
    Spelled (.alternatives (parts :: alts)) (ls ++ .operator .or :: more)

theorem Conjoined.single {c : Condition} {ls : List Lexeme} (h : Spelled (.operand c) ls) :
    Conjoined [c] ls :=
  ⟨.last h, fun hmore => .or h hmore⟩

theorem Conjoined.cons {c p : Condition} {ps : List Condition} {ls more : List Lexeme}
    (h : Spelled (.operand c) ls) (hmore : Conjoined (p :: ps) more) :
    Conjoined (c :: p :: ps) (ls ++ .operator .and :: more) := by
  refine ⟨.and h hmore.alone, fun halts => ?_⟩
  rw [List.append_assoc, List.cons_append]
  exact .and h (hmore.first halts)

namespace ConditionText

/-- What a condition is as an operand of either operator, and by itself. -/
structure IsSpelled (c : ConditionText) : Prop where
  conjunct : Spelled (.operand c.condition) (operandOf .and c)
  alternative : ∃ parts, Conjoined parts (operandOf .or c) ∧ conjunction parts = c.condition
  whole : ∃ alts, Spelled (.alternatives alts) c.lexemes ∧ combined alts = c.condition

theorem isSpelled_simple {c : ConditionText} (h : Simple c.condition c.lexemes)
    (hgroups : ∀ o : Operator, o.groups c = false) : c.IsSpelled := by
  have hoperand : ∀ o : Operator, operandOf o c = c.lexemes := fun o => by
    rw [operandOf, hgroups o]
    rfl
  refine ⟨?_, ⟨[c.condition], ?_, rfl⟩, [[c.condition]], .last (.simple h), rfl⟩
  · rw [hoperand]
    exact .simple h
  · rw [hoperand]
    exact .single (.simple h)

/-- A condition in parentheses is an operand. -/
theorem spelled_group {c : ConditionText} {o : Operator} (hgroups : o.groups c = true)
    (h : ∃ alts, Spelled (.alternatives alts) c.lexemes ∧ combined alts = c.condition) :
    Spelled (.operand c.condition) (operandOf o c) := by
  obtain ⟨alts, halts, hcombined⟩ := h
  rw [operandOf, hgroups, ← hcombined]
  exact .group halts

/-- Operands joined by `and` are conjuncts. -/
theorem conjoined_operands (first : ConditionText) (more : List ConditionText)
    (h : ∀ c ∈ first :: more, c.IsSpelled) :
    Conjoined (first.condition :: conditions more) (operandOf .and first ++ operands .and more) := by
  induction more generalizing first with
  | nil =>
      rw [operands, List.append_nil]
      exact .single (h first List.mem_cons_self).conjunct
  | cons second more ih =>
      exact .cons (h first List.mem_cons_self).conjunct
        (ih second fun c hc => h c (List.mem_cons_of_mem _ hc))

/-- Operands joined by `or` are alternatives. -/
theorem spelled_alternatives (first : ConditionText) (more : List ConditionText)
    (h : ∀ c ∈ first :: more, c.IsSpelled) :
    ∃ alts, Spelled (.alternatives alts) (operandOf .or first ++ operands .or more) ∧
      alts.map conjunction = first.condition :: conditions more := by
  induction more generalizing first with
  | nil =>
      obtain ⟨parts, hparts, heq⟩ := (h first List.mem_cons_self).alternative
      rw [operands, List.append_nil]
      exact ⟨[parts], hparts.alone, congrArg (· :: []) heq⟩
  | cons second more ih =>
      obtain ⟨parts, hparts, heq⟩ := (h first List.mem_cons_self).alternative
      obtain ⟨alts, halts, hmore⟩ := ih second fun c hc => h c (List.mem_cons_of_mem _ hc)
      exact ⟨parts :: alts, hparts.first halts, congrArg₂ List.cons heq hmore⟩

theorem isSpelled_all {first second : ConditionText} {more : List ConditionText}
    (h : ∀ c ∈ first :: second :: more, c.IsSpelled) : (all first second more).IsSpelled := by
  have hparts : Conjoined (first.condition :: conditions (second :: more))
      (all first second more).lexemes := conjoined_operands first (second :: more) h
  exact ⟨spelled_group rfl ⟨_, hparts.alone, rfl⟩, ⟨_, hparts, rfl⟩, _, hparts.alone, rfl⟩

theorem isSpelled_any {first second : ConditionText} {more : List ConditionText}
    (h : ∀ c ∈ first :: second :: more, c.IsSpelled) : (any first second more).IsSpelled := by
  have hwhole : ∃ alts, Spelled (.alternatives alts) (any first second more).lexemes ∧
      combined alts = (any first second more).condition := by
    obtain ⟨alts, halts, heq⟩ := spelled_alternatives first (second :: more) h
    refine ⟨alts, halts, ?_⟩
    rw [combined, heq]
    rfl
  exact ⟨spelled_group rfl hwhole, ⟨_, .single (spelled_group rfl hwhole), rfl⟩, hwhole⟩

mutual

theorem isSpelled : ∀ c : ConditionText, c.IsSpelled
  | attrExists a => isSpelled_simple (.attrExists a) fun o => by cases o <;> rfl
  | attrEquals a v => isSpelled_simple (.attrEquals a v) fun o => by cases o <;> rfl
  | attrContains a v => isSpelled_simple (.attrContains a v) fun o => by cases o <;> rfl
  | hasClass first more =>
      isSpelled_simple (.hasClass (classes_classLexemes first more)) fun o => by cases o <;> rfl
  | textEquals v => isSpelled_simple (.textEquals v) fun o => by cases o <;> rfl
  | all first second more =>
      isSpelled_all (List.forall_mem_cons.2
        ⟨isSpelled first, List.forall_mem_cons.2 ⟨isSpelled second, isSpelled_each more⟩⟩)
  | any first second more =>
      isSpelled_any (List.forall_mem_cons.2
        ⟨isSpelled first, List.forall_mem_cons.2 ⟨isSpelled second, isSpelled_each more⟩⟩)

theorem isSpelled_each : ∀ cs : List ConditionText, ∀ c ∈ cs, c.IsSpelled
  | [] => List.forall_mem_nil _
  | c :: more => List.forall_mem_cons.2 ⟨isSpelled c, isSpelled_each more⟩

end

/-- What is written of a condition spells it. -/
theorem spelled (c : ConditionText) :
    ∃ alts, Spelled (.alternatives alts) c.lexemes ∧ combined alts = c.condition :=
  c.isSpelled.whole

end ConditionText

/-! ### Steps and paths -/

/-- The decimal digits of a number. -/
def decimal (n : Nat) : Digits :=
  ⟨Nat.toDigits 10 n, Nat.toDigits_ne_nil,
    fun _ hc => Nat.isDigit_of_mem_toDigits (by decide) (by decide) hc⟩

theorem digitValue?_of_isDigit {c : Char} (h : c.isDigit = true) :
    digitValue? 10 c = some (c.toNat - '0'.toNat) := by
  obtain ⟨hlow, hhigh⟩ := Char.isDigit_iff_toNat.1 h
  have hrange : ('0' ≤ c && c ≤ '9') = true := by
    rw [Bool.and_eq_true, decide_eq_true_iff, decide_eq_true_iff]
    exact ⟨Char.le_def.2 hlow, Char.le_def.2 hhigh⟩
  have hlt : c.toNat - '0'.toNat < 10 := by
    have hzero : '0'.toNat = 48 := rfl
    have hnine : '9'.toNat = 57 := rfl
    omega
  rw [digitValue?, if_pos hrange, Option.filter_some, if_pos (decide_eq_true hlt)]

/-- The digits of a number have its value. -/
theorem digitsValue_decimal (n : Nat) : digitsValue 10 (decimal n).chars = n := by
  have hfold : ∀ (digits : List Char) (start : Nat), (∀ c ∈ digits, c.isDigit = true) →
      digits.foldl (fun n c => n * 10 + (digitValue? 10 c).getD 0) start =
        Nat.ofDigitChars 10 digits start := by
    intro digits
    induction digits with
    | nil => exact fun _ _ => rfl
    | cons c digits ih =>
        intro start hdigits
        obtain ⟨hc, hmore⟩ := List.forall_mem_cons.1 hdigits
        rw [List.foldl_cons, ih _ hmore, Nat.ofDigitChars_cons, digitValue?_of_isDigit hc,
          Option.getD_some, Nat.mul_comm]
  rw [digitsValue, hfold _ 0 (decimal n).isDigit]
  exact Nat.ofDigitChars_ten_toDigits

/-- A name of an element, which does not begin with a dot. -/
structure ElementName extends NameText where
  noDot : text.toList.head? ≠ some '.'

/-- A predicate to be written; positions count from one. -/
inductive PredicateText where
  | position (n : Nat) (hpos : 0 < n) (hmax : n ≤ maxPosition)
  | condition (c : ConditionText)

namespace PredicateText

def predicate : PredicateText → Predicate
  | position n _ _ => .position n
  | condition c => .condition c.condition

def lexemes : PredicateText → List Lexeme
  | position n _ _ => [.number (decimal n)]
  | condition c => c.lexemes

theorem filter : ∀ p : PredicateText, Filter p.predicate p.lexemes
  | position n hpos hmax => by
      have hfilter := Filter.position (decimal n)
      rw [digitsValue_decimal] at hfilter
      exact hfilter hpos hmax
  | condition c => by
      obtain ⟨alts, halts, hcombined⟩ := c.spelled
      rw [predicate, ← hcombined]
      exact .condition halts

/-- Predicates, each in its brackets. -/
def bracketed (ps : List PredicateText) : List Lexeme :=
  ps.flatMap fun p => .mark .openBracket :: (p.lexemes ++ [.mark .closeBracket])

theorem filters_bracketed (ps : List PredicateText) :
    Filters (ps.map predicate) (bracketed ps) := by
  induction ps with
  | nil => exact .nil
  | cons p ps ih =>
      rw [bracketed, List.flatMap_cons, List.cons_append, List.append_assoc]
      exact .cons p.filter ih

end PredicateText

/-- The name that a step asks for, if it does. -/
inductive TestText where
  | any
  | named (n : ElementName)

def TestText.test : TestText → NameTest
  | any => .any
  | named n => .named n.text

def TestText.lexeme : TestText → Lexeme
  | any => .mark .star
  | named n => .name n.toNameText

/-- A step to elements to be written. -/
structure ElementStepText where
  test : TestText
  predicates : List PredicateText

namespace ElementStepText

/-- The step, behind slashes that stand for the axis. -/
def step (s : ElementStepText) (axis : Axis) : Step :=
  ⟨axis, s.test.test, s.predicates.map PredicateText.predicate⟩

def lexemes (s : ElementStepText) : List Lexeme :=
  s.test.lexeme :: PredicateText.bracketed s.predicates

theorem stride (s : ElementStepText) (axis : Axis) : Stride axis (s.step axis) s.lexemes := by
  obtain ⟨test, ps⟩ := s
  cases test with
  | any => exact .any (PredicateText.filters_bracketed ps)
  | named n => exact .named n.toNameText n.noDot (PredicateText.filters_bracketed ps)

end ElementStepText

/-- A step to be written behind one slash, or first. -/
inductive StepText where
  | self
  | parent
  | element (s : ElementStepText)

namespace StepText

def step : StepText → Step
  | self => ⟨.self, .any, []⟩
  | parent => ⟨.parent, .any, []⟩
  | element s => s.step .child

def lexemes : StepText → List Lexeme
  | self => [.mark .dot]
  | parent => [.mark .dots]
  | element s => s.lexemes

theorem stride : ∀ s : StepText, Stride .child s.step s.lexemes
  | self => .self (by decide)
  | parent => .parent
  | element s => s.stride .child

end StepText

/-- A step with the slashes in front of it; behind two slashes it is a step to elements. -/
inductive MoveText where
  | slash (s : StepText)
  | slashes (s : ElementStepText)

namespace MoveText

def step : MoveText → Step
  | slash s => s.step
  | slashes s => s.step .descendant

def lexemes : MoveText → List Lexeme
  | slash s => .mark .slash :: s.lexemes
  | slashes s => .mark .slashes :: s.lexemes

/-- Moves go on from any step. -/
theorem strides {axis : Axis} {s : Step} {ls : List Lexeme} (h : Stride axis s ls)
    (moves : List MoveText) :
    Strides axis (s :: moves.map step) (ls ++ moves.flatMap lexemes) := by
  induction moves generalizing axis s ls with
  | nil =>
      rw [List.flatMap_nil, List.append_nil]
      exact .last h
  | cons m moves ih =>
      cases m with
      | slash s' => exact .child h (ih s'.stride)
      | slashes s' => exact .descendant h (ih (s'.stride .descendant))

end MoveText

/-- A path to be written: it starts with a step or with slashes, and every further step has its
slashes in front of it.  So it has at least one step, as every path has that is read
(`ViewCompiler.Path.steps_ne_nil`). -/
inductive PathText where
  | relative (first : StepText) (more : List MoveText)
  | absolute (first : MoveText) (more : List MoveText)

namespace PathText

def isAbsolute : PathText → Bool
  | relative .. => false
  | absolute .. => true

def steps : PathText → List Step
  | relative first more => first.step :: more.map MoveText.step
  | absolute first more => first.step :: more.map MoveText.step

def lexemes : PathText → List Lexeme
  | relative first more => first.lexemes ++ more.flatMap MoveText.lexemes
  | absolute first more => first.lexemes ++ more.flatMap MoveText.lexemes

/-- The canonical text of a path. -/
def text (p : PathText) : String :=
  .ofList (written p.lexemes)

/-- What is written of a path is a sentence for it. -/
theorem sentence : ∀ p : PathText, Sentence p.isAbsolute p.steps p.lexemes
  | relative first more => .relative (MoveText.strides first.stride more)
  | absolute (.slash s) more => .child (MoveText.strides s.stride more)
  | absolute (.slashes s) more => .descendant (MoveText.strides (s.stride .descendant) more)

/-- **The canonical text of a path is read as exactly that path.** -/
theorem parse_text (p : PathText) : Path.parse p.text = .ok ⟨p.text, p.isAbsolute, p.steps⟩ := by
  refine Path.parse_eq_ok_iff.2 ⟨rfl, p.lexemes, p.sentence, ?_⟩
  rw [text, String.toList_ofList]
  exact lays_written p.sentence.isChain

/-- `and` binds tighter than `or`. -/
example : Path.parse "//a[@x or @y and @z or @x]" = .ok ⟨"//a[@x or @y and @z or @x]", true,
    [⟨.descendant, .named "a", [.condition (.any [.attrExists "x",
      .all [.attrExists "y", .attrExists "z"], .attrExists "x"])]⟩]⟩ := by
  decide +kernel

end PathText

end ViewCompiler.Locator
