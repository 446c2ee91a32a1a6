/-
**Whole numbers in texts.**

Main definitions:

* `ViewCompiler.decimal?` — the value of a non-empty run of decimal digits;
* `ViewCompiler.integer?` — a whole number with an optional sign, within bounds;
* `ViewCompiler.natural?` — a whole number that may carry a plus sign, up to a bound.
-/

import ViewCompiler.Markup.Reference

set_option autoImplicit false

namespace ViewCompiler

/-- The value of a text that consists of at least one decimal digit and nothing else. -/
def decimal? (text : List Char) : Option Nat :=
  if text.isEmpty || !text.all Char.isDigit then none else some (digitsValue 10 text)

/-- A whole number with an optional sign, if it lies between the bounds. -/
def integer? (low high : Int) (text : List Char) : Option Int :=
  let value? : Option Int :=
    match text with
    | '-' :: digits => (decimal? digits).map fun n => -(n : Int)
    | '+' :: digits => (decimal? digits).map fun n => (n : Int)
    | digits => (decimal? digits).map fun n => (n : Int)
  value?.filter fun n => low ≤ n && n ≤ high

/-- A whole number without a minus sign, if it is at most the bound. -/
def natural? (high : Nat) (text : List Char) : Option Nat :=
  let value? :=
    match text with
    | '+' :: digits => decimal? digits
    | digits => decimal? digits
  value?.filter (· ≤ high)

end ViewCompiler
