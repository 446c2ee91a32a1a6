/-
**Outcomes.**

An operation that can fail answers with an error or with a value.  The laws here say when a
composed operation succeeds or fails.

Main definitions:

* `ViewCompiler.errorOf?` — the error of an outcome.

Main results:

* `ViewCompiler.map_eq_ok_iff`, `ViewCompiler.bind_eq_ok_iff` — success of a composed operation;
* `ViewCompiler.map_eq_error_iff`, `ViewCompiler.all_errorOf?_bind` — its failure.
-/

set_option autoImplicit false

namespace ViewCompiler

variable {ε α β : Type}

theorem map_eq_ok_iff {f : α → β} {x : Except ε α} {b : β} :
    x.map f = .ok b ↔ ∃ a, x = .ok a ∧ f a = b := by
  cases x <;> simp [Except.map]

theorem map_eq_error_iff {f : α → β} {x : Except ε α} {e : ε} :
    x.map f = .error e ↔ x = .error e := by
  cases x <;> simp [Except.map]

theorem bind_eq_ok_iff {f : α → Except ε β} {x : Except ε α} {b : β} :
    x.bind f = .ok b ↔ ∃ a, x = .ok a ∧ f a = .ok b := by
  cases x <;> simp [Except.bind]

/-- The error of an outcome. -/
def errorOf? : Except ε α → Option ε
  | .error e => some e
  | .ok _ => none

theorem errorOf?_eq_some {x : Except ε α} {e : ε} : errorOf? x = some e ↔ x = .error e := by
  cases x <;> simp [errorOf?]

theorem errorOf?_map (x : Except ε α) (f : α → β) : errorOf? (x.map f) = errorOf? x := by
  cases x <;> rfl

/-- An error of one operation after another is an error of one of them. -/
theorem all_errorOf?_bind {p : ε → Bool} {x : Except ε α} {f : α → Except ε β}
    (hx : (errorOf? x).all p = true) (hf : ∀ a, (errorOf? (f a)).all p = true) :
    (errorOf? (x >>= f)).all p = true := by
  cases x with
  | error e => exact hx
  | ok a => exact hf a

end ViewCompiler
