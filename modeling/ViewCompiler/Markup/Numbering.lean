/-
**Numbering copies.**

A copied node takes the next free number.  The copies of all children of a node are numbered
before anything below them, and of the subtrees below those children the last is numbered first.
Siblings copied one by one are numbered each with everything below it before the next.

Main definitions:

* `ViewCompiler.NodeId` — the number of a node;
* `ViewCompiler.Forest.numberBelow` — numbers for the children of one node and all below them;
* `ViewCompiler.Forest.numberEach` — numbers for siblings that are copied one by one.

Main results:

* `ViewCompiler.Forest.plain_numberBelow`, `ViewCompiler.Forest.plain_numberEach` — numbering
  changes labels only;
* `ViewCompiler.Forest.numberEach_plain` — the numbers depend on the structure alone;
* `ViewCompiler.Forest.numberEach_next` — as many numbers are handed out as there are nodes.
-/

import ViewCompiler.Markup.Forest

set_option autoImplicit false

namespace ViewCompiler

/-- The number of a node of a tree; the document itself is number 0. -/
abbrev NodeId := Nat

namespace Forest

variable {ι κ : Type}

/-- Numbers for siblings and all below them: the siblings take `here`, `here + 1`, …, and what is
below them takes numbers from `next` on, the last sibling's descendants first.  The first number
that is left over comes with the result. -/
def numberBelow (here next : Nat) : Forest ι → Forest NodeId × Nat
  | nil => (nil, next)
  | element _ name attributes children rest =>
      let (rest, afterRest) := numberBelow (here + 1) next rest
      let (children, afterChildren) :=
        numberBelow afterRest (afterRest + children.width) children
      (element here name attributes children rest, afterChildren)
  | leaf _ kind content rest =>
      let (rest, afterRest) := numberBelow (here + 1) next rest
      (leaf here kind content rest, afterRest)

/-- Numbers from `next` on for siblings that are copied one by one. -/
def numberEach (next : Nat) : Forest ι → Forest NodeId × Nat
  | nil => (nil, next)
  | element _ name attributes children rest =>
      let (children, afterChildren) :=
        children.numberBelow (next + 1) (next + 1 + children.width)
      let (rest, afterRest) := numberEach afterChildren rest
      (element next name attributes children rest, afterRest)
  | leaf _ kind content rest =>
      let (rest, afterRest) := numberEach (next + 1) rest
      (leaf next kind content rest, afterRest)

/-! ### Numbering changes labels only -/

theorem plain_numberBelow (here next : Nat) (f : Forest ι) :
    (f.numberBelow here next).1.plain = f.plain := by
  induction f generalizing here next with
  | nil => rfl
  | element _ _ _ _ _ ihc ihr =>
      simp only [numberBelow, plain, map] at *
      rw [ihc, ihr]
  | leaf _ _ _ _ ih =>
      simp only [numberBelow, plain, map] at *
      rw [ih]

theorem plain_numberEach (next : Nat) (f : Forest ι) :
    (f.numberEach next).1.plain = f.plain := by
  induction f generalizing next with
  | nil => rfl
  | element _ _ _ children _ _ ihr =>
      have hc := fun here next => plain_numberBelow here next children
      simp only [numberEach, plain, map] at *
      rw [hc, ihr]
  | leaf _ _ _ _ ih =>
      simp only [numberEach, plain, map] at *
      rw [ih]

/-! ### The numbers depend on the structure alone -/

@[simp] theorem width_plain (f : Forest ι) : f.plain.width = f.width := by
  induction f with
  | nil => rfl
  | element _ _ _ _ _ _ ih => exact congrArg (· + 1) ih
  | leaf _ _ _ _ ih => exact congrArg (· + 1) ih

@[simp] theorem size_plain (f : Forest ι) : f.plain.size = f.size := by
  induction f with
  | nil => rfl
  | element _ _ _ _ _ ihc ihr =>
      simp only [plain, map, size] at *
      rw [ihc, ihr]
  | leaf _ _ _ _ ih => exact congrArg (· + 1) ih

theorem numberBelow_plain (here next : Nat) (f : Forest ι) :
    f.plain.numberBelow here next = f.numberBelow here next := by
  induction f generalizing here next with
  | nil => rfl
  | element _ _ _ children _ ihc ihr =>
      have hw : (children.map fun _ => ()).width = children.width := width_plain children
      simp only [numberBelow, plain, map] at *
      rw [ihr, hw, ihc]
  | leaf _ _ _ _ ih =>
      simp only [numberBelow, plain, map] at *
      rw [ih]

theorem numberEach_plain (next : Nat) (f : Forest ι) :
    f.plain.numberEach next = f.numberEach next := by
  induction f generalizing next with
  | nil => rfl
  | element _ _ _ children _ _ ihr =>
      have hw : (children.map fun _ => ()).width = children.width := width_plain children
      have hc := fun here next => numberBelow_plain here next children
      simp only [numberEach, plain, map] at *
      rw [hw, hc, ihr]
  | leaf _ _ _ _ ih =>
      simp only [numberEach, plain, map] at *
      rw [ih]

/-! ### How many numbers are handed out -/

theorem numberBelow_next (here next : Nat) (f : Forest ι) :
    (f.numberBelow here next).2 + f.width = next + f.size := by
  induction f generalizing here next with
  | nil => rfl
  | element _ _ _ children rest ihc ihr =>
      simp only [numberBelow, width, size]
      have hr := ihr (here + 1) next
      have hc := ihc (rest.numberBelow (here + 1) next).2
        ((rest.numberBelow (here + 1) next).2 + children.width)
      omega
  | leaf _ _ _ _ ih =>
      simp only [numberBelow, width, size]
      have := ih (here + 1) next
      omega

theorem numberEach_next (next : Nat) (f : Forest ι) :
    (f.numberEach next).2 = next + f.size := by
  induction f generalizing next with
  | nil => rfl
  | element _ _ _ children _ _ ihr =>
      simp only [numberEach, size]
      have hc := numberBelow_next (next + 1) (next + 1 + children.width) children
      rw [ihr]
      omega
  | leaf _ _ _ _ ih =>
      simp only [numberEach, size]
      rw [ih]
      omega

end Forest

end ViewCompiler
