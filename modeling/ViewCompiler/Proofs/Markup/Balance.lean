/-
**Balanced tokens.**

Tokens make up a document exactly if their tags are balanced: every start tag that does not close
itself is closed by an end tag of the same name, and what stands between the two is balanced again.
The document written out as tokens gives the tokens back, and its nodes are numbered in the order in
which they were read.  Otherwise the first end tag that does not fit is reported, or, if there is
none, the innermost element that stays open.

Balance is defined without a stack of open elements.  Tokens that may go on leave elements open:
each of them has a start tag with balanced tokens behind it, up to the start tag of the next one.

Main definitions:

* `ViewCompiler.Balanced`, `ViewCompiler.LeavesOpen` — tokens that are balanced, and tokens that
  leave elements open;
* `ViewCompiler.Misfit`, `ViewCompiler.Unbalanced` — the first end tag that does not fit, and what
  is wrong with tokens that are not balanced;
* `ViewCompiler.Forest.flatten`, `ViewCompiler.Token.expanded` — a forest as tokens, and tokens
  without what a tree does not keep;
* `ViewCompiler.Tree.Spells` — the tree of balanced tokens.

Main results:

* `ViewCompiler.Balanced.steps` — what the reader makes of balanced tokens;
* `ViewCompiler.leavesOpen_of_steps`, `ViewCompiler.steps_eq_error_iff` — how far the reader comes
  with any tokens;
* `ViewCompiler.Tree.ofTokens_eq_ok_iff`, `ViewCompiler.Tree.ofTokens_eq_error_iff` — **which tokens
  make up a document, and what is wrong with the others**.
-/

import Mathlib.Data.List.Induction
import ViewCompiler.Proofs.Markup.Records
import ViewCompiler.Proofs.Markup.RoundTrip

set_option relaxedAutoImplicit false
set_option autoImplicit false

namespace ViewCompiler

/-! ### Balance -/

/-- The token stands for a node by itself: a text, a comment or a tag that closes itself. -/
def Token.isWhole : Token → Bool
  | .text _ | .comment _ | .startTag _ _ true _ => true
  | _ => false

/-- Every start tag is closed by an end tag of the same name, with balanced tokens in between. -/
inductive Balanced : List Token → Prop
  | nil : Balanced []
  | whole {token : Token} {rest : List Token} (htoken : token.isWhole = true) (h : Balanced rest) :
      Balanced (token :: rest)
  | element {name : String} {attributes : Attributes} {position behind : Nat}
      {inner rest : List Token} (hinner : Balanced inner) (h : Balanced rest) :
      Balanced (.startTag name attributes false position :: (inner ++ .endTag name behind :: rest))

/-- All end tags fit, and some elements stay open: their names and the positions of their start
tags, the innermost first. -/
inductive LeavesOpen : List Token → List (String × Nat) → Prop
  | balanced {tokens : List Token} (h : Balanced tokens) : LeavesOpen tokens []
  | inside {name : String} {attributes : Attributes} {position : Nat} {outer inner : List Token}
      {opened : List (String × Nat)} (houter : LeavesOpen outer opened) (hinner : Balanced inner) :
      LeavesOpen (outer ++ .startTag name attributes false position :: inner)
        ((name, position) :: opened)

/-- The first end tag that does not fit stands at the position: all before it fit, but it has
another name than the innermost element that is open there, or none is open. -/
def Misfit (tokens : List Token) (position : Nat) : Prop :=
  ∃ before name behind opened, tokens = before ++ .endTag name position :: behind ∧
    LeavesOpen before opened ∧ ∀ e ∈ opened.head?, e.1 ≠ name

/-- What is wrong with tokens that are not balanced: the first end tag that does not fit, or, if all
fit, the innermost element that stays open. -/
inductive Unbalanced (tokens : List Token) : ParseError → Prop
  | misfit {position : Nat} (h : Misfit tokens position) :
      Unbalanced tokens ⟨.unexpectedEndTag, position⟩
  | unclosed {name : String} {position : Nat} {outer : List (String × Nat)}
      (h : LeavesOpen tokens ((name, position) :: outer)) :
      Unbalanced tokens ⟨.unclosedElement, position⟩

theorem Balanced.append {tokens more : List Token} (h : Balanced tokens) (hmore : Balanced more) :
    Balanced (tokens ++ more) := by
  induction h with
  | nil => exact hmore
  | whole htoken _ ih => exact ih.whole htoken
  | element hinner _ _ ih =>
      rw [List.cons_append, List.append_assoc, List.cons_append]
      exact hinner.element ih

/-- Balanced tokens open and close nothing. -/
theorem LeavesOpen.append {tokens more : List Token} {opened : List (String × Nat)}
    (h : LeavesOpen tokens opened) (hmore : Balanced more) :
    LeavesOpen (tokens ++ more) opened := by
  cases h with
  | balanced h => exact .balanced (h.append hmore)
  | inside houter hinner =>
      rw [List.append_assoc, List.cons_append]
      exact .inside houter (hinner.append hmore)

/-- An end tag closes the innermost element. -/
theorem LeavesOpen.closing {tokens : List Token} {opened : List (String × Nat)} {name : String}
    {position : Nat} (h : LeavesOpen tokens ((name, position) :: opened)) (behind : Nat) :
    LeavesOpen (tokens ++ [.endTag name behind]) opened := by
  cases h with
  | inside houter hinner =>
      rw [List.append_assoc, List.cons_append]
      exact houter.append (hinner.element .nil)

/-! ### A forest as tokens -/

/-- A token without its position, which a tree does not keep; a tag that closes itself is a start
tag and an end tag. -/
def Token.expanded : Token → List Token
  | .startTag name attributes true _ => [.startTag name attributes false 0, .endTag name 0]
  | .startTag name attributes false _ => [.startTag name attributes false 0]
  | .endTag name _ => [.endTag name 0]
  | .text content => [.text content]
  | .comment content => [.comment content]

/-- How many nodes the tokens stand for. -/
def nodeCount : List Token → Nat
  | [] => 0
  | .endTag .. :: more => nodeCount more
  | _ :: more => nodeCount more + 1

theorem nodeCount_append (tokens more : List Token) :
    nodeCount (tokens ++ more) = nodeCount tokens + nodeCount more := by
  induction tokens with
  | nil => exact (Nat.zero_add _).symm
  | cons token tokens ih => cases token <;> simp only [List.cons_append, nodeCount, ih] <;> omega

theorem nodeCount_whole {token : Token} (h : token.isWhole = true) (more : List Token) :
    nodeCount (token :: more) = nodeCount more + 1 := by
  cases token with
  | endTag => cases h
  | startTag | text | comment => rfl

namespace Forest

variable {ι : Type}

/-- A forest as tokens without positions: a start tag, the children and an end tag for each element.
Raw text is no token. -/
def flatten : Forest ι → List Token
  | nil => []
  | element _ name attributes children rest =>
      .startTag name attributes false 0 :: (children.flatten ++ .endTag name 0 :: rest.flatten)
  | leaf _ .text content rest => .text content :: rest.flatten
  | leaf _ .comment content rest => .comment content :: rest.flatten
  | leaf _ .raw _ rest => rest.flatten

theorem flatten_append (f g : Forest ι) : (f ++ g).flatten = f.flatten ++ g.flatten := by
  induction f with
  | nil => rfl
  | element _ _ _ _ _ _ ih =>
      simp only [element_append, flatten, ih, List.cons_append, List.append_assoc]
  | leaf _ kind _ _ ih => cases kind <;> simp only [leaf_append, flatten, ih, List.cons_append]

theorem reverseOnto_single_append (n : Node ι) (f g : Forest ι) :
    (single n ++ f).reverseOnto g = f.reverseOnto (single n ++ g) := by
  cases n <;> rfl

end Forest

/-- The tree is the document of the tokens: written out it gives them back, its nodes are numbered
from 1 on in document order, and nothing else is in it. -/
structure Tree.Spells (t : Tree) (tokens : List Token) : Prop where
  flatten_eq : t.content.flatten = tokens.flatMap Token.expanded
  labels_eq : t.content.labels = List.range' 1 (nodeCount tokens)
  size_eq : t.size = nodeCount tokens + 1
  loose_eq : t.loose = .nil

/-! ### The reader on balanced tokens -/

/-- A token that stands for a node becomes that node, with the next number. -/
theorem Reading.step_whole {token : Token} (h : token.isWhole = true) (r : Reading) :
    ∃ n : Node NodeId, r.step token = .ok ⟨r.opened, .single n ++ r.done, r.next + 1⟩ ∧
      (Forest.single n).flatten = token.expanded ∧ (Forest.single n).labels = [r.next] := by
  cases token with
  | text content => exact ⟨.leaf r.next .text content, rfl, rfl, rfl⟩
  | comment content => exact ⟨.leaf r.next .comment content, rfl, rfl, rfl⟩
  | endTag name position => cases h
  | startTag name attributes closed position =>
      cases closed with
      | false => cases h
      | true => exact ⟨.element ⟨r.next, name, attributes, .nil⟩, rfl, rfl, rfl⟩

/-- **From balanced tokens the reader makes siblings** that spell them, numbered in document order;
the elements that are open stay as they are. -/
theorem Balanced.steps {tokens : List Token} (h : Balanced tokens) (r : Reading) :
    ∃ g : Forest NodeId,
      r.steps tokens = .ok ⟨r.opened, g.reverseOnto r.done, r.next + nodeCount tokens⟩ ∧
      g.flatten = tokens.flatMap Token.expanded ∧
      g.labels = List.range' r.next (nodeCount tokens) := by
  induction h generalizing r with
  | nil => exact ⟨.nil, rfl, rfl, rfl⟩
  | @whole token rest htoken _ ih =>
      obtain ⟨n, hstep, hflatten, hlabels⟩ := r.step_whole htoken
      obtain ⟨g, hsteps, hrest, hnumbers⟩ := ih ⟨r.opened, .single n ++ r.done, r.next + 1⟩
      refine ⟨.single n ++ g, ?_, ?_, ?_⟩
      · rw [Reading.steps_cons hstep, hsteps, Forest.reverseOnto_single_append,
          nodeCount_whole htoken, Nat.add_assoc, Nat.add_comm 1]
      · rw [Forest.flatten_append, hflatten, hrest, List.flatMap_cons]
      · rw [Forest.labels_append, hlabels, hnumbers, nodeCount_whole htoken, List.range'_succ,
          List.singleton_append]
  | @element name attributes position behind inner rest _ _ ihinner ih =>
      let e : OpenElement := ⟨r.next, name, attributes, position, r.done⟩
      obtain ⟨children, hinner, hchildren, hbelow⟩ := ihinner ⟨e :: r.opened, .nil, r.next + 1⟩
      obtain ⟨g, hsteps, hrest, hnumbers⟩ :=
        ih ⟨r.opened, .element r.next name attributes children r.done,
          r.next + 1 + nodeCount inner⟩
      have hcount : nodeCount (.startTag name attributes false position ::
          (inner ++ .endTag name behind :: rest)) = nodeCount inner + nodeCount rest + 1 := by
        simp only [nodeCount, nodeCount_append]
      have hclose : Reading.step ⟨e :: r.opened, children.reverse, r.next + 1 + nodeCount inner⟩
          (.endTag name behind) = .ok ⟨r.opened, .element r.next name attributes children r.done,
            r.next + 1 + nodeCount inner⟩ := by
        simp [Reading.step, e]
      refine ⟨.element r.next name attributes children g, ?_, ?_, ?_⟩
      · rw [Reading.steps_cons rfl, Reading.steps_append hinner, hcount]
        refine (Reading.steps_cons hclose).trans (hsteps.trans ?_)
        have hnext (n : Nat) : n + 1 + nodeCount inner + nodeCount rest =
            n + (nodeCount inner + nodeCount rest + 1) := by omega
        rw [hnext, Forest.reverseOnto]
      · rw [Forest.flatten, hchildren, hrest]
        simp only [List.flatMap_cons, List.flatMap_append, Token.expanded, List.singleton_append]
      · rw [Forest.labels, hbelow, hnumbers, hcount, List.range'_succ, ← List.range'_append_1]

/-! ### The reader on any tokens -/

/-- What is kept of an open element besides its siblings and its number. -/
def OpenElement.tag (e : OpenElement) : String × Nat :=
  (e.name, e.position)

theorem LeavesOpen.steps {tokens : List Token} {opened : List (String × Nat)}
    (h : LeavesOpen tokens opened) :
    ∃ r, Reading.start.steps tokens = .ok r ∧ r.opened.map OpenElement.tag = opened := by
  induction h with
  | balanced h =>
      obtain ⟨g, hsteps, -⟩ := h.steps Reading.start
      exact ⟨_, hsteps, rfl⟩
  | @inside name attributes position outer inner opened _ hinner ih =>
      obtain ⟨r, houter, hopened⟩ := ih
      obtain ⟨g, hsteps, -⟩ :=
        hinner.steps ⟨⟨r.next, name, attributes, position, r.done⟩ :: r.opened, .nil, r.next + 1⟩
      have hinside : r.steps (.startTag name attributes false position :: inner) = _ :=
        (Reading.steps_cons rfl).trans hsteps
      exact ⟨_, (Reading.steps_append houter).trans hinside,
        congrArg ((name, position) :: ·) hopened⟩

/-- One token more. -/
theorem LeavesOpen.step {tokens : List Token} {r s : Reading} {token : Token}
    (h : LeavesOpen tokens (r.opened.map OpenElement.tag)) (hstep : r.step token = .ok s) :
    LeavesOpen (tokens ++ [token]) (s.opened.map OpenElement.tag) := by
  have hwhole : token.isWhole = true →
      LeavesOpen (tokens ++ [token]) (s.opened.map OpenElement.tag) := by
    intro htoken
    obtain ⟨n, hn, -⟩ := r.step_whole htoken
    obtain rfl := Except.ok.inj (hn.symm.trans hstep)
    exact h.append (.whole htoken .nil)
  cases token with
  | text content => exact hwhole rfl
  | comment content => exact hwhole rfl
  | startTag name attributes closed position =>
      cases closed with
      | true => exact hwhole rfl
      | false =>
          obtain rfl := Except.ok.inj hstep
          exact .inside h .nil
  | endTag name position =>
      rw [Reading.step] at hstep
      split at hstep
      · cases hstep
      · next e opened hopened =>
          split at hstep
          · next hname =>
              obtain rfl := Except.ok.inj hstep
              rw [hopened, List.map_cons, OpenElement.tag, hname] at h
              exact h.closing position
          · cases hstep

/-- How the reader fails on one token: on an end tag that does not fit. -/
theorem Reading.step_eq_error_iff {r : Reading} {token : Token} {error : ParseError} :
    r.step token = .error error ↔ ∃ name position, token = .endTag name position ∧
      (∀ e ∈ (r.opened.map OpenElement.tag).head?, e.1 ≠ name) ∧
      error = ⟨.unexpectedEndTag, position⟩ := by
  cases token with
  | text content | comment content => simp [Reading.step]
  | startTag name attributes closed position => cases closed <;> simp [Reading.step]
  | endTag name position =>
      constructor
      · intro h
        refine ⟨name, position, rfl, ?_⟩
        rw [Reading.step] at h
        split at h
        · next hopened =>
            obtain rfl := Except.error.inj h
            simp [hopened]
        · next e opened hopened =>
            split at h
            · cases h
            · next hname =>
                obtain rfl := Except.error.inj h
                exact ⟨by simpa [hopened, OpenElement.tag] using hname, rfl⟩
      · rintro ⟨_, _, heq, hother, rfl⟩
        cases heq
        rw [Reading.step]
        cases hopened : r.opened with
        | nil => rfl
        | cons e opened =>
            rw [hopened] at hother
            exact if_neg (hother e.tag rfl)

theorem Reading.steps_snoc (r : Reading) (tokens : List Token) (token : Token) :
    r.steps (tokens ++ [token]) = (r.steps tokens).bind (·.step token) := by
  induction tokens generalizing r with
  | nil =>
      change r.steps [token] = r.step token
      rw [Reading.steps]
      cases r.step token <;> rfl
  | cons first tokens ih =>
      rw [List.cons_append, Reading.steps, Reading.steps]
      cases r.step first with
      | error e => rfl
      | ok s => exact ih s

/-- What has been read leaves open what the reader keeps as open. -/
theorem leavesOpen_of_steps {tokens : List Token} {r : Reading}
    (h : Reading.start.steps tokens = .ok r) :
    LeavesOpen tokens (r.opened.map OpenElement.tag) := by
  induction tokens using List.reverseRecOn generalizing r with
  | nil =>
      obtain rfl := Except.ok.inj h
      exact .balanced .nil
  | append_singleton tokens token ih =>
      rw [Reading.steps_snoc] at h
      obtain ⟨s, hsteps, hstep⟩ := bind_eq_ok_iff.1 h
      exact (ih hsteps).step hstep

/-- **The reader fails at the first end tag that does not fit**, and nowhere else. -/
theorem steps_eq_error_iff {tokens : List Token} {error : ParseError} :
    Reading.start.steps tokens = .error error ↔
      ∃ position, Misfit tokens position ∧ error = ⟨.unexpectedEndTag, position⟩ := by
  constructor
  · intro h
    induction tokens using List.reverseRecOn generalizing error with
    | nil => cases h
    | append_singleton tokens token ih =>
        rw [Reading.steps_snoc] at h
        cases hsteps : Reading.start.steps tokens with
        | error e =>
            rw [hsteps] at h
            obtain rfl := Except.error.inj h
            obtain ⟨position, ⟨before, name, behind, opened, rfl, hopened, hother⟩, rfl⟩ :=
              ih hsteps
            exact ⟨position, ⟨before, name, behind ++ [token], opened, by simp, hopened, hother⟩,
              rfl⟩
        | ok r =>
            rw [hsteps] at h
            obtain ⟨name, position, rfl, hother, rfl⟩ := Reading.step_eq_error_iff.1 h
            exact ⟨position, ⟨tokens, name, [], _, rfl, leavesOpen_of_steps hsteps, hother⟩, rfl⟩
  · rintro ⟨position, ⟨before, name, behind, opened, rfl, hopened, hother⟩, rfl⟩
    obtain ⟨r, hsteps, rfl⟩ := hopened.steps
    have hstep : r.step (.endTag name position) = .error ⟨.unexpectedEndTag, position⟩ :=
      Reading.step_eq_error_iff.2 ⟨name, position, rfl, hother, rfl⟩
    rw [Reading.steps_append hsteps, Reading.steps, hstep]

namespace Tree

/-- **The document of balanced tokens spells them.** -/
theorem exists_ofTokens {tokens : List Token} (h : Balanced tokens) :
    ∃ t, ofTokens tokens = .ok t ∧ t.Spells tokens := by
  obtain ⟨g, hsteps, hflatten, hlabels⟩ := h.steps Reading.start
  refine ⟨⟨g, .nil, 1 + nodeCount tokens⟩, ?_, hflatten, hlabels, Nat.add_comm _ _, rfl⟩
  refine (congrArg (Except.bind · Reading.finish) hsteps).trans ?_
  exact congrArg (fun f => Except.ok (Tree.mk f .nil (1 + nodeCount tokens))) g.reverse_reverse

/-- **Only balanced tokens make up a document.** -/
theorem ofTokens_eq_ok_iff {tokens : List Token} :
    (∃ t, ofTokens tokens = .ok t) ↔ Balanced tokens := by
  constructor
  · rintro ⟨t, h⟩
    obtain ⟨r, hsteps, hfinish⟩ := bind_eq_ok_iff.1 h
    have hopened := leavesOpen_of_steps hsteps
    rw [Reading.finish] at hfinish
    split at hfinish
    · next hnil =>
        rw [hnil] at hopened
        cases hopened with
        | balanced hbalanced => exact hbalanced
    · cases hfinish
  · intro h
    obtain ⟨t, ht, -⟩ := exists_ofTokens h
    exact ⟨t, ht⟩

/-- **What is wrong with other tokens.** -/
theorem ofTokens_eq_error_iff {tokens : List Token} {error : ParseError} :
    ofTokens tokens = .error error ↔ Unbalanced tokens error := by
  constructor
  · intro h
    rw [ofTokens] at h
    cases hsteps : Reading.start.steps tokens with
    | error e =>
        rw [hsteps] at h
        obtain rfl := Except.error.inj h
        obtain ⟨position, hmisfit, rfl⟩ := steps_eq_error_iff.1 hsteps
        exact .misfit hmisfit
    | ok r =>
        rw [hsteps] at h
        have hopened := leavesOpen_of_steps hsteps
        change r.finish = .error error at h
        rw [Reading.finish] at h
        split at h
        · cases h
        · next e outer hcons =>
            obtain rfl := Except.error.inj h
            rw [hcons] at hopened
            exact .unclosed hopened
  · rintro (hmisfit | hopened)
    · have hsteps := steps_eq_error_iff.2 ⟨_, hmisfit, rfl⟩
      rw [ofTokens, hsteps]
      rfl
    · obtain ⟨r, hsteps, hcons⟩ := hopened.steps
      obtain ⟨e, outer, hkept, htag, -⟩ := List.map_eq_cons_iff.1 hcons
      obtain ⟨-, rfl⟩ := Prod.mk.inj htag
      refine (congrArg (Except.bind · Reading.finish) hsteps).trans ?_
      change r.finish = _
      rw [Reading.finish, hkept]

end Tree

end ViewCompiler
