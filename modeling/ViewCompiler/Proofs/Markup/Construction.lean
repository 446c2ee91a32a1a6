/-
**Reading tokens edit by edit.**

The document of a token list can be built with the edits of a tree: each node is created as a loose
piece and made the last child of the innermost element that is open, and an end tag is compared with
the name that this element has in the tree.  Every one of these edits is checked, but none is ever
refused, and what comes out is what the reader makes of the tokens, errors included.

The tree under construction holds the elements that are still open with the children that they have
so far.  The reader keeps them apart; put around what was read since, they give the tree.

Main definitions:

* `ViewCompiler.Construction`, `ViewCompiler.Tree.construct` — building a tree with edits;
* `ViewCompiler.surrounded`, `ViewCompiler.Reading.construction` — the tree that belongs to a state
  of the reader.

Main results:

* `ViewCompiler.Reading.construction_step` — one token;
* `ViewCompiler.Tree.construct_eq` — **no edit is refused while tokens are read**;
* `ViewCompiler.Tree.ofTokens_balanced` — **which tokens make up a document**.
-/

import ViewCompiler.Proofs.Markup.Balance
import ViewCompiler.Proofs.Markup.Pieces

set_option relaxedAutoImplicit false
set_option autoImplicit false

namespace ViewCompiler

/-- Why tokens do not become a tree: a fault of the tokens, or an edit that is refused. -/
inductive BuildFailure where
  | fault (error : ParseError)
  | refused (error : TreeError)
  deriving DecidableEq, Repr

/-- A tree, and the elements in it that are still open, innermost first, with the positions of their
start tags. -/
structure Construction where
  tree : Tree
  opened : List (NodeId × Nat)
  deriving DecidableEq, Repr

namespace Construction

/-- Where new nodes go: the innermost open element, or the document. -/
def parent (c : Construction) : NodeId :=
  (c.opened.head?.map (·.1)).getD Tree.root

/-- Puts a node that was just created into the tree. -/
def attach (c : Construction) (created : NodeId × Tree) : Except BuildFailure Construction :=
  match created.2.appendChild c.parent created.1 with
  | .ok t => .ok { c with tree := t }
  | .error e => .error (.refused e)

/-- Takes in one token. -/
def step (c : Construction) : Token → Except BuildFailure Construction
  | .text content => c.attach (c.tree.createLeaf .text content)
  | .comment content => c.attach (c.tree.createLeaf .comment content)
  | .startTag name attributes true _ => c.attach (c.tree.createElement name attributes)
  | .startTag name attributes false position =>
      (c.attach (c.tree.createElement name attributes)).map fun d =>
        { d with opened := ((c.tree.createElement name attributes).1, position) :: d.opened }
  | .endTag name position =>
      match c.opened with
      | [] => .error (.fault ⟨.unexpectedEndTag, position⟩)
      | (innermost, _) :: opened =>
          if c.tree.name? innermost = some name then .ok { c with opened := opened }
          else .error (.fault ⟨.unexpectedEndTag, position⟩)

/-- Takes in tokens one after the other. -/
def steps (c : Construction) : List Token → Except BuildFailure Construction
  | [] => .ok c
  | token :: more =>
      match c.step token with
      | .error e => .error e
      | .ok c => c.steps more

/-- The tree, if no element is open any more. -/
def finish (c : Construction) : Except BuildFailure Tree :=
  match c.opened with
  | [] => .ok c.tree
  | (_, position) :: _ => .error (.fault ⟨.unclosedElement, position⟩)

end Construction

/-- Builds the document of tokens with edits. -/
def Tree.construct (tokens : List Token) : Except BuildFailure Tree :=
  (Construction.steps ⟨.empty, []⟩ tokens).bind Construction.finish

/-! ### Open elements around what was read since -/

/-- The open element with its children, behind the siblings before it. -/
def OpenElement.around (e : OpenElement) (children : Forest NodeId) : Forest NodeId :=
  e.before.reverse ++ .element e.label e.name e.attributes children .nil

/-- The children of the innermost open element, with all open elements around them. -/
def surrounded : List OpenElement → Forest NodeId → Forest NodeId
  | [], f => f
  | e :: outer, f => surrounded outer (e.around f)

/-- The numbers of all that stands around the children of the innermost open element. -/
def surroundings : List OpenElement → List NodeId
  | [] => []
  | e :: outer => surroundings outer ++ (e.before.reverse.labels ++ [e.label])

theorem labels_surrounded (opened : List OpenElement) (f : Forest NodeId) :
    (surrounded opened f).labels = surroundings opened ++ f.labels := by
  induction opened generalizing f with
  | nil => rfl
  | cons e outer ih =>
      rw [surrounded, ih, surroundings, OpenElement.around, Forest.labels_append]
      simp [Forest.labels]

theorem find?_surrounded {label : NodeId} {opened : List OpenElement}
    (h : label ∉ surroundings opened) (f : Forest NodeId) :
    (surrounded opened f).find? label = f.find? label := by
  induction opened generalizing f with
  | nil => rfl
  | cons e outer ih =>
      simp only [surroundings, List.mem_append, List.mem_singleton, not_or] at h
      obtain ⟨houter, hbefore, hlabel⟩ := h
      rw [surrounded, ih houter, OpenElement.around, Forest.find?_append,
        Forest.find?_eq_none_iff.2 hbefore, Option.none_or, Forest.find?, if_neg (Ne.symm hlabel),
        Forest.find?, Option.or_none]

theorem splice_surrounded {label : NodeId} {opened : List OpenElement}
    (h : label ∉ surroundings opened) (f : Forest NodeId) (g : Node NodeId → Forest NodeId) :
    (surrounded opened f).splice label g = surrounded opened (f.splice label g) := by
  induction opened generalizing f with
  | nil => rfl
  | cons e outer ih =>
      simp only [surroundings, List.mem_append, List.mem_singleton, not_or] at h
      obtain ⟨houter, hbefore, hlabel⟩ := h
      rw [surrounded, ih houter, surrounded, OpenElement.around, Forest.splice_append,
        Forest.splice_of_not_mem hbefore, Forest.splice, if_neg (Ne.symm hlabel)]
      rfl

/-- No number is the document's, and none is there twice. -/
def Apart (opened : List OpenElement) (f : Forest NodeId) : Prop :=
  (Tree.root :: (surrounded opened f).labels).Nodup

/-- The innermost open element has a number of its own. -/
theorem Apart.innermost {e : OpenElement} {outer : List OpenElement} {f : Forest NodeId}
    (h : Apart (e :: outer) f) :
    e.label ≠ Tree.root ∧ e.label ∉ surroundings outer ∧ e.label ∉ e.before.reverse.labels := by
  rw [Apart, labels_surrounded, surroundings] at h
  obtain ⟨hroot, hnodup⟩ := List.nodup_cons.1 h
  obtain ⟨-, hbelow, houter⟩ := List.nodup_append.1 (List.nodup_append.1 hnodup).1
  obtain ⟨-, -, hbefore⟩ := List.nodup_append.1 hbelow
  refine ⟨fun heq => hroot (by simp [heq]), fun hmem => ?_, fun hmem => ?_⟩
  · exact houter _ hmem e.label (by simp) rfl
  · exact hbefore _ hmem e.label (by simp) rfl

/-- The innermost open element is found in the tree. -/
theorem Apart.find? {e : OpenElement} {outer : List OpenElement} {f : Forest NodeId}
    (h : Apart (e :: outer) f) :
    (surrounded (e :: outer) f).find? e.label =
      some (.element ⟨e.label, e.name, e.attributes, f⟩) := by
  obtain ⟨-, houter, hbefore⟩ := h.innermost
  rw [surrounded, find?_surrounded houter, OpenElement.around, Forest.find?_append,
    Forest.find?_eq_none_iff.2 hbefore, Option.none_or]
  exact if_pos rfl

/-- More children of the innermost open element, or of the document, if none is open. -/
theorem Apart.grown {opened : List OpenElement} {f : Forest NodeId} (h : Apart opened f)
    (piece : Forest NodeId) :
    Tree.grown ((opened.map (·.label)).head?.getD Tree.root) (surrounded opened f) piece =
      surrounded opened (f ++ piece) := by
  cases opened with
  | nil => exact if_pos rfl
  | cons e outer =>
      obtain ⟨hne, houter, hbefore⟩ := h.innermost
      rw [List.map_cons, List.head?_cons, Option.getD_some, Tree.grown, if_neg hne, surrounded,
        splice_surrounded houter, OpenElement.around, Forest.splice_append,
        Forest.splice_of_not_mem hbefore, Forest.splice, if_pos rfl]
      rfl

/-! ### The tree of a state of the reader -/

theorem Forest.reverseOnto_eq {ι : Type} (f g : Forest ι) : f.reverseOnto g = f.reverse ++ g := by
  induction f generalizing g with
  | nil => rfl
  | element label name attributes children rest _ ih =>
      rw [reverse, reverseOnto, reverseOnto, ih, ih (.element label name attributes children nil),
        append_assoc]
      rfl
  | leaf label kind content rest ih =>
      rw [reverse, reverseOnto, reverseOnto, ih, ih (.leaf label kind content nil), append_assoc]
      rfl

theorem Forest.reverse_single_append {ι : Type} (n : Node ι) (f : Forest ι) :
    (single n ++ f).reverse = f.reverse ++ single n := by
  rw [reverse, reverseOnto_single_append, append_nil, reverseOnto_eq]

namespace Reading

/-- The tree with all that has been read. -/
def tree (r : Reading) : Tree :=
  ⟨surrounded r.opened r.done.reverse, .nil, r.next⟩

/-- The construction that has come as far as the reader. -/
def construction (r : Reading) : Construction :=
  ⟨r.tree, r.opened.map fun e => (e.label, e.position)⟩

theorem parent_construction (r : Reading) :
    r.construction.parent = (r.opened.map (·.label)).head?.getD Tree.root := by
  rw [Construction.parent, construction]
  cases r.opened <;> rfl

variable {r : Reading}

theorem apart (hr : r.tree.Accounted) : Apart r.opened r.done.reverse := by
  have hnodup : (Tree.root :: ((surrounded r.opened r.done.reverse).labels ++ [])).Nodup := hr.nodup
  rwa [List.append_nil] at hnodup

/-- A new node goes behind all that was read since the last tag of an open element. -/
theorem attach_construction (hr : r.tree.Accounted) {n : Node NodeId} (hn : n.label = r.next)
    (hcreated : Tree.Accounted ⟨r.tree.content, .single n, r.next + 1⟩) :
    r.construction.attach (r.next, ⟨r.tree.content, .single n, r.next + 1⟩) =
        .ok (construction ⟨r.opened, .single n ++ r.done, r.next + 1⟩) ∧
      (tree ⟨r.opened, .single n ++ r.done, r.next + 1⟩).Accounted := by
  have hapart := apart hr
  have hparent : r.construction.parent ∈ Tree.root :: r.tree.content.labels ∧
      Tree.allowsChildren ⟨r.tree.content, .single n, r.next + 1⟩ r.construction.parent = true := by
    rw [parent_construction, tree]
    cases hopened : r.opened with
    | nil => exact ⟨List.mem_cons_self, rfl⟩
    | cons e outer =>
        rw [hopened] at hapart
        have hfind := hapart.find?
        refine ⟨List.mem_cons_of_mem _ (Forest.exists_find?_iff.1 ⟨_, hfind⟩), ?_⟩
        simp [Tree.allowsChildren, Tree.find?, hfind]
  have hcontent : Tree.grown r.construction.parent r.tree.content (.single n) =
      surrounded r.opened (Forest.single n ++ r.done).reverse := by
    rw [parent_construction, Forest.reverse_single_append]
    exact hapart.grown (.single n)
  have happend := hcreated.appendChild_loose (D := .nil) (E := .nil) (Forest.append_nil _).symm
    hparent.1 hparent.2
  rw [hcontent] at happend
  have hlt : n.label < r.next + 1 := hn ▸ Nat.lt_succ_self _
  refine ⟨?_, (hcreated.placed_appendChild hlt happend).1⟩
  rw [hn] at happend
  simp only [Construction.attach, happend]
  rfl

/-- The elements that are open are in the tree already. -/
theorem tree_eq {e : OpenElement} {outer : List OpenElement} (hopened : r.opened = e :: outer) :
    r.tree =
      tree ⟨outer, .element e.label e.name e.attributes r.done.reverse e.before, r.next⟩ := by
  have hreverse := Forest.reverse_single_append
    (.element ⟨e.label, e.name, e.attributes, r.done.reverse⟩) e.before
  rw [tree, tree, hopened]
  exact congrArg (fun f => (⟨surrounded outer f, .nil, r.next⟩ : Tree)) hreverse.symm

/-- An end tag adds no node: it takes the innermost element off those that are open, if the names
agree. -/
theorem construction_endTag (hr : r.tree.Accounted) (name : String) (position : Nat) :
    r.construction.step (.endTag name position) =
        ((r.step (.endTag name position)).map construction).mapError .fault ∧
      ∀ s, r.step (.endTag name position) = .ok s → s.tree.Accounted := by
  rw [Construction.step, Reading.step]
  cases hopened : r.opened with
  | nil =>
      simp only [construction, hopened]
      exact ⟨rfl, fun s hs => by cases hs⟩
  | cons e outer =>
      have hapart := apart hr
      rw [hopened] at hapart
      have hname : r.tree.name? e.label = some e.name := by
        have hfind : r.tree.content.find? e.label = _ := hopened ▸ hapart.find?
        rw [Tree.name?, Tree.find?, hfind]
        rfl
      simp only [construction, hopened, List.map_cons, hname, Option.some.injEq]
      split
      · refine ⟨?_, fun s hs => ?_⟩
        · rw [tree_eq hopened]
          rfl
        · obtain rfl := Except.ok.inj hs
          exact tree_eq hopened ▸ hr
      · exact ⟨rfl, fun s hs => by cases hs⟩

/-- **One token**: the edits come to the same as the reader. -/
theorem construction_step (hr : r.tree.Accounted) (token : Token) :
    r.construction.step token = ((r.step token).map construction).mapError .fault ∧
      ∀ s, r.step token = .ok s → s.tree.Accounted := by
  have hleaf : ∀ kind content, r.construction.attach (r.tree.createLeaf kind content) =
      .ok (r.addLeaf kind content).construction ∧ (r.addLeaf kind content).tree.Accounted :=
    fun kind content => attach_construction hr (n := .leaf r.next kind content) rfl
      (hr.createLeaf kind content)
  have helement : ∀ name attributes, r.construction.attach (r.tree.createElement name attributes) =
      .ok (construction ⟨r.opened, .element r.next name attributes .nil r.done, r.next + 1⟩) ∧
        (tree ⟨r.opened, .element r.next name attributes .nil r.done, r.next + 1⟩).Accounted :=
    fun name attributes =>
      attach_construction hr (n := .element ⟨r.next, name, attributes, .nil⟩) rfl
        (hr.createElement name attributes)
  cases token with
  | text content =>
      refine ⟨(hleaf .text content).1, fun s hs => ?_⟩
      obtain rfl := Except.ok.inj hs
      exact (hleaf .text content).2
  | comment content =>
      refine ⟨(hleaf .comment content).1, fun s hs => ?_⟩
      obtain rfl := Except.ok.inj hs
      exact (hleaf .comment content).2
  | startTag name attributes closed position =>
      obtain ⟨hattach, hacc⟩ := helement name attributes
      cases closed with
      | true =>
          refine ⟨hattach, fun s hs => ?_⟩
          obtain rfl := Except.ok.inj hs
          exact hacc
      | false =>
          -- the new element is in the tree before its children are
          have htree :=
            tree_eq (r := ⟨⟨r.next, name, attributes, position, r.done⟩ :: r.opened, .nil,
              r.next + 1⟩) rfl
          constructor
          · refine (congrArg (Except.map _) hattach).trans ?_
            simp only [Except.map, Reading.step, Except.mapError, construction, htree]
            rfl
          · intro s hs
            obtain rfl := Except.ok.inj hs
            exact htree ▸ hacc
  | endTag name position => exact construction_endTag hr name position

theorem construction_steps (hr : r.tree.Accounted) (tokens : List Token) :
    r.construction.steps tokens = ((r.steps tokens).map construction).mapError .fault := by
  induction tokens generalizing r with
  | nil => rfl
  | cons token more ih =>
      obtain ⟨hstep, hacc⟩ := construction_step hr token
      rw [Construction.steps, Reading.steps, hstep]
      cases hs : r.step token with
      | error e => rfl
      | ok s => exact ih (hacc s hs)

end Reading

/-- **No edit is refused while tokens are read**: building the document with edits gives what the
reader makes of the tokens. -/
theorem Tree.construct_eq (tokens : List Token) :
    construct tokens = (ofTokens tokens).mapError .fault := by
  have hsteps := Reading.construction_steps (r := Reading.start) accounted_empty tokens
  rw [construct, ofTokens]
  refine (congrArg (Except.bind · Construction.finish) hsteps).trans ?_
  cases Reading.start.steps tokens with
  | error e => rfl
  | ok r =>
      change Construction.finish r.construction = r.finish.mapError .fault
      rw [Construction.finish, Reading.finish, Reading.construction, Reading.tree]
      cases r.opened <;> rfl

/-! ### Which tokens make up a document -/

/-- **Balanced tokens make up a document, and no others do.**  The document spells the tokens;
otherwise the first end tag that does not fit is reported, or the innermost element that stays open.
Built with edits the document is the same, so no edit is refused. -/
theorem Tree.ofTokens_balanced (tokens : List Token) :
    ((∃ t, ofTokens tokens = .ok t) ↔ Balanced tokens) ∧
      (∀ t, ofTokens tokens = .ok t → t.Spells tokens) ∧
      (∀ error, ofTokens tokens = .error error ↔ Unbalanced tokens error) ∧
      construct tokens = (ofTokens tokens).mapError .fault := by
  refine ⟨ofTokens_eq_ok_iff, fun t ht => ?_, fun error => ofTokens_eq_error_iff,
    construct_eq tokens⟩
  obtain ⟨t', ht', hspells⟩ := exists_ofTokens (ofTokens_eq_ok_iff.1 ⟨t, ht⟩)
  obtain rfl := Except.ok.inj (ht.symm.trans ht')
  exact hspells

/-- A list with a text before it, an empty item and a comment in it. -/
def listTokens : List Token :=
  [.text "a", .startTag "ul" [] false 1, .startTag "li" [("id", "x")] true 5, .comment "c",
    .endTag "ul" 24]

/-- The list is balanced; with one more end tag it is not, nor with one more start tag. -/
theorem listTokens_balanced :
    Balanced listTokens ∧ (∃ t, Tree.ofTokens listTokens = .ok t ∧ t.Spells listTokens) ∧
      Unbalanced (listTokens ++ [.endTag "p" 29]) ⟨.unexpectedEndTag, 29⟩ ∧
      Unbalanced (.startTag "p" [] false 0 :: listTokens) ⟨.unclosedElement, 0⟩ := by
  have hread := Tree.ofTokens_balanced listTokens
  refine ⟨hread.1.1 ⟨_, rfl⟩, ⟨_, rfl, hread.2.1 _ rfl⟩, ?_, ?_⟩
  · exact ((Tree.ofTokens_balanced _).2.2.1 _).1 rfl
  · exact ((Tree.ofTokens_balanced _).2.2.1 _).1 rfl

end ViewCompiler
