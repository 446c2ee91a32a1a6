/-
**Chains of alternatives.**

A member of a chain, other than the first, has to find the chain open: the nearest sibling in front
of it, blank text aside, is an `if` or `elif` member.  Here this condition is stated for a place in
a child list, without the pass that checks it, and the check is shown to find exactly the first
place at which it fails.  What the pass leaves is stated as a layout: every child list is made up of
nodes outside all chains and of chains, each a block with its end right behind the last member.

Main definitions:

* `ViewCompiler.Forest.places` — all nodes with the siblings in front of them;
* `ViewCompiler.dangling?` — what is wrong at a place;
* `ViewCompiler.CompilerOptions.conditional?` — the place in a chain that attributes ask for;
* `ViewCompiler.Chain`, `ViewCompiler.Segment` — a chain as it is laid out, and the parts of a child
  list;
* `ViewCompiler.Forest.withoutBranches` — a forest without the statements of chains.

Main results:

* `ViewCompiler.danglingMember?_eq` — the check finds the first dangling place;
* `ViewCompiler.exists_segments` — the layout of one child list;
* `ViewCompiler.lower_chains` — **the pass for chains accepts exactly the well-formed chains**, and
  makes a block of each.
-/

import ViewCompiler.Proofs.Template.Endings
import ViewCompiler.Proofs.Template.Filing
import ViewCompiler.Proofs.Template.Nesting
import ViewCompiler.Proofs.Template.Survivors

set_option relaxedAutoImplicit false
set_option autoImplicit false

namespace ViewCompiler

variable {ι : Type}

/-! ### Places in child lists -/

/-- The node is blank text. -/
def Node.isBlank : Node ι → Bool
  | .element _ => false
  | .leaf _ kind content => Forest.isBlankLeaf kind content

/-- A node, and the siblings in front of it. -/
structure Place (ι : Type) where
  before : List (Node ι)
  node : Node ι
  deriving DecidableEq, Repr

/-- The places of siblings behind others. -/
def placesBehind (before : List (Node ι)) : List (Node ι) → List (Place ι)
  | [] => []
  | n :: more => ⟨before, n⟩ :: placesBehind (before ++ [n]) more

/-- All places of a forest: parents in document order, siblings from left to right. -/
def Forest.places (f : Forest ι) : List (Place ι) :=
  f.childLists.flatMap fun siblings => placesBehind [] siblings.nodes

/-! ### Dangling members -/

/-- The directive by which a member goes on with a chain; the first member starts one. -/
def Conditional.continuation? : Conditional → Option DirectiveName
  | .ifTrue _ => none
  | .elseIf _ => some .elseIf
  | .otherwise => some .otherwise

/-- A chain can go on behind the member. -/
def Conditional.leavesOpen : Conditional → Bool
  | .ifTrue _ | .elseIf _ => true
  | .otherwise => false

/-- The place in a chain that a node has, if it is an element that is a member of one. -/
def Node.conditional? : Node Mark → Option Conditional
  | .element x => x.label.directives.conditional
  | .leaf .. => none

/-- A chain can go on behind the node. -/
def Node.leavesOpen (n : Node Mark) : Bool :=
  n.conditional?.any Conditional.leavesOpen

/-- A chain is open behind siblings: the last of them, blank text aside, leaves one open. -/
def openBehind (before : List (Node Mark)) : Bool :=
  (before.reverse.find? (!·.isBlank)).any Node.leavesOpen

/-- The directive and the tag of a member that goes on with a chain, where the nearest node in
front of it, blank text aside, is missing or no member behind which a chain can go on. -/
def dangling? (p : Place Mark) : Option (DirectiveName × String) :=
  match p.node with
  | .leaf .. => none
  | .element x =>
      if openBehind p.before then none
      else (x.label.directives.conditional.bind Conditional.continuation?).map (·, x.name)

/-- The error about a dangling member. -/
def danglingError (found : DirectiveName × String) : CompileError :=
  .danglingConditional found.1 found.2

theorem openBehind_concat (before : List (Node Mark)) (n : Node Mark) :
    openBehind (before ++ [n]) = if n.isBlank then openBehind before else n.leavesOpen := by
  rw [openBehind, List.reverse_append, List.reverse_singleton, List.singleton_append,
    List.find?_cons]
  cases n.isBlank <;> rfl

/-- The check of siblings behind others finds the first dangling member. -/
theorem danglingSibling?_eq (before : List (Node Mark)) (f : Forest Mark) :
    danglingSibling? (openBehind before) f =
      ((placesBehind before f.nodes).findSome? dangling?).map danglingError := by
  induction f generalizing before with
  | nil => rfl
  | leaf mark kind content rest ih =>
      have hopen : openBehind (before ++ [.leaf mark kind content]) =
          (Forest.isBlankLeaf kind content && openBehind before) := by
        rw [openBehind_concat, Node.isBlank]
        cases Forest.isBlankLeaf kind content <;> rfl
      rw [danglingSibling?, ← hopen, ih]
      rfl
  | element mark name attributes children rest _ ih =>
      have hopen : openBehind (before ++ [.element ⟨mark, name, attributes, children⟩]) =
          mark.directives.conditional.any Conditional.leavesOpen := openBehind_concat _ _
      have hrest := ih (before ++ [.element ⟨mark, name, attributes, children⟩])
      rw [hopen] at hrest
      rw [danglingSibling?, Forest.nodes, placesBehind, List.findSome?_cons, dangling?]
      generalize placesBehind (before ++ _) rest.nodes = later at hrest ⊢
      dsimp only
      -- Only a member that goes on with a chain looks at what is in front of it.
      cases hplace : mark.directives.conditional with
      | none =>
          rw [hplace] at hrest
          rw [Option.bind_none, Option.map_none, ite_self]
          exact hrest
      | some place =>
          rw [hplace] at hrest
          cases place with
          | ifTrue condition =>
              rw [Option.bind_some, Conditional.continuation?, Option.map_none, ite_self]
              exact hrest
          | elseIf condition =>
              cases openBehind before with
              | false => rfl
              | true => exact hrest
          | otherwise =>
              cases openBehind before with
              | false => rfl
              | true => exact hrest

theorem danglingBelow?_eq (f : Forest Mark) :
    danglingBelow? f =
      ((f.elements.flatMap fun x => placesBehind [] x.children.nodes).findSome? dangling?).map
        danglingError := by
  induction f with
  | nil => rfl
  | leaf _ _ _ _ ih => exact ih
  | element mark name attributes children rest ihc ihr =>
      have hsiblings := danglingSibling?_eq [] children
      rw [danglingBelow?, Forest.elements, List.flatMap_cons, List.flatMap_append,
        List.findSome?_append, List.findSome?_append, Option.map_or, Option.map_or, ← ihc, ← ihr,
        ← hsiblings]
      rfl

/-- The check finds the first dangling member: parents in document order, siblings from left to
right. -/
theorem danglingMember?_eq (f : Forest Mark) :
    danglingMember? f = (f.places.findSome? dangling?).map danglingError := by
  rw [danglingMember?, Forest.places, Forest.childLists, List.flatMap_cons, List.flatMap_map,
    List.findSome?_append, Option.map_or, ← danglingBelow?_eq, ← danglingSibling?_eq]
  rfl

/-- Computed attributes make no member dangle. -/
theorem danglingSibling?_lowerAttributes {f g : Forest Mark} (h : lowerAttributes f = .ok g)
    (isOpen : Bool) : danglingSibling? isOpen g = danglingSibling? isOpen f := by
  induction f generalizing g isOpen with
  | nil =>
      cases h
      rfl
  | leaf mark kind content rest ih =>
      obtain ⟨rest', hrest, rfl⟩ := map_eq_ok_iff.1 h
      exact ih hrest _
  | element mark name attributes children rest _ ih =>
      simp only [lowerAttributes] at h
      split at h
      · cases h
      · split at h
        · cases h
        · obtain ⟨rest', hrest, rfl⟩ := map_eq_ok_iff.1 h
          rw [danglingSibling?, danglingSibling?, ih hrest, ih hrest]

theorem danglingMember?_lowerAttributes {f g : Forest Mark} (h : lowerAttributes f = .ok g) :
    danglingMember? g = danglingMember? f := by
  have hbelow : danglingBelow? g = danglingBelow? f := by
    induction f generalizing g with
    | nil =>
        cases h
        rfl
    | leaf mark kind content rest ih =>
        obtain ⟨rest', hrest, rfl⟩ := map_eq_ok_iff.1 h
        rw [danglingBelow?, danglingBelow?, ih hrest]
    | element mark name attributes children rest ihc ihr =>
        simp only [lowerAttributes] at h
        split at h
        · cases h
        · split at h
          · cases h
          · rename_i hchildren
            obtain ⟨rest', hrest, rfl⟩ := map_eq_ok_iff.1 h
            rw [danglingBelow?, danglingBelow?, danglingSibling?_lowerAttributes hchildren,
              ihc hchildren, ihr hrest]
  rw [danglingMember?, danglingMember?, danglingSibling?_lowerAttributes h, hbelow]

/-! ### What attributes ask for -/

/-- The place in a chain that attributes ask for: that of the last directive for one. -/
def CompilerOptions.conditional? (o : CompilerOptions) (attributes : Attributes) :
    Option Conditional :=
  (attributes.filterMap fun a => (o.directive? a).bind Directive.conditional?).getLast?

theorem conditional_directivesOf (o : CompilerOptions) (attributes : Attributes) :
    (o.directivesOf attributes).conditional = o.conditional? attributes := by
  rw [CompilerOptions.directivesOf, (Directives.files_foldl_add _).conditional,
    List.filterMap_filterMap]
  rfl

/-- The elements behind the pass for outputs are elements of the arch in their order, each with the
place in a chain that its attributes ask for. -/
theorem conditionals_lowerOutputs {o : CompilerOptions} {arch : Forest ι} {outputs : Forest Mark}
    (h : lowerOutputs o false ((arch.numberEach 1).1.collect o) = .ok outputs) :
    (outputs.elements.map fun x => (x.name, x.label.directives.conditional)).Sublist
      (arch.elements.map fun d => (d.name, o.conditional? d.attributes)) := by
  have hasked := (asked_lowerOutputs h).map fun a => (a.2.1, a.1.conditional)
  rw [asked_numbered, Forest.asked, List.map_map, List.map_map] at hasked
  simpa only [Function.comp_def, Element.head, conditional_directivesOf] using hasked

/-! ### How the compilation fails -/

/-- A hook that never reports a dangling member. -/
def FieldHook.LeavesChains (hook : FieldHook) : Prop :=
  ∀ name attributes found, hook name attributes ≠ .error (danglingError found)

/-- The error is about something else than a dangling member. -/
def CompileError.notDangling : CompileError → Bool
  | .danglingConditional .. => false
  | _ => true

theorem CompileError.notDangling_of_isBlockMisuse {e : CompileError}
    (h : e.isBlockMisuse = true) : e.notDangling = true := by
  cases e <;> first | rfl | cases h

theorem applyHook_notDangling {hook : FieldHook} (hhook : hook.LeavesChains) (f : Forest Mark) :
    (errorOf? (applyHook hook f)).all (·.notDangling) = true := by
  induction f with
  | nil => rfl
  | leaf mark kind content rest ih =>
      rw [applyHook, errorOf?_map]
      exact ih
  | element mark name attributes children rest ihc ihr =>
      rw [applyHook]
      cases hown : hook name attributes with
      | error e =>
          cases e with
          | danglingConditional directive tag =>
              exact absurd hown (hhook name attributes (directive, tag))
          | _ => rfl
      | ok made =>
          cases hchildren : applyHook hook children with
          | error e =>
              rw [hchildren] at ihc
              exact ihc
          | ok below =>
              dsimp only
              rw [errorOf?_map]
              exact ihr

theorem all_refuse_notDangling {e : Option CompileError} (h : e.all (·.isBlockMisuse) = true) :
    (errorOf? (refuse e)).all (·.notDangling) = true := by
  rw [errorOf?_refuse]
  exact all_imp (fun _ => CompileError.notDangling_of_isBlockMisuse) h

/-- Once outputs and attributes are lowered, the compilation reports a dangling member if, and only
if, there is one, and then it reports the first. -/
theorem lower_eq_danglingError_iff {o : CompilerOptions} {hook : FieldHook} {arch : Forest ι}
    {outputs computed : Forest Mark}
    (houtputs : lowerOutputs o false ((arch.numberEach 1).1.collect o) = .ok outputs)
    (hcomputed : lowerAttributes outputs = .ok computed) (hhook : hook.LeavesChains)
    (found : DirectiveName × String) :
    lower o hook arch = .error (danglingError found) ↔
      outputs.places.findSome? dangling? = some found := by
  have hmember := danglingMember?_eq outputs
  rw [← danglingMember?_lowerAttributes hcomputed] at hmember
  cases hfirst : outputs.places.findSome? dangling? with
  | some first =>
      rw [hfirst, Option.map_some] at hmember
      have hlower : lower o hook arch = .error (danglingError first) := by
        simp only [lower, bind, Except.bind, houtputs, hcomputed, hmember, refuse]
      rw [hlower]
      obtain ⟨directive, tag⟩ := first
      obtain ⟨directive', tag'⟩ := found
      simp [danglingError]
  | none =>
      rw [hfirst, Option.map_none] at hmember
      have hother : (errorOf? (lower o hook arch)).all (·.notDangling) = true := by
        rw [lower, houtputs]
        change (errorOf? (lowerAttributes outputs >>= _)).all _ = true
        rw [hcomputed]
        change (errorOf? (refuse (danglingMember? computed) >>= _)).all _ = true
        rw [hmember]
        refine all_errorOf?_bind rfl fun _ => ?_
        refine all_errorOf?_bind (all_refuse_notDangling (incompleteLoop?_blockMisuse _))
          fun _ => ?_
        refine all_errorOf?_bind (all_refuse_notDangling (misusedSet?_blockMisuse _ _ _ _))
          fun _ => ?_
        refine all_errorOf?_bind (all_refuse_notDangling (misusedCall?_blockMisuse _ _ _ _))
          fun _ => ?_
        exact all_errorOf?_bind (applyHook_notDangling hhook _) fun _ => rfl
      constructor
      · intro hlower
        rw [hlower] at hother
        cases hother
      · exact fun hnone => by cases hnone

/-! ### The layout of chains -/

/-- The statement as a node. -/
def Statement.node (s : Statement) : Node Mark :=
  .leaf (.written s) .raw s.text

theorem Statement.nodes_before (s : Statement) (f : Forest Mark) :
    (s.before f).nodes = s.node :: f.nodes := rfl

/-- The statement that a node is. -/
def Node.statement? : Node Mark → Option Statement
  | .element _ => none
  | .leaf mark _ _ => mark.statement?

/-- The statement belongs to a chain. -/
def Statement.isBranch : Statement → Bool
  | .branchIf _ | .branchElif _ | .branchElse | .branchEnd => true
  | _ => false

/-- The node is a statement that belongs to a chain. -/
def Node.isBranch (n : Node Mark) : Bool :=
  n.statement?.any Statement.isBranch

/-- A member that goes on with a chain, and the blank text in front of it. -/
structure Link where
  blanks : List (Node Mark)
  member : Element Mark
  place : Conditional
  blanks_blank : ∀ n ∈ blanks, n.isBlank = true
  blanks_source : ∀ n ∈ blanks, n.isBranch = false
  member_place : member.label.directives.conditional = some place
  goes_on : place.continuation?.isSome = true

/-- The statement of the member's branch stands right in front of it. -/
def Link.nodes (l : Link) : List (Node Mark) :=
  l.blanks ++ [l.place.statement.node, .element l.member]

/-- A chain: its first member is an `if`, the others go on with it, and only the last can be an
`else`. -/
structure Chain where
  condition : String
  first : Element Mark
  links : List Link
  first_place : first.label.directives.conditional = some (.ifTrue condition)
  else_last : ∀ l ∈ links.dropLast, l.place.leavesOpen = true

/-- The end of the chain stands right behind its last member. -/
def Chain.nodes (c : Chain) : List (Node Mark) :=
  [(Statement.branchIf c.condition).node, .element c.first] ++ c.links.flatMap Link.nodes ++
    [Statement.branchEnd.node]

/-- A part of a child list: a node outside all chains, or a chain. -/
inductive Segment where
  | outside (n : Node Mark) (no_member : n.conditional? = none)
      (source : n.isBranch = false)
  | chain (c : Chain)

def Segment.nodes : Segment → List (Node Mark)
  | .outside n _ _ => [n]
  | .chain c => c.nodes

/-- Links and the end of their chain, with segments behind it. -/
def closedBy (links : List Link) (segments : List Segment) : List (Node Mark) :=
  links.flatMap Link.nodes ++ Statement.branchEnd.node :: segments.flatMap Segment.nodes

/-- A leaf before the pass for chains is no statement of a chain. -/
theorem Mark.OnlyOutput.not_branch {mark : Mark} {kind : LeafKind} {content : String}
    (h : mark.OnlyOutput kind content) : mark.statement?.any Statement.isBranch = false := by
  cases mark with
  | source d => rfl
  | written s =>
      obtain ⟨-, mode, expr, rfl⟩ := h s rfl
      rfl

/-- More blank text in front of a link. -/
def Link.behind (n : Node Mark) (hblank : n.isBlank = true) (hsource : n.isBranch = false)
    (l : Link) : Link :=
  { l with
    blanks := n :: l.blanks
    blanks_blank := List.forall_mem_cons.2 ⟨hblank, l.blanks_blank⟩
    blanks_source := List.forall_mem_cons.2 ⟨hsource, l.blanks_source⟩ }

/-- How siblings are laid out behind the pass for chains: if they go on with a chain, links up to
its end come first; then, or otherwise, they are made up of segments. -/
def LaidOut (continues : Bool) (nodes : List (Node Mark)) : Prop :=
  if continues then
    ∃ links segments, links ≠ [] ∧ (∀ l ∈ links.dropLast, l.place.leavesOpen = true) ∧
      nodes = closedBy links segments
  else ∃ segments : List Segment, nodes = segments.flatMap Segment.nodes

theorem laidOut_outside {n : Node Mark} {nodes : List (Node Mark)} (h : LaidOut false nodes)
    (hmember : n.conditional? = none) (hsource : n.isBranch = false) :
    LaidOut false (n :: nodes) := by
  obtain ⟨segments, rfl⟩ := h
  exact ⟨.outside n hmember hsource :: segments, rfl⟩

/-- Blank text belongs to the link behind it, if there is one. -/
theorem laidOut_blank {n : Node Mark} {nodes : List (Node Mark)} {continues : Bool}
    (h : LaidOut continues nodes) (hblank : n.isBlank = true) (hsource : n.isBranch = false) :
    LaidOut continues (n :: nodes) := by
  cases continues with
  | false =>
      refine laidOut_outside h ?_ hsource
      cases n with
      | element x => cases hblank
      | leaf mark kind content => rfl
  | true =>
      obtain ⟨links, segments, hne, hlast, rfl⟩ := h
      obtain ⟨l, more, rfl⟩ := List.exists_cons_of_ne_nil hne
      refine ⟨l.behind n hblank hsource :: more, segments, List.cons_ne_nil _ _, ?_, rfl⟩
      cases more with
      | nil => exact fun l hl => by cases hl
      | cons next more => exact List.forall_mem_cons.2 (List.forall_mem_cons.1 hlast)

/-- What follows a member closes the chain, by an end of its own or by later links. -/
theorem exists_closedBy {rest : Forest Mark} {continues : Bool}
    (h : LaidOut continues rest.nodes) :
    ∃ links segments, (continues = false → links = []) ∧
      (∀ l ∈ links.dropLast, l.place.leavesOpen = true) ∧
      (if continues then rest else Statement.branchEnd.before rest).nodes =
        closedBy links segments := by
  cases continues with
  | true =>
      obtain ⟨links, segments, -, hlast, hnodes⟩ := h
      exact ⟨links, segments, fun hstops => Bool.noConfusion hstops, hlast, hnodes⟩
  | false =>
      obtain ⟨segments, hnodes⟩ := h
      exact ⟨[], segments, fun _ => rfl, List.forall_mem_nil _, congrArg (List.cons _) hnodes⟩

/-- A link in front of the others: only the last of them can be an `else`. -/
theorem laidOut_link {member : Element Mark} {place : Conditional} {links : List Link}
    (hplace : member.label.directives.conditional = some place)
    (hgoes : place.continuation?.isSome = true) (hopen : links ≠ [] → place.leavesOpen = true)
    (hlast : ∀ l ∈ links.dropLast, l.place.leavesOpen = true) (segments : List Segment) :
    LaidOut true (place.statement.node :: .element member :: closedBy links segments) := by
  let link : Link :=
    ⟨[], member, place, List.forall_mem_nil _, List.forall_mem_nil _, hplace, hgoes⟩
  refine ⟨link :: links, segments, List.cons_ne_nil _ _, ?_, rfl⟩
  cases links with
  | nil => exact fun l hl => by cases hl
  | cons next more =>
      rw [List.dropLast_cons_of_ne_nil (List.cons_ne_nil _ _)]
      exact List.forall_mem_cons.2 ⟨hopen (List.cons_ne_nil _ _), hlast⟩

/-- The first member of a chain and what closes it make a segment. -/
theorem laidOut_first {member : Element Mark} {condition : String} {links : List Link}
    (hplace : member.label.directives.conditional = some (.ifTrue condition))
    (hlast : ∀ l ∈ links.dropLast, l.place.leavesOpen = true) (segments : List Segment) :
    LaidOut false
      ((Statement.branchIf condition).node :: .element member :: closedBy links segments) := by
  refine ⟨.chain ⟨condition, member, links, hplace, hlast⟩ :: segments, ?_⟩
  simp [closedBy, Segment.nodes, Chain.nodes]

/-- Siblings behind the pass for chains, in which no member dangled. -/
theorem exists_segments {f : Forest Mark} {isOpen : Bool}
    (hf : f.LeavesSatisfy Mark.OnlyOutput) (h : danglingSibling? isOpen f = none) :
    LaidOut (continuesChain f) (lowerBranches f).nodes := by
  induction f generalizing isOpen with
  | nil => exact ⟨[], rfl⟩
  | leaf mark kind content rest ih =>
      have hsource : (Node.leaf mark kind content).isBranch = false := hf.1.not_branch
      rw [danglingSibling?] at h
      have hrest := ih hf.2 h
      rw [continuesChain, lowerBranches, Forest.nodes]
      cases hblank : Forest.isBlankLeaf kind content with
      | false =>
          rw [hblank, Bool.false_and] at h
          rw [continuesChain_of_closed h] at hrest
          exact laidOut_outside hrest rfl hsource
      | true =>
          rw [Bool.true_and]
          exact laidOut_blank hrest hblank hsource
  | element mark name attributes children rest _ ih =>
      rw [danglingSibling?] at h
      rw [continuesChain, lowerBranches]
      cases hplace : mark.directives.conditional with
      | none =>
          rw [hplace] at h
          have hrest := ih hf.2 h
          rw [continuesChain_of_closed h] at hrest
          exact laidOut_outside hrest hplace rfl
      | some place =>
          rw [hplace] at h
          cases place with
          | ifTrue condition =>
              obtain ⟨links, segments, -, hlast, hnodes⟩ := exists_closedBy (ih hf.2 h)
              rw [Statement.nodes_before, Forest.nodes, hnodes]
              exact laidOut_first hplace hlast segments
          | elseIf condition =>
              cases isOpen with
              | false => cases h
              | true =>
                  obtain ⟨links, segments, -, hlast, hnodes⟩ := exists_closedBy (ih hf.2 h)
                  rw [Statement.nodes_before, Forest.nodes, hnodes]
                  exact laidOut_link hplace rfl (fun _ => rfl) hlast segments
          | otherwise =>
              cases isOpen with
              | false => cases h
              | true =>
                  obtain ⟨links, segments, hstops, hlast, hnodes⟩ := exists_closedBy (ih hf.2 h)
                  -- Behind an `else` no member goes on with the chain.
                  obtain rfl := hstops (continuesChain_of_closed h)
                  rw [Statement.nodes_before, Forest.nodes, hnodes]
                  exact laidOut_link hplace rfl (fun hne => absurd rfl hne) hlast segments

/-! ### Statements and members counted -/

/-- The statement starts a block of branches. -/
def Statement.isBranchIf : Statement → Bool
  | .branchIf _ => true
  | _ => false

/-- The statement ends a block of branches. -/
def Statement.isBranchEnd : Statement → Bool
  | .branchEnd => true
  | _ => false

/-- The member is the first of its chain. -/
def Conditional.isFirst : Conditional → Bool
  | .ifTrue _ => true
  | _ => false

namespace Node

/-- The node starts a block of branches. -/
def isBranchIf (n : Node Mark) : Bool :=
  n.statement?.any Statement.isBranchIf

/-- The node ends a block of branches. -/
def isBranchEnd (n : Node Mark) : Bool :=
  n.statement?.any Statement.isBranchEnd

/-- The node is the first member of a chain. -/
def startsChain (n : Node Mark) : Bool :=
  n.conditional?.any Conditional.isFirst

/-- The node neither starts nor ends a block, and is not the first member of a chain. -/
structure Between (n : Node Mark) : Prop where
  not_if : n.isBranchIf = false
  not_end : n.isBranchEnd = false
  not_first : n.startsChain = false

/-- A node that is no member and no statement of a chain. -/
theorem between_of_outside {n : Node Mark} (hmember : n.conditional? = none)
    (hsource : n.isBranch = false) : n.Between := by
  rw [isBranch] at hsource
  cases hs : n.statement? with
  | none => exact ⟨by rw [isBranchIf, hs]; rfl, by rw [isBranchEnd, hs]; rfl,
      by rw [startsChain, hmember]; rfl⟩
  | some s =>
      rw [hs] at hsource
      refine ⟨?_, ?_, by rw [startsChain, hmember]; rfl⟩
      · rw [isBranchIf, hs]
        cases s <;> first | rfl | cases hsource
      · rw [isBranchEnd, hs]
        cases s <;> first | rfl | cases hsource

end Node

/-- A chain starts and ends outside its links. -/
theorem Link.between {l : Link} {n : Node Mark} (hn : n ∈ l.nodes) : n.Between := by
  rcases List.mem_append.1 hn with hblank | hbranch
  · refine Node.between_of_outside ?_ (l.blanks_source n hblank)
    have hleaf := l.blanks_blank n hblank
    cases n with
    | element x => cases hleaf
    | leaf mark kind content => rfl
  · have hmember : (Node.element l.member).startsChain = l.place.isFirst :=
      congrArg (·.any Conditional.isFirst) l.member_place
    have hgoes := l.goes_on
    rw [List.mem_cons, List.mem_singleton] at hbranch
    rcases hbranch with rfl | rfl
    · cases hplace : l.place with
      | ifTrue condition =>
          rw [hplace] at hgoes
          cases hgoes
      | elseIf condition => exact ⟨rfl, rfl, rfl⟩
      | otherwise => exact ⟨rfl, rfl, rfl⟩
    · refine ⟨rfl, rfl, hmember.trans ?_⟩
      cases hplace : l.place with
      | ifTrue condition =>
          rw [hplace] at hgoes
          cases hgoes
      | elseIf condition => rfl
      | otherwise => rfl

/-- A segment starts and ends as many blocks as it has first members. -/
theorem Segment.counts (s : Segment) :
    s.nodes.countP Node.isBranchIf = s.nodes.countP Node.startsChain ∧
      s.nodes.countP Node.isBranchEnd = s.nodes.countP Node.startsChain := by
  cases s with
  | outside n hmember hsource =>
      have hn := Node.between_of_outside hmember hsource
      simp [Segment.nodes, hn.not_if, hn.not_end, hn.not_first]
  | chain c =>
      have hlinks (p : Node Mark → Bool) (hp : ∀ n : Node Mark, n.Between → p n = false) :
          (c.links.flatMap Link.nodes).countP p = 0 := by
        refine List.countP_eq_zero.2 fun n hn => ?_
        obtain ⟨l, -, hn⟩ := List.mem_flatMap.1 hn
        rw [hp n (Link.between hn)]
        exact Bool.false_ne_true
      have hfirst : (Node.element c.first).startsChain = true :=
        congrArg (·.any Conditional.isFirst) c.first_place
      simp [Segment.nodes, Chain.nodes, List.countP_cons, hlinks _ fun _ h => h.not_if,
        hlinks _ fun _ h => h.not_end, hlinks _ fun _ h => h.not_first, hfirst]
      exact ⟨rfl, rfl⟩

/-- A child list that is made up of segments starts and ends as many blocks as it has first
members. -/
theorem counts_of_segments (segments : List Segment) :
    (segments.flatMap Segment.nodes).countP Node.isBranchIf =
        (segments.flatMap Segment.nodes).countP Node.startsChain ∧
      (segments.flatMap Segment.nodes).countP Node.isBranchEnd =
        (segments.flatMap Segment.nodes).countP Node.startsChain := by
  induction segments with
  | nil => exact ⟨rfl, rfl⟩
  | cons s more ih =>
      obtain ⟨hif, hend⟩ := s.counts
      simp only [List.flatMap_cons, List.countP_append, hif, hend, ih.1, ih.2, and_self]

/-! ### All child lists -/

/-- The forest without the statements of chains. -/
def Forest.withoutBranches : Forest Mark → Forest Mark
  | nil => nil
  | element mark name attributes children rest =>
      element mark name attributes children.withoutBranches rest.withoutBranches
  | leaf mark kind content rest =>
      if mark.statement?.any Statement.isBranch then rest.withoutBranches
      else leaf mark kind content rest.withoutBranches

theorem withoutBranches_before {s : Statement} (hs : s.isBranch = true) (rest : Forest Mark) :
    (s.before rest).withoutBranches = rest.withoutBranches :=
  if_pos hs

/-- The pass for chains adds its statements, and changes nothing else. -/
theorem withoutBranches_lowerBranches {f : Forest Mark} (hf : f.LeavesSatisfy Mark.OnlyOutput) :
    (lowerBranches f).withoutBranches = f := by
  induction f with
  | nil => rfl
  | leaf mark kind content rest ih =>
      rw [lowerBranches, Forest.withoutBranches, hf.1.not_branch, if_neg Bool.false_ne_true,
        ih hf.2]
  | element mark name attributes children rest ihc ihr =>
      have hchildren := ihc hf.1
      have hrest := ihr hf.2
      rw [lowerBranches]
      split
      · rw [Forest.withoutBranches, hchildren, hrest]
      · rename_i place hplace
        have hstatement : place.statement.isBranch = true := by cases place <;> rfl
        rw [withoutBranches_before hstatement, Forest.withoutBranches, hchildren]
        split
        · rw [hrest]
        · rw [withoutBranches_before rfl, hrest]

theorem childLists_lowerBranches (f : Forest Mark) :
    (lowerBranches f).childLists = f.childLists.map lowerBranches := by
  have hbelow : (lowerBranches f).elements.map (·.children) =
      (f.elements.map (·.children)).map lowerBranches := by
    induction f with
    | nil => rfl
    | leaf _ _ _ _ ih => exact ih
    | element mark name attributes children rest ihc ihr =>
        rw [lowerBranches]
        split
        · simp [Forest.elements, ihc, ihr]
        · split <;> simp [Statement.before, Forest.elements, ihc, ihr]
  rw [Forest.childLists, Forest.childLists, hbelow, List.map_cons]

theorem danglingSibling?_of_places {f siblings : Forest Mark}
    (h : ∀ p ∈ f.places, dangling? p = none) (hsiblings : siblings ∈ f.childLists) :
    danglingSibling? false siblings = none := by
  have hnone : (placesBehind [] siblings.nodes).findSome? dangling? = none :=
    List.findSome?_eq_none_iff.2 fun p hp => h p (List.mem_flatMap.2 ⟨siblings, hsiblings, hp⟩)
  refine (danglingSibling?_eq [] siblings).trans ?_
  rw [hnone, Option.map_none]

/-- **The pass for chains accepts exactly the well-formed chains.**  Once outputs and attributes are
lowered, the compilation reports a dangling member if, and only if, there is one behind the pass for
outputs; it reports the first, parents in document order and siblings from left to right.  Otherwise
every child list behind the pass for chains is made up of nodes outside all chains and of chains,
with the end of each right behind its last member; it starts and ends as many blocks as it has first
members; and without the statements of chains the forest is the one before the pass.

What an element asks for is what the last of its attributes for a place in a chain says. -/
theorem lower_chains {o : CompilerOptions} {hook : FieldHook} {arch : Forest ι}
    {outputs computed : Forest Mark}
    (houtputs : lowerOutputs o false ((arch.numberEach 1).1.collect o) = .ok outputs)
    (hcomputed : lowerAttributes outputs = .ok computed) (hhook : hook.LeavesChains) :
    (outputs.elements.map fun x => (x.name, x.label.directives.conditional)).Sublist
        (arch.elements.map fun d => (d.name, o.conditional? d.attributes)) ∧
      ((∃ directive tag, lower o hook arch = .error (.danglingConditional directive tag)) ↔
        ∃ p ∈ outputs.places, (dangling? p).isSome = true) ∧
      (∀ directive tag, lower o hook arch = .error (.danglingConditional directive tag) ↔
        outputs.places.findSome? dangling? = some (directive, tag)) ∧
      ((∀ p ∈ outputs.places, dangling? p = none) →
        (∀ siblings ∈ (lowerBranches computed).childLists,
          (∃ segments : List Segment, siblings.nodes = segments.flatMap Segment.nodes) ∧
            siblings.nodes.countP Node.isBranchIf = siblings.nodes.countP Node.startsChain ∧
            siblings.nodes.countP Node.isBranchEnd = siblings.nodes.countP Node.startsChain) ∧
          (lowerBranches computed).withoutBranches = computed) := by
  have hreported (directive : DirectiveName) (tag : String) :=
    lower_eq_danglingError_iff (o := o) houtputs hcomputed hhook (directive, tag)
  refine ⟨conditionals_lowerOutputs houtputs, ?_, hreported, fun hnone => ?_⟩
  · rw [← List.findSome?_isSome_iff, Option.isSome_iff_exists]
    constructor
    · rintro ⟨directive, tag, hlower⟩
      exact ⟨_, (hreported directive tag).1 hlower⟩
    · rintro ⟨⟨directive, tag⟩, hfirst⟩
      exact ⟨directive, tag, (hreported directive tag).2 hfirst⟩
  · have hleaves :=
      leavesSatisfy_lowerAttributes (onlyOutput_lowerOutputs houtputs) hcomputed
    have hplaces : ∀ p ∈ computed.places, dangling? p = none := by
      have hmember := danglingMember?_lowerAttributes hcomputed
      rw [danglingMember?_eq, danglingMember?_eq, List.findSome?_eq_none_iff.2 hnone,
        Option.map_none, Option.map_eq_none_iff] at hmember
      exact List.findSome?_eq_none_iff.1 hmember
    refine ⟨?_, withoutBranches_lowerBranches hleaves⟩
    rw [childLists_lowerBranches]
    intro lowered hlowered
    obtain ⟨siblings, hsiblings, rfl⟩ := List.mem_map.1 hlowered
    have hclosed := danglingSibling?_of_places hplaces hsiblings
    have hleaf : siblings.LeavesSatisfy Mark.OnlyOutput := by
      rcases List.mem_cons.1 hsiblings with rfl | hbelow
      · exact hleaves
      · obtain ⟨x, hx, rfl⟩ := List.mem_map.1 hbelow
        exact hleaves.of_mem_elements hx
    have hsegments := exists_segments hleaf hclosed
    rw [continuesChain_of_closed hclosed] at hsegments
    obtain ⟨segments, hnodes⟩ := hsegments
    rw [hnodes]
    exact ⟨⟨segments, rfl⟩, counts_of_segments segments⟩

/-- A chain of three with blank text in it, or with something else in the place of that text. -/
def pollArch (between : LeafKind) : Forest Unit :=
  .element () "div" []
    (.element () "p" [("t-if", "a")] .nil <|
      .element () "p" [("t-elif", "b")] .nil <|
      .leaf () between " " <|
      .element () "b" [("t-if", "c"), ("t-else", "")] .nil <|
      .element () "span" [] .nil .nil)
    .nil

/-- The same behind the pass for outputs. -/
def pollOutputs (between : LeafKind) : Forest Mark :=
  .element (.source {}) "div" []
    (.element (.source { conditional := some (.ifTrue "a") }) "p" [] .nil <|
      .element (.source { conditional := some (.elseIf "b") }) "p" [] .nil <|
      .leaf (.source {}) between " " <|
      .element (.source { conditional := some .otherwise }) "b" [] .nil <|
      .element (.source {}) "span" [] .nil .nil)
    .nil

/-- The chain goes on behind blank text, and is a block of its own; behind a comment the `else` is
reported. -/
theorem pollArch_chains :
    (∀ siblings ∈ (lowerBranches (pollOutputs .text)).childLists, ∃ segments : List Segment,
      siblings.nodes = segments.flatMap Segment.nodes) ∧
      lower {} .none (pollArch .comment) = .error (.danglingConditional .otherwise "b") := by
  have hhook : FieldHook.none.LeavesChains := by
    intro name attributes found h
    cases h
  have houtputs : ∀ kind, lowerOutputs {} false (((pollArch kind).numberEach 1).1.collect {}) =
      .ok (pollOutputs kind) := by
    intro kind
    cases kind <;> decide +kernel
  have hcomputed : ∀ kind, lowerAttributes (pollOutputs kind) = .ok (pollOutputs kind) := by
    intro kind
    cases kind <;> decide +kernel
  obtain ⟨-, -, -, hlaid⟩ := lower_chains (houtputs .text) (hcomputed .text) hhook
  obtain ⟨-, -, hreported, -⟩ := lower_chains (houtputs .comment) (hcomputed .comment) hhook
  refine ⟨fun siblings hsiblings => ?_, (hreported _ _).2 (by decide +kernel)⟩
  exact ((hlaid (by decide +kernel)).1 siblings hsiblings).1

end ViewCompiler
