/-
**Branches and loops in place.**

The pass for chains looks at the children of one node after the other.  A branch begins in front of
its member; where it ends is only known once the next sibling that is not blank has been looked at.
So what stands behind an open chain has two places: the one where the chain goes on, and the one
behind its end.  The pass for loops writes around one element at a time.

Main definitions:

* `ViewCompiler.Topped` — siblings with the chains among them lowered;
* `ViewCompiler.Scanned` — a tree once the chains among some siblings are ended;
* `ViewCompiler.ChainsEnd` — the pass ends as it should at some siblings, behind any open chain.

Main results:

* `ViewCompiler.ends_loops` — **the pass for loops**;
* `ViewCompiler.ends_scanChains` — the chains among siblings;
* `ViewCompiler.ends_branches` — **the pass for chains**.
-/

import ViewCompiler.Proofs.Template.Blocks
import ViewCompiler.Proofs.Template.InPlace.Steps

set_option relaxedAutoImplicit false
set_option autoImplicit false

namespace ViewCompiler

variable {table : DirectiveTable} {φ : NodeId → Mark} {K : Forest NodeId → Forest NodeId}
  {loose : Forest NodeId} {size : Nat} {id : NodeId} {t : Tree}

/-! ### Loops -/

/-- What the pass for loops does at one element. -/
theorem lowerLoop_eq (t : Tree) (id : NodeId) : t.lowerLoop table id =
    match (table.asks id).foreach, (table.asks id).binding with
    | some expr, some name =>
        (t.writeBefore id (.loopStart name expr)).bind (·.writeAfter id .loopEnd)
    | some _, none => .error (.incompleteLoop (t.tag id) .foreach .binding)
    | none, some _ => .error (.incompleteLoop (t.tag id) .binding .foreach)
    | none, none => .ok t := by
  rw [Tree.lowerLoop, DirectiveTable.asks]
  cases table.get? id <;> rfl

/-- A loop is written around its element. -/
theorem exists_around {children rest : Forest NodeId} {name : String} {attributes : Attributes}
    (hK : Hole K) (ht : Tree.Accounted ⟨K (.element id name attributes children rest), loose, size⟩)
    (first last : Statement) :
    (Tree.writeBefore ⟨K (.element id name attributes children rest), loose, size⟩ id first).bind
        (·.writeAfter id last) =
      .ok ⟨K (.leaf size .raw first.text (.element id name attributes children
        (.leaf (size + 1) .raw last.text rest))), loose, size + 2⟩ ∧
    Tree.Accounted ⟨K (.leaf size .raw first.text (.element id name attributes children
      (.leaf (size + 1) .raw last.text rest))), loose, size + 2⟩ := by
  have hs := Site.Open.inContent hK loose
  obtain ⟨hbefore, ht⟩ := hs.writeBefore (n := .element ⟨id, name, attributes, children⟩) ht
    (Site.Open.parent?_ne_none hK ht List.mem_cons_self) first
  have hfront := hK.behind (.leaf size .raw first.text .nil)
  obtain ⟨hafter, ht⟩ := (Site.Open.inContent hfront loose).writeAfter
    (n := .element ⟨id, name, attributes, children⟩) ht
    (Site.Open.parent?_ne_none hfront ht List.mem_cons_self) last
  exact ⟨bind_of_ok hbefore hafter, ht⟩

/-- **The pass for loops.** -/
theorem ends_loops (hφ : ∀ x, (φ x).directives = table.asks x) (f : Forest NodeId)
    (hK : Hole K) (hbelow : table.Below size) (ht : Tree.Accounted ⟨K f, loose, size⟩) :
    Ends (incompleteLoop? (f.map φ)) (LandsFrom table K loose size (lowerLoops (f.map φ)))
      (f.elementLabels.foldlM (fun t => t.lowerLoop table) ⟨K f, loose, size⟩) := by
  induction f generalizing K size with
  | nil => exact .ok ⟨size, Nat.le_refl _, .nil, rfl, ht, rfl⟩
  | leaf id kind content rest ih =>
      exact (ih (hK.behind (.leaf id kind content .nil)) hbelow ht).mono fun t h => h.leaf (hφ id)
  | element id name attributes children rest ihc ihr =>
      have htag : Tree.tag ⟨K (.element id name attributes children rest), loose, size⟩ id = name :=
        (Site.Open.inContent hK loose).tag_head ht
      rw [Forest.elementLabels_element, List.foldlM_cons, lowerLoop_eq, Forest.map, incompleteLoop?,
        lowerLoops, hφ]
      cases (table.asks id).foreach with
      | none =>
          cases (table.asks id).binding with
          | none =>
              refine ends_descend (G := .element id name attributes)
                (M := .element (φ id) name attributes) (hK.below .nil id name attributes)
                (fun x => hK.behind (.element id name attributes x .nil)) (Nat.le_refl _) ht
                (fun hK' => ihc hK' hbelow) (fun hk hK' => ihr hK' (hbelow.mono hk))
                fun f g m m' hf hg => ?_
              rw [Forest.map, Forest.map, hf, hg, hφ]
          | some binding =>
              simp only [htag]
              exact .error _
      | some expr =>
          cases (table.asks id).binding with
          | none =>
              simp only [htag]
              exact .error _
          | some binding =>
              obtain ⟨hwrite, ht⟩ := exists_around hK ht (.loopStart binding expr) .loopEnd
              have hbelow' : table.Below (size + 2) := hbelow.mono (Nat.le_add_right _ _)
              simp only [hwrite]
              refine ends_descend (G := fun x y => .leaf size .raw
                (Statement.loopStart binding expr).text (.element id name attributes x
                  (.leaf (size + 1) .raw Statement.loopEnd.text y)))
                (M := fun m m' => (Statement.loopStart binding expr).before
                  (.element (φ id) name attributes m (Statement.loopEnd.before m')))
                (fun y => hK.below (.leaf size .raw _ .nil) id name attributes (.leaf _ .raw _ y))
                (fun x => hK.behind (.leaf size .raw _ (.element id name attributes x
                  (.leaf _ .raw _ .nil)))) (Nat.le_add_right _ _) ht (fun hK' => ihc hK' hbelow')
                (fun hk hK' => ihr hK' (hbelow'.mono hk)) fun f g m m' hf hg => ?_
              simp only [Forest.map, Statement.map_before, hf, hg, hφ,
                hbelow.asks_eq (Nat.le_refl size), hbelow.asks_eq (Nat.le_succ size)]

/-! ### Chains -/

/-- What the pass for chains does at one child. -/
theorem joinChain_eq (t : Tree) (chain : Option (NodeId × Bool)) (id : NodeId) :
    Tree.joinChain table (t, chain) id =
      if t.isBlankText id then .ok (t, chain)
      else
        match (table.asks id).conditional with
        | none => (t.closeChain chain).map (·, none)
        | some (.ifTrue condition) =>
            (t.closeChain chain).bind fun t =>
              (t.writeBefore id (.branchIf condition)).map (·, some (id, false))
        | some (.elseIf condition) =>
            Tree.continueChain .elseIf false (.elseIf condition) t id chain
        | some .otherwise => Tree.continueChain .otherwise true .otherwise t id chain := by
  rw [Tree.joinChain, DirectiveTable.asks]
  cases table.get? id <;> rfl

/-- Siblings with the chains among them lowered, what is below them left alone. -/
inductive Topped (table : DirectiveTable) (φ : NodeId → Mark) :
    Forest NodeId → Forest NodeId → Prop
  | nil : Topped table φ .nil .nil
  | leaf {id : NodeId} {kind : LeafKind} {content : String} {f h : Forest NodeId}
      (hrest : Topped table φ f h) :
      Topped table φ (.leaf id kind content f) (.leaf id kind content h)
  | other {id : NodeId} {name : String} {attributes : Attributes} {children f h : Forest NodeId}
      (hplace : (table.asks id).conditional = none) (hrest : Topped table φ f h) :
      Topped table φ (.element id name attributes children f)
        (.element id name attributes children h)
  | member {id x y : NodeId} {name : String} {attributes : Attributes} {c : Conditional}
      {children f h : Forest NodeId} (hplace : (table.asks id).conditional = some c)
      (hx : table.asks x = {}) (hy : table.asks y = {}) (hrest : Topped table φ f h) :
      Topped table φ (.element id name attributes children f)
        (.leaf x .raw c.statement.text (.element id name attributes children
          (if continuesChain (f.map φ) then h else .leaf y .raw Statement.branchEnd.text h)))

/-- A chain that can be continued is open. -/
def canContinue : Option (NodeId × Bool) → Bool
  | some (_, isLast) => !isLast
  | none => false

/-- Goes through children and ends the last chain among them. -/
def Tree.scanChains (table : DirectiveTable) (ids : List NodeId)
    (s : Tree × Option (NodeId × Bool)) : Except CompileError Tree :=
  (ids.foldlM (Tree.joinChain table) s).bind fun s => s.1.closeChain s.2

theorem Tree.scanChains_cons (id : NodeId) (ids : List NodeId)
    (s : Tree × Option (NodeId × Bool)) :
    Tree.scanChains table (id :: ids) s =
      (Tree.joinChain table s id).bind (Tree.scanChains table ids) := by
  rw [scanChains, List.foldlM_cons]
  cases Tree.joinChain table s id <;> rfl

/-- What has become of siblings when all chains among them are ended.  `P` puts them behind the open
chain, if there is one, and `Q` behind its end. -/
def Scanned (table : DirectiveTable) (φ : NodeId → Mark) (P : Forest NodeId → Forest NodeId)
    (Q : NodeId → Forest NodeId → Forest NodeId) (loose : Forest NodeId) (size : Nat)
    (f : Forest NodeId) (t : Tree) : Prop :=
  ∃ k h y, size ≤ k ∧ table.asks y = {} ∧ Topped table φ f h ∧ t.Accounted ∧
    t = ⟨if continuesChain (f.map φ) then P h else Q y h, loose, k⟩

/-- The open chain in front of what fills `P` can be ended, which puts the same into `Q`. -/
def ClosesTo (loose : Forest NodeId) (chain : Option (NodeId × Bool))
    (P : Forest NodeId → Forest NodeId) (Q : NodeId → Forest NodeId → Forest NodeId) : Prop :=
  ∀ x k, Tree.Accounted ⟨P x, loose, k⟩ → ∃ k', k ≤ k' ∧
    Tree.closeChain ⟨P x, loose, k⟩ chain = .ok ⟨Q k x, loose, k'⟩ ∧
    Tree.Accounted ⟨Q k x, loose, k'⟩

theorem ClosesTo.none (P : Forest NodeId → Forest NodeId) :
    ClosesTo loose none P fun _ => P :=
  fun _ k hx => ⟨k, Nat.le_refl k, rfl, hx⟩

/-- The pass for chains ends as it should at the siblings `f`, whatever chain is open in front of
them. -/
def ChainsEnd (table : DirectiveTable) (φ : NodeId → Mark) (loose f : Forest NodeId) : Prop :=
  ∀ ⦃size : Nat⦄ ⦃chain : Option (NodeId × Bool)⦄ ⦃P : Forest NodeId → Forest NodeId⦄
    ⦃Q : NodeId → Forest NodeId → Forest NodeId⦄, Hole P → (∀ y, Hole (Q y)) →
    ClosesTo loose chain P Q → table.Below size → Tree.Accounted ⟨P f, loose, size⟩ →
    Ends (danglingSibling? (canContinue chain) (f.map φ)) (Scanned table φ P Q loose size f)
      (Tree.scanChains table f.roots (⟨P f, loose, size⟩, chain))

section ChainSteps

variable {rest : Forest NodeId} {P : Forest NodeId → Forest NodeId}
  {Q : NodeId → Forest NodeId → Forest NodeId} {chain : Option (NodeId × Bool)} {k : Nat}
  {name : String} {attributes : Attributes} {children : Forest NodeId}

/-- At a sibling `G` that is no member the open chain ends. -/
theorem ChainsEnd.closing (ih : ChainsEnd table φ loose rest) {G : Forest NodeId → Forest NodeId}
    (hQ : ∀ y, Hole fun x => Q y (G x)) (hclose : ClosesTo loose chain P Q)
    (hbelow : table.Below size) (ht : Tree.Accounted ⟨P (G rest), loose, size⟩)
    (hstop : continuesChain ((G rest).map φ) = false)
    (htop : ∀ {h}, Topped table φ rest h → Topped table φ (G rest) (G h)) :
    Ends (danglingSibling? false (rest.map φ)) (Scanned table φ P Q loose size (G rest))
      (((Tree.closeChain ⟨P (G rest), loose, size⟩ chain).map (·, none)).bind
        (Tree.scanChains table rest.roots)) := by
  obtain ⟨k, hk, hend, ht⟩ := hclose _ size ht
  rw [hend]
  refine (ih (hQ size) (fun _ => hQ size) (.none _) (hbelow.mono hk) ht).mono ?_
  rintro _ ⟨k', h, y, hk', -, hh, hacc, rfl⟩
  refine ⟨k', G h, size, Nat.le_trans hk hk', hbelow.asks_eq (Nat.le_refl _), htop hh, hacc, ?_⟩
  rw [hstop, ite_self]
  rfl

/-- A branch is written in front of a member, which then is the open chain. -/
theorem writeBranch (hP : Hole P) (c : Conditional)
    (ht : Tree.Accounted ⟨P (.element id name attributes children rest), loose, k⟩)
    (isLast : Bool) :
    Tree.writeBefore ⟨P (.element id name attributes children rest), loose, k⟩ id c.statement =
      .ok ⟨P (.leaf k .raw c.statement.text (.element id name attributes children rest)), loose,
        k + 1⟩ ∧
    Tree.Accounted ⟨P (.leaf k .raw c.statement.text (.element id name attributes children rest)),
      loose, k + 1⟩ ∧
    ClosesTo loose (some (id, isLast))
      (fun x => P (.leaf k .raw c.statement.text (.element id name attributes children x)))
      (fun y x => P (.leaf k .raw c.statement.text (.element id name attributes children
        (.leaf y .raw Statement.branchEnd.text x)))) := by
  have hfront := hP.behind (.leaf k .raw c.statement.text .nil)
  obtain ⟨hwrite, ht⟩ := (Site.Open.inContent hP loose).writeBefore
    (n := .element ⟨id, name, attributes, children⟩) ht
    (Site.Open.parent?_ne_none hP ht List.mem_cons_self) c.statement
  exact ⟨hwrite, ht, fun x k' hx => ⟨k' + 1, Nat.le_succ k',
    (Site.Open.inContent hfront loose).writeAfter
      (n := .element ⟨id, name, attributes, children⟩) hx
      (Site.Open.parent?_ne_none hfront hx List.mem_cons_self) .branchEnd⟩⟩

/-- A member begins a branch, which ends behind it or goes on with the next member. -/
theorem ChainsEnd.member (ih : ChainsEnd table φ loose rest) {c : Conditional}
    (hplace : (table.asks id).conditional = some c) (isLast : Bool) (hP : Hole P)
    (hbelow : table.Below k)
    (ht : Tree.Accounted ⟨P (.element id name attributes children rest), loose, k⟩) :
    Ends (danglingSibling? (!isLast) (rest.map φ))
      (fun t => ∃ k' h, k ≤ k' ∧ Topped table φ (.element id name attributes children rest) h ∧
        t.Accounted ∧ t = ⟨P h, loose, k'⟩)
      (((Tree.writeBefore ⟨P (.element id name attributes children rest), loose, k⟩ id
          c.statement).map (·, some (id, isLast))).bind (Tree.scanChains table rest.roots)) := by
  obtain ⟨hwrite, ht, hclose⟩ := writeBranch hP c ht isLast
  have hfront := hP.behind (.leaf k .raw c.statement.text .nil)
  rw [hwrite]
  refine (ih (hfront.behind (.element id name attributes children .nil))
    (fun y => hfront.behind (.element id name attributes children
      (.leaf y .raw Statement.branchEnd.text .nil)))
    hclose (hbelow.mono (Nat.le_succ k)) ht).mono ?_
  rintro _ ⟨k', h, y, hk', hy, hh, hacc, rfl⟩
  refine ⟨k', _, Nat.le_trans (Nat.le_succ k) hk',
    .member hplace (hbelow.asks_eq (Nat.le_refl k)) hy hh, hacc, ?_⟩
  split <;> rfl

/-- A member that goes on with a chain needs one that is open and not at its last branch. -/
theorem ChainsEnd.follow (ih : ChainsEnd table φ loose rest) {c : Conditional}
    (hplace : (table.asks id).conditional = some c) (directive : DirectiveName) (isLast : Bool)
    (hP : Hole P) (hbelow : table.Below size)
    (ht : Tree.Accounted ⟨P (.element id name attributes children rest), loose, size⟩)
    (hcontinues : continuesChain
      ((Forest.element id name attributes children rest).map φ) = true) :
    Ends (if canContinue chain then danglingSibling? (!isLast) (rest.map φ)
        else some (.danglingConditional directive name))
      (Scanned table φ P Q loose size (.element id name attributes children rest))
      ((Tree.continueChain directive isLast c
          ⟨P (.element id name attributes children rest), loose, size⟩ id chain).bind
        (Tree.scanChains table rest.roots)) := by
  have htag : Tree.tag ⟨P (.element id name attributes children rest), loose, size⟩ id = name :=
    (Site.Open.inContent hP loose).tag_head ht
  rcases chain with _ | ⟨last, _ | _⟩
  · simp only [Tree.continueChain, htag]
    exact .error _
  · refine (ih.member hplace isLast hP hbelow ht).mono ?_
    rintro _ ⟨k', h, hk', hh, hacc, rfl⟩
    refine ⟨k', h, size, hk', hbelow.asks_eq (Nat.le_refl _), hh, hacc, ?_⟩
    rw [if_pos hcontinues]
  · simp only [Tree.continueChain, htag]
    exact .error _

end ChainSteps

/-- **The chains among siblings**, behind a chain that may still be open. -/
theorem ends_scanChains (hφ : ∀ x, (φ x).directives = table.asks x) (f : Forest NodeId)
    (hleaf : f.LeavesSatisfy fun x _ _ => table.asks x = {}) : ChainsEnd table φ loose f := by
  induction f with
  | nil =>
      intro size chain P Q hP hQ hclose hbelow ht
      obtain ⟨k, hk, hend, ht⟩ := hclose .nil size ht
      exact ⟨_, hend, k, .nil, size, hk, hbelow.asks_eq (Nat.le_refl _), .nil, ht, rfl⟩
  | leaf id kind content rest ih =>
      intro size chain P Q hP hQ hclose hbelow ht
      have hblank : Tree.isBlankText ⟨P (.leaf id kind content rest), loose, size⟩ id =
          Forest.isBlankLeaf kind content :=
        (Site.Open.inContent hP loose).isBlankText_leaf ht
      have hfree : table.asks id = {} := hleaf.1
      have hbehind := fun y => (hQ y).behind (.leaf id kind content .nil)
      rw [Forest.roots, Tree.scanChains_cons, joinChain_eq, hfree, Forest.map, danglingSibling?,
        hblank]
      cases hkind : Forest.isBlankLeaf kind content with
      | true =>
          -- the chain stays open across blank text
          rw [if_pos rfl, Bool.true_and]
          refine (ih hleaf.2 (hP.behind (.leaf id kind content .nil)) hbehind
            (fun x => hclose _) hbelow ht).mono ?_
          rintro _ ⟨k, h, y, hk, hy, hh, hacc, rfl⟩
          refine ⟨k, .leaf id kind content h, y, hk, hy, .leaf hh, hacc, ?_⟩
          rw [Forest.map, continuesChain, hkind, Bool.true_and]
          rfl
      | false =>
          rw [if_neg Bool.false_ne_true, Bool.false_and]
          exact (ih hleaf.2).closing (G := .leaf id kind content) hbehind hclose hbelow ht
            (by rw [Forest.map, continuesChain, hkind, Bool.false_and]) .leaf
  | element id name attributes children rest _ ih =>
      intro size chain P Q hP hQ hclose hbelow ht
      have hblank : Tree.isBlankText ⟨P (.element id name attributes children rest), loose, size⟩ id
          = false :=
        (Site.Open.inContent hP loose).isBlankText_element ht
      rw [Forest.roots, Tree.scanChains_cons, joinChain_eq, Forest.map, danglingSibling?, hφ,
        hblank, if_neg Bool.false_ne_true]
      cases hplace : (table.asks id).conditional with
      | none =>
          exact (ih hleaf.2).closing (G := .element id name attributes children)
            (fun y => (hQ y).behind (.element id name attributes children .nil)) hclose hbelow ht
            (by rw [Forest.map, continuesChain, hφ, hplace]) (.other hplace)
      | some c =>
          cases c with
          | ifTrue condition =>
              obtain ⟨k, hk, hend, ht⟩ := hclose _ size ht
              simp only [hend]
              refine ((ih hleaf.2).member hplace false (hQ size) (hbelow.mono hk) ht).mono ?_
              rintro _ ⟨k', h, hk', hh, hacc, rfl⟩
              refine ⟨k', h, size, Nat.le_trans hk hk', hbelow.asks_eq (Nat.le_refl _), hh, hacc,
                ?_⟩
              rw [Forest.map, continuesChain, hφ, hplace]
              rfl
          | elseIf condition =>
              exact (ih hleaf.2).follow hplace .elseIf false hP hbelow ht
                (by rw [Forest.map, continuesChain, hφ, hplace])
          | otherwise =>
              exact (ih hleaf.2).follow hplace .otherwise true hP hbelow ht
                (by rw [Forest.map, continuesChain, hφ, hplace])

/-- The chains among the children of one node. -/
theorem ends_lowerChains_at (hφ : ∀ x, (φ x).directives = table.asks x) {f : Forest NodeId}
    (hleaf : f.LeavesSatisfy fun x _ _ => table.asks x = {}) {P : Forest NodeId → Forest NodeId}
    (hP : Hole P) (hbelow : table.Below size) (ht : Tree.Accounted ⟨P f, loose, size⟩)
    (hchildren : (Tree.mk (P f) loose size).children id = f) :
    Ends (danglingSibling? false (f.map φ))
      (fun t => ∃ k h, size ≤ k ∧ Topped table φ f h ∧ t.Accounted ∧ t = ⟨P h, loose, k⟩)
      (Tree.lowerChains table ⟨P f, loose, size⟩ id) := by
  have hscan := ends_scanChains hφ f hleaf hP (fun _ => hP) (.none P) hbelow ht
  rw [Tree.lowerChains, hchildren]
  refine hscan.mono ?_
  rintro _ ⟨k, h, y, hk, -, hh, hacc, rfl⟩
  exact ⟨k, h, hk, hh, hacc, by rw [ite_self]⟩

/-- The chains below siblings, among which they are lowered already. -/
theorem ends_lowerChains (hφ : ∀ x, (φ x).directives = table.asks x) {f h : Forest NodeId}
    (hleaf : f.LeavesSatisfy fun x _ _ => table.asks x = {}) (hh : Topped table φ f h)
    (hK : Hole K) (hbelow : table.Below size) (ht : Tree.Accounted ⟨K h, loose, size⟩) :
    Ends (danglingBelow? (f.map φ)) (LandsFrom table K loose size (lowerBranches (f.map φ)))
      (f.elementLabels.foldlM (Tree.lowerChains table) ⟨K h, loose, size⟩) := by
  induction f generalizing h K size with
  | nil =>
      cases hh
      exact .ok ⟨size, Nat.le_refl _, .nil, rfl, ht, rfl⟩
  | leaf id kind content rest ih =>
      cases hh with
      | leaf hrest =>
          exact (ih hleaf.2 hrest (hK.behind (.leaf id kind content .nil)) hbelow ht).mono
            fun t h => h.leaf (hφ id)
  | element id name attributes children rest ihc ihr =>
      have hat : ∀ {R : Forest NodeId → Forest NodeId} {after : Forest NodeId}, Hole R →
          Tree.Accounted ⟨R (.element id name attributes children after), loose, size⟩ → _ :=
        fun {R after} hR ht => ends_lowerChains_at hφ hleaf.1
          (hR.below .nil id name attributes after) hbelow ht
          ((Site.Open.inContent hR loose).children_head ht)
      rw [Forest.elementLabels_element, List.foldlM_cons, Forest.map, danglingBelow?, lowerBranches,
        hφ]
      cases hh with
      | other hplace hrest =>
          rw [hplace]
          refine (hat hK ht).bind ?_
          rintro _ ⟨k, h', hk, hh', ht, rfl⟩
          refine ends_descend (G := .element id name attributes)
            (M := .element (φ id) name attributes) (hK.below .nil id name attributes)
            (fun x => hK.behind (.element id name attributes x .nil)) hk ht
            (fun hK' => ihc hleaf.1 hh' hK' (hbelow.mono hk))
            (fun hk' hK' => ihr hleaf.2 hrest hK' (hbelow.mono (Nat.le_trans hk hk')))
            fun f g m m' hf hg => ?_
          rw [Forest.map, Forest.map, hf, hg, hφ]
      | @member _ x y _ _ c _ _ h hplace hx hy hrest =>
          have hfront := hK.behind (.leaf x .raw c.statement.text .nil)
          rw [hplace]
          refine (hat hfront ht).bind ?_
          rintro _ ⟨k, h', hk, hh', ht, rfl⟩
          cases hcontinues : continuesChain (rest.map φ) with
          | true =>
              rw [hcontinues, if_pos rfl] at ht
              refine ends_descend (G := fun u v => .leaf x .raw c.statement.text
                  (.element id name attributes u v))
                (M := fun m m' => c.statement.before (.element (φ id) name attributes m m'))
                (hfront.below .nil id name attributes)
                (fun u => hfront.behind (.element id name attributes u .nil)) hk ht
                (fun hK' => ihc hleaf.1 hh' hK' (hbelow.mono hk))
                (fun hk' hK' => ihr hleaf.2 hrest hK' (hbelow.mono (Nat.le_trans hk hk')))
                fun f g m m' hf hg => ?_
              simp only [Forest.map, Statement.map_before, hf, hg, hφ, hx]
          | false =>
              rw [hcontinues, if_neg Bool.false_ne_true] at ht
              refine ends_descend (G := fun u v => .leaf x .raw c.statement.text
                  (.element id name attributes u (.leaf y .raw Statement.branchEnd.text v)))
                (M := fun m m' => c.statement.before
                  (.element (φ id) name attributes m (Statement.branchEnd.before m')))
                (fun v => hfront.below .nil id name attributes (.leaf y .raw _ v))
                (fun u => hfront.behind (.element id name attributes u (.leaf y .raw _ .nil))) hk ht
                (fun hK' => ihc hleaf.1 hh' hK' (hbelow.mono hk))
                (fun hk' hK' => ihr hleaf.2 hrest hK' (hbelow.mono (Nat.le_trans hk hk')))
                fun f g m m' hf hg => ?_
              simp only [Forest.map, Statement.map_before, hf, hg, hφ, hx, hy]

/-- **The pass for chains.** -/
theorem ends_branches (hφ : ∀ x, (φ x).directives = table.asks x) {f : Forest NodeId}
    (hleaf : f.LeavesSatisfy fun x _ _ => table.asks x = {}) (hbelow : table.Below size)
    (ht : Tree.Accounted ⟨f, loose, size⟩) :
    Ends (danglingMember? (f.map φ))
      (LandsFrom table (fun x => x) loose size (lowerBranches (f.map φ)))
      ((Tree.root :: f.elementLabels).foldlM (Tree.lowerChains table) ⟨f, loose, size⟩) := by
  rw [List.foldlM_cons]
  refine (ends_lowerChains_at hφ hleaf Hole.whole hbelow ht rfl).bind ?_
  rintro _ ⟨k, h, hk, hh, hacc, rfl⟩
  refine (ends_lowerChains hφ hleaf hh Hole.whole (hbelow.mono hk) hacc).mono ?_
  rintro _ ⟨k', hk', hlands⟩
  exact ⟨k', Nat.le_trans hk hk', hlands⟩

end ViewCompiler
