/-
**Loading, step by step.**

A fragment is loaded in many steps, and most of them can fail: its attributes are read, its
specifications one after the other, its content is copied into a tree of its own node by node, its
id is looked up.  Some change the store: an id is reserved, a sequence number is handed out, an
entry is added.  Here loading is carried out in these steps, on a store that each of them finds as
the one before has left it, also when it fails.  No step behind the first change of the store can
fail, and the trees refuse no node; so the steps do what loading as a whole does.

Main definitions:

* `ViewCompiler.LoadFailure`, `ViewCompiler.Loading` — why loading stops, and steps on a store;
* `ViewCompiler.Loading.insert`, `ViewCompiler.Loading.enqueue` — the steps of taking in documents
  and patches;
* `ViewCompiler.Loading.copied`, `ViewCompiler.Loading.specs` — the steps of reading a content;
* `ViewCompiler.Loading.element`, `ViewCompiler.Loading.node` — the steps of loading a fragment;
* `ViewCompiler.Store.AddsDocument`, `ViewCompiler.Store.AddsPatch` — a store with one entry more.

Main results:

* `ViewCompiler.Loading.copied_eq` — a content is copied without a refusal;
* `ViewCompiler.Loading.element_eq` — the steps do what loading as a whole does;
* `ViewCompiler.Loading.node_allOrNothing` — **loading is all or nothing**.
-/

import ViewCompiler.Markup.Reader
import ViewCompiler.Proofs.Inheritance.Integrity
import ViewCompiler.Proofs.Markup.Editing
import ViewCompiler.Proofs.Markup.Pieces
import ViewCompiler.Proofs.Markup.Relabelling

set_option relaxedAutoImplicit false
set_option autoImplicit false

namespace ViewCompiler

variable {ι : Type}

/-- Why loading stops: the fragment is at fault, or a tree that a content is copied into refuses a
node. -/
inductive LoadFailure where
  | fault (error : LoadError)
  | tree (target : DocumentId) (error : TreeError)
  deriving DecidableEq, Repr

/-- Steps on a store.  Where they fail, the store stays as they have made it by then. -/
abbrev Loading := EStateM LoadFailure Store

namespace Loading

/-! ### Steps -/

/-- Goes on with an outcome, or fails with its error. -/
def outcome {α : Type} : Except LoadError α → Loading α
  | .ok a => pure a
  | .error error => throw (.fault error)

/-- Hands out the next sequence number. -/
def nextSequence : Loading Nat := do
  modify fun s => { s with counter := s.counter + 1 }
  return (← get).counter

/-- Fails if an id is taken. -/
def checkFree (id : DocumentId) : Loading Unit := fun s =>
  if s.taken id then .error (.fault (.duplicateId id)) s else .ok () s

/-- Takes in a loaded document. -/
def insert (d : Document) : Loading Unit := do
  checkFree d.id
  let sequence ← nextSequence
  modify fun s => { s with stored := s.stored ++ [{ d with sequence := sequence }] }

/-- Reserves the id that a patch announces. -/
def reserve (id : DocumentId) : Loading Unit := do
  checkFree id
  modify fun s => { s with reserved := id :: s.reserved }

/-- Puts a patch into the queue; the id that it announces is reserved before. -/
def enqueue (p : PendingPatch) : Loading Unit := do
  p.newId.forM reserve
  let sequence ← nextSequence
  modify fun s => { s with pending := s.pending ++ [{ p with sequence := sequence }] }

/-- Copies siblings into a tree of their own: all copies are loose pieces first, and become the
content one by one. -/
def copied (target : DocumentId) (siblings : Forest ι) : Loading Tree :=
  let (copies, t) := Tree.empty.importEach siblings
  match t.appendEach Tree.root copies.roots with
  | .ok t => pure t
  | .error error => throw (.tree target error)

/-- Reads the specification that an element stands for. -/
def spec (target : DocumentId) (e : Element ι) : Loading PatchSpec := do
  let position ← outcome ((PatchSpec.positionOf e).mapError (.patch target))
  let locator ← outcome ((PatchSpec.locatorOf e).mapError (.patch target))
  let body ← copied target e.children
  return ⟨locator, position, body.plain⟩

/-- Reads specifications, up to the first node that keeps from it. -/
def specs (target : DocumentId) : List (Node ι) → Loading (List PatchSpec)
  | [] => return []
  | .element e :: more => do
      let first ← spec target e
      return first :: (← specs target more)
  | .leaf _ .text content :: more => do
      outcome (if allBlank content then .ok () else .error (.strayText target (trimmed content)))
      specs target more
  | .leaf .. :: more => specs target more

/-- Queues the content of a fragment as a patch on `target`. -/
def patch (e : Element ι) (target : DocumentId) (priority : Option Int) : Loading Loaded := do
  let specs ← specs target e.children.nodes
  enqueue
    { target := target, newId := e.attr? "id", specs := specs, priority := priority,
      owner := e.attr? "model" }
  return .pending target (e.attr? "id")

/-- Stores the content of a fragment as a document. -/
def document (e : Element ι) (priority : Option Int) : Loading Loaded := do
  let id ← outcome ((e.attr? "id").elim (.error (.missingId e.name)) .ok)
  let owner ← outcome (ownerOf e id)
  let arch ← copied id e.children
  let first ← outcome (arch.rootElement?.elim (.error (.emptyArch id)) .ok)
  insert
    { id := id, owner := owner
      kind := if e.name = templateTag then .template else .ofRootTag first.name
      priority := priority.getD defaultPriority, arch := arch.plain }
  return .document id

/-- Loads one element as a fragment. -/
def element (e : Element ι) : Loading Loaded := do
  outcome (if isFragmentTag e.name then .ok () else .error (.unknownRoot e.name))
  let priority ← outcome (priorityOf e)
  match e.attr? "inherit_id" with
  | some target => patch e target priority
  | none => document e priority

/-- Loads one node of a tree as a fragment. -/
def node (t : Tree) (id : NodeId) : Loading Loaded :=
  match t.find? id with
  | some (.element e) => element e
  | _ => throw (.fault (.unknownRoot ""))

/-! ### Steps that leave the store alone -/

/-- **A content is copied without a refusal.** -/
theorem copied_eq (target : DocumentId) (siblings : Forest ι) :
    copied target siblings = pure (Tree.ofPlain siblings) := by
  have hacc := Tree.accounted_empty.importEach siblings
  have hroot : Tree.root ∈ Tree.root :: (Tree.empty.importEach siblings).2.content.labels :=
    List.mem_cons_self
  obtain ⟨t, happend, -, ht⟩ := hacc.appendEach_loose (D := .nil) (E := .nil)
    (F := (siblings.numberEach 1).1) rfl hroot rfl
  have hcopy : t = Tree.ofPlain siblings := ht
  change (match (Tree.empty.importEach siblings).2.appendEach Tree.root
    (siblings.numberEach 1).1.roots with
    | .ok t => (pure t : Loading Tree)
    | .error error => throw (LoadFailure.tree target error)) = _
  rw [happend, hcopy]

theorem spec_eq (target : DocumentId) (e : Element ι) :
    spec target e = outcome ((PatchSpec.ofElement e).mapError (.patch target)) := by
  simp only [spec, copied_eq, PatchSpec.ofElement]
  cases PatchSpec.positionOf e with
  | error error => rfl
  | ok position =>
      cases PatchSpec.locatorOf e with
      | error error => rfl
      | ok locator =>
          change (pure ⟨locator, position, (Tree.ofPlain e.children).plain⟩ : Loading PatchSpec) = _
          rw [Tree.plain, Tree.ofPlain, e.children.plain_numberEach]
          rfl

/-- Specifications are read without a look at the store. -/
theorem specs_eq (target : DocumentId) (nodes : List (Node ι)) :
    specs target nodes = outcome (readSpecs target nodes) := by
  fun_induction readSpecs target nodes with
  | case1 => rfl
  | case2 e more error hspec =>
      rw [specs, spec_eq, hspec]
      rfl
  | case3 e more first hspec ih =>
      rw [specs, spec_eq, hspec, ih]
      cases readSpecs target more <;> rfl
  | case4 label content more hblank ih =>
      rw [specs, if_pos hblank, ih]
      rfl
  | case5 label content more hblank =>
      rw [specs, if_neg hblank]
      rfl
  | case6 more label kind content hkind ih =>
      rw [specs, ih]
      exact hkind

/-! ### Steps that change the store -/

/-- An operation tried as a whole: where it fails, the store is the one before. -/
def attempt {α : Type} (operation : Store → Except LoadError (α × Store)) : Loading α :=
  fun s => match operation s with
    | .ok (a, t) => .ok a t
    | .error error => .error (.fault error) s

theorem attempt_run_ok {α : Type} {operation : Store → Except LoadError (α × Store)} {s t : Store}
    {a : α} (h : (attempt operation).run s = .ok a t) : operation s = .ok (a, t) := by
  change attempt operation s = _ at h
  rw [attempt] at h
  split at h
  · rename_i hok
    cases h
    exact hok
  · cases h

theorem attempt_run_error {α : Type} {operation : Store → Except LoadError (α × Store)}
    {s t : Store} {failure : LoadFailure}
    (h : (attempt operation).run s = .error failure t) :
    t = s ∧ ∃ error, failure = .fault error := by
  change attempt operation s = _ at h
  rw [attempt] at h
  split at h
  · cases h
  · cases h
    exact ⟨rfl, _, rfl⟩

theorem checkFree_bind {α : Type} (id : DocumentId) (f : Unit → Loading α) (s : Store) :
    (checkFree id >>= f) s =
      if s.taken id then .error (.fault (.duplicateId id)) s else f () s := by
  simp only [bind, EStateM.bind, checkFree]
  cases s.taken id <;> rfl

theorem reserve_bind {α : Type} (id : DocumentId) (f : Unit → Loading α) (s : Store) :
    (reserve id >>= f) s =
      if s.taken id then .error (.fault (.duplicateId id)) s
      else f () { s with reserved := id :: s.reserved } := by
  simp only [reserve, bind, EStateM.bind, checkFree]
  cases s.taken id <;> rfl

theorem insert_eq (d : Document) :
    insert d = attempt fun s => (s.insert d).map ((), ·) := by
  funext s
  rw [insert, checkFree_bind, attempt, Store.insert]
  cases s.taken d.id <;> rfl

theorem enqueue_eq (p : PendingPatch) :
    enqueue p = attempt fun s => (s.enqueue p).map ((), ·) := by
  funext s
  rw [enqueue, attempt, Store.enqueue]
  cases p.newId with
  | none => rfl
  | some id =>
      rw [Option.forM, reserve_bind]
      dsimp only
      cases s.taken id <;> rfl

/-! ### A fragment -/

theorem outcome_ok_bind {α β : Type} (a : α) (f : α → Loading β) :
    outcome (.ok a) >>= f = f a := rfl

theorem attempt_bind_pure {β : Type} (operation : Store → Except LoadError Store) (b : β) :
    ((attempt fun s => (operation s).map ((), ·)) >>= fun _ => pure b) =
      attempt fun s => (operation s).map (b, ·) := by
  funext s
  simp only [bind, EStateM.bind, attempt]
  cases operation s <;> rfl

theorem patch_eq (e : Element ι) (target : DocumentId) (priority : Option Int) :
    patch e target priority = attempt fun s => (patchOf e target priority).bind fun p =>
      (s.enqueue p).map fun t => (.pending target p.newId, t) := by
  rw [patch, specs_eq, patchOf]
  cases readSpecs target e.children.nodes with
  | error error => rfl
  | ok specs =>
      rw [outcome_ok_bind, enqueue_eq, attempt_bind_pure]
      rfl

/-- The copied content starts with an element of the same name. -/
theorem rootName_ofPlain (siblings : Forest ι) :
    (Tree.ofPlain siblings).rootElement?.map (·.name) =
      siblings.topElements.head?.map (·.name) := by
  have hnames {κ : Type} (f : Forest κ) :
      f.plain.topElements.head?.map (·.name) = f.topElements.head?.map (·.name) := by
    rw [Forest.plain, Forest.topElements_map, List.head?_map, Option.map_map]
    rfl
  rw [← hnames siblings, ← siblings.plain_numberEach 1, hnames]
  rfl

theorem document_eq (e : Element ι) (priority : Option Int) :
    document e priority = attempt fun s => (documentOf e priority).bind fun d =>
      (s.insert d).map fun t => (.document d.id, t) := by
  rw [document, documentOf]
  cases e.attr? "id" with
  | none => rfl
  | some id =>
      dsimp only [Option.elim_some]
      rw [outcome_ok_bind]
      cases ownerOf e id with
      | error error => rfl
      | ok owner =>
          dsimp only
          rw [outcome_ok_bind, copied_eq, pure_bind]
          have hname := rootName_ofPlain e.children
          have hplain : (Tree.ofPlain e.children).plain = e.children.plain :=
            e.children.plain_numberEach 1
          cases hroots : e.children.topElements with
          | nil =>
              rw [hroots, List.head?_nil, Option.map_none, Option.map_eq_none_iff] at hname
              rw [hname]
              rfl
          | cons first more =>
              rw [hroots, List.head?_cons, Option.map_some] at hname
              obtain ⟨copy, hcopy, hname⟩ := Option.map_eq_some_iff.1 hname
              rw [hcopy, Option.elim_some, outcome_ok_bind, insert_eq, attempt_bind_pure, hname,
                hplain]
              rfl

/-- **The steps do what loading as a whole does.** -/
theorem element_eq (e : Element ι) : element e = attempt (·.load e) := by
  unfold element Store.load
  cases isFragmentTag e.name with
  | false => rfl
  | true =>
      rw [if_pos rfl, outcome_ok_bind]
      cases priorityOf e with
      | error error => rfl
      | ok priority =>
          rw [outcome_ok_bind]
          cases e.attr? "inherit_id" with
          | some target =>
              dsimp only
              rw [patch_eq]
              cases patchOf e target priority <;> rfl
          | none =>
              dsimp only
              rw [document_eq]
              cases documentOf e priority <;> rfl

end Loading

/-! ### What loading adds -/

/-- Specifications are those of the elements, in their order. -/
theorem readSpecs_topElements {target : DocumentId} {siblings : Forest ι} {specs : List PatchSpec}
    (h : readSpecs target siblings.nodes = .ok specs) :
    List.Forall₂ (fun e spec => PatchSpec.ofElement e = .ok spec) siblings.topElements specs := by
  induction siblings generalizing specs with
  | nil =>
      cases h
      exact .nil
  | leaf label kind content rest ih =>
      cases kind with
      | text =>
          rw [Forest.nodes, readSpecs] at h
          split at h
          · exact ih h
          · cases h
      | comment | raw => exact ih h
  | element label name attributes children rest _ ih =>
      rw [Forest.nodes, readSpecs] at h
      split at h
      · cases h
      · rename_i spec hspec
        obtain ⟨more, hmore, rfl⟩ := map_eq_ok_iff.1 h
        exact .cons hspec (ih hmore)

theorem documentOf_eq_ok {e : Element ι} {priority : Option Int} {d : Document}
    (h : documentOf e priority = .ok d) : d.arch = e.children.plain := by
  unfold documentOf at h
  split at h
  · cases h
  · split at h
    · cases h
    · split at h
      · cases h
      · cases h
        rfl

namespace Store

/-- The store `t` is `s` with the document `d` more: under an id that was free, with the siblings as
its content, and with the next sequence number. -/
structure AddsDocument (s t : Store) (id : DocumentId) (siblings : Forest ι) (d : Document) :
    Prop where
  store_eq : t = { s with stored := s.stored ++ [d], counter := s.counter + 1 }
  id_eq : d.id = id
  free : s.taken id = false
  arch_eq : d.arch = siblings.plain
  sequence_eq : d.sequence = s.counter + 1

/-- The store `t` is `s` with the patch `p` more: behind the patches of the queue, with one
specification for each of the elements among the siblings, and with the next sequence number; the
id that it announces was free and is reserved. -/
structure AddsPatch (s t : Store) (target : DocumentId) (newId : Option DocumentId)
    (siblings : Forest ι) (p : PendingPatch) : Prop where
  store_eq : t =
    { s with
      pending := s.pending ++ [p]
      reserved := newId.toList ++ s.reserved
      counter := s.counter + 1 }
  target_eq : p.target = target
  newId_eq : p.newId = newId
  free : ∀ id ∈ newId, s.taken id = false
  specs_eq : List.Forall₂ (fun e spec => PatchSpec.ofElement e = .ok spec) siblings.topElements
    p.specs
  sequence_eq : p.sequence = s.counter + 1

theorem enqueue_store_eq {s t : Store} {p : PendingPatch} (h : s.enqueue p = .ok t) :
    t = { s with
      pending := s.pending ++ [{ p with sequence := s.counter + 1 }]
      reserved := p.newId.toList ++ s.reserved
      counter := s.counter + 1 } := by
  obtain ⟨hstored, hpending, hreserved, -⟩ := enqueue_eq_ok h
  rw [← hpending, ← hreserved, ← counter_enqueue h, ← hstored]

/-- What a fragment adds that is loaded as a whole. -/
theorem load_adds {s t : Store} {e : Element ι} {loaded : Loaded}
    (h : s.load e = .ok (loaded, t)) :
    match loaded with
    | .document id => ∃ d, s.AddsDocument t id e.children d
    | .pending target newId => ∃ p, s.AddsPatch t target newId e.children p := by
  unfold load at h
  split at h
  · cases h
  · split at h
    · cases h
    · split at h
      · rename_i target _
        split at h
        · cases h
        · rename_i p hp
          obtain ⟨u, hu, heq⟩ := map_eq_ok_iff.1 h
          obtain ⟨rfl, rfl⟩ := Prod.mk.inj heq
          obtain ⟨specs, hspecs, rfl⟩ := map_eq_ok_iff.1 hp
          obtain ⟨-, -, -, hfree⟩ := enqueue_eq_ok hu
          exact ⟨_, enqueue_store_eq hu, rfl, rfl, hfree, readSpecs_topElements hspecs, rfl⟩
      · split at h
        · cases h
        · rename_i d hd
          obtain ⟨u, hu, heq⟩ := map_eq_ok_iff.1 h
          obtain ⟨rfl, rfl⟩ := Prod.mk.inj heq
          obtain ⟨hfree, rfl⟩ := insert_eq_ok.1 hu
          exact ⟨_, rfl, rfl, hfree, (documentOf_eq_ok hd :), rfl⟩

end Store

/-- **Loading is all or nothing.**  Whatever store the steps of loading are carried out on, and
whatever node of a tree they are given: where they fail, it is the fragment that is at fault, never
a tree, and the store is the one before; otherwise exactly one document or one patch was added to
it, with the content of that node.  The steps do what loading as a whole does. -/
theorem Loading.node_allOrNothing (s : Store) {tree : Tree} (htree : tree.Accounted)
    (id : NodeId) :
    (∀ failure t, (node tree id).run s = .error failure t →
        t = s ∧ ∃ error, failure = .fault error) ∧
      (∀ made t, (node tree id).run s = .ok (.document made) t →
        ∃ d, s.AddsDocument t made (tree.children id) d) ∧
      (∀ target newId t, (node tree id).run s = .ok (.pending target newId) t →
        ∃ p, s.AddsPatch t target newId (tree.children id) p) ∧
      ∀ e, tree.find? id = some (.element e) → (node tree id).run s =
        match s.load e with
        | .ok (loaded, t) => .ok loaded t
        | .error error => .error (.fault error) s := by
  by_cases helement : ∃ e, tree.find? id = some (.element e)
  · obtain ⟨e, he⟩ := helement
    have hnode : node tree id = attempt (·.load e) := by
      rw [node, he]
      exact element_eq e
    have hchildren : tree.children id = e.children := by
      have hne : id ≠ Tree.root := by
        rintro rfl
        rw [htree.find?_root] at he
        cases he
      rw [Tree.children, if_neg hne, he]
    rw [hnode, hchildren]
    refine ⟨fun failure t => attempt_run_error, fun made t hrun => ?_,
      fun target newId t hrun => ?_, fun e' he' => ?_⟩
    · exact Store.load_adds (attempt_run_ok hrun)
    · exact Store.load_adds (attempt_run_ok hrun)
    · rw [he] at he'
      cases he'
      change attempt (·.load e) s = _
      rw [attempt]
      cases s.load e <;> rfl
  · have hnode : node tree id = attempt fun _ => .error (.unknownRoot "") := by
      rw [node]
      split
      · rename_i e he
        exact absurd ⟨e, he⟩ helement
      · rfl
    rw [hnode]
    refine ⟨fun failure t => attempt_run_error, fun made t hrun => ?_,
      fun target newId t hrun => ?_, fun e he => absurd ⟨e, he⟩ helement⟩
    · cases attempt_run_ok hrun
    · cases attempt_run_ok hrun

/-- A patch that announces an id. -/
def compactView : Element NodeId where
  label := 1
  name := "view"
  attributes := [("id", "compact"), ("inherit_id", "form")]
  children :=
    .element 2 "field" [("name", "email"), ("position", "after")]
      (.element 3 "field" [("name", "phone")] .nil .nil) .nil

/-- The patch is queued once; when it is loaded again, its id is reserved, and the store stays. -/
theorem compactView_allOrNothing :
    ∃ tree t p, tree.content = .single (.element compactView) ∧
      (Loading.node tree 1).run .empty = .ok (.pending "form" (some "compact")) t ∧
      Store.empty.AddsPatch t "form" (some "compact") compactView.children p ∧
      (Loading.node tree 1).run t = .error (.fault (.duplicateId "compact")) t := by
  have hparse : parse ("<view id=\"compact\" inherit_id=\"form\">" ++
      "<field name=\"email\" position=\"after\"><field name=\"phone\"/></field></view>") =
        .ok ⟨.single (.element compactView), .nil, 4⟩ := by
    decide +kernel
  have hacc := parse_accounted hparse
  have hloaded : (Store.empty.load compactView).map (·.1) =
      .ok (.pending "form" (some "compact")) := by
    decide +kernel
  have hagain : ((Store.empty.load compactView).bind fun made => made.2.load compactView) =
      .error (.duplicateId "compact") := by
    decide +kernel
  obtain ⟨⟨loaded, t⟩, hload, rfl⟩ := map_eq_ok_iff.1 hloaded
  rw [hload] at hagain
  obtain ⟨-, -, hpending, hrun⟩ := Loading.node_allOrNothing .empty hacc 1
  obtain ⟨-, -, -, hrun'⟩ := Loading.node_allOrNothing t hacc 1
  have hfirst := hrun compactView rfl
  have hsecond := hrun' compactView rfl
  rw [hload] at hfirst
  rw [show t.load compactView = _ from hagain] at hsecond
  obtain ⟨p, hp⟩ := hpending _ _ _ hfirst
  exact ⟨_, t, p, rfl, hfirst, hp, hsecond⟩

end ViewCompiler
