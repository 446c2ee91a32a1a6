/-
**One call in place.**

A call looks at its children one by one.  An assignment of a value is taken out of it; one of
content is taken out as well and put in front of the call, with a macro around what is in it.  What
is left then gives way to the scope of the call, into which it is put back as a macro.

Main definitions:

* `ViewCompiler.DirectiveTable.hoisted`, `ViewCompiler.DirectiveTable.kept`,
  `ViewCompiler.DirectiveTable.bound` — what becomes of the children of a call;
* `ViewCompiler.numberedScope` — what stands inside a call afterwards.

Main results:

* `ViewCompiler.ends_bindings` — what a call does with its children;
* `ViewCompiler.ends_writeCall` — **lowering a call**.
-/

import ViewCompiler.Proofs.Template.Blocks
import ViewCompiler.Proofs.Template.InPlace.Assignments

set_option relaxedAutoImplicit false
set_option autoImplicit false

namespace ViewCompiler

variable {table : DirectiveTable} {φ : NodeId → Mark} {K : Forest NodeId → Forest NodeId}
  {loose children rest front inner piece : Forest NodeId} {size : Nat} {id child : NodeId}
  {name key value : String} {attributes : Attributes}

/-! ### What becomes of the children -/

namespace DirectiveTable

/-- The assignments of content, each with its content as a macro.  What is written takes the numbers
from `next`. -/
def hoisted (table : DirectiveTable) : Nat → Forest NodeId → Forest NodeId
  | _, .nil => .nil
  | next, .leaf _ _ _ rest => table.hoisted next rest
  | next, .element id name attributes children rest =>
      match (table.asks id).set, (table.asks id).value with
      | some key, none =>
          .element id name attributes
            (.leaf next .raw (Statement.macroStart key).text
              (children ++ .leaf (next + 1) .raw Statement.macroEnd.text .nil))
            (table.hoisted (next + 2) rest)
      | _, _ => table.hoisted next rest

/-- What is no assignment. -/
def kept (table : DirectiveTable) : Forest NodeId → Forest NodeId
  | .nil => .nil
  | .leaf id kind content rest => .leaf id kind content (table.kept rest)
  | .element id name attributes children rest =>
      if (table.asks id).set.isSome then table.kept rest
      else .element id name attributes children (table.kept rest)

/-- The assignments of a value, the last one first. -/
def bound (table : DirectiveTable) : Forest NodeId → Forest NodeId
  | .nil => .nil
  | .leaf _ _ _ rest => table.bound rest
  | .element id name attributes children rest =>
      if (table.asks id).set.isSome && (table.asks id).value.isSome then
        table.bound rest ++ .element id name attributes children .nil
      else table.bound rest

end DirectiveTable

/-- What stands inside a lowered call.  What is written takes the numbers from `next`. -/
def numberedScope (placeholder template : String) (bindings : List (String × String)) (next : Nat)
    (content : Forest NodeId) : Forest NodeId :=
  .leaf next .raw (Statement.scopeStart placeholder).text
    (if content.hasContent then
      .leaf (next + 1) .raw (Statement.macroStart placeholder).text
        (content ++ .leaf (next + 2) .raw Statement.macroEnd.text
          (.leaf (next + 3) .raw (Statement.inclusion template bindings).text
            (.leaf (next + 4) .raw Statement.scopeEnd.text .nil)))
    else
      .leaf (next + 1) .raw (Statement.inclusion template bindings).text
        (.leaf (next + 2) .raw Statement.scopeEnd.text .nil))

/-! ### One child -/

section

variable {call : NodeId} {s : Tree × List (String × String)}

theorem bindChild_of_none (hset : (table.asks child).set = none) :
    Tree.bindChild table call s child = .ok s := by
  rw [DirectiveTable.asks] at hset
  rw [Tree.bindChild]
  cases hget : table.get? child with
  | none => rfl
  | some d =>
      rw [hget, Option.getD_some] at hset
      simp only [hset]

theorem bindChild_of_blocked {directive : DirectiveName} (hset : (table.asks child).set = some key)
    (hblock : (table.asks child).blockOnBinding? = some directive) :
    Tree.bindChild table call s child = .error (.controlOnCallBinding key directive) := by
  rw [DirectiveTable.asks] at hset hblock
  rw [Tree.bindChild]
  cases hget : table.get? child with
  | none => rw [hget] at hset; cases hset
  | some d =>
      rw [hget, Option.getD_some] at hset hblock
      simp only [hset, hblock]

theorem bindChild_of_value (hset : (table.asks child).set = some key)
    (hblock : (table.asks child).blockOnBinding? = none)
    (hvalue : (table.asks child).value = some value) :
    Tree.bindChild table call s child = .ok (s.1.detach child, s.2 ++ [(key, value)]) := by
  rw [DirectiveTable.asks] at hset hblock hvalue
  rw [Tree.bindChild]
  cases hget : table.get? child with
  | none => rw [hget] at hset; cases hset
  | some d =>
      rw [hget, Option.getD_some] at hset hblock hvalue
      simp only [hset, hblock, hvalue]

theorem bindChild_of_content (hset : (table.asks child).set = some key)
    (hblock : (table.asks child).blockOnBinding? = none)
    (hvalue : (table.asks child).value = none) :
    Tree.bindChild table call s child = (s.1.writeMacro child key).bind fun t =>
      (((t.detach child).insertBefore call child).mapError .tree).map (·, s.2) := by
  rw [DirectiveTable.asks] at hset hblock hvalue
  rw [Tree.bindChild]
  cases hget : table.get? child with
  | none => rw [hget] at hset; cases hset
  | some d =>
      rw [hget, Option.getD_some] at hset hblock hvalue
      simp only [hset, hblock, hvalue]

end

/-- A piece is put in front of an element. -/
theorem insertBefore_head {n : Node NodeId} (hK : Hole K)
    (ht : Tree.Accounted ⟨K (.element id name attributes children rest), .single n ++ loose,
      size⟩) :
    Tree.insertBefore ⟨K (.element id name attributes children rest), .single n ++ loose, size⟩ id
        n.label =
      .ok ⟨K (.single n ++ .element id name attributes children rest), loose, size⟩ ∧
    Tree.Accounted ⟨K (.single n ++ .element id name attributes children rest), loose, size⟩ := by
  obtain ⟨own, hown⟩ := hK.labels_perm
  obtain ⟨t, hinsert, hacc, rfl⟩ := ht.insertEachBefore_loose (D := .nil) (F := .single n)
    (E := loose) rfl ((hown _).mem_iff.2 (List.mem_append_right _
      (Forest.label_mem_element id name attributes children rest)))
  have hcontent := congrArg Tree.content ((Site.Open.inContent hK _).replace_head
    (n := .element ⟨id, name, attributes, children⟩) ht fun m => .single n ++ .single m)
  have hsplice : (K (.element id name attributes children rest)).splice id
      (fun m => .single n ++ .single m) =
    K (.single n ++ .element id name attributes children rest) :=
    hcontent.trans (congrArg K (Forest.append_assoc ..))
  rw [hsplice] at hinsert hacc
  rw [Forest.roots_single] at hinsert
  refine ⟨?_, hacc⟩
  rw [Tree.insertEachBefore] at hinsert
  cases hone : Tree.insertBefore ⟨K (.element id name attributes children rest),
      .single n ++ loose, size⟩ id n.label with
  | error e => rw [hone] at hinsert; cases hinsert
  | ok t => rw [hone] at hinsert; exact hinsert

/-- Pieces are put behind the children of an element one by one. -/
theorem foldlM_appendChild (parent : NodeId) (ids : List NodeId) (t : Tree) :
    ids.foldlM (fun t child => (t.appendChild parent child).mapError CompileError.tree) t =
      (t.appendEach parent ids).mapError CompileError.tree := by
  induction ids generalizing t with
  | nil => rfl
  | cons id more ih =>
      rw [List.foldlM_cons, Tree.appendEach]
      cases t.appendChild parent id with
      | error e => rfl
      | ok t => exact ih t

theorem appendEach_head (hK : Hole K)
    (ht : Tree.Accounted ⟨K (.element id name attributes inner rest), piece ++ loose, size⟩) :
    Tree.appendEach id piece.roots
        ⟨K (.element id name attributes inner rest), piece ++ loose, size⟩ =
      .ok ⟨K (.element id name attributes (inner ++ piece) rest), loose, size⟩ ∧
    Tree.Accounted ⟨K (.element id name attributes (inner ++ piece) rest), loose, size⟩ := by
  have hs := Site.Open.inContent hK (piece ++ loose)
  have hfind : Tree.find? ⟨K (.element id name attributes inner rest), piece ++ loose, size⟩ id =
      some (.element ⟨id, name, attributes, inner⟩) := hs.find?_element ht
  have hroot := ht.ne_root_of_find? hfind
  obtain ⟨own, hown⟩ := hK.labels_perm
  obtain ⟨t, happend, hacc, rfl⟩ := ht.appendEach_loose (D := .nil) (F := piece) (E := loose) rfl
    (List.mem_cons_of_mem _ ((hown _).mem_iff.2 (List.mem_append_right _
      (Forest.label_mem_element id name attributes inner rest))))
    (by rw [Tree.allowsChildren, hfind]; exact Bool.or_true _)
  have hgrown : Tree.grown id (K (.element id name attributes inner rest)) piece =
      K (.element id name attributes (inner ++ piece) rest) := by
    rw [Tree.grown, if_neg hroot]
    exact congrArg Tree.content
      (hs.replace_head (n := .element ⟨id, name, attributes, inner⟩) ht (Tree.appendBelow piece))
  rw [hgrown] at happend hacc
  exact ⟨happend, hacc⟩

/-- What an element has given up becomes a macro inside of it. -/
theorem writeDefault_head (hK : Hole K)
    (ht : Tree.Accounted ⟨K (.element id name attributes inner rest), piece ++ loose, size⟩)
    (placeholder : String) :
    Tree.writeDefault ⟨K (.element id name attributes inner rest), piece ++ loose, size⟩ id
        placeholder piece.roots =
      .ok ⟨K (.element id name attributes (inner ++ .leaf size .raw
        (Statement.macroStart placeholder).text (piece ++
          .leaf (size + 1) .raw Statement.macroEnd.text .nil)) rest), loose, size + 2⟩ ∧
    Tree.Accounted ⟨K (.element id name attributes (inner ++ .leaf size .raw
        (Statement.macroStart placeholder).text (piece ++
          .leaf (size + 1) .raw Statement.macroEnd.text .nil)) rest), loose, size + 2⟩ := by
  obtain ⟨hstart, ht⟩ := (Site.Open.inContent hK _).writeLast ht (.macroStart placeholder)
  obtain ⟨hback, ht⟩ := appendEach_head hK ht
  obtain ⟨hend, ht⟩ := (Site.Open.inContent hK _).writeLast ht .macroEnd
  have hstart : Tree.writeLast ⟨K (.element id name attributes inner rest), piece ++ loose, size⟩
    id (.macroStart placeholder) = _ := hstart
  have hback := (foldlM_appendChild id piece.roots _).trans
    (congrArg (Except.mapError CompileError.tree) hback)
  have hinside : inner ++ .leaf size .raw (Statement.macroStart placeholder).text .nil ++ piece ++
      .leaf (size + 1) .raw Statement.macroEnd.text .nil =
    inner ++ .leaf size .raw (Statement.macroStart placeholder).text
      (piece ++ .leaf (size + 1) .raw Statement.macroEnd.text .nil) := by
    simp only [Forest.append_assoc, Forest.leaf_append, Forest.nil_append]
  rw [← hinside]
  exact ⟨bind_of_ok hstart (bind_of_ok hback hend), ht⟩

/-- A child of an element is taken out of it. -/
theorem detach_child {tag : String} {own : Attributes} {content more : Forest NodeId} (hK : Hole K)
    (ht : Tree.Accounted ⟨K (front ++ .element id name attributes
      (inner ++ .element child tag own content more) rest), loose, size⟩) :
    Tree.detach ⟨K (front ++ .element id name attributes
        (inner ++ .element child tag own content more) rest), loose, size⟩ child =
      ⟨K (front ++ .element id name attributes (inner ++ more) rest),
        .element child tag own content loose, size⟩ ∧
    Tree.Accounted ⟨K (front ++ .element id name attributes (inner ++ more) rest),
      .element child tag own content loose, size⟩ := by
  have hR := (hK.below front id name attributes rest).behind inner
  exact (Site.Open.inContent hR loose).detach_head
    (n := .element ⟨child, tag, own, content⟩) ht
    (Site.Open.parent?_ne_none hR ht List.mem_cons_self)

/-- A child with content is put in front of the call, its content as a macro. -/
theorem ends_bindContent {tag : String} {own : Attributes} {content more : Forest NodeId}
    (hK : Hole K) (ht : Tree.Accounted ⟨K (front ++ .element id name attributes
      (inner ++ .element child tag own content more) rest), loose, size⟩)
    (hset : (table.asks child).set = some key)
    (hblock : (table.asks child).blockOnBinding? = none)
    (hvalue : (table.asks child).value = none) (bindings : List (String × String)) :
    Ends (if content.hasContent then none else some (.emptySet key))
      (fun s => s.1.Accounted ∧ s = (⟨K (front ++ .element child tag own
        (.leaf size .raw (Statement.macroStart key).text
          (content ++ .leaf (size + 1) .raw Statement.macroEnd.text .nil))
        (.element id name attributes (inner ++ more) rest)), loose, size + 2⟩, bindings))
      (Tree.bindChild table id (⟨K (front ++ .element id name attributes
        (inner ++ .element child tag own content more) rest), loose, size⟩, bindings) child) := by
  have hR := (hK.below front id name attributes rest).behind inner
  rw [bindChild_of_content hset hblock hvalue, ← Option.or_none (o := ite _ _ _)]
  refine (ends_writeMacro hR ht key).bind ?_
  rintro _ ⟨ht, rfl⟩
  obtain ⟨hdetach, ht⟩ := detach_child hK ht
  obtain ⟨hinsert, ht⟩ := insertBefore_head (n := .element ⟨child, tag, own, _⟩)
    (hK.behind front) ht
  rw [hdetach]
  exact ⟨_, congrArg (fun r => (r.mapError CompileError.tree).map (·, bindings)) hinsert, ht, rfl⟩

/-! ### All children -/

/-- **What a call does with its children.**  `front` is what it has put in front of itself already,
`inner` what it has passed by. -/
theorem ends_bindings (hφ : ∀ x, (φ x).directives = table.asks x) (f front inner : Forest NodeId)
    (hleaf : f.LeavesSatisfy fun x _ _ => table.asks x = {}) (hK : Hole K)
    (ht : Tree.Accounted ⟨K (front ++ .element id name attributes (inner ++ f) rest), loose, size⟩)
    (bindings : List (String × String)) :
    Ends (misusedBinding? (f.map φ))
      (fun s => s.1.Accounted ∧ s = (⟨K (front ++ (table.hoisted size f ++
          .element id name attributes (inner ++ table.kept f) rest)), table.bound f ++ loose,
          size + 2 * contentSets (f.map φ)⟩, bindings ++ callBindings (f.map φ)))
      (f.roots.foldlM (Tree.bindChild table id)
        (⟨K (front ++ .element id name attributes (inner ++ f) rest), loose, size⟩, bindings)) := by
  induction f generalizing front inner loose size bindings with
  | nil =>
      simp only [Forest.roots, Forest.map, callBindings, List.append_nil]
      exact .ok ⟨ht, rfl⟩
  | leaf child kind content more ih =>
      have hfree : (table.asks child).set = none := by rw [hleaf.1]
      have hmore := ih front (inner ++ .leaf child kind content .nil) hleaf.2
        (by simpa [Forest.append_assoc] using ht) bindings
      simp only [Forest.append_assoc, Forest.leaf_append, Forest.nil_append] at hmore
      rw [Forest.roots, List.foldlM_cons, bindChild_of_none hfree]
      exact hmore
  | element child tag own content more _ ih =>
      rw [Forest.roots, List.foldlM_cons]
      cases hset : (table.asks child).set with
      | none =>
          have hmore := ih front (inner ++ .element child tag own content .nil) hleaf.2
            (by simpa [Forest.append_assoc] using ht) bindings
          simp only [Forest.append_assoc, Forest.element_append, Forest.nil_append] at hmore
          rw [bindChild_of_none hset]
          simp only [Forest.map, misusedBinding?, contentSets, callBindings,
            DirectiveTable.hoisted, DirectiveTable.kept, DirectiveTable.bound, hφ, hset,
            Option.isSome_none, Bool.false_and, Bool.false_eq_true, if_false, Nat.zero_add]
          exact hmore
      | some key =>
          cases hblock : (table.asks child).blockOnBinding? with
          | some directive =>
              rw [bindChild_of_blocked hset hblock]
              simp only [Forest.map, misusedBinding?, hφ, hset, hblock]
              exact .error _
          | none =>
              simp only [Forest.map, misusedBinding?, contentSets, callBindings,
                DirectiveTable.hoisted, DirectiveTable.kept, DirectiveTable.bound, hφ, hset,
                hblock, Option.isSome_some, Bool.true_and, if_true]
              cases hvalue : (table.asks child).value with
              | some value =>
                  obtain ⟨hdetach, ht⟩ := detach_child hK ht
                  have hmore := ih front inner hleaf.2 ht (bindings ++ [(key, value)])
                  rw [bindChild_of_value hset hblock hvalue, hdetach]
                  simp only [List.append_assoc, List.singleton_append] at hmore
                  simp only [Option.isNone_some, Option.isSome_some, Bool.false_and,
                    Bool.false_eq_true, if_false, if_true, Nat.zero_add, Forest.append_assoc]
                  exact hmore
              | none =>
                  have hbind := ends_bindContent hK ht hset hblock hvalue bindings
                  simp only [Option.isNone_none, Bool.true_and, Option.isSome_none,
                    Bool.false_eq_true, if_false, if_true, Forest.hasContent_map]
                  cases hany : content.hasContent with
                  | false =>
                      rw [hany] at hbind
                      have hempty : Tree.bindChild table id _ child = .error (.emptySet key) :=
                        hbind
                      rw [hempty]
                      exact .error _
                  | true =>
                      rw [hany] at hbind
                      obtain ⟨_, hstep, ht, rfl⟩ := hbind
                      have hmore := ih (front ++ .element child tag own _ .nil) inner hleaf.2
                        (by simpa [Forest.append_assoc] using ht) bindings
                      have hshare : size + 2 * (1 + contentSets (more.map φ)) =
                        size + 2 + 2 * contentSets (more.map φ) := by omega
                      rw [hstep, hshare]
                      simp only [Forest.append_assoc, Forest.element_append, Forest.nil_append]
                        at hmore
                      exact hmore

/-- **What is left in a call is put into its scope.** -/
theorem writeScope_head (hK : Hole K)
    (ht : Tree.Accounted ⟨K (.element id name attributes piece rest), loose, size⟩)
    (placeholder template : String) (bindings : List (String × String)) :
    Tree.writeScope placeholder template bindings
        ⟨K (.element id name attributes piece rest), loose, size⟩ id =
      .ok ⟨K (.element id name attributes (numberedScope placeholder template bindings size piece)
        rest), (if piece.hasContent then .nil else piece) ++ loose,
        size + if piece.hasContent then 5 else 3⟩ ∧
    Tree.Accounted ⟨K (.element id name attributes
      (numberedScope placeholder template bindings size piece) rest),
      (if piece.hasContent then .nil else piece) ++ loose,
      size + if piece.hasContent then 5 else 3⟩ := by
  have hs := Site.Open.inContent hK loose
  have hcontent : Tree.hasContent ⟨K (.element id name attributes piece rest), loose, size⟩ id =
      piece.hasContent := hs.hasContent_head ht
  obtain ⟨htake, ht⟩ := hs.takeChildren_head ht
  have htake : Tree.takeChildren ⟨K (.element id name attributes piece rest), loose, size⟩ id =
    (piece.roots, ⟨K (.element id name attributes .nil rest), piece ++ loose, size⟩) := htake
  obtain ⟨hstart, ht⟩ := (Site.Open.inContent hK _).writeLast ht (.scopeStart placeholder)
  rw [Tree.writeScope, hcontent, htake, numberedScope]
  cases hany : piece.hasContent with
  | false =>
      obtain ⟨hinclude, ht⟩ :=
        (Site.Open.inContent hK _).writeLast ht (.inclusion template bindings)
      obtain ⟨hend, ht⟩ := (Site.Open.inContent hK _).writeLast ht .scopeEnd
      exact ⟨bind_of_ok hstart (bind_of_ok hinclude hend), ht⟩
  | true =>
      obtain ⟨hdefault, ht⟩ := writeDefault_head hK ht placeholder
      obtain ⟨hinclude, ht⟩ :=
        (Site.Open.inContent hK _).writeLast ht (.inclusion template bindings)
      obtain ⟨hend, ht⟩ := (Site.Open.inContent hK _).writeLast ht .scopeEnd
      have hinside : Forest.nil ++ .leaf size .raw (Statement.scopeStart placeholder).text .nil ++
          .leaf (size + 1) .raw (Statement.macroStart placeholder).text
            (piece ++ .leaf (size + 2) .raw Statement.macroEnd.text .nil) ++
          .leaf (size + 3) .raw (Statement.inclusion template bindings).text .nil ++
          .leaf (size + 4) .raw Statement.scopeEnd.text .nil =
        .leaf size .raw (Statement.scopeStart placeholder).text
          (.leaf (size + 1) .raw (Statement.macroStart placeholder).text
            (piece ++ .leaf (size + 2) .raw Statement.macroEnd.text
              (.leaf (size + 3) .raw (Statement.inclusion template bindings).text
                (.leaf (size + 4) .raw Statement.scopeEnd.text .nil)))) := by
        simp only [Forest.append_assoc, Forest.leaf_append, Forest.nil_append]
      simp only [if_true, ← hinside]
      exact ⟨bind_of_ok hstart (bind_of_ok hdefault (bind_of_ok hinclude hend)), ht⟩

/-- **Lowering a call.** -/
theorem ends_writeCall (hφ : ∀ x, (φ x).directives = table.asks x)
    (hleaf : children.LeavesSatisfy fun x _ _ => table.asks x = {}) (hK : Hole K)
    (ht : Tree.Accounted ⟨K (.element id name attributes children rest), loose, size⟩)
    (placeholder template : String) :
    Ends (misusedBinding? (children.map φ))
      (fun t => t.Accounted ∧ t = ⟨K (table.hoisted size children ++
          .element id name attributes (numberedScope placeholder template
            (callBindings (children.map φ)) (size + 2 * contentSets (children.map φ))
            (table.kept children)) rest),
        (if (table.kept children).hasContent then .nil else table.kept children) ++
          (table.bound children ++ loose),
        size + 2 * contentSets (children.map φ) +
          if (table.kept children).hasContent then 5 else 3⟩)
      (Tree.writeCall table placeholder template
        ⟨K (.element id name attributes children rest), loose, size⟩ id) := by
  have hchildren : Tree.children ⟨K (.element id name attributes children rest), loose, size⟩ id =
      children := (Site.Open.inContent hK loose).children_head ht
  have hloop := ends_bindings hφ children .nil .nil hleaf hK ht []
  rw [Tree.writeCall, hchildren, ← Option.or_none (o := misusedBinding? (children.map φ))]
  refine hloop.bind ?_
  rintro _ ⟨ht, rfl⟩
  obtain ⟨hwrite, ht⟩ := writeScope_head (hK.behind (table.hoisted size children)) ht placeholder
    template (callBindings (children.map φ))
  exact ⟨_, hwrite, ht, rfl⟩

end ViewCompiler
