/-
**Elements through the passes.**

The elements of a compiled arch are elements of the arch.  Passes put statements between them, move
some of them and drop others, but none is made, and none is written twice; a name never changes, and
attributes change in one pass only, where the computed ones are set.

What is left of an element is its head, its name with its attributes.  Elements are matched by their
heads, each head counted as often as it occurs.

Main definitions:

* `ViewCompiler.Forest.heads` — the heads of all elements;
* `ViewCompiler.CompilerOptions.headOf`, `ViewCompiler.CompilerOptions.Becomes` — what compiling
  makes of the head of an element, and of the element;
* `ViewCompiler.CompilerOptions.BecomesBy` — what compiling with a field hook makes of the element.

Main results:

* `ViewCompiler.heads_lowerOutputs`, `ViewCompiler.heads_lowerAttributes`,
  `ViewCompiler.heads_lowerBranches`, `ViewCompiler.heads_lowerLoops`,
  `ViewCompiler.heads_lowerSets`, `ViewCompiler.heads_lowerCalls`, `ViewCompiler.heads_unwrapNamed`
  — one for each pass;
* `ViewCompiler.lower_elements` — every element of a compiled arch is what compiling makes of an
  element of the arch, no two of the same one;
* `ViewCompiler.exists_becomesBy` — with a field hook, every element goes back to one of the arch.
-/

import Mathlib.Data.List.Forall2
import Mathlib.Data.List.Perm.Basic
import Mathlib.Data.List.Perm.Subperm
import ViewCompiler.Proofs.Template.Blocks
import ViewCompiler.Proofs.Template.Passes

set_option relaxedAutoImplicit false
set_option autoImplicit false

namespace ViewCompiler

variable {ι : Type}

/-! ### Heads -/

/-- A name and attributes. -/
abbrev Head := String × Attributes

/-- The name and the attributes of an element. -/
def Element.head (x : Element ι) : Head :=
  (x.name, x.attributes)

/-- The heads of all elements in document order. -/
def Forest.heads (f : Forest ι) : List Head :=
  f.elements.map Element.head

/-- What the pass for computed attributes makes of a head. -/
def Directives.head (d : Directives) (name : String) (attributes : Attributes) :
    Except CompileError Head :=
  (setAllDynamic attributes d.attributes).map (name, ·)

/-- What compiling makes of the head of an element: its directives are taken off, and its computed
attributes are set. -/
def CompilerOptions.headOf (o : CompilerOptions) (x : Element ι) : Except CompileError Head :=
  (o.directivesOf x.attributes).head x.name (x.attributes.filter (!o.consumes ·))

/-- Compiling makes the element `x` of the element `d`: it has the name of `d`, and the attributes
that are there when the directives are taken off and the computed attributes are set. -/
structure CompilerOptions.Becomes (o : CompilerOptions) (d : Element ι) (x : Element Mark) :
    Prop where
  name_eq : x.name = d.name
  attributes_eq : setAllDynamic (d.attributes.filter (!o.consumes ·))
    (o.directivesOf d.attributes).attributes = .ok x.attributes

theorem CompilerOptions.becomes_iff {o : CompilerOptions} {d : Element ι} {x : Element Mark} :
    o.Becomes d x ↔ o.headOf d = .ok x.head := by
  rw [headOf, Directives.head, map_eq_ok_iff]
  constructor
  · intro h
    exact ⟨x.attributes, h.attributes_eq, by rw [Element.head, h.name_eq]⟩
  · rintro ⟨attributes, hset, hhead⟩
    obtain ⟨hname, rfl⟩ := Prod.mk.inj hhead
    exact ⟨hname.symm, hset⟩

/-- What all elements ask for, with their heads, if the label of an element tells what it asks
for. -/
def Forest.asked (directives : ι → Directives) (f : Forest ι) : List (Directives × Head) :=
  f.elements.map fun x => (directives x.label, x.head)

/-- What the pass for computed attributes makes of all heads, if the label of an element tells what
it asks for. -/
def Forest.promised (directives : ι → Directives) (f : Forest ι) :
    List (Except CompileError Head) :=
  f.elements.map fun x => (directives x.label).head x.name x.attributes

namespace Forest

@[simp] theorem heads_nil : (nil : Forest ι).heads = [] := rfl

@[simp] theorem heads_leaf (label : ι) (kind : LeafKind) (content : String) (rest : Forest ι) :
    (leaf label kind content rest).heads = rest.heads := rfl

@[simp] theorem heads_element (label : ι) (name : String) (attributes : Attributes)
    (children rest : Forest ι) :
    (element label name attributes children rest).heads =
      (name, attributes) :: (children.heads ++ rest.heads) := by
  simp [heads, elements, Element.head]

@[simp] theorem heads_append (f g : Forest ι) : (f ++ g).heads = f.heads ++ g.heads := by
  simp [heads]

@[simp] theorem heads_before (s : Statement) (rest : Forest Mark) :
    (s.before rest).heads = rest.heads := rfl

@[simp] theorem heads_alone (s : Statement) : s.alone.heads = [] := rfl

@[simp] theorem asked_nil (directives : ι → Directives) :
    (nil : Forest ι).asked directives = [] := rfl

@[simp] theorem asked_leaf (directives : ι → Directives) (label : ι) (kind : LeafKind)
    (content : String) (rest : Forest ι) :
    (leaf label kind content rest).asked directives = rest.asked directives := rfl

@[simp] theorem asked_element (directives : ι → Directives) (label : ι) (name : String)
    (attributes : Attributes) (children rest : Forest ι) :
    (element label name attributes children rest).asked directives =
      (directives label, name, attributes) ::
        (children.asked directives ++ rest.asked directives) := by
  simp [asked, elements, Element.head]

@[simp] theorem asked_before (directives : Mark → Directives) (s : Statement)
    (rest : Forest Mark) : (s.before rest).asked directives = rest.asked directives := rfl

@[simp] theorem asked_alone (directives : Mark → Directives) (s : Statement) :
    s.alone.asked directives = [] := rfl

@[simp] theorem promised_nil (directives : ι → Directives) :
    (nil : Forest ι).promised directives = [] := rfl

@[simp] theorem promised_leaf (directives : ι → Directives) (label : ι) (kind : LeafKind)
    (content : String) (rest : Forest ι) :
    (leaf label kind content rest).promised directives = rest.promised directives := rfl

@[simp] theorem promised_element (directives : ι → Directives) (label : ι) (name : String)
    (attributes : Attributes) (children rest : Forest ι) :
    (element label name attributes children rest).promised directives =
      (directives label).head name attributes ::
        (children.promised directives ++ rest.promised directives) := by
  simp [promised, elements]

theorem promised_eq_asked (directives : ι → Directives) (f : Forest ι) :
    f.promised directives = (f.asked directives).map fun a => a.1.head a.2.1 a.2.2 := by
  rw [asked, List.map_map]
  rfl

end Forest

/-! ### The arch -/

/-- Labels do not matter to heads. -/
theorem heads_plain (f : Forest ι) : f.plain.heads = f.heads := by
  induction f with
  | nil => rfl
  | leaf _ _ _ _ ih => exact ih
  | element label name attributes children rest ihc ihr =>
      change (Forest.element () name attributes children.plain rest.plain).heads = _
      rw [Forest.heads_element, ihc, ihr, Forest.heads_element]

theorem asked_collect (o : CompilerOptions) (f : Forest ι) :
    (f.collect o).asked (·.2) = f.heads.map fun head =>
      (o.directivesOf head.2, head.1, head.2.filter (!o.consumes ·)) := by
  induction f with
  | nil => rfl
  | leaf _ _ _ _ ih => exact ih
  | element label name attributes children rest ihc ihr =>
      rw [Forest.collect, Forest.asked_element, ihc, ihr, Forest.heads_element, List.map_cons,
        List.map_append]

/-- What an arch asks for does not depend on how its nodes are numbered. -/
theorem asked_numbered (o : CompilerOptions) (arch : Forest ι) :
    ((arch.numberEach 1).1.collect o).asked (·.2) = arch.elements.map fun d =>
      (o.directivesOf d.attributes, d.name, d.attributes.filter (!o.consumes ·)) := by
  rw [asked_collect, ← heads_plain, Forest.plain_numberEach, heads_plain, Forest.heads,
    List.map_map]
  rfl

theorem promised_numbered (o : CompilerOptions) (arch : Forest ι) :
    ((arch.numberEach 1).1.collect o).promised (·.2) = arch.elements.map o.headOf := by
  rw [Forest.promised_eq_asked, asked_numbered, List.map_map]
  rfl

/-! ### The passes -/

/-- Elements are given up for outputs; the others keep their order. -/
theorem asked_lowerOutputs {o : CompilerOptions} {orphaned : Bool}
    {f : Forest (NodeId × Directives)} {g : Forest Mark} (h : lowerOutputs o orphaned f = .ok g) :
    (g.asked Mark.directives).Sublist (f.asked (·.2)) := by
  induction f generalizing orphaned g with
  | nil =>
      cases h
      exact List.Sublist.refl _
  | leaf label kind content rest ih =>
      obtain ⟨rest', hrest, rfl⟩ := map_eq_ok_iff.1 h
      rw [Forest.asked_leaf, Forest.asked_leaf]
      exact ih hrest
  | element label name attributes children rest ihc ihr =>
      obtain ⟨id, d⟩ := label
      simp only [lowerOutputs] at h
      rw [Forest.asked_element]
      split at h
      · split at h
        · cases h
        · rename_i hchildren
          obtain ⟨rest', hrest, rfl⟩ := map_eq_ok_iff.1 h
          rw [Forest.asked_element]
          exact ((ihc hchildren).append (ihr hrest)).cons_cons _
      · split at h
        · split at h
          · cases h
          · obtain ⟨rest', hrest, rfl⟩ := map_eq_ok_iff.1 h
            rw [Forest.asked_element, Forest.asked_alone, List.nil_append]
            exact ((ihr hrest).trans (List.sublist_append_right _ _)).cons_cons _
        · split at h
          · cases h
          · split at h
            · cases h
            · obtain ⟨rest', hrest, rfl⟩ := map_eq_ok_iff.1 h
              rw [Forest.asked_before]
              exact ((ihr hrest).trans (List.sublist_append_right _ _)).cons _

theorem heads_lowerOutputs {o : CompilerOptions} {orphaned : Bool}
    {f : Forest (NodeId × Directives)} {g : Forest Mark} (h : lowerOutputs o orphaned f = .ok g) :
    (g.promised Mark.directives).Sublist (f.promised (·.2)) := by
  rw [Forest.promised_eq_asked, Forest.promised_eq_asked]
  exact (asked_lowerOutputs h).map _

/-- Computed attributes are set on every element, and nothing else changes. -/
theorem heads_lowerAttributes {f g : Forest Mark} (h : lowerAttributes f = .ok g) :
    f.promised Mark.directives = g.heads.map .ok := by
  induction f generalizing g with
  | nil =>
      cases h
      rfl
  | leaf mark kind content rest ih =>
      obtain ⟨rest', hrest, rfl⟩ := map_eq_ok_iff.1 h
      rw [Forest.promised_leaf, Forest.heads_leaf]
      exact ih hrest
  | element mark name attributes children rest ihc ihr =>
      simp only [lowerAttributes] at h
      split at h
      · cases h
      · rename_i attributes' hset
        split at h
        · cases h
        · rename_i hchildren
          obtain ⟨rest', hrest, rfl⟩ := map_eq_ok_iff.1 h
          have hhead : mark.directives.head name attributes = .ok (name, attributes') := by
            rw [Directives.head, hset]
            rfl
          rw [Forest.promised_element, hhead, ihc hchildren, ihr hrest, Forest.heads_element,
            List.map_cons, List.map_append]

theorem heads_lowerBranches (f : Forest Mark) : (lowerBranches f).heads = f.heads := by
  induction f with
  | nil => rfl
  | leaf _ _ _ _ ih => exact ih
  | element mark name attributes children rest ihc ihr =>
      rw [lowerBranches]
      split
      · simp [ihc, ihr]
      · split <;> simp [ihc, ihr]

theorem heads_lowerLoops (f : Forest Mark) : (lowerLoops f).heads = f.heads := by
  induction f with
  | nil => rfl
  | leaf _ _ _ _ ih => exact ih
  | element mark name attributes children rest ihc ihr =>
      rw [lowerLoops]
      split <;> simp [ihc, ihr]

theorem heads_macroAround (name : String) (f : Forest Mark) :
    (macroAround name f).heads = f.heads := by
  simp [macroAround]

/-- Elements are given up for assignments of values; the others keep their order. -/
theorem heads_lowerSets (inCall : Bool) (f : Forest Mark) :
    (lowerSets inCall f).heads.Sublist f.heads := by
  induction f generalizing inCall with
  | nil => exact List.Sublist.refl _
  | leaf _ _ _ _ ih => exact ih _
  | element mark tag attributes children rest ihc ihr =>
      simp only [lowerSets]
      split
      · rw [Forest.heads_before, Forest.heads_element]
        exact ((ihr _).trans (List.sublist_append_right _ _)).cons _
      · rw [Forest.heads_element, Forest.heads_element, heads_macroAround]
        exact ((ihc _).append (ihr _)).cons_cons _
      · rw [Forest.heads_element, Forest.heads_element]
        exact ((ihc _).append (ihr _)).cons_cons _

/-- What a call hoists and what it keeps as its content are different parts of what is inside. -/
theorem heads_callParts (f : Forest Mark) (head : Head) :
    (hoistedMacros f).heads.count head + (callContent f).heads.count head ≤
      f.heads.count head := by
  induction f with
  | nil => exact Nat.le_refl _
  | leaf _ _ _ _ ih => exact ih
  | element mark tag attributes children rest _ ihr =>
      rw [hoistedMacros, callContent]
      cases hset : mark.directives.set with
      | none =>
          simp [List.count_cons]
          omega
      | some name =>
          cases hvalue : mark.directives.value with
          | none =>
              simp [List.count_cons, heads_macroAround]
              omega
          | some value =>
              simp [List.count_cons]
              omega

theorem heads_callBlock (placeholder template : String) (bindings : List (String × String))
    (content : Forest Mark) (head : Head) :
    (callBlock placeholder template bindings content).heads.count head ≤
      content.heads.count head := by
  simp only [callBlock, Forest.heads_before, Forest.heads_append, Forest.heads_alone,
    List.append_nil]
  split
  · exact Nat.le_of_eq (by rw [heads_macroAround])
  · simp

/-- Elements are moved out of calls and given up for bindings. -/
theorem heads_lowerCalls (placeholder : String) (f : Forest Mark) (head : Head) :
    (lowerCalls placeholder f).heads.count head ≤ f.heads.count head := by
  induction f with
  | nil => exact Nat.le_refl _
  | leaf _ _ _ _ ih => exact ih
  | element mark tag attributes children rest ihc ihr =>
      rw [lowerCalls]
      split
      · simp only [Forest.heads_element, List.count_cons, List.count_append]
        omega
      · rename_i template hcall
        have hparts := heads_callParts (lowerCalls placeholder children) head
        have hblock := heads_callBlock placeholder template (callBindings children)
          (callContent (lowerCalls placeholder children)) head
        simp only [Forest.heads_append, Forest.heads_element, List.count_cons, List.count_append]
        omega

/-- The elements of the reserved tag are given up, not what is in them. -/
theorem heads_unwrapNamed (tag : String) (f : Forest ι) :
    (f.unwrapNamed tag).heads.Sublist f.heads := by
  induction f with
  | nil => exact List.Sublist.refl _
  | leaf _ _ _ _ ih => exact ih
  | element label name attributes children rest ihc ihr =>
      rw [Forest.unwrapNamed]
      split
      · rw [Forest.heads_append, Forest.heads_element]
        exact (ihc.append ihr).cons _
      · rw [Forest.heads_element, Forest.heads_element]
        exact (ihc.append ihr).cons_cons _

/-! ### All passes -/

/-- Between the pass for computed attributes and that for calls no head comes up more often. -/
theorem heads_lowerCalls_subperm (placeholder : String) (computed : Forest Mark) :
    (lowerCalls placeholder
      (lowerSets false (lowerLoops (lowerBranches computed)))).heads.Subperm computed.heads := by
  have hsets : (lowerSets false (lowerLoops (lowerBranches computed))).heads.Sublist
      computed.heads := by
    rw [← heads_lowerBranches computed, ← heads_lowerLoops (lowerBranches computed)]
    exact heads_lowerSets _ _
  exact (List.subperm_ext_iff.2 fun head _ => heads_lowerCalls _ _ head).trans hsets.subperm

/-- Behind the pass for computed attributes no head comes up more often. -/
theorem Passed.heads_subperm {o : CompilerOptions} {collected : Forest (NodeId × Directives)}
    {outputs computed content : Forest Mark}
    (passed : Passed o collected outputs computed content) :
    content.heads.Subperm computed.heads := by
  rw [passed.content_eq]
  exact (heads_unwrapNamed _ _).subperm.trans (heads_lowerCalls_subperm _ _)

/-- No head comes out of the passes more often than compiling makes it of the elements of the
arch. -/
theorem heads_lower {o : CompilerOptions} {arch : Forest ι} {lowered : Lowered}
    (h : lower o .none arch = .ok lowered) :
    (lowered.content.heads.map Except.ok).Subperm (arch.elements.map o.headOf) := by
  obtain ⟨outputs, computed, passed⟩ := lower_eq_ok h
  have hcomputed : (computed.heads.map Except.ok).Sublist (arch.elements.map o.headOf) := by
    rw [← promised_numbered, ← heads_lowerAttributes passed.computed_eq]
    exact heads_lowerOutputs passed.outputs_eq
  exact (passed.heads_subperm.map fun _ _ heq => Except.ok.inj heq).trans hcomputed.subperm

/-- Lists are matched by what is read off their members: if that is found in the one no more often
than in the other, the one is read off a part of the other. -/
theorem exists_subperm_forall₂ {α β γ : Type} {f : α → γ} {g : β → γ} {l : List α} {k : List β}
    (h : (k.map g).Subperm (l.map f)) :
    ∃ kept, kept.Subperm l ∧ List.Forall₂ (fun a b => f a = g b) kept k := by
  obtain ⟨part, hperm, hsub⟩ := h
  obtain ⟨chosen, hchosen, rfl⟩ := List.sublist_map_iff.1 hsub
  obtain ⟨kept, hmap, hkept⟩ :=
    (congrFun₂ (List.eq_map_comp_perm f) (k.map g) chosen).mpr hperm.symm
  have hmatch : List.Forall₂ (· = ·) (kept.map f) (k.map g) := by
    rw [List.forall₂_eq_eq_eq, hmap]
  exact ⟨kept, hkept.subperm.trans hchosen.subperm,
    List.forall₂_map_left_iff.1 (List.forall₂_map_right_iff.1 hmatch)⟩

/-- Every element of a compiled arch is what compiling makes of an element of the arch, no two of
the same one. -/
theorem lower_elements {o : CompilerOptions} {arch : Forest ι} {lowered : Lowered}
    (h : lower o .none arch = .ok lowered) :
    ∃ kept : List (Element ι), kept.Subperm arch.elements ∧
      List.Forall₂ o.Becomes kept lowered.content.elements := by
  have hheads := heads_lower h
  rw [Forest.heads, List.map_map] at hheads
  obtain ⟨kept, hkept, hmatch⟩ := exists_subperm_forall₂ hheads
  exact ⟨kept, hkept, hmatch.imp fun _ _ => CompilerOptions.becomes_iff.2⟩

/-! ### With a field hook -/

/-- Compiling with a field hook makes the element `x` of the element `d`: `attributes` are there when
the directives are taken off and the computed attributes are set, and the hook makes those of `x` of
them. -/
structure CompilerOptions.BecomesBy (o : CompilerOptions) (hook : FieldHook) (d : Element ι)
    (attributes : Attributes) (x : Element Mark) : Prop where
  name_eq : x.name = d.name
  attributes_eq : setAllDynamic (d.attributes.filter (!o.consumes ·))
    (o.directivesOf d.attributes).attributes = .ok attributes
  hooked : ∃ added, hook d.name attributes = .ok (x.attributes, added)

@[simp] theorem heads_rawLeaves (added : List String) : (rawLeaves added).heads = [] := by
  induction added with
  | nil => rfl
  | cons content more ih => exact ih

/-- The hook changes the attributes of heads. -/
theorem heads_applyHook {hook : FieldHook} {f g : Forest Mark} (h : applyHook hook f = .ok g)
    {head : Head} (hhead : head ∈ g.heads) :
    ∃ attributes added, (head.1, attributes) ∈ f.heads ∧
      hook head.1 attributes = .ok (head.2, added) := by
  induction f generalizing g with
  | nil =>
      cases h
      cases hhead
  | leaf mark kind content rest ih =>
      obtain ⟨rest', hrest, rfl⟩ := map_eq_ok_iff.1 h
      exact ih hrest hhead
  | element mark name attributes children rest ihc ihr =>
      simp only [applyHook] at h
      split at h
      · cases h
      · rename_i attributes' added hhook
        split at h
        · cases h
        · rename_i hchildren
          obtain ⟨rest', hrest, rfl⟩ := map_eq_ok_iff.1 h
          rw [Forest.heads_element, Forest.heads_append, heads_rawLeaves, List.append_nil,
            List.mem_cons, List.mem_append] at hhead
          rw [Forest.heads_element]
          rcases hhead with rfl | hhead | hhead
          · exact ⟨attributes, added, List.mem_cons_self, hhook⟩
          · obtain ⟨old, added', hmem, hold⟩ := ihc hchildren hhead
            exact ⟨old, added', List.mem_cons_of_mem _ (List.mem_append_left _ hmem), hold⟩
          · obtain ⟨old, added', hmem, hold⟩ := ihr hrest hhead
            exact ⟨old, added', List.mem_cons_of_mem _ (List.mem_append_right _ hmem), hold⟩

/-- Every element of an arch that is compiled with a field hook is what compiling and the hook make
of an element of the arch. -/
theorem exists_becomesBy {o : CompilerOptions} {hook : FieldHook} {arch : Forest ι}
    {lowered : Lowered} (h : lower o hook arch = .ok lowered) {x : Element Mark}
    (hx : x ∈ lowered.content.elements) :
    ∃ d ∈ arch.elements, ∃ attributes, o.BecomesBy hook d attributes x := by
  obtain ⟨outputs, computed, content, hooked, passed, hhooked, hcontent⟩ := exists_passed h
  have hhead : x.head ∈ hooked.heads := by
    refine (heads_unwrapNamed o.reservedTag hooked).subset ?_
    rw [← hcontent]
    exact List.mem_map_of_mem hx
  obtain ⟨attributes, added, hmem, hhook⟩ := heads_applyHook hhooked hhead
  have hcomputed := (heads_lowerCalls_subperm o.placeholder computed).subset hmem
  have hpromised : Except.ok (x.head.1, attributes) ∈ outputs.promised Mark.directives := by
    rw [heads_lowerAttributes passed.computed_eq]
    exact List.mem_map_of_mem hcomputed
  have harch := (heads_lowerOutputs passed.outputs_eq).subset hpromised
  rw [promised_numbered] at harch
  obtain ⟨d, hd, hheadOf⟩ := List.mem_map.1 harch
  obtain ⟨found, hset, heq⟩ := map_eq_ok_iff.1 hheadOf
  obtain ⟨hname, rfl⟩ := Prod.mk.inj heq
  rw [← hname] at hhook
  exact ⟨d, hd, found, hname.symm, hset, added, hhook⟩

end ViewCompiler
