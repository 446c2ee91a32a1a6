/-
**What compiling leaves behind.**

A compiled arch is markup again, so it can be compiled once more.  Every route by which an element
reaches it takes the element past the same three points: its directives are taken off when the arch
is collected, its computed attributes are set, and at the end the elements with the reserved tag are
replaced by what is in them.  So no reserved tag is left, and an attribute that is a directive can
only have been written as a computed one.  Without such an attribute there is nothing left to do: a
forest in which nothing is asked for goes through every pass as it is.

Main definitions:

* `ViewCompiler.Directives.computedNames`, `ViewCompiler.CompilerOptions.writtenNames` — the names
  that computed attributes write, on one element and in an arch;
* `ViewCompiler.Forest.Settled` — no reserved tag and no directive;
* `ViewCompiler.Forest.unasked` — a forest in which nothing is asked for.

Main results:

* `ViewCompiler.Passed.exists_origin` — every element of a compiled arch goes back to one that the
  pass for outputs has left, and that one to an element of the arch;
* `ViewCompiler.lower_settled` — a settled forest is compiled to itself;
* `ViewCompiler.lower_leavesNothing` — a compiled arch has no reserved tag, and no directive but
  those that computed attributes have written; without any it is compiled to itself.
-/

import ViewCompiler.Proofs.Markup.Relabelling
import ViewCompiler.Proofs.Markup.RoundTrip
import ViewCompiler.Proofs.Template.Filing
import ViewCompiler.Proofs.Template.Survivors

set_option relaxedAutoImplicit false
set_option autoImplicit false

namespace ViewCompiler

variable {ι : Type}

/-! ### Names that are written -/

/-- The names that a computed attribute writes. -/
def DynamicAttribute.names : DynamicAttribute → List String
  | .expression name _ => [name]
  | .format name _ => [name]
  | .spread spec =>
      match expandAttributes spec with
      | .error _ => []
      | .ok found => found.map (·.1)

/-- The names that the computed attributes of an element write. -/
def Directives.computedNames (d : Directives) : List String :=
  d.attributes.flatMap DynamicAttribute.names

/-- The names that computed attributes write when an arch is compiled: those of the elements that
the pass for outputs leaves. -/
def CompilerOptions.writtenNames (o : CompilerOptions) (arch : Forest ι) : List String :=
  match lowerOutputs o false ((arch.numberEach 1).1.collect o) with
  | .error _ => []
  | .ok outputs => outputs.elements.flatMap (·.label.directives.computedNames)

theorem names_set {attributes : Attributes} {name value : String} {a : String × String}
    (h : a ∈ attributes.set name value) : a.1 = name ∨ a.1 ∈ attributes.map (·.1) := by
  induction attributes with
  | nil =>
      rw [Attributes.set, List.mem_singleton] at h
      exact .inl (congrArg Prod.fst h)
  | cons entry more ih =>
      rw [Attributes.set] at h
      split at h
      · rename_i hname
        rcases List.mem_cons.1 h with rfl | h
        · exact .inl hname
        · exact .inr (List.mem_cons_of_mem _ (List.mem_map_of_mem h))
      · rcases List.mem_cons.1 h with rfl | h
        · exact .inr List.mem_cons_self
        · exact (ih h).imp_right fun h => List.mem_cons_of_mem _ h

theorem names_setEach {attributes found : Attributes} {a : String × String}
    (h : a ∈ found.foldl (fun attributes b => attributes.set b.1 b.2) attributes) :
    a.1 ∈ found.map (·.1) ∨ a.1 ∈ attributes.map (·.1) := by
  induction found generalizing attributes with
  | nil => exact .inr (List.mem_map_of_mem h)
  | cons entry more ih =>
      rcases ih h with hmore | hset
      · exact .inl (List.mem_cons_of_mem _ hmore)
      · obtain ⟨b, hb, hname⟩ := List.mem_map.1 hset
        rw [← hname]
        exact (names_set hb).imp_left fun hb => List.mem_cons.2 (.inl hb)

theorem names_setDynamic {attributes attributes' : Attributes} {d : DynamicAttribute}
    (h : setDynamic attributes d = .ok attributes') {a : String × String} (ha : a ∈ attributes') :
    a.1 ∈ d.names ∨ a.1 ∈ attributes.map (·.1) := by
  cases d with
  | expression name expr | format name format =>
      cases h
      exact (names_set ha).imp_left List.mem_singleton.2
  | spread spec =>
      obtain ⟨found, hfound, rfl⟩ := map_eq_ok_iff.1 h
      rw [DynamicAttribute.names, hfound]
      exact names_setEach ha

/-- An attribute of an element whose computed attributes are set has been there before, or one of
them has written it. -/
theorem names_setAllDynamic {attributes attributes' : Attributes}
    {computed : List DynamicAttribute} (h : setAllDynamic attributes computed = .ok attributes')
    {a : String × String} (ha : a ∈ attributes') :
    a.1 ∈ computed.flatMap DynamicAttribute.names ∨ a.1 ∈ attributes.map (·.1) := by
  induction computed generalizing attributes with
  | nil =>
      cases h
      exact .inr (List.mem_map_of_mem ha)
  | cons d more ih =>
      rw [setAllDynamic] at h
      split at h
      · cases h
      · rename_i between hset
        rw [List.flatMap_cons, List.mem_append]
        rcases ih h with hmore | hbetween
        · exact .inl (.inr hmore)
        · obtain ⟨b, hb, hname⟩ := List.mem_map.1 hbetween
          rw [← hname]
          exact (names_setDynamic hset hb).imp_left .inl

/-! ### Directives are known by their names -/

/-- An attribute that stays on its element is no directive. -/
theorem CompilerOptions.directive?_eq_none {o : CompilerOptions} {a : String × String}
    (h : o.consumes a = false) : o.directive? a = none := by
  rw [consumes, Bool.or_eq_false_iff] at h
  exact Option.isNone_iff_eq_none.1 (Option.isSome_eq_false_iff.1 h.2)

/-! ### Where elements come from -/

section Origin

variable {o : CompilerOptions} {arch : Forest ι} {outputs computed content : Forest Mark}

/-- An element of a compiled arch goes back to one that the pass for outputs has left, and that one
to an element of the arch: its directives are those of the latter, and compiling makes the element
of it. -/
theorem Passed.exists_origin
    (passed : Passed o ((arch.numberEach 1).1.collect o) outputs computed content)
    {x : Element Mark} (hx : x ∈ content.elements) :
    ∃ y ∈ outputs.elements, ∃ d ∈ arch.elements,
      y.label.directives = o.directivesOf d.attributes ∧ o.Becomes d x := by
  have hhead : Except.ok x.head ∈ outputs.promised Mark.directives := by
    rw [heads_lowerAttributes passed.computed_eq]
    exact List.mem_map_of_mem (passed.heads_subperm.subset (List.mem_map_of_mem hx))
  rw [Forest.promised_eq_asked] at hhead
  obtain ⟨asked, hasked, hset⟩ := List.mem_map.1 hhead
  obtain ⟨y, hy, rfl⟩ := List.mem_map.1 hasked
  have hfound := (asked_lowerOutputs passed.outputs_eq).subset hasked
  rw [asked_numbered] at hfound
  obtain ⟨d, hd, heq⟩ := List.mem_map.1 hfound
  obtain ⟨hdirectives, hhead⟩ := Prod.mk.inj heq
  refine ⟨y, hy, d, hd, hdirectives.symm, CompilerOptions.becomes_iff.2 ?_⟩
  rw [CompilerOptions.headOf, hdirectives, ← hset, ← hhead]

/-- A directive in a compiled arch is named as a computed attribute has written it. -/
theorem CompilerOptions.Becomes.name_mem {d : Element ι} {x : Element Mark} (h : o.Becomes d x)
    {a : String × String} (ha : a ∈ x.attributes) (hconsumed : o.consumes a = true) :
    a.1 ∈ (o.directivesOf d.attributes).computedNames := by
  refine (names_setAllDynamic h.attributes_eq ha).resolve_right fun hkept => ?_
  obtain ⟨b, hb, hname⟩ := List.mem_map.1 hkept
  have hb' : o.consumes b = true := by
    rw [← hconsumed, o.consumes_value b.1 b.2 a.2, hname]
  simp [hb'] at hb

theorem unwrapNamed_name {tag : String} {f : Forest ι} {x : Element ι}
    (h : x ∈ (f.unwrapNamed tag).elements) : x.name ≠ tag := by
  induction f with
  | nil => cases h
  | leaf label kind text rest ih => exact ih h
  | element label name attributes children rest ihc ihr =>
      rw [Forest.unwrapNamed] at h
      split at h
      · rw [Forest.elements_append, List.mem_append] at h
        exact h.elim ihc ihr
      · rename_i hname
        rcases List.mem_cons.1 h with rfl | h
        · exact hname
        · exact (List.mem_append.1 h).elim ihc ihr

end Origin

/-! ### Nothing is asked for -/

/-- The forest as one of the arch in which nothing is asked for. -/
def Forest.unasked (f : Forest ι) : Forest Mark :=
  f.map fun _ => .source {}

section Unasked

variable (o : CompilerOptions) (f : Forest ι)

theorem lowerOutputs_unasked (orphaned : Bool) (f : Forest NodeId) :
    lowerOutputs o orphaned (f.map fun id => (id, {})) = .ok f.unasked := by
  induction f generalizing orphaned with
  | nil => rfl
  | leaf id kind content rest ih =>
      rw [Forest.map, lowerOutputs, ih]
      rfl
  | element id name attributes children rest ihc ihr =>
      simp only [Forest.map, lowerOutputs, ihc, ihr]
      rfl

theorem lowerAttributes_unasked : lowerAttributes f.unasked = .ok f.unasked := by
  induction f with
  | nil => rfl
  | leaf label kind content rest ih =>
      simp only [Forest.unasked, Forest.map, lowerAttributes] at ih ⊢
      rw [ih]
      rfl
  | element label name attributes children rest ihc ihr =>
      simp only [Forest.unasked, Forest.map, lowerAttributes, Mark.directives,
        setAllDynamic] at ihc ihr ⊢
      simp only [ihc, ihr]
      rfl

theorem danglingSibling?_unasked (isOpen : Bool) : danglingSibling? isOpen f.unasked = none := by
  induction f generalizing isOpen with
  | nil => rfl
  | leaf _ _ _ _ ih => exact ih _
  | element _ _ _ _ _ _ ih => exact ih _

theorem danglingMember?_unasked : danglingMember? f.unasked = none := by
  rw [danglingMember?, danglingSibling?_unasked, Option.none_or]
  induction f with
  | nil => rfl
  | leaf _ _ _ _ ih => exact ih
  | element label name attributes children rest ihc ihr =>
      change (danglingSibling? false children.unasked).or
        ((danglingBelow? children.unasked).or (danglingBelow? rest.unasked)) = none
      rw [danglingSibling?_unasked, ihc, ihr]
      rfl

theorem lowerBranches_unasked : lowerBranches f.unasked = f.unasked := by
  induction f with
  | nil => rfl
  | leaf _ _ _ _ ih => exact congrArg (Forest.leaf _ _ _) ih
  | element _ _ _ _ _ ihc ihr => exact congrArg₂ (Forest.element _ _ _) ihc ihr

theorem incompleteLoop?_unasked : incompleteLoop? f.unasked = none := by
  induction f with
  | nil => rfl
  | leaf _ _ _ _ ih => exact ih
  | element _ _ _ _ _ ihc ihr => exact Option.or_eq_none_iff.2 ⟨ihc, ihr⟩

theorem lowerLoops_unasked : lowerLoops f.unasked = f.unasked := by
  induction f with
  | nil => rfl
  | leaf _ _ _ _ ih => exact congrArg (Forest.leaf _ _ _) ih
  | element _ _ _ _ _ ihc ihr => exact congrArg₂ (Forest.element _ _ _) ihc ihr

theorem misusedSet?_unasked (inCall attached : Bool) :
    misusedSet? o inCall attached f.unasked = none := by
  induction f generalizing inCall with
  | nil => rfl
  | leaf _ _ _ _ ih => exact ih _
  | element _ _ _ _ _ ihc ihr => exact Option.or_eq_none_iff.2 ⟨ihc _, ihr _⟩

theorem lowerSets_unasked (inCall : Bool) : lowerSets inCall f.unasked = f.unasked := by
  induction f generalizing inCall with
  | nil => rfl
  | leaf _ _ _ _ ih => exact congrArg (Forest.leaf _ _ _) (ih _)
  | element label name attributes children rest ihc ihr =>
      cases inCall <;> exact congrArg₂ (Forest.element _ _ _) (ihc _) (ihr _)

theorem misusedCall?_unasked (inCall attached : Bool) :
    misusedCall? o inCall attached f.unasked = none := by
  induction f generalizing inCall attached with
  | nil => rfl
  | leaf _ _ _ _ ih => exact ih _ _
  | element _ _ _ _ _ ihc ihr => exact Option.or_eq_none_iff.2 ⟨ihc _ _, ihr _ _⟩

theorem lowerCalls_unasked (placeholder : String) :
    lowerCalls placeholder f.unasked = f.unasked := by
  induction f with
  | nil => rfl
  | leaf _ _ _ _ ih => exact congrArg (Forest.leaf _ _ _) ih
  | element _ _ _ _ _ ihc ihr => exact congrArg₂ (Forest.element _ _ _) ihc ihr

end Unasked

/-! ### A settled forest -/

/-- No element has the reserved tag, and no attribute is taken off. -/
def Forest.Settled (o : CompilerOptions) (f : Forest ι) : Prop :=
  ∀ x ∈ f.elements, x.name ≠ o.reservedTag ∧ ∀ a ∈ x.attributes, o.consumes a = false

namespace Forest

variable {o : CompilerOptions} {f : Forest ι}

theorem settled_iff_heads : f.Settled o ↔
    ∀ head ∈ f.heads, head.1 ≠ o.reservedTag ∧ ∀ a ∈ head.2, o.consumes a = false := by
  simp [Settled, heads, Element.head]

theorem settled_element {label : ι} {name : String} {attributes : Attributes}
    {children rest : Forest ι} : (element label name attributes children rest).Settled o ↔
      (name ≠ o.reservedTag ∧ ∀ a ∈ attributes, o.consumes a = false) ∧
        children.Settled o ∧ rest.Settled o := by
  simp only [settled_iff_heads, heads_element, List.forall_mem_cons, List.forall_mem_append]

/-- Nothing is taken off a settled forest. -/
theorem collect_settled (h : f.Settled o) : f.collect o = f.map fun label => (label, {}) := by
  induction f with
  | nil => rfl
  | leaf _ _ _ _ ih => exact congrArg (leaf _ _ _) (ih h)
  | element label name attributes children rest ihc ihr =>
      obtain ⟨⟨-, hattributes⟩, hchildren, hrest⟩ := settled_element.1 h
      have hnone : attributes.filterMap o.directive? = [] :=
        List.filterMap_eq_nil_iff.2 fun a ha =>
          CompilerOptions.directive?_eq_none (hattributes a ha)
      have hall : attributes.filter (!o.consumes ·) = attributes :=
        List.filter_eq_self.2 fun a ha => by rw [hattributes a ha]; rfl
      rw [collect, ihc hchildren, ihr hrest, hall, CompilerOptions.directivesOf, hnone]
      rfl

theorem unwrapNamed_settled (h : f.Settled o) :
    f.unasked.unwrapNamed o.reservedTag = f.unasked := by
  induction f with
  | nil => rfl
  | leaf _ _ _ _ ih => exact congrArg (leaf _ _ _) (ih h)
  | element label name attributes children rest ihc ihr =>
      obtain ⟨⟨hname, -⟩, hchildren, hrest⟩ := settled_element.1 h
      exact (if_neg hname).trans
        (congrArg₂ (element _ _ _) (ihc hchildren) (ihr hrest))

end Forest

/-- A settled forest goes through all passes as it is. -/
theorem lower_settled {o : CompilerOptions} {arch : Forest ι} (h : arch.Settled o) :
    ∃ lowered, lower o .none arch = .ok lowered ∧ lowered.content.plain = arch.plain := by
  have hheads : (arch.numberEach 1).1.heads = arch.heads := by
    rw [← heads_plain, Forest.plain_numberEach, heads_plain]
  have hplain := arch.plain_numberEach 1
  generalize hnumbered : (arch.numberEach 1).1 = numbered at hheads hplain
  have hsettled : numbered.Settled o := by
    rwa [Forest.settled_iff_heads, hheads, ← Forest.settled_iff_heads]
  have passed : Passed o ((arch.numberEach 1).1.collect o) numbered.unasked numbered.unasked
      numbered.unasked :=
    { outputs_eq := by
        rw [hnumbered, Forest.collect_settled hsettled]
        exact lowerOutputs_unasked o false numbered
      computed_eq := lowerAttributes_unasked numbered
      chains := danglingMember?_unasked numbered
      loops := by rw [lowerBranches_unasked, incompleteLoop?_unasked]
      sets := by rw [lowerBranches_unasked, lowerLoops_unasked, misusedSet?_unasked]
      calls := by
        rw [lowerBranches_unasked, lowerLoops_unasked, lowerSets_unasked, misusedCall?_unasked]
      content_eq := by
        rw [lowerBranches_unasked, lowerLoops_unasked, lowerSets_unasked, lowerCalls_unasked,
          Forest.unwrapNamed_settled hsettled] }
  obtain ⟨lowered, hlower, hcontent⟩ := passed.exists_lower
  refine ⟨lowered, hlower, ?_⟩
  rw [hcontent, ← hplain]
  exact Forest.plain_map _ numbered

/-! ### What is left -/

theorem write_of_plain {κ : Type} {f : Forest ι} {g : Forest κ} (style : WriteStyle)
    (h : f.plain = g.plain) : f.write style = g.write style := by
  rw [← String.toList_inj, Forest.toList_write, Forest.toList_write, ← Forest.chars_plain, h,
    Forest.chars_plain]

/-- A compiled arch has no element with the reserved tag.  An attribute in it that is a directive
stands on what compiling makes of an element of the arch whose computed attributes write its name.
If no computed attribute writes the name of a directive, the compiled arch is compiled to itself,
and to the same text. -/
theorem lower_leavesNothing {o : CompilerOptions} {arch : Forest ι} {lowered : Lowered}
    (h : lower o .none arch = .ok lowered) :
    (∀ x ∈ lowered.content.elements, x.name ≠ o.reservedTag) ∧
      (∀ x ∈ lowered.content.elements, ∀ a ∈ x.attributes, o.consumes a = true →
        a.1 ∈ o.writtenNames arch ∧ ∃ d ∈ arch.elements, o.Becomes d x ∧
          a.1 ∈ (o.directivesOf d.attributes).computedNames) ∧
      ((∀ name ∈ o.writtenNames arch, ∀ value, o.consumes (name, value) = false) →
        ∃ again, lower o .none lowered.content = .ok again ∧
          again.content.plain = lowered.content.plain ∧
          compile o .none lowered.content = compile o .none arch) := by
  obtain ⟨outputs, computed, passed⟩ := lower_eq_ok h
  have hname : ∀ x ∈ lowered.content.elements, x.name ≠ o.reservedTag := by
    rw [passed.content_eq]
    exact fun x hx => unwrapNamed_name hx
  have hwritten : ∀ x ∈ lowered.content.elements, ∀ a ∈ x.attributes, o.consumes a = true →
      a.1 ∈ o.writtenNames arch ∧ ∃ d ∈ arch.elements, o.Becomes d x ∧
        a.1 ∈ (o.directivesOf d.attributes).computedNames := by
    intro x hx a ha hconsumed
    obtain ⟨y, hy, d, hd, hdirectives, hbecomes⟩ := passed.exists_origin hx
    have hmem := hbecomes.name_mem ha hconsumed
    refine ⟨?_, d, hd, hbecomes, hmem⟩
    rw [CompilerOptions.writtenNames, passed.outputs_eq]
    exact List.mem_flatMap.2 ⟨y, hy, by rwa [hdirectives]⟩
  refine ⟨hname, hwritten, fun hnames => ?_⟩
  have hsettled : lowered.content.Settled o := by
    refine fun x hx => ⟨hname x hx, fun a ha => ?_⟩
    refine Bool.eq_false_iff.2 fun hconsumed => ?_
    have hkept := hnames a.1 (hwritten x hx a ha hconsumed).1 a.2
    rw [hconsumed] at hkept
    cases hkept
  obtain ⟨again, hagain, hplain⟩ := lower_settled hsettled
  refine ⟨again, hagain, hplain, ?_⟩
  rw [compile, compile, h, hagain]
  exact congrArg Except.ok (write_of_plain o.output hplain)

/-- A call with a hoisted title, and content in which translation is off. -/
def cardArch : Forest Unit :=
  .element () "t" [("t-call", "card")]
    (.element () "t" [("t-set", "title")] (.leaf () .text "Home" .nil)
      (.element () "p" [("t-att-class", "kind"), ("t-translation", "off")] .nil .nil)) .nil

/-- The text of the call. -/
def cardText : String :=
  "\x7b% macro title() %\x7dHome\x7b% endmacro %\x7d\x7b% with _0 = null %\x7d" ++
    "\x7b% macro _0() %\x7d<p class=\"\x7b\x7b kind \x7d\x7d\"></p>\x7b% endmacro %\x7d" ++
    "\x7b% include \"card\" %\x7d\x7b% endwith %\x7d"

/-- Neither the reserved tag nor a directive is left of the call, and its text is compiled to
itself. -/
theorem cardArch_leavesNothing :
    ∃ lowered again, lower {} .none cardArch = .ok lowered ∧
      (∀ x ∈ lowered.content.elements, x.name ≠ "t") ∧
      lower {} .none lowered.content = .ok again ∧
      again.content.plain = lowered.content.plain ∧
      compile {} .none lowered.content = .ok cardText := by
  have hcompile : compile {} .none cardArch = .ok cardText := by decide +kernel
  have hwritten : ({} : CompilerOptions).writtenNames cardArch = ["class"] := by decide +kernel
  obtain ⟨lowered, hlower, -⟩ := map_eq_ok_iff.1 hcompile
  obtain ⟨hnames, -, hagain⟩ := lower_leavesNothing hlower
  have hnone : ∀ name ∈ ({} : CompilerOptions).writtenNames cardArch, ∀ value,
      ({} : CompilerOptions).consumes (name, value) = false := by
    rw [hwritten]
    intro name hname value
    obtain rfl := List.mem_singleton.1 hname
    rw [CompilerOptions.consumes_value _ _ value ""]
    decide +kernel
  obtain ⟨again, hlowered, hplain, htext⟩ := hagain hnone
  exact ⟨lowered, again, hlower, hnames, hlowered, hplain, htext.trans hcompile⟩

end ViewCompiler
