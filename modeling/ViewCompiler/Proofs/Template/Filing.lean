/-
**Filing directives.**

The directives of an element are filed one after the other, each in a slot of its own kind.  What a
slot holds afterwards can be told from the list of all of them: the slot for computed attributes
holds those in their order, every other slot the last one that goes into it.  Whether an attribute
is a directive is told by its name.

Main definitions:

* `ViewCompiler.Directive.output?`, … `ViewCompiler.Directive.call?` — what a directive puts into
  each slot;
* `ViewCompiler.Directives.Files` — directives are filed, each in its slot.

Main results:

* `ViewCompiler.Directives.slot_foldl_add` — one slot after filing;
* `ViewCompiler.Directives.files_foldl_add` — **all slots after filing**;
* `ViewCompiler.CompilerOptions.directive?_eq_parse` — the attribute that turns translation off is
  no directive under any prefix;
* `ViewCompiler.CompilerOptions.consumes_value` — whether an attribute is taken off is told by its
  name.
-/

import Mathlib.Data.List.Infix
import ViewCompiler.Template.Directive

set_option relaxedAutoImplicit false
set_option autoImplicit false

namespace ViewCompiler

/-! ### Slots -/

namespace Directive

def output? : Directive → Option (OutputMode × String)
  | .output mode expr => some (mode, expr)
  | _ => none

def dynamic? : Directive → Option DynamicAttribute
  | .dynamic a => some a
  | _ => none

/-- The place in a chain that a directive asks for. -/
def conditional? : Directive → Option Conditional
  | .conditional place => some place
  | _ => none

def foreach? : Directive → Option String
  | .foreach expr => some expr
  | _ => none

def binding? : Directive → Option String
  | .binding name => some name
  | _ => none

def set? : Directive → Option String
  | .set name => some name
  | _ => none

def value? : Directive → Option String
  | .value expr => some expr
  | _ => none

def call? : Directive → Option String
  | .call template => some template
  | _ => none

end Directive

namespace Directives

/-- What is filed is what has been found: computed attributes in their order, and in every other
slot the last directive that goes into it. -/
structure Files (d : Directives) (found : List Directive) : Prop where
  attributes : d.attributes = found.filterMap Directive.dynamic?
  output : d.output = (found.filterMap Directive.output?).getLast?
  conditional : d.conditional = (found.filterMap Directive.conditional?).getLast?
  foreach : d.foreach = (found.filterMap Directive.foreach?).getLast?
  binding : d.binding = (found.filterMap Directive.binding?).getLast?
  set : d.set = (found.filterMap Directive.set?).getLast?
  value : d.value = (found.filterMap Directive.value?).getLast?
  call : d.call = (found.filterMap Directive.call?).getLast?

/-- A slot that each directive fills or leaves alone holds the last that fills it. -/
theorem slot_foldl_add {α : Type} {slot : Directives → Option α} {fill : Directive → Option α}
    (hadd : ∀ (d : Directives) (x : Directive), slot (d.add x) = (fill x).or (slot d))
    (found : List Directive) (d : Directives) :
    slot (found.foldl .add d) = (found.filterMap fill).getLast?.or (slot d) := by
  induction found generalizing d with
  | nil => rfl
  | cons x more ih =>
      rw [List.foldl_cons, ih, hadd]
      cases hfill : fill x with
      | none => rw [List.filterMap_cons_none hfill, Option.none_or]
      | some a =>
          rw [List.filterMap_cons_some hfill, List.getLast?_cons]
          cases (more.filterMap fill).getLast? <;> rfl

theorem attributes_foldl_add (found : List Directive) (d : Directives) :
    (found.foldl .add d).attributes = d.attributes ++ found.filterMap Directive.dynamic? := by
  induction found generalizing d with
  | nil => exact (List.append_nil _).symm
  | cons x more ih =>
      rw [List.foldl_cons, ih]
      cases x with
      | dynamic a =>
          have hfill : Directive.dynamic? (.dynamic a) = some a := rfl
          rw [List.filterMap_cons_some hfill, add, List.append_assoc]
          rfl
      | _ => rw [List.filterMap_cons_none rfl, add]

/-- **Every directive is filed in its slot.** -/
theorem files_foldl_add (found : List Directive) :
    (found.foldl add ({} : Directives)).Files found := by
  have hslot : ∀ {α : Type} {slot : Directives → Option α} {fill : Directive → Option α},
      slot {} = none →
      (∀ (d : Directives) (x : Directive), slot (d.add x) = (fill x).or (slot d)) →
      slot (found.foldl add {}) = (found.filterMap fill).getLast? := by
    intro α slot fill hempty hadd
    rw [slot_foldl_add hadd, hempty, Option.or_none]
  refine ⟨attributes_foldl_add found {}, ?_, ?_, ?_, ?_, ?_, ?_, ?_⟩
  all_goals
    refine hslot rfl ?_
    intro d x
    cases x <;> rfl

/-- Behind a directive its slot is not empty. -/
theorem add_ne_empty (d : Directives) (x : Directive) : d.add x ≠ {} := by
  intro h
  cases x with
  | dynamic a => exact List.concat_ne_nil a d.attributes (congrArg attributes h)
  | output mode expr => cases congrArg output h
  | conditional place => cases congrArg conditional h
  | foreach expr => cases congrArg foreach h
  | binding name => cases congrArg binding h
  | set name => cases congrArg set h
  | value expr => cases congrArg value h
  | call template => cases congrArg call h

/-- Nothing is asked for exactly if there is no directive. -/
theorem isEmpty_foldl_add (found : List Directive) :
    (found.foldl add ({} : Directives)).isEmpty = found.isEmpty := by
  rcases List.eq_nil_or_concat found with rfl | ⟨front, x, rfl⟩
  · rfl
  · have hne : front ++ [x] ≠ [] :=
      List.append_ne_nil_of_right_ne_nil front (List.cons_ne_nil x [])
    rw [List.concat_eq_append, List.foldl_append, List.isEmpty_eq_false_iff.2 hne]
    exact decide_eq_false (add_ne_empty _ x)

end Directives

/-! ### Directives are known by their names -/

theorem isSome_ofKey (key value value' : String) :
    (Directive.ofKey key value).isSome = (Directive.ofKey key value').isSome := by
  unfold Directive.ofKey
  split
  case h_13 =>
    cases dropStart? "attf-" key with
    | none => simp
    | some name => rfl
  all_goals simp only [Option.isSome_some]

theorem isSome_parse (start name value value' : String) :
    (Directive.parse start name value).isSome = (Directive.parse start name value').isSome := by
  unfold Directive.parse
  cases dropStart? start name with
  | none => rfl
  | some key => rw [Option.bind_some, Option.bind_some, isSome_ofKey key value value']

/-- What stands behind a prefix is an end of the name. -/
theorem suffix_of_dropStart? {start name key : String} (h : dropStart? start name = some key) :
    key.toList <:+ name.toList := by
  obtain ⟨rest, hrest, rfl⟩ := Option.map_eq_some_iff.1 h
  rw [String.toList_ofList]
  exact ⟨start.toList, List.isPrefixOf?_eq_some_iff_append_eq.1 hrest⟩

/-- No end of the name that turns translation off is the name of a directive. -/
theorem parse_translationDirective (start value : String) :
    Directive.parse start translationDirective value = none := by
  have hends : (translationDirective.toList.tails.all fun key =>
      (Directive.ofKey (.ofList key) "").isNone) = true := rfl
  unfold Directive.parse
  cases hkey : dropStart? start translationDirective with
  | none => rfl
  | some key =>
      have hnone := List.all_eq_true.1 hends _ ((List.mem_tails _ _).2 (suffix_of_dropStart? hkey))
      rw [String.ofList_toList, ← Option.not_isSome, isSome_ofKey key "" value] at hnone
      rw [Option.bind_some]
      simpa using hnone

namespace CompilerOptions

/-- The attribute that turns translation off would be no directive anyway. -/
theorem directive?_eq_parse (o : CompilerOptions) (a : String × String) :
    o.directive? a = Directive.parse o.directivePrefix a.1 a.2 := by
  rw [directive?]
  split
  · next hname => rw [hname, parse_translationDirective]
  · rfl

/-- Whether an attribute is taken off does not depend on its value. -/
theorem consumes_value (o : CompilerOptions) (name value value' : String) :
    o.consumes (name, value) = o.consumes (name, value') := by
  rw [consumes, consumes, directive?_eq_parse, directive?_eq_parse,
    isSome_parse _ _ value value']

end CompilerOptions

end ViewCompiler
