/-
**The passes of a compilation that succeeds.**

A compilation is a chain of passes with a check before some of them.  Here a compilation that
succeeds is taken apart into what each pass has left and which checks have let it through;
everything that is proved about compiled archs starts from this.  A field hook comes in before the
last pass; without one, what the other passes have left is all there is.

Main definitions:

* `ViewCompiler.Passed` — the forests between the passes of a successful compilation, and its
  checks.

Main results:

* `ViewCompiler.exists_passed` — a successful compilation runs through all passes, the hook before
  the last one;
* `ViewCompiler.lower_eq_ok` — a successful compilation without a hook runs through all passes;
* `ViewCompiler.Passed.exists_lower` — a compilation that runs through all passes is successful.
-/

import ViewCompiler.Outcome
import ViewCompiler.Template.Compiler

set_option relaxedAutoImplicit false
set_option autoImplicit false

namespace ViewCompiler

variable {ι : Type}

/-- What the passes of a successful compilation of `collected` have left, and the checks that have
let it through. -/
structure Passed (o : CompilerOptions) (collected : Forest (NodeId × Directives))
    (outputs computed content : Forest Mark) : Prop where
  outputs_eq : lowerOutputs o false collected = .ok outputs
  computed_eq : lowerAttributes outputs = .ok computed
  chains : danglingMember? computed = none
  loops : incompleteLoop? (lowerBranches computed) = none
  sets : misusedSet? o false true (lowerLoops (lowerBranches computed)) = none
  calls : misusedCall? o false true (lowerSets false (lowerLoops (lowerBranches computed))) = none
  content_eq : content = (lowerCalls o.placeholder
    (lowerSets false (lowerLoops (lowerBranches computed)))).unwrapNamed o.reservedTag

/-- Without a field hook, elements stay as they are. -/
theorem applyHook_none (f : Forest Mark) : applyHook .none f = .ok f := by
  induction f with
  | nil => rfl
  | element mark name attributes children rest ihc ihr =>
      simp only [applyHook, FieldHook.none, ihc, ihr, rawLeaves, Forest.append_nil]
      rfl
  | leaf mark kind content rest ih =>
      simp only [applyHook, ih]
      rfl

theorem refuse_eq_ok {ε : Type} {e : Option ε} : refuse e = .ok () ↔ e = none := by
  cases e <;> simp [refuse]

/-- A successful compilation runs through all passes; the hook is shown what the last one but one
has left. -/
theorem exists_passed {o : CompilerOptions} {hook : FieldHook} {arch : Forest ι} {l : Lowered}
    (h : lower o hook arch = .ok l) :
    ∃ outputs computed content hooked,
      Passed o ((arch.numberEach 1).1.collect o) outputs computed content ∧
        applyHook hook (lowerCalls o.placeholder
          (lowerSets false (lowerLoops (lowerBranches computed)))) = .ok hooked ∧
        l.content = hooked.unwrapNamed o.reservedTag := by
  obtain ⟨outputs, houtputs, h⟩ := bind_eq_ok_iff.1 h
  obtain ⟨computed, hcomputed, h⟩ := bind_eq_ok_iff.1 h
  obtain ⟨_, hchains, h⟩ := bind_eq_ok_iff.1 h
  obtain ⟨_, hloops, h⟩ := bind_eq_ok_iff.1 h
  obtain ⟨_, hsets, h⟩ := bind_eq_ok_iff.1 h
  obtain ⟨_, hcalls, h⟩ := bind_eq_ok_iff.1 h
  obtain ⟨hooked, hhooked, h⟩ := bind_eq_ok_iff.1 h
  obtain rfl := Except.ok.inj h
  exact ⟨outputs, computed, _, hooked, ⟨houtputs, hcomputed, refuse_eq_ok.1 hchains,
    refuse_eq_ok.1 hloops, refuse_eq_ok.1 hsets, refuse_eq_ok.1 hcalls, rfl⟩, hhooked, rfl⟩

/-- A successful compilation without a hook runs through all passes. -/
theorem lower_eq_ok {o : CompilerOptions} {arch : Forest ι} {l : Lowered}
    (h : lower o .none arch = .ok l) :
    ∃ outputs computed, Passed o ((arch.numberEach 1).1.collect o) outputs computed l.content := by
  obtain ⟨outputs, computed, content, hooked, passed, hhooked, hcontent⟩ := exists_passed h
  rw [applyHook_none] at hhooked
  obtain rfl := Except.ok.inj hhooked
  rw [hcontent, ← passed.content_eq]
  exact ⟨outputs, computed, passed⟩

/-- A compilation that runs through all passes is successful. -/
theorem Passed.exists_lower {o : CompilerOptions} {arch : Forest ι}
    {outputs computed content : Forest Mark}
    (passed : Passed o ((arch.numberEach 1).1.collect o) outputs computed content) :
    ∃ l, lower o .none arch = .ok l ∧ l.content = content := by
  have hlower : ∃ size, lower o .none arch = .ok ⟨content, size⟩ := by
    simp only [lower, bind, Except.bind, refuse, passed.outputs_eq, passed.computed_eq,
      passed.chains, passed.loops, passed.sets, passed.calls, applyHook_none, passed.content_eq]
    exact ⟨_, rfl⟩
  obtain ⟨size, hlower⟩ := hlower
  exact ⟨_, hlower, rfl⟩

end ViewCompiler
