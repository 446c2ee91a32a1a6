/-
**How a compilation in place ends.**

Every pass edits a tree whose nodes it has listed beforehand, and every edit can be refused.  A
compilation without a field hook gives a result all the same, or it names a misused directive, with
one exception: an element that is to be replaced by an output after the element around it has
dropped it.  Then the compilation ends with an error about that node, although no directive is
misused.  This is the only way in which it can end so, and the node is the first such element in
document order.

Main results:

* `ViewCompiler.compile_ends` — **how a compilation ends**.
-/

import ViewCompiler.Markup.Reader
import ViewCompiler.Proofs.Template.Endings
import ViewCompiler.Proofs.Template.InPlace.Compiling

set_option relaxedAutoImplicit false
set_option autoImplicit false

namespace ViewCompiler

/-- **How a compilation ends**: with an error about a node of the tree if an element is to be
replaced by its output where its parent has dropped it, and then about the first such element;
otherwise with a result or a misused directive. -/
theorem compile_ends (o : CompilerOptions) (t : Tree) :
    (∃ parent ∈ t.compacted.content.elements, ∃ child ∈ parent.children.topElements,
        o.dropsChildren parent = true ∧ o.givesWay child = true ∧
        firstStranded? o none t.compacted.content = some child ∧
        t.lower o .none = .error (.tree (.detached child.label)) ∧
        t.compile o .none = .error (.tree (.detached child.label))) ∨
      ((∀ parent ∈ t.compacted.content.elements, o.dropsChildren parent = true →
          ∀ child ∈ parent.children.topElements, o.givesWay child = false) ∧
        ((∃ u, t.lower o .none = .ok u ∧
            t.compile o .none = .ok (u.content.write o.output)) ∨
          ∃ e : CompileError, e.isMisuse = true ∧ t.lower o .none = .error e ∧
            t.compile o .none = .error e)) := by
  have htracks := tracks_lower o comesTo_none t
  have herror : ∀ e, lower o .none t.content = .error e →
      t.lower o .none = .error e ∧ t.compile o .none = .error e := by
    intro e he
    rw [he] at htracks
    have hlower : t.lower o .none = .error e := htracks
    exact ⟨hlower, map_eq_error_iff.2 hlower⟩
  rcases lower_ends o t.content with ⟨parent, hparent, child, hchild, hdrops, hgives, hfirst, he⟩ |
    ⟨hkept, ⟨l, hl⟩ | ⟨e, hmisuse, he⟩⟩
  · exact .inl ⟨parent, hparent, child, hchild, hdrops, hgives, hfirst, herror _ he⟩
  · rw [hl] at htracks
    obtain ⟨u, hu, hacc, -⟩ := htracks
    refine .inr ⟨hkept, .inl ⟨u, hu, ?_⟩⟩
    rw [Tree.compile, hu]
    exact congrArg Except.ok (hacc.writeChildren_eq hacc.root_lt_size o.output)
  · exact .inr ⟨hkept, .inr ⟨e, hmisuse, herror e he⟩⟩

/-- An element whose child is to be replaced by an output of its own cannot be compiled, although
no directive is misused. -/
theorem compile_stranded :
    ∃ t, parse "<p t-esc=\"a\"><t t-esc=\"b\"/></p>" = .ok t ∧
      t.lower {} .none = .error (.tree (.detached 2)) ∧
      t.compile {} .none = .error (.tree (.detached 2)) := by
  have hends : (parse "<p t-esc=\"a\"><t t-esc=\"b\"/></p>").toOption.map
      (fun t => errorOf? (t.lower {} .none)) = some (some (.tree (.detached 2))) := by
    decide +kernel
  cases hparse : parse "<p t-esc=\"a\"><t t-esc=\"b\"/></p>" with
  | error e => simp [hparse, Except.toOption] at hends
  | ok t =>
      have hlower : t.lower {} .none = .error (.tree (.detached 2)) := by
        simpa [hparse, Except.toOption, errorOf?_eq_some] using hends
      exact ⟨t, rfl, hlower, map_eq_error_iff.2 hlower⟩

end ViewCompiler
