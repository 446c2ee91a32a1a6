/-
**Compiling in place comes to the same.**

After every pass the document has the structure that the passes on labelled forests give, and its
nodes ask for what the labels say.  So both fail at the same place with the same error, or both give
the same result under as many numbers.  No edit on the way is refused but the one that an element is
to be replaced by an output where it has no parent.

Main definitions:

* `ViewCompiler.Reads` — the document is the labelled forest.

Main results:

* `ViewCompiler.tracks_lower` — **compiling in place comes to the same**.
-/

import ViewCompiler.Proofs.Template.Copies
import ViewCompiler.Proofs.Template.Leaves
import ViewCompiler.Proofs.Template.Residue
import ViewCompiler.Proofs.Template.Stripping
import ViewCompiler.Proofs.Template.InPlace.Blocks
import ViewCompiler.Proofs.Template.InPlace.Calls
import ViewCompiler.Proofs.Template.InPlace.Elements
import ViewCompiler.Proofs.Template.InPlace.Outputs

set_option relaxedAutoImplicit false
set_option autoImplicit false

namespace ViewCompiler

variable {ι κ : Type} {table : DirectiveTable} {o : CompilerOptions} {m m' : Forest Mark}
  {t u v : Tree} {loose : Forest NodeId} {size count : Nat}

/-! ### Labels -/

namespace Forest

theorem eq_of_map_eq {φ ψ : ι → κ} {f : Forest ι} (h : f.map φ = f.map ψ) {x : ι}
    (hx : x ∈ f.labels) : φ x = ψ x := by
  induction f with
  | nil => cases hx
  | leaf label kind content rest ih =>
      obtain ⟨hlabel, -, -, hrest⟩ := leaf.inj h
      rcases List.mem_cons.1 hx with rfl | hx
      · exact hlabel
      · exact ih hrest hx
  | element label name attributes children rest ihc ihr =>
      obtain ⟨hlabel, -, -, hchildren, hrest⟩ := element.inj h
      rcases List.mem_cons.1 hx with rfl | hx
      · exact hlabel
      · exact (List.mem_append.1 hx).elim (ihc hchildren) (ihr hrest)

theorem leavesSatisfy_map {P : κ → LeafKind → String → Prop} {φ : ι → κ} {f : Forest ι} :
    (f.map φ).LeavesSatisfy P ↔ f.LeavesSatisfy fun x => P (φ x) := by
  induction f with
  | nil => exact Iff.rfl
  | element _ _ _ _ _ ihc ihr => exact and_congr ihc ihr
  | leaf _ _ _ _ ih => exact and_congr Iff.rfl ih

theorem map_map {μ : Type} (ψ : κ → μ) (φ : ι → κ) (f : Forest ι) :
    (f.map φ).map ψ = f.map fun x => ψ (φ x) := by
  induction f with
  | nil => rfl
  | element _ _ _ _ _ ihc ihr => rw [map, map, map, ihc, ihr]
  | leaf _ _ _ _ ih => rw [map, map, map, ih]

@[simp] theorem size_map (φ : ι → κ) (f : Forest ι) : (f.map φ).size = f.size := by
  rw [← size_plain, plain_map, size_plain]

end Forest

/-- A tree has as many numbers as nodes. -/
theorem Tree.Accounted.size_eq (ht : t.Accounted) : t.size = 1 + t.content.size + t.loose.size := by
  have hlength : (root :: (t.content.labels ++ t.loose.labels)).length = t.size :=
    (List.Perm.length_eq ht).trans List.length_range
  rw [List.length_cons, List.length_append, Forest.length_labels, Forest.length_labels] at hlength
  omega

/-! ### Documents and labelled forests -/

/-- The document is the labelled forest, and leaves ask for nothing. -/
structure Reads (table : DirectiveTable) (m : Forest Mark) (u : Tree) : Prop where
  accounted : u.Accounted
  content : u.content.map table.asks = m.map Mark.directives
  leaves : m.LeavesSatisfy fun mark _ _ => mark.directives = {}
  fresh : table.Below u.size

namespace Reads

theorem size_content (h : Reads table m u) : u.content.size = m.size := by
  rw [← u.content.size_map table.asks, h.content, Forest.size_map]

theorem leaves_content (h : Reads table m u) :
    u.content.LeavesSatisfy fun x _ _ => table.asks x = {} := by
  have hleaves : (m.map Mark.directives).LeavesSatisfy fun d _ _ => d = {} :=
    Forest.leavesSatisfy_map.2 h.leaves
  rw [← h.content] at hleaves
  exact Forest.leavesSatisfy_map.1 hleaves

/-- The labels go with the numbers. -/
theorem exists_marks (h : Reads table m u) :
    ∃ φ : NodeId → Mark, (∀ x, (φ x).directives = table.asks x) ∧ m = u.content.map φ := by
  have : Inhabited Mark := ⟨.source {}⟩
  have hplain : m.plain = u.content.plain := by
    rw [← Forest.plain_map Mark.directives m, ← h.content, Forest.plain_map]
  obtain ⟨ψ, hψ⟩ := Forest.exists_map_of_plain_eq h.accounted.nodup_content hplain
  have hsame : u.content.map table.asks = u.content.map fun x => (ψ x).directives := by
    rw [h.content, hψ, Forest.map_map]
  refine ⟨fun x => if x ∈ u.content.labels then ψ x else .source (table.asks x), fun x => ?_, ?_⟩
  · dsimp only
    split
    · next hx => exact (Forest.eq_of_map_eq hsame hx).symm
    · rfl
  · exact hψ.trans (Forest.map_congr fun x hx => (if_pos hx).symm)

/-- A document behind a pass that takes nothing out has grown as the labelled forest has. -/
theorem grown (h : Reads table m u) (hlands : LandsFrom table (fun x => x) u.loose u.size m' v)
    (hleaves : m'.LeavesSatisfy fun mark _ _ => mark.directives = {}) :
    Reads table m' v ∧ u.size ≤ v.size ∧ v.size + m.size = u.size + m'.size := by
  obtain ⟨k, hk, g, rfl, ht, hg⟩ := hlands
  have hreads : Reads table m' ⟨g, u.loose, k⟩ := ⟨ht, hg, hleaves, h.fresh.mono hk⟩
  have hbefore := h.accounted.size_eq
  have hafter : k = 1 + g.size + u.loose.size := ht.size_eq
  have hg : g.size = m'.size := hreads.size_content
  rw [h.size_content] at hbefore
  exact ⟨hreads, hk, by change k + m.size = u.size + m'.size; omega⟩

/-- A document behind a pass that takes something out. -/
theorem changed (h : Reads table m u)
    (hlands : LandsBeside table (.inContent (fun x => x) u.loose) (u.size + count) m' v)
    (hleaves : m'.LeavesSatisfy fun mark _ _ => mark.directives = {}) :
    Reads table m' v ∧ v.size = u.size + count := by
  obtain ⟨junk, g, rfl, ht, hg⟩ := hlands
  exact ⟨⟨ht, hg, hleaves, h.fresh.mono (Nat.le_add_right _ _)⟩, rfl⟩

end Reads

/-! ### The passes -/

/-- What is in a relation to a result is in it to a result that is given. -/
theorem Tracks.of_ok {α β : Type} {P : β → α → Prop} {r : Except CompileError β}
    {run : Except CompileError α} (h : Tracks P r run) :
    Tracks (fun b a => r = .ok b ∧ P b a) r run := by
  cases r with
  | error e => exact h
  | ok b =>
      obtain ⟨a, ha, hb⟩ := h
      exact ⟨a, ha, rfl, hb⟩

theorem size_lowerAttributes (h : lowerAttributes m = .ok m') : m'.size = m.size := by
  induction m generalizing m' with
  | nil =>
      cases h
      rfl
  | leaf mark kind content rest ih =>
      obtain ⟨rest', hrest, rfl⟩ := map_eq_ok_iff.1 h
      rw [Forest.size, Forest.size, ih hrest]
  | element mark name attributes children rest ihc ihr =>
      rw [lowerAttributes_element_eq] at h
      obtain ⟨_, -, h⟩ := bind_eq_ok_iff.1 h
      obtain ⟨children', hchildren, h⟩ := bind_eq_ok_iff.1 h
      obtain ⟨rest', hrest, h⟩ := bind_eq_ok_iff.1 h
      cases h
      rw [Forest.size, Forest.size, ihc hchildren, ihr hrest]

namespace Reads

theorem attributes (h : Reads table m u) :
    Tracks (fun m' v => Reads table m' v ∧ v.size = u.size) (lowerAttributes m)
      ((u.askingIds table).foldlM (Tree.computeAttributes table) u) := by
  obtain ⟨φ, hφ, rfl⟩ := h.exists_marks
  rw [h.accounted.foldlM_askingIds fun t id hid => by rw [Tree.computeAttributes, hid]]
  refine (tracks_attributes hφ u.content Hole.whole h.accounted).of_ok.mono fun m' v hv => ?_
  obtain ⟨hlowered, hlands⟩ := hv
  obtain ⟨hreads, -, hsize⟩ := h.grown hlands (leavesSatisfy_lowerAttributes h.leaves hlowered)
  rw [size_lowerAttributes hlowered] at hsize
  exact ⟨hreads, Nat.add_right_cancel hsize⟩

theorem branches (h : Reads table m u) :
    Ends (danglingMember? m)
      (fun v => Reads table (lowerBranches m) v ∧ u.size ≤ v.size ∧
        v.size + m.size = u.size + (lowerBranches m).size)
      ((Tree.root :: u.elementIds).foldlM (Tree.lowerChains table) u) := by
  obtain ⟨φ, hφ, rfl⟩ := h.exists_marks
  rw [h.accounted.elementIds_eq]
  exact (ends_branches hφ h.leaves_content h.fresh h.accounted).mono fun v hv =>
    h.grown hv (leavesSatisfy_lowerBranches (fun _ => rfl) h.leaves)

theorem loops (h : Reads table m u) :
    Ends (incompleteLoop? m)
      (fun v => Reads table (lowerLoops m) v ∧ u.size ≤ v.size ∧
        v.size + m.size = u.size + (lowerLoops m).size)
      ((u.askingIds table).foldlM (Tree.lowerLoop table) u) := by
  obtain ⟨φ, hφ, rfl⟩ := h.exists_marks
  rw [h.accounted.foldlM_askingIds fun t id hid => by rw [Tree.lowerLoop, hid]]
  exact (ends_loops hφ u.content Hole.whole h.fresh h.accounted).mono fun v hv =>
    h.grown hv (leavesSatisfy_lowerLoops (fun _ => rfl) h.leaves)

theorem sets (h : Reads table m u) (hroot : table.get? Tree.root = none) :
    Ends (misusedSet? o false true m)
      (fun v => Reads table (lowerSets false m) v ∧ v.size = u.size + setCount false m)
      ((u.askingIds table).foldlM (Tree.lowerSet o table) u) := by
  obtain ⟨φ, hφ, rfl⟩ := h.exists_marks
  rw [h.accounted.foldlM_askingIds fun t id hid => by rw [Tree.lowerSet, hid]]
  exact (ends_sets hφ u.content Hole.whole (ParentCalls.whole hroot) h.fresh h.accounted).mono
    fun v hv => h.changed hv (leavesSatisfy_lowerSets (fun _ => rfl) false h.leaves)

theorem calls (h : Reads table m u) :
    Ends (misusedCall? o false true m)
      (fun v => v.Accounted ∧ v.content.plain = (lowerCalls o.placeholder m).plain ∧
        v.size = u.size + callCount false m)
      ((u.askingIds table).foldlM (Tree.lowerCall o table) u) := by
  obtain ⟨φ, hφ, rfl⟩ := h.exists_marks
  rw [h.accounted.foldlM_askingIds fun t id hid => by rw [Tree.lowerCall, hid]; rfl]
  have hawaits : Awaits table u false true u.content :=
    .of_found fun e he => found_inside Hole.whole h.accounted he
  refine (ends_calls hφ u.content h.leaves_content h.accounted.nodup_content h.accounted
    hawaits).mono fun v hv => ⟨hv.accounted, ?_, hv.size⟩
  have hread := hv.content [] fun l hl => absurd hl List.not_mem_nil
  rwa [structureAfter_nil, List.append_nil, structureAfter_labels] at hread

end Reads

/-- Hooks do not look at labels. -/
theorem applyHook_forget (hook : FieldHook) (m : Forest Mark) :
    applyHook hook (m.map fun _ => .source {}) =
      (applyHook hook m).map (Forest.map fun _ => .source {}) := by
  have hraw : ∀ texts, (rawLeaves texts).map (fun _ => Mark.source {}) = rawLeaves texts := by
    intro texts
    induction texts with
    | nil => rfl
    | cons content more ih => rw [rawLeaves, Forest.map, ih]
  induction m with
  | nil => rfl
  | leaf mark kind content rest ih =>
      rw [Forest.map, applyHook, applyHook, ih]
      cases applyHook hook rest <;> rfl
  | element mark name attributes children rest ihc ihr =>
      rw [Forest.map, applyHook_element_eq, applyHook_element_eq, ihc, ihr]
      cases hook name attributes with
      | error e => rfl
      | ok found =>
          cases applyHook hook children with
          | error e => rfl
          | ok children =>
              cases applyHook hook rest with
              | error e => rfl
              | ok rest =>
                  simp only [bind, Except.bind, Except.map, Forest.map, Forest.map_append, hraw]

theorem Tracks.of_map {α β γ : Type} {P : γ → α → Prop} {r : Except CompileError β} {g : β → γ}
    {run : Except CompileError α} (h : Tracks P (r.map g) run) :
    Tracks (fun b a => P (g b) a) r run := by
  cases r with
  | error e => exact h
  | ok b => exact h

/-- What a caller does to the tree comes to what a hook makes of names and attributes. -/
def FieldHook.ComesTo (hook : FieldHook) (inPlace : TreeHook) : Prop :=
  ∀ {u : Tree} {m : Forest Mark}, u.Accounted → u.content.plain = m.plain →
    Tracks (fun m' v => v.Accounted ∧ v.content.plain = m'.plain ∧ u.size ≤ v.size ∧
        v.size + m.size = u.size + m'.size)
      (applyHook hook m) (u.elementIds.foldlM inPlace u)

theorem comesTo_none : FieldHook.none.ComesTo TreeHook.none := by
  intro u m hu hplain
  have hsame : ∀ ids : List NodeId, ids.foldlM TreeHook.none u = .ok u := by
    intro ids
    induction ids with
    | nil => rfl
    | cons id more ih => exact ih
  rw [applyHook_none, hsame]
  exact .ok ⟨hu, hplain, Nat.le_refl _, rfl⟩

/-- Setting attributes and writing texts behind the content comes to the hook itself. -/
theorem comesTo_inPlace (hook : FieldHook) : hook.ComesTo hook.inPlace := by
  intro u m hu hplain
  have hsame : u.content.map (fun _ => Mark.source {}) = m.map fun _ => .source {} := by
    have hboth := congrArg (Forest.map fun _ => Mark.source {}) hplain
    simpa only [Forest.plain, Forest.map_map] using hboth
  have hrun : Tracks (LandsFrom [] id u.loose u.size)
      (applyHook hook (u.content.map fun _ => .source {}))
      (u.content.elementLabels.foldlM hook.inPlace u) :=
    tracks_hook hook (fun _ => rfl) u.content Hole.whole (fun _ _ => rfl) hu
  rw [hu.elementIds_eq]
  rw [hsame, applyHook_forget] at hrun
  refine hrun.of_map.mono fun m' v hv => ?_
  obtain ⟨k, hk, g, rfl, ht, hg⟩ := hv
  have hgrown : g.plain = m'.plain := by
    have hboth := congrArg Forest.plain hg
    simpa only [Forest.plain_map] using hboth
  refine ⟨ht, hgrown, hk, ?_⟩
  have hbefore := hu.size_eq
  have hafter : k = 1 + g.size + u.loose.size := ht.size_eq
  rw [← u.content.size_plain, hplain, Forest.size_plain] at hbefore
  rw [← g.size_plain, hgrown, Forest.size_plain] at hafter
  change k + m.size = u.size + m'.size
  omega

theorem Forest.plain_unwrapNamed (tag : String) (f : Forest ι) :
    (f.unwrapNamed tag).plain = f.plain.unwrapNamed tag := by
  induction f with
  | nil => rfl
  | leaf label kind content rest ih => exact congrArg (leaf () kind content) ih
  | element label name attributes children rest ihc ihr =>
      simp only [plain, map, unwrapNamed] at ihc ihr ⊢
      split
      · rw [map_append, ihc, ihr]
      · rw [map, ihc, ihr]

/-! ### What the passes start from -/

@[simp] theorem Forest.labels_mapAttributes (g : ι → Attributes → Attributes) (f : Forest ι) :
    (f.mapAttributes g).labels = f.labels := by
  induction f with
  | nil => rfl
  | leaf _ _ _ _ ih => rw [mapAttributes, labels, labels, ih]
  | element _ _ _ _ _ ihc ihr => rw [mapAttributes, labels, labels, ihc, ihr]

theorem DirectiveTable.get?_eq_none {id : NodeId} (h : ∀ entry ∈ table, entry.1 ≠ id) :
    table.get? id = none := by
  rw [get?, Option.map_eq_none_iff, List.find?_eq_none]
  exact fun entry hentry => by simpa using h entry hentry

/-- A document whose directives have been taken off it. -/
structure Started (o : CompilerOptions) (f : Forest ι) (c : Collecting) : Prop where
  accounted : c.tree.Accounted
  content : (f.numberEach 1).1.collect o =
    c.tree.content.map fun x => (x, DirectiveTable.asks c.table x)
  leaves : c.tree.content.LeavesSatisfy fun x _ _ => DirectiveTable.asks c.table x = {}
  fresh : DirectiveTable.Below c.table c.tree.size
  root : DirectiveTable.get? c.table Tree.root = none
  size : c.tree.size = 1 + f.size

theorem started_collect (o : CompilerOptions) (f : Forest ι) :
    Started o f ((Tree.ofPlain f).collect o) := by
  have ht : (Tree.ofPlain f).Accounted := Tree.accounted_ofPlain f
  obtain ⟨htree, -, hentries, -⟩ := Tree.collect_strips o _ ht
  have hcontent := ht.collect_content o
  have hlabel : ∀ entry ∈ ((Tree.ofPlain f).collect o).table,
      entry.1 ∈ (Tree.ofPlain f).content.labels := by
    intro entry hentry
    obtain ⟨e, he, hlabel⟩ := hentries entry hentry
    exact hlabel ▸ Forest.label_mem_labels he
  have hleaves : ∀ {g : Forest NodeId}, (g.collect o).LeavesSatisfy fun p _ _ => p.2 = {} := by
    intro g
    induction g with
    | nil => trivial
    | leaf _ _ _ _ ih => exact ⟨rfl, ih⟩
    | element _ _ _ _ _ ihc ihr => exact ⟨ihc, ihr⟩
  have hsize : ((Tree.ofPlain f).collect o).tree.size = (Tree.ofPlain f).size := by rw [htree]
  refine ⟨?_, hcontent, ?_, fun id hid => ?_, ?_, ?_⟩
  · rw [htree]
    refine List.Perm.trans (.of_eq ?_) ht
    exact congrArg (Tree.root :: · ++ _) (Forest.labels_mapAttributes _ _)
  · exact Forest.leavesSatisfy_map.1 (hcontent ▸ hleaves)
  · refine DirectiveTable.get?_eq_none fun entry hentry heq => ?_
    have hlt := ht.mem_labels_iff.1 (List.mem_cons_of_mem _
      (List.mem_append_left _ (hlabel entry hentry)))
    rw [heq] at hlt
    exact absurd hlt (Nat.not_lt.2 (hsize ▸ hid))
  · refine DirectiveTable.get?_eq_none fun entry hentry heq => ?_
    exact ht.not_mem_loose.1 (heq ▸ hlabel entry hentry)
  · rw [hsize]
    exact f.numberEach_next 1

/-- The pass for outputs. -/
theorem Started.outputs {f : Forest ι} {c : Collecting} (h : Started o f c) :
    Tracks (fun m u => Reads c.table m u ∧
        u.size = 1 + f.size + outputCount ((f.numberEach 1).1.collect o))
      (lowerOutputs o false ((f.numberEach 1).1.collect o))
      ((c.tree.askingIds c.table).foldlM (Tree.lowerOutput o c.table) c.tree) := by
  rw [h.accounted.foldlM_askingIds fun t id hid => by rw [Tree.lowerOutput, hid], h.content]
  refine (tracks_outputs (s := .inContent (fun x => x) c.tree.loose) o c.tree.content h.leaves
    (.document Hole.whole _) h.fresh h.accounted).of_ok.mono fun m u hu => ?_
  obtain ⟨hlowered, junk, g, rfl, ht, hg⟩ := hu
  refine ⟨⟨ht, hg, leavesSatisfy_lowerOutputs (fun _ _ => rfl)
    (Forest.leavesSatisfy_of_forall (fun _ _ _ => rfl) _) hlowered,
    h.fresh.mono (Nat.le_add_right _ _)⟩, congrArg (· + _) h.size⟩

/-- **Compiling in place comes to the same.** -/
theorem tracks_lower (o : CompilerOptions) {hook : FieldHook} {inPlace : TreeHook}
    (hhook : hook.ComesTo inPlace) (t : Tree) :
    Tracks (fun l u => u.Accounted ∧ u.content.plain = l.content.plain ∧ u.size = l.size)
      (ViewCompiler.lower o hook t.content) (t.lower o inPlace) := by
  have hstart := started_collect o t.content
  rw [ViewCompiler.lower, Tree.lower, Tree.compacted]
  refine hstart.outputs.bind fun outputs u₁ h₁ => ?_
  obtain ⟨h₁, hsize₁⟩ := h₁
  refine h₁.attributes.bind fun computed u₂ h₂ => ?_
  obtain ⟨h₂, hsize₂⟩ := h₂
  refine Tracks.of_ends h₂.branches fun u₃ h₃ => ?_
  obtain ⟨h₃, hle₃, hsize₃⟩ := h₃
  refine Tracks.of_ends h₃.loops fun u₄ h₄ => ?_
  obtain ⟨h₄, hle₄, hsize₄⟩ := h₄
  refine Tracks.of_ends (h₄.sets hstart.root) fun u₅ h₅ => ?_
  obtain ⟨h₅, hsize₅⟩ := h₅
  refine Tracks.of_ends h₅.calls fun u₆ h₆ => ?_
  obtain ⟨hacc₆, hplain₆, hsize₆⟩ := h₆
  refine (hhook hacc₆ hplain₆).bind fun hooked u₇ h₇ => ?_
  obtain ⟨hacc₇, hplain₇, hle₇, hsize₇⟩ := h₇
  obtain ⟨junk, hunwrap, hacc₈⟩ := exists_unwrapped_reserved o u₇.content Hole.whole hacc₇
  rw [hacc₇.elementIds_eq]
  refine ⟨_, hunwrap, hacc₈, ?_, ?_⟩
  · rw [Forest.plain_unwrapNamed, Forest.plain_unwrapNamed, hplain₇]
  · dsimp only
    omega

/-- The texts are the same as well. -/
theorem compile_inPlace (o : CompilerOptions) {hook : FieldHook} {inPlace : TreeHook}
    (hhook : hook.ComesTo inPlace) (t : Tree) :
    t.compile o inPlace = ViewCompiler.compile o hook t.content := by
  have htracks := tracks_lower o hhook t
  rw [Tree.compile, ViewCompiler.compile]
  cases hlower : ViewCompiler.lower o hook t.content with
  | error e =>
      rw [hlower] at htracks
      have herror : t.lower o inPlace = .error e := htracks
      rw [herror]
      rfl
  | ok l =>
      rw [hlower] at htracks
      obtain ⟨u, hu, hacc, hplain, -⟩ := htracks
      rw [hu]
      have hwrite := hacc.writeChildren_eq hacc.root_lt_size o.output
      exact congrArg Except.ok (hwrite.trans (write_of_plain o.output hplain))

end ViewCompiler
