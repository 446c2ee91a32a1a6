/-
**A place in a forest.**

A place between siblings is described by what surrounds it: the elements around it from the outside
in, each with its siblings on both sides.  Every node stands at such a place, and replacing the node
puts something else there and leaves the surroundings alone.

Main definitions:

* `ViewCompiler.Frame`, `ViewCompiler.Frame.fill` — the elements around a place, and the forest with
  something put there.

Main results:

* `ViewCompiler.Forest.exists_fill` — **where a node stands, and what replacing it does**;
* `ViewCompiler.Forest.splice_splice`, `ViewCompiler.Forest.splice_splice_new` — replacing one node
  after another;
* `ViewCompiler.Tree.mapAttributes_mapAttributes` — changing the attributes of an element again.
-/

import ViewCompiler.Proofs.Markup.Records

set_option relaxedAutoImplicit false
set_option autoImplicit false

namespace ViewCompiler

variable {ι : Type}

/-- An element around a place, with the siblings before and after the element. -/
structure Frame (ι : Type) where
  before : Forest ι
  label : ι
  name : String
  attributes : Attributes
  after : Forest ι

namespace Frame

/-- The element and its siblings; `children` are the children of the element. -/
def around (k : Frame ι) (children : Forest ι) : Forest ι :=
  k.before ++ .element k.label k.name k.attributes children k.after

/-- What a place holds, with everything around it; the outermost element comes first. -/
def fill : List (Frame ι) → Forest ι → Forest ι
  | [], f => f
  | k :: inner, f => k.around (fill inner f)

/-- Siblings in front of everything belong to the surroundings. -/
theorem exists_append_fill (front : Forest ι) (frames : List (Frame ι)) (before : Forest ι) :
    ∃ frames' before', ∀ f, front ++ fill frames (before ++ f) = fill frames' (before' ++ f) := by
  cases frames with
  | nil => exact ⟨[], front ++ before, fun f => (Forest.append_assoc ..).symm⟩
  | cons k inner =>
      refine ⟨{ k with before := front ++ k.before } :: inner, before, fun f => ?_⟩
      exact (Forest.append_assoc ..).symm

end Frame

namespace Forest

/-! ### Replacing one node after another -/

section

variable [DecidableEq ι] {f : Forest ι} {x y : ι}

/-- Only what is given for the nodes with the label matters. -/
theorem splice_congr {g h : Node ι → Forest ι}
    (hgh : ∀ n, n.label = x → (∀ z ∈ (single n).labels, z ∈ f.labels) → g n = h n) :
    f.splice x g = f.splice x h := by
  induction f with
  | nil => rfl
  | element l name attributes children rest ihc ihr =>
      have hchildren := ihc fun n hn hsub => hgh n hn fun z hz =>
        List.mem_cons_of_mem _ (List.mem_append_left _ (hsub z hz))
      have hrest := ihr fun n hn hsub => hgh n hn fun z hz =>
        List.mem_cons_of_mem _ (List.mem_append_right _ (hsub z hz))
      rw [splice, splice, hchildren, hrest]
      split
      · next heq =>
          rw [hgh (.element ⟨l, name, attributes, children⟩) heq fun z hz => ?_]
          simp only [single, labels, List.append_nil] at hz
          exact (List.mem_cons.1 hz).elim (fun h => h ▸ List.mem_cons_self) fun h =>
            List.mem_cons_of_mem _ (List.mem_append_left _ h)
      · rfl
  | leaf l kind content rest ih =>
      have hrest := ih fun n hn hsub => hgh n hn fun z hz => List.mem_cons_of_mem _ (hsub z hz)
      rw [splice, splice, hrest]
      split
      · next heq =>
          rw [hgh (.leaf l kind content) heq fun z hz => ?_]
          obtain rfl := List.mem_singleton.1 hz
          exact List.mem_cons_self
      · rfl

/-- A node is replaced by itself. -/
theorem splice_self {h : Node ι → Forest ι} (hh : ∀ n, n.label = x → h n = single n) :
    f.splice x h = f := by
  induction f with
  | nil => rfl
  | element l name attributes children rest ihc ihr =>
      rw [splice, ihc, ihr]
      split
      · next heq =>
          rw [hh (.element ⟨l, name, attributes, children⟩) heq]
          rfl
      · rfl
  | leaf l kind content rest ih =>
      rw [splice, ih]
      split
      · next heq =>
          rw [hh (.leaf l kind content) heq]
          rfl
      · rfl

/-- Replacing the same label again goes on in what was put in its place. -/
theorem splice_splice (g h : Node ι → Forest ι) :
    (f.splice x g).splice x h = f.splice x fun n => (g n).splice x h := by
  induction f with
  | nil => rfl
  | element l name attributes children rest ihc ihr =>
      by_cases heq : l = x
      · rw [splice, splice, if_pos heq, if_pos heq, splice_append, ihr]
      · rw [splice, splice, if_neg heq, if_neg heq, splice, if_neg heq, ihc, ihr]
  | leaf l kind content rest ih =>
      by_cases heq : l = x
      · rw [splice, splice, if_pos heq, if_pos heq, splice_append, ih]
      · rw [splice, splice, if_neg heq, if_neg heq, splice, if_neg heq, ih]

/-- A new label is replaced in what was put in the place of another. -/
theorem splice_splice_new (hy : y ∉ f.labels) (g h : Node ι → Forest ι) :
    (f.splice x g).splice y h = f.splice x fun n => (g n).splice y h := by
  induction f with
  | nil => rfl
  | element l name attributes children rest ihc ihr =>
      simp only [labels, List.mem_cons, List.mem_append, not_or] at hy
      obtain ⟨hl, hchildren, hrest⟩ := hy
      by_cases heq : l = x
      · rw [splice, splice, if_pos heq, if_pos heq, splice_append, ihr hrest]
      · rw [splice, splice, if_neg heq, if_neg heq, splice, if_neg (Ne.symm hl), ihc hchildren,
          ihr hrest]
  | leaf l kind content rest ih =>
      simp only [labels, List.mem_cons, not_or] at hy
      obtain ⟨hl, hrest⟩ := hy
      by_cases heq : l = x
      · rw [splice, splice, if_pos heq, if_pos heq, splice_append, ih hrest]
      · rw [splice, splice, if_neg heq, if_neg heq, splice, if_neg (Ne.symm hl), ih hrest]

@[simp] theorem splice_single_self (n : Node ι) (g : Node ι → Forest ι) :
    (single n).splice n.label g = g n := by
  cases n <;> simp [single, splice, Node.label]

/-! ### Where a node stands -/

/-- **A node stands at a place, and replacing it puts something else there.** -/
theorem exists_fill (hf : f.labels.Nodup) {n : Node ι} (hn : f.find? x = some n) :
    ∃ frames before after, f = Frame.fill frames (before ++ (single n ++ after)) ∧
      ∀ g, f.splice x g = Frame.fill frames (before ++ (g n ++ after)) := by
  induction f with
  | nil => cases hn
  | element l name attributes children rest ihc ihr =>
      obtain ⟨hl, hbelow⟩ := List.nodup_cons.1 hf
      obtain ⟨hchildren, hrest, hdisjoint⟩ := List.nodup_append.1 hbelow
      rw [find?] at hn
      split at hn
      · -- the node is the first sibling
        next heq =>
          subst heq
          obtain rfl := Option.some.inj hn
          refine ⟨[], nil, rest, rfl, fun g => ?_⟩
          rw [splice, if_pos rfl, splice_of_not_mem fun hmem => hl (List.mem_append_right _ hmem)]
          rfl
      · next hne =>
          cases hfound : children.find? x with
          | some m =>
              -- the node is below the first sibling
              rw [hfound, Option.some_or] at hn
              obtain rfl := Option.some.inj hn
              have hmem := exists_find?_iff.1 ⟨_, hfound⟩
              have hnot : x ∉ rest.labels := fun hmem' => hdisjoint x hmem x hmem' rfl
              obtain ⟨frames, before, after, hfill, hsplice⟩ := ihc hchildren hfound
              refine ⟨⟨nil, l, name, attributes, rest⟩ :: frames, before, after, ?_, fun g => ?_⟩
              · rw [Frame.fill, ← hfill]
                rfl
              · rw [splice, if_neg hne, hsplice, splice_of_not_mem hnot]
                rfl
          | none =>
              -- the node is behind the first sibling
              rw [hfound, Option.none_or] at hn
              obtain ⟨frames, before, after, hfill, hsplice⟩ := ihr hrest hn
              obtain ⟨frames', before', hfront⟩ :=
                Frame.exists_append_fill (element l name attributes children nil) frames before
              refine ⟨frames', before', after, ?_, fun g => ?_⟩
              · rw [← hfront, ← hfill]
                rfl
              · rw [splice, if_neg hne, hsplice, ← hfront,
                  splice_of_not_mem (find?_eq_none_iff.1 hfound)]
                rfl
  | leaf l kind content rest ih =>
      obtain ⟨hl, hrest⟩ := List.nodup_cons.1 hf
      rw [find?] at hn
      split at hn
      · next heq =>
          subst heq
          obtain rfl := Option.some.inj hn
          refine ⟨[], nil, rest, rfl, fun g => ?_⟩
          rw [splice, if_pos rfl, splice_of_not_mem hl]
          rfl
      · next hne =>
          obtain ⟨frames, before, after, hfill, hsplice⟩ := ih hrest hn
          obtain ⟨frames', before', hfront⟩ :=
            Frame.exists_append_fill (leaf l kind content nil) frames before
          refine ⟨frames', before', after, ?_, fun g => ?_⟩
          · rw [← hfront, ← hfill]
            rfl
          · rw [splice, if_neg hne, hsplice, ← hfront]
            rfl

/-- Only what is given for the node that is found matters. -/
theorem splice_eq_of_find? (hf : f.labels.Nodup) {n : Node ι} (hn : f.find? x = some n)
    {g h : Node ι → Forest ι} (hgh : g n = h n) : f.splice x g = f.splice x h := by
  obtain ⟨frames, before, after, -, hsplice⟩ := exists_fill hf hn
  rw [hsplice, hsplice, hgh]

/-- Every label has a place. -/
theorem exists_place (hf : f.labels.Nodup) (hx : x ∈ f.labels) :
    ∃ n frames before after, n.label = x ∧
      f = Frame.fill frames (before ++ (single n ++ after)) ∧
      ∀ g, f.splice x g = Frame.fill frames (before ++ (g n ++ after)) := by
  obtain ⟨n, hn⟩ := exists_find?_iff.2 hx
  obtain ⟨frames, before, after, hplace⟩ := exists_fill hf hn
  exact ⟨n, frames, before, after, label_of_find? hn, hplace⟩

end

end Forest

/-! ### The attributes of one element -/

namespace Tree

theorem mapAttributes_mapAttributes (t : Tree) (id : NodeId) (f g : Attributes → Attributes) :
    (t.mapAttributes id f).mapAttributes id g = t.mapAttributes id fun a => g (f a) := by
  simp only [Tree.mapAttributes, Tree.replace, Forest.splice_splice]
  congr 1
  all_goals
    refine Forest.splice_congr ?_
    rintro (e | ⟨label, kind, content⟩) rfl _ <;> simp [Forest.splice, Node.label, Forest.single]

theorem mapAttributes_id (t : Tree) (id : NodeId) : (t.mapAttributes id fun a => a) = t := by
  simp only [Tree.mapAttributes, Tree.replace]
  rw [Forest.splice_self, Forest.splice_self]
  · rintro (e | ⟨label, kind, content⟩) _ <;> rfl
  · rintro (e | ⟨label, kind, content⟩) _ <;> rfl

end Tree

end ViewCompiler
