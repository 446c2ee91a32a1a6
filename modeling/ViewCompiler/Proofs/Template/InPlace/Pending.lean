/-
**Calls that are still to come.**

A call moves some of its children in front of itself, while its own turn and theirs are apart.  So
the pass for calls is not followed from place to place.  Instead every tree on the way is read as
what it comes to once the calls that are still on the list are lowered: a step takes one call off the
list and leaves the reading as it is.

Main definitions:

* `ViewCompiler.structureAfter` — what a forest comes to once some calls are lowered.

Main results:

* `ViewCompiler.structureAfter_labels`, `ViewCompiler.structureAfter_nil` — the reading before and
  after the pass;
* `ViewCompiler.structureAfter_call` — **lowering one call leaves the reading as it is**;
* `ViewCompiler.Hole.structureAfter_eq` — the same where the call stands.
-/

import ViewCompiler.Proofs.Template.Shares
import ViewCompiler.Proofs.Template.InPlace.Bindings

set_option relaxedAutoImplicit false
set_option autoImplicit false

namespace ViewCompiler

variable {table : DirectiveTable} {φ : NodeId → Mark} {K : Forest NodeId → Forest NodeId}
  {o : CompilerOptions} {placeholder template : String}
  {f g x y loose children rest : Forest NodeId} {ids ids' : List NodeId} {size : Nat}
  {id a : NodeId} {name : String} {attributes : Attributes}

/-! ### Lowering some calls -/

/-- What a node asks for while only the calls of some elements are looked at. -/
def callsAmong (φ : NodeId → Mark) (ids : List NodeId) (x : NodeId) : Mark :=
  if x ∈ ids ∨ (φ x).directives.call = none then φ x
  else .source { (φ x).directives with call := none }

@[simp] theorem set_callsAmong (x : NodeId) :
    (callsAmong φ ids x).directives.set = (φ x).directives.set := by
  rw [callsAmong]
  split <;> rfl

@[simp] theorem value_callsAmong (x : NodeId) :
    (callsAmong φ ids x).directives.value = (φ x).directives.value := by
  rw [callsAmong]
  split <;> rfl

theorem callsAmong_of_mem {x : NodeId} (hx : x ∈ ids) : callsAmong φ ids x = φ x :=
  if_pos (.inl hx)

theorem call_callsAmong_eq_none {x : NodeId}
    (hx : x ∈ ids → (φ x).directives.call = none) :
    (callsAmong φ ids x).directives.call = none := by
  rw [callsAmong]
  split
  · next h => exact h.elim hx fun hcall => hcall
  · rfl

theorem callsAmong_congr {x : NodeId}
    (hx : (φ x).directives.call ≠ none → (x ∈ ids ↔ x ∈ ids')) :
    callsAmong φ ids x = callsAmong φ ids' x := by
  by_cases hcall : (φ x).directives.call = none
  · rw [callsAmong, callsAmong, if_pos (.inr hcall), if_pos (.inr hcall)]
  · simp only [callsAmong, hx hcall]

/-- The structure of a forest once the calls of some elements are lowered. -/
def structureAfter (placeholder : String) (φ : NodeId → Mark) (ids : List NodeId)
    (f : Forest NodeId) : Forest Unit :=
  (lowerCalls placeholder (f.map (callsAmong φ ids))).plain

theorem structureAfter_append (f g : Forest NodeId) :
    structureAfter placeholder φ ids (f ++ g) =
      structureAfter placeholder φ ids f ++ structureAfter placeholder φ ids g := by
  simp [structureAfter]

theorem structureAfter_congr
    (h : ∀ x ∈ f.labels, (φ x).directives.call ≠ none → (x ∈ ids ↔ x ∈ ids')) :
    structureAfter placeholder φ ids f = structureAfter placeholder φ ids' f :=
  congrArg (fun m => (lowerCalls placeholder m).plain)
    (Forest.map_congr fun x hx => callsAmong_congr (h x hx))

theorem structureAfter_leaf (kind : LeafKind) (content : String) :
    structureAfter placeholder φ ids (.leaf id kind content rest) =
      .leaf () kind content (structureAfter placeholder φ ids rest) := rfl

theorem structureAfter_element (hid : id ∈ ids → (φ id).directives.call = none) :
    structureAfter placeholder φ ids (.element id name attributes children rest) =
      .element () name attributes (structureAfter placeholder φ ids children)
        (structureAfter placeholder φ ids rest) := by
  simp only [structureAfter, Forest.map, lowerCalls, call_callsAmong_eq_none hid]
  rfl

/-- Once no call is left, a forest is what it is. -/
theorem structureAfter_nil (f : Forest NodeId) : structureAfter placeholder φ [] f = f.plain := by
  induction f with
  | nil => rfl
  | leaf id kind content rest ih => rw [structureAfter_leaf, ih]; rfl
  | element id name attributes children rest ihc ihr =>
      rw [structureAfter_element fun h => absurd h List.not_mem_nil, ihc, ihr]
      rfl

/-- Before any call is lowered, all are. -/
theorem structureAfter_labels (f : Forest NodeId) :
    structureAfter placeholder φ f.labels f = (lowerCalls placeholder (f.map φ)).plain :=
  congrArg (fun m => (lowerCalls placeholder m).plain)
    (Forest.map_congr fun _ hx => callsAmong_of_mem hx)

/-! ### One call -/

theorem hasContent_lowerCalls (m : Forest Mark) :
    (lowerCalls placeholder m).hasContent = m.hasContent := by
  induction m with
  | nil => rfl
  | leaf _ _ _ _ ih => rw [lowerCalls, Forest.hasContent, Forest.hasContent, ih]
  | element mark _ _ _ _ _ _ =>
      rw [lowerCalls]
      split
      · rfl
      · rw [Forest.hasContent_append]
        exact Bool.or_true _

/-- An assignment directly inside a call is no call itself, and those behind it are right as well. -/
theorem misusedBinding?_cons (h : misusedBinding?
    ((Forest.element id name attributes children rest).map φ) = none) :
    ((φ id).directives.set ≠ none → (φ id).directives.call = none) ∧
      misusedBinding? (rest.map φ) = none := by
  constructor
  · intro hset
    exact (Directives.blockOnBinding?_eq_none
      (misusedBinding?_element h (Option.isSome_iff_ne_none.2 hset))).2.2
  · simp only [Forest.map, misusedBinding?] at h
    split at h
    · exact h
    · cases h
    · split at h
      · cases h
      · exact h

/-- The default content of a call is made of lowered siblings. -/
theorem callContent_lowerCalls (placeholder : String) (ids : List NodeId)
    (hφ : ∀ x, (φ x).directives = table.asks x) (f : Forest NodeId)
    (hmisused : misusedBinding? (f.map φ) = none) :
    callContent (lowerCalls placeholder (f.map (callsAmong φ ids))) =
      lowerCalls placeholder ((table.kept f).map (callsAmong φ ids)) := by
  induction f with
  | nil => rfl
  | leaf id kind content rest ih =>
      rw [DirectiveTable.kept, Forest.map, Forest.map, lowerCalls, lowerCalls, callContent,
        ih hmisused]
  | element id name attributes children rest _ ih =>
      obtain ⟨hcall, hmisused⟩ := misusedBinding?_cons hmisused
      have hrest := ih hmisused
      rw [DirectiveTable.kept, ← hφ, Forest.map]
      cases hset : (φ id).directives.set with
      | none =>
          simp only [Option.isSome_none, Bool.false_eq_true, if_false, Forest.map, lowerCalls]
          split <;>
            simp only [callContent_append, callContent_hoistedMacros, callContent, set_callsAmong,
              hset, Option.isSome_none, Bool.false_eq_true, if_false, hrest]
      | some key =>
          have hcall : (callsAmong φ ids id).directives.call = none :=
            call_callsAmong_eq_none fun _ => hcall (by simp [hset])
          simp only [lowerCalls, hcall, callContent, set_callsAmong, hset, Option.isSome_some,
            if_true, hrest]

/-- The macros in front of a call are those of lowered siblings. -/
theorem plain_hoistedMacros (hφ : ∀ x, (φ x).directives = table.asks x) (f : Forest NodeId)
    (hmisused : misusedBinding? (f.map φ) = none) (next : Nat) :
    (hoistedMacros (lowerCalls placeholder (f.map (callsAmong φ ids)))).plain =
      structureAfter placeholder φ ids (table.hoisted next f) := by
  induction f generalizing next with
  | nil => rfl
  | leaf id kind content rest ih => exact ih hmisused next
  | element id name attributes children rest _ ih =>
      obtain ⟨hcall, hmisused⟩ := misusedBinding?_cons hmisused
      have hrest := ih hmisused
      rw [DirectiveTable.hoisted, ← hφ, Forest.map, lowerCalls]
      cases hset : (φ id).directives.set with
      | none =>
          split
          · simp only [hoistedMacros, set_callsAmong, hset]
            exact hrest next
          · simp only [hoistedMacros_append, hoistedMacros_hoistedMacros, hoistedMacros,
              set_callsAmong, hset, Forest.nil_append]
            exact hrest next
      | some key =>
          have hcall := hcall (by simp [hset])
          simp only [call_callsAmong_eq_none fun _ => hcall, hoistedMacros, set_callsAmong,
            value_callsAmong, hset]
          cases (φ id).directives.value with
          | some value => exact hrest next
          | none =>
              simp only [structureAfter_element fun _ => hcall, structureAfter_leaf,
                structureAfter_append, ← hrest]
              simp only [structureAfter, macroAround, Statement.alone, Statement.before,
                Forest.plain, Forest.map, Forest.map_append]
              rfl

/-- What stands inside a lowered call. -/
theorem structureAfter_numberedScope (bindings : List (String × String)) (next : Nat)
    (f : Forest NodeId) :
    structureAfter placeholder φ ids (numberedScope placeholder template bindings next f) =
      (callBlock placeholder template bindings
        (lowerCalls placeholder (f.map (callsAmong φ ids)))).plain := by
  rw [numberedScope, callBlock, hasContent_lowerCalls, Forest.hasContent_map]
  split
  · simp only [structureAfter_leaf, structureAfter_append]
    simp only [structureAfter, macroAround, Statement.alone, Statement.before, Forest.plain,
      Forest.map, Forest.map_append, Forest.leaf_append, Forest.append_assoc, Forest.nil_append,
      lowerCalls]
  · rfl

theorem callBindings_callsAmong (f : Forest NodeId) :
    callBindings (f.map (callsAmong φ ids)) = callBindings (f.map φ) := by
  induction f with
  | nil => rfl
  | leaf _ _ _ _ ih => exact ih
  | element id name attributes children rest _ ih =>
      simp only [Forest.map, callBindings, set_callsAmong, value_callsAmong, ih]

/-- **Lowering one call leaves the reading as it is.** -/
theorem structureAfter_call (hφ : ∀ x, (φ x).directives = table.asks x)
    (hcall : (φ id).directives.call = some template) (hid : id ∉ ids)
    (hchildren : id ∉ children.labels) (hmisused : misusedBinding? (children.map φ) = none)
    (next k : Nat) :
    structureAfter placeholder φ (id :: ids) (.element id name attributes children .nil) =
      structureAfter placeholder φ ids (table.hoisted next children ++
        .element id name attributes (numberedScope placeholder template
          (callBindings (children.map φ)) k (table.kept children)) .nil) := by
  have hmap : children.map (callsAmong φ (id :: ids)) = children.map (callsAmong φ ids) :=
    Forest.map_congr fun x hx => callsAmong_congr fun _ => by
      rw [List.mem_cons, or_iff_right (ne_of_mem_of_not_mem hx hchildren)]
  have hcontent := callContent_lowerCalls placeholder ids hφ children hmisused
  rw [structureAfter_append, ← plain_hoistedMacros hφ children hmisused,
    structureAfter_element fun h => absurd h hid,
    structureAfter_numberedScope, ← hcontent]
  simp only [structureAfter, Forest.map, lowerCalls, callsAmong_of_mem List.mem_cons_self, hcall,
    hmap, callBindings_callsAmong, Forest.plain_append]
  rfl

/-! ### Where the call stands -/

namespace Hole

/-- **A change at a place that leaves the reading as it is**, if no call around the place is still to
come. -/
theorem structureAfter_eq (hK : Hole K) (ha : a ∈ x.labels) (hnodup : (K x).labels.Nodup)
    (hsame : ∀ l ∉ x.labels, l ∈ ids ↔ l ∈ ids')
    (hfree : ∀ l ∈ ids, l ∉ x.labels → (φ l).directives.call ≠ none → ∀ n,
      (K x).find? l = some n → a ∉ (Forest.single n).labels)
    (h : structureAfter placeholder φ ids x = structureAfter placeholder φ ids' y) :
    structureAfter placeholder φ ids (K x) = structureAfter placeholder φ ids' (K y) := by
  obtain ⟨frames, before, after, rfl⟩ := hK
  induction frames with
  | nil =>
      simp only [Frame.fill, Forest.labels_append, List.nodup_append', List.disjoint_append_right]
        at hnodup ⊢
      obtain ⟨-, ⟨-, -, hafter⟩, hbefore, -⟩ := hnodup
      rw [structureAfter_append, structureAfter_append, structureAfter_append,
        structureAfter_append, h,
        structureAfter_congr fun l hl _ => hsame l fun hx => hbefore hl hx,
        structureAfter_congr fun l hl _ => hsame l fun hx => hafter hx hl]
  | cons k frames ih =>
      have hin : ∀ {l}, l ∈ x.labels → l ∈ (Frame.fill frames (before ++ (x ++ after))).labels := by
        obtain ⟨own, hown⟩ := labels_perm ⟨frames, before, after, rfl⟩
        exact fun hl => (hown x).mem_iff.2 (List.mem_append_right _ hl)
      have hinside : ∀ l ∈ (Frame.fill frames (before ++ (x ++ after))).labels,
          (k.around (Frame.fill frames (before ++ (x ++ after)))).find? l =
            (Frame.fill frames (before ++ (x ++ after))).find? l := fun l hl =>
        find?_eq ⟨[k], .nil, .nil, funext fun z => by simp [Frame.fill]⟩ hnodup hl
      simp only [Frame.fill, Frame.around, Forest.labels_append, Forest.labels, List.nodup_append',
        List.nodup_cons, List.disjoint_cons_right, List.disjoint_append_right,
        List.mem_append, not_or] at hnodup
      obtain ⟨-, ⟨⟨hk, hkafter⟩, hinner, -, hafter⟩, hkbefore, hbefore, -⟩ := hnodup
      have hout : ∀ l ∉ (Frame.fill frames (before ++ (x ++ after))).labels, l ∈ ids ↔ l ∈ ids' :=
        fun l hl => hsame l fun hx => hl (hin hx)
      -- the element around the place is no call that is still to come
      have hcall : k.label ∈ ids → (φ k.label).directives.call = none := by
        intro hmem
        by_contra hcall
        refine hfree k.label hmem (fun hx => hk (hin hx)) hcall (.element ⟨k.label, k.name,
          k.attributes, Frame.fill frames (before ++ (x ++ after))⟩) ?_ ?_
        · simp only [Frame.fill, Frame.around]
          rw [Forest.find?_append, Forest.find?_eq_none_iff.2 hkbefore, Option.none_or,
            Forest.find?, if_pos rfl]
        · exact List.mem_cons_of_mem _ (List.mem_append_left _ (hin ha))
      have hbelow := ih hinner fun l hl hx hcall n hn =>
        hfree l hl hx hcall n ((hinside l (Forest.exists_find?_iff.1 ⟨n, hn⟩)).trans hn)
      simp only [Frame.fill, Frame.around]
      rw [structureAfter_append, structureAfter_append, structureAfter_element hcall,
        structureAfter_element fun hmem => hcall ((hout k.label hk).2 hmem), hbelow,
        structureAfter_congr fun l hl _ => hout l fun hx => hbefore hl hx,
        structureAfter_congr (f := k.after) fun l hl _ => hout l fun hx => hafter hx hl]

end Hole

end ViewCompiler
