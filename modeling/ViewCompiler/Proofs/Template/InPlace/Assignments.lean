/-
**Assignments in place.**

An element that is replaced by an assignment stays on the list with everything below it.  When its
content comes up, it is no part of the document any more: only the directives themselves are
checked.

Main definitions:

* `ViewCompiler.ParentCalls` — whether the parent of what stands at a place is a call.

Main results:

* `ViewCompiler.ends_sets` — **the pass for assignments**.
-/

import ViewCompiler.Proofs.Template.InPlace.Steps

set_option relaxedAutoImplicit false
set_option autoImplicit false

namespace ViewCompiler

variable {table : DirectiveTable} {φ : NodeId → Mark} {K : Forest NodeId → Forest NodeId}
  {o : CompilerOptions} {s : Site} {loose children rest x : Forest NodeId} {size : Nat}
  {id : NodeId} {name : String} {attributes : Attributes} {t : Tree} {inCall : Bool}

/-! ### Content -/

theorem Forest.hasContent_map {ι κ : Type} (ψ : ι → κ) (f : Forest ι) :
    (f.map ψ).hasContent = f.hasContent := by
  induction f with
  | nil => rfl
  | element => rfl
  | leaf _ kind content _ ih => rw [map, hasContent, hasContent, ih]

/-- Looking at siblings one by one tells whether they are all blank. -/
theorem Site.Open.any_not_blank (h : s.Open) (ht : (s.tree x size).Accounted) :
    (x.roots.any fun id => !(s.tree x size).isBlankText id) = x.hasContent := by
  induction x generalizing s with
  | nil => rfl
  | element id name attributes children rest _ _ =>
      rw [Forest.roots, List.any_cons, h.isBlankText_element ht]
      rfl
  | leaf id kind content rest ih =>
      have hrest := ih (h.behind (.leaf id kind content .nil)) ht
      rw [Forest.roots, List.any_cons, Forest.hasContent, ← hrest, h.isBlankText_leaf ht]
      rfl

theorem Site.Open.hasContent_head (h : s.Open)
    (ht : (s.tree (.element id name attributes children rest) size).Accounted) :
    (s.tree (.element id name attributes children rest) size).hasContent id =
      children.hasContent := by
  rw [Tree.hasContent, h.children_head ht]
  exact (h.below .nil id name attributes rest).any_not_blank ht

/-! ### What is in the document, and what is not -/

theorem isAttached_of_mem (hid : id ∈ t.content.labels) : t.isAttached id = true :=
  Tree.isAncestorOrSelf_eq_true.2 (.inr hid)

theorem isAttached_of_not_mem (ht : t.Accounted) (hid : id ∈ t.loose.labels) :
    t.isAttached id = false := by
  rw [Bool.eq_false_iff, Tree.isAttached, Ne, Tree.isAncestorOrSelf_eq_true, ← List.mem_cons]
  exact ht.not_mem_nodes hid

/-- The elements below one that has been taken out. -/
theorem apart_of_loose {content : Forest NodeId}
    (ht : Tree.Accounted ⟨content, .element id name attributes children loose, size⟩) :
    ∀ e ∈ children.elements,
      Tree.name? ⟨content, .element id name attributes children loose, size⟩ e.label =
        some e.name ∧
      Tree.isAttached ⟨content, .element id name attributes children loose, size⟩ e.label =
        false := by
  intro e he
  have hs := (Site.Open.inLoose content Hole.whole).below .nil id name attributes loose
  have hlabel := Forest.label_mem_labels he
  have hfind : Tree.find? ⟨content, .element id name attributes children loose, size⟩ e.label =
      children.find? e.label := hs.find?_eq ht hlabel
  refine ⟨?_, isAttached_of_not_mem ht (List.mem_cons_of_mem _ (List.mem_append_left _ hlabel))⟩
  rw [Tree.name?, hfind, Forest.find?_of_mem_elements (hs.nodup ht) he]

/-! ### Parents -/

/-- The parent of what stands at the place is a call, or it is none. -/
def ParentCalls (table : DirectiveTable) (K : Forest NodeId → Forest NodeId) (inCall : Bool) :
    Prop :=
  ∀ {x loose size id}, Tree.Accounted ⟨K x, loose, size⟩ → id ∈ x.roots →
    ((Tree.mk (K x) loose size).parent? id).any (Tree.isCall table) = inCall

namespace ParentCalls

theorem between (h : ParentCalls table K inCall) (before after : Forest NodeId) :
    ParentCalls table (fun x => K (before ++ (x ++ after))) inCall := fun ht hid =>
  h ht (by simp [hid])

theorem behind (h : ParentCalls table K inCall) (before : Forest NodeId) :
    ParentCalls table (fun x => K (before ++ x)) inCall := fun ht hid =>
  h ht (by simp [hid])

theorem whole (hroot : table.get? Tree.root = none) : ParentCalls table (fun x => x) false := by
  intro x loose size id ht hid
  rw [Tree.parent?, if_pos hid, Option.any_some, Tree.isCall, hroot]
  rfl

theorem below (hK : Hole K) (before after : Forest NodeId) :
    ParentCalls table (fun x => K (before ++ .element id name attributes x after))
      (table.asks id).call.isSome := by
  intro x loose size y ht hy
  have hs := (Site.Open.inContent hK loose).behind before
  have hparent : (Tree.mk (K (before ++ .element id name attributes x after)) loose size).parent? y
      = some id := by
    rw [Tree.Accounted.parent?_eq_some_iff ht]
    exact (congrArg (fun f : Forest NodeId => y ∈ f.roots) (hs.children_head ht)).mpr hy
  rw [hparent, Option.any_some, Tree.isCall, DirectiveTable.asks]
  cases table.get? id <;> rfl

end ParentCalls

/-! ### Macros -/

/-- Siblings with something among them start with a node. -/
theorem Forest.exists_single_append {ι : Type} {f : Forest ι} (h : f.hasContent = true) :
    ∃ n rest, f = single n ++ rest := by
  cases f with
  | nil => cases h
  | element label name attributes children rest =>
      exact ⟨.element ⟨label, name, attributes, children⟩, rest, rfl⟩
  | leaf label kind content rest => exact ⟨.leaf label kind content, rest, rfl⟩

/-- **The content of an element becomes a macro**, if there is any. -/
theorem ends_writeMacro (hK : Hole K)
    (ht : Tree.Accounted ⟨K (.element id name attributes children rest), loose, size⟩)
    (key : String) :
    Ends (if children.hasContent then none else some (.emptySet key))
      (fun t => t.Accounted ∧ t = ⟨K (.element id name attributes
        (.leaf size .raw (Statement.macroStart key).text
          (children ++ .leaf (size + 1) .raw Statement.macroEnd.text .nil)) rest), loose, size + 2⟩)
      (Tree.writeMacro ⟨K (.element id name attributes children rest), loose, size⟩ id key) := by
  have hs := Site.Open.inContent hK loose
  have hcontent : Tree.hasContent ⟨K (.element id name attributes children rest), loose, size⟩ id =
      children.hasContent := hs.hasContent_head ht
  have hchildren : Tree.children ⟨K (.element id name attributes children rest), loose, size⟩ id =
      children := hs.children_head ht
  rw [Tree.writeMacro, hcontent, hchildren]
  cases hany : children.hasContent with
  | false => exact .error _
  | true =>
      obtain ⟨n, more, rfl⟩ := Forest.exists_single_append hany
      have hbelow := hK.below .nil id name attributes rest
      obtain ⟨hstart, ht⟩ := (Site.Open.inContent hbelow loose).writeBefore ht
        (Site.Open.parent?_ne_none hbelow ht (Forest.label_mem_head n more)) (.macroStart key)
      have ht : Tree.Accounted ⟨K (.element id name attributes
        (.leaf size .raw (Statement.macroStart key).text (.single n ++ more)) rest), loose,
        size + 1⟩ := ht
      obtain ⟨hend, ht⟩ := hs.writeLast ht .macroEnd
      have hhead : (Forest.single n ++ more).roots.head? = some n.label := by simp
      rw [hhead]
      exact ⟨_, bind_of_ok hstart hend, ht, rfl⟩

/-! ### The pass -/

/-- What the pass for assignments does at one element. -/
theorem lowerSet_eq (t : Tree) (id : NodeId) : Tree.lowerSet o table t id =
    match (table.asks id).set with
    | none =>
        if (table.asks id).value.isSome then .error (.valueWithoutSet (t.tag id)) else .ok t
    | some name =>
        if !t.isReserved o id then .error (.setOnWrongTag (t.tag id))
        else if (t.parent? id).any (Tree.isCall table) then .ok t
        else if t.isAttached id then t.assign id name (table.asks id).value
        else .ok t := by
  rw [Tree.lowerSet, DirectiveTable.asks]
  cases table.get? id <;> rfl

/-- What is no part of the document is only checked. -/
theorem ends_sets_apart (hφ : ∀ x, (φ x).directives = table.asks x) (f : Forest NodeId)
    (hat : ∀ e ∈ f.elements, t.name? e.label = some e.name ∧ t.isAttached e.label = false)
    (inCall : Bool) :
    Ends (misusedSet? o inCall false (f.map φ)) (· = t)
      (f.elementLabels.foldlM (Tree.lowerSet o table) t) := by
  induction f generalizing inCall with
  | nil => exact .ok rfl
  | leaf id kind content rest ih => exact ih hat inCall
  | element id name attributes children rest ihc ihr =>
      obtain ⟨⟨hname, hapart⟩, hbelow⟩ := List.forall_mem_cons.1 hat
      obtain ⟨hinside, houtside⟩ := List.forall_mem_append.1 hbelow
      have htag : t.tag id = name := congrArg (Option.getD · "") hname
      have hrest : ∀ inCall', Ends ((misusedSet? o inCall' false (children.map φ)).or
          (misusedSet? o inCall false (rest.map φ))) (· = t)
          ((children.elementLabels ++ rest.elementLabels).foldlM (Tree.lowerSet o table) t) := by
        intro inCall'
        rw [List.foldlM_append]
        exact (ihc hinside inCall').bind fun _ h => h ▸ ihr houtside inCall
      rw [Forest.elementLabels_element, List.foldlM_cons, lowerSet_eq, Forest.map, misusedSet?, hφ,
        htag, Tree.isReserved, hname, hapart]
      cases (table.asks id).set with
      | none =>
          cases (table.asks id).value with
          | none => exact hrest _
          | some value => exact .error _
      | some key =>
          by_cases hreserved : name = o.reservedTag
          · simp only [hreserved, decide_true, Bool.not_true, Bool.false_eq_true, if_false, ne_eq,
              not_true_eq_false, Bool.and_false, Bool.false_and, ite_self]
            exact hrest _
          · simp only [hreserved, Option.some.injEq, decide_false, Bool.not_false, if_true, ne_eq,
              not_false_eq_true]
            exact .error _

/-- An assignment of a value takes the place of its element. -/
theorem assign_head (hK : Hole K)
    (ht : Tree.Accounted ⟨K (.element id name attributes children rest), loose, size⟩)
    (key value : String) :
    Tree.assign ⟨K (.element id name attributes children rest), loose, size⟩ id key (some value) =
      .ok ⟨K (.leaf size .raw (Statement.assign key value).text rest),
        .element id name attributes children loose, size + 1⟩ ∧
    Tree.Accounted ⟨K (.leaf size .raw (Statement.assign key value).text rest),
      .element id name attributes children loose, size + 1⟩ :=
  (Site.Open.inContent hK loose).writeInPlace
    (n := .element ⟨id, name, attributes, children⟩) ht
    (fun before _ ht => Site.Open.parent?_ne_none (K := fun x => K (before ++ x))
      (hK.behind before) ht List.mem_cons_self) (.assign key value)

/-- Behind the assignment that has taken the place of an element. -/
theorem LandsBeside.assigned {m : Forest Mark} {w : Statement} {k : Nat}
    (h : LandsBeside table ((Site.inContent K (.element id name attributes children loose)).behind
      (.leaf size .raw w.text .nil)) k m t) (hbelow : table.Below size) :
    LandsBeside table (.inContent K loose) k (w.before m) t := by
  obtain ⟨junk, g, rfl, ht, hg⟩ := h
  refine ⟨junk ++ .element id name attributes children .nil, .leaf size .raw w.text g, ?_, ht, ?_⟩
  · simp only [Site.tree, Site.addLoose, Site.behind, Site.inContent, Forest.append_assoc]
    rfl
  · rw [Forest.map, Statement.map_before, hbelow.asks_eq (Nat.le_refl _), hg]

/-- An element that gives way to the assignment of a value, then what is behind it. -/
theorem ends_set_value {e : Option CompileError} {outside : Forest Mark} {k : Nat}
    (hφ : ∀ x, (φ x).directives = table.asks x) (hK : Hole K) (hcalls : ParentCalls table K inCall)
    (hbelow : table.Below size)
    (ht : Tree.Accounted ⟨K (.element id name attributes children rest), loose, size⟩)
    (key value : String)
    (houtside : ∀ {K' loose'}, Hole K' → ParentCalls table K' inCall →
      Tree.Accounted ⟨K' rest, loose', size + 1⟩ →
      Ends e (LandsBeside table (.inContent K' loose') k outside)
        (rest.elementLabels.foldlM (Tree.lowerSet o table) ⟨K' rest, loose', size + 1⟩)) :
    Ends ((misusedSet? o (table.asks id).call.isSome false (children.map φ)).or e)
      (LandsBeside table (.inContent K loose) k ((Statement.assign key value).before outside))
      (Tree.assign ⟨K (.element id name attributes children rest), loose, size⟩ id key (some value)
        >>= (children.elementLabels ++ rest.elementLabels).foldlM (Tree.lowerSet o table)) := by
  obtain ⟨hassign, ht⟩ := assign_head hK ht key value
  have hrest := houtside (hK.behind (.leaf size .raw (Statement.assign key value).text .nil))
    (hcalls.behind _) ht
  have hboth := (ends_sets_apart (o := o) hφ children (apart_of_loose ht)
    (table.asks id).call.isSome).bind fun _ h => h ▸ hrest
  rw [← List.foldlM_append] at hboth
  rw [hassign]
  exact hboth.mono fun t h => h.assigned hbelow

/-- An element that stays as it is, then what is inside it, then what is behind it. -/
theorem ends_set_stays {step : Tree → NodeId → Except CompileError Tree}
    {e e' : Option CompileError} {inside outside : Forest Mark} {k k' : Nat}
    (hφ : ∀ x, (φ x).directives = table.asks x) (hK : Hole K)
    (hcalls : ParentCalls table K inCall)
    (ht : Tree.Accounted ⟨K (.element id name attributes children rest), loose, size⟩)
    (hinside : ∀ {K'}, Hole K' → ParentCalls table K' (table.asks id).call.isSome →
      Tree.Accounted ⟨K' children, loose, size⟩ →
      Ends e (LandsBeside table (.inContent K' loose) k inside)
        (children.elementLabels.foldlM step ⟨K' children, loose, size⟩))
    (houtside : ∀ {K' loose'}, Hole K' → ParentCalls table K' inCall →
      Tree.Accounted ⟨K' rest, loose', k⟩ →
      Ends e' (LandsBeside table (.inContent K' loose') k' outside)
        (rest.elementLabels.foldlM step ⟨K' rest, loose', k⟩)) :
    Ends (e.or e') (LandsBeside table (.inContent K loose) k'
        (.element (φ id) name attributes inside outside))
      ((children.elementLabels ++ rest.elementLabels).foldlM step
        ⟨K (.element id name attributes children rest), loose, size⟩) := by
  refine ends_beside (s := .inContent K loose) (J := fun junk _ => junk)
    (B := fun _ g => .element id name attributes g .nil)
    (M := .element (φ id) name attributes)
    (u := .inContent (fun x => K (.nil ++ .element id name attributes x rest)) loose)
    (fun _ _ => rfl)
    (hinside (hK.below .nil id name attributes rest) (ParentCalls.below hK .nil rest) ht)
    (fun junk g ht => houtside (hK.behind (.element id name attributes g .nil)) (hcalls.behind _)
      ht) fun _ g g' m m' hg hg' => ?_
  simp only [Forest.element_append, Forest.nil_append, Forest.map, hg, hg', hφ]

/-- An element whose content becomes a macro, then what is inside it, then what is behind it. -/
theorem ends_set_content {step : Tree → NodeId → Except CompileError Tree}
    {e e' : Option CompileError} {inside outside : Forest Mark} {k k' : Nat}
    (hφ : ∀ x, (φ x).directives = table.asks x) (hK : Hole K)
    (hcalls : ParentCalls table K inCall) (hbelow : table.Below size)
    (ht : Tree.Accounted ⟨K (.element id name attributes children rest), loose, size⟩)
    (key : String)
    (hinside : ∀ {K'}, Hole K' → ParentCalls table K' (table.asks id).call.isSome →
      Tree.Accounted ⟨K' children, loose, size + 2⟩ →
      Ends e (LandsBeside table (.inContent K' loose) k inside)
        (children.elementLabels.foldlM step ⟨K' children, loose, size + 2⟩))
    (houtside : ∀ {K' loose'}, Hole K' → ParentCalls table K' inCall →
      Tree.Accounted ⟨K' rest, loose', k⟩ →
      Ends e' (LandsBeside table (.inContent K' loose') k' outside)
        (rest.elementLabels.foldlM step ⟨K' rest, loose', k⟩)) :
    Ends ((if children.hasContent then none else some (.emptySet key)).or (e.or e'))
      (LandsBeside table (.inContent K loose) k'
        (.element (φ id) name attributes (macroAround key inside) outside))
      (Tree.writeMacro ⟨K (.element id name attributes children rest), loose, size⟩ id key >>=
        (children.elementLabels ++ rest.elementLabels).foldlM step) := by
  refine (ends_writeMacro hK ht key).bind ?_
  rintro _ ⟨ht, rfl⟩
  have hcalls' : ParentCalls table
      (fun x => K (.nil ++ .element id name attributes x rest)) (table.asks id).call.isSome :=
    ParentCalls.below hK .nil rest
  -- the start of the macro stands in front of the content, its end behind it
  let start := Forest.leaf size .raw (Statement.macroStart key).text .nil
  let stop := Forest.leaf (size + 1) .raw Statement.macroEnd.text .nil
  refine ends_beside (s := .inContent K loose) (J := fun junk _ => junk)
    (B := fun _ g => .element id name attributes (start ++ (g ++ stop)) .nil)
    (M := fun m m' => .element (φ id) name attributes (macroAround key m) m')
    (u := .inContent (fun x => K (.nil ++ .element id name attributes
      (start ++ (x ++ stop)) rest)) loose) (fun _ _ => rfl)
    (hinside ((hK.below .nil id name attributes rest).between start stop)
      (hcalls'.between start stop) ht)
    (fun junk g ht => houtside (hK.behind (.element id name attributes (start ++ (g ++ stop)) .nil))
      (hcalls.behind _) ht) fun _ g g' m m' hg hg' => ?_
  simp only [start, stop, macroAround, Statement.alone, Statement.map_before, Forest.map,
    Forest.map_append, Forest.element_append, Forest.leaf_append, Forest.nil_append, hg, hg', hφ,
    hbelow.asks_eq (Nat.le_refl size), hbelow.asks_eq (Nat.le_succ size)]

/-- **The pass for assignments.** -/
theorem ends_sets (hφ : ∀ x, (φ x).directives = table.asks x) (f : Forest NodeId) (hK : Hole K)
    (hcalls : ParentCalls table K inCall) (hbelow : table.Below size)
    (ht : Tree.Accounted ⟨K f, loose, size⟩) :
    Ends (misusedSet? o inCall true (f.map φ))
      (LandsBeside table (.inContent K loose) (size + setCount inCall (f.map φ))
        (lowerSets inCall (f.map φ)))
      (f.elementLabels.foldlM (Tree.lowerSet o table) ⟨K f, loose, size⟩) := by
  induction f generalizing K loose size inCall with
  | nil => exact .ok ⟨.nil, .nil, rfl, ht, rfl⟩
  | leaf id kind content rest ih =>
      exact (ih (hK.behind (.leaf id kind content .nil)) (hcalls.behind _) hbelow ht).mono
        fun t h => h.leaf (hφ id)
  | element id name attributes children rest ihc ihr =>
      have hs := Site.Open.inContent hK loose
      have hname : Tree.name? ⟨K (.element id name attributes children rest), loose, size⟩ id =
        some name := hs.name?_head ht
      have htag : Tree.tag ⟨K (.element id name attributes children rest), loose, size⟩ id = name :=
        hs.tag_head ht
      have hattached : Tree.isAttached ⟨K (.element id name attributes children rest), loose, size⟩
          id = true := by
        obtain ⟨own, hown⟩ := hK.labels_perm
        exact isAttached_of_mem ((hown _).mem_iff.2 (List.mem_append_right _ List.mem_cons_self))
      have hpass := ends_set_stays hφ hK hcalls ht
        (fun hK' hcalls' ht => ihc hK' hcalls' hbelow ht)
        fun hK' hcalls' ht => ihr hK' hcalls' (hbelow.mono (Nat.le_add_right _ _)) ht
      rw [Forest.elementLabels_element, List.foldlM_cons, lowerSet_eq, Forest.map, misusedSet?, hφ,
        htag, Tree.isReserved, hname, hattached, hcalls ht List.mem_cons_self]
      cases hset : (table.asks id).set with
      | none =>
          cases hvalue : (table.asks id).value with
          | none =>
              simp only [lowerSets, setCount, hφ, hset, ← Nat.add_assoc]
              exact hpass
          | some value => exact .error _
      | some key =>
          by_cases hreserved : name = o.reservedTag
          · have hstays : (!decide (some name = some o.reservedTag)) = false := by simp [hreserved]
            have htagged : ¬name ≠ o.reservedTag := not_not_intro hreserved
            simp only [hstays, htagged, Bool.false_eq_true, if_false, if_true]
            cases inCall with
            | true =>
                simp only [lowerSets, setCount, hφ, ← Nat.add_assoc, Bool.not_true,
                  Bool.false_and, Bool.false_eq_true, if_false, Bool.true_or, Bool.and_true,
                  if_true]
                exact hpass
            | false =>
                cases hvalue : (table.asks id).value with
                | some value =>
                    have hlater := ends_set_value (o := o) hφ hK hcalls hbelow ht key value
                      fun hK' hcalls' ht => ihr hK' hcalls' (hbelow.mono (Nat.le_succ _)) ht
                    simp only [lowerSets, setCount, hφ, hset, hvalue, ← Nat.add_assoc,
                      Option.isNone_some, Bool.and_false, Bool.false_and, Bool.false_eq_true,
                      if_false, Bool.or_false]
                    exact hlater
                | none =>
                    have hlater := ends_set_content hφ hK hcalls hbelow ht key
                      (fun hK' hcalls' ht => ihc hK' hcalls' (hbelow.mono (by omega)) ht)
                      fun hK' hcalls' ht => ihr hK' hcalls' (hbelow.mono (by omega)) ht
                    have hshare : size +
                        (2 + setCount (table.asks id).call.isSome (children.map φ) +
                          setCount false (rest.map φ)) =
                      size + 2 + setCount (table.asks id).call.isSome (children.map φ) +
                        setCount false (rest.map φ) := by omega
                    simp only [lowerSets, setCount, hφ, hset, hvalue, hshare,
                      Forest.hasContent_map, Option.isNone_none, Bool.or_true, Bool.and_true,
                      Bool.not_false, Bool.true_and, Bool.false_eq_true, if_false]
                    cases hany : children.hasContent <;> rw [hany] at hlater <;> exact hlater
          · simp only [hreserved, Option.some.injEq, decide_false, Bool.not_false, if_true, ne_eq,
              not_false_eq_true]
            exact .error _

end ViewCompiler
