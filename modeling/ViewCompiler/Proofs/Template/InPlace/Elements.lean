/-
**Attributes, hooks and reserved elements in place.**

The passes that stay at one element: computed attributes are set on it, a field hook sets attributes
and writes behind its content, and a reserved element gives way to its children.

Main results:

* `ViewCompiler.tracks_attributes` — the pass for computed attributes;
* `ViewCompiler.tracks_hook` — a field hook at every element;
* `ViewCompiler.exists_unwrapped_reserved` — the pass that takes out the reserved elements.
-/

import ViewCompiler.Proofs.Template.InPlace.Steps

set_option relaxedAutoImplicit false
set_option autoImplicit false

namespace ViewCompiler

variable {table : DirectiveTable} {φ : NodeId → Mark} {K : Forest NodeId → Forest NodeId}
  {loose : Forest NodeId} {size : Nat} {id : NodeId} {t : Tree}

/-! ### Computed attributes -/

section

variable {s : Site} {name : String} {attributes : Attributes} {children rest : Forest NodeId}

/-- New attributes for the first element. -/
theorem Site.Open.mapAttributes_head (h : s.Open)
    (ht : (s.tree (.element id name attributes children rest) size).Accounted)
    (f : Attributes → Attributes) :
    (s.tree (.element id name attributes children rest) size).mapAttributes id f =
      s.tree (.element id name (f attributes) children rest) size ∧
    (s.tree (.element id name (f attributes) children rest) size).Accounted :=
  ⟨h.replace_head (n := .element ⟨id, name, attributes, children⟩) ht _,
    h.accounted ht .nil 0 (.refl _)⟩

/-- Setting attributes of the first element one by one. -/
theorem Site.Open.foldl_setAttribute (h : s.Open)
    (ht : (s.tree (.element id name attributes children rest) size).Accounted)
    (found : List (String × String)) :
    found.foldl (fun t a => t.setAttribute id a.1 a.2)
        (s.tree (.element id name attributes children rest) size) =
      s.tree (.element id name (found.foldl (fun attributes a => attributes.set a.1 a.2) attributes)
        children rest) size := by
  induction found generalizing attributes with
  | nil => rfl
  | cons a more ih =>
      obtain ⟨hset, ht⟩ := h.mapAttributes_head ht (·.set a.1 a.2)
      rw [List.foldl_cons, List.foldl_cons, Tree.setAttribute, hset, ih ht]

/-- Setting what one directive computes. -/
theorem Site.Open.setComputed (h : s.Open)
    (ht : (s.tree (.element id name attributes children rest) size).Accounted)
    (d : DynamicAttribute) :
    Tree.setComputed id (s.tree (.element id name attributes children rest) size) d =
      (setDynamic attributes d).map fun attributes =>
        s.tree (.element id name attributes children rest) size := by
  cases d with
  | expression key expr => exact congrArg Except.ok (h.mapAttributes_head ht _).1
  | format key format => exact congrArg Except.ok (h.mapAttributes_head ht _).1
  | spread spec =>
      rw [Tree.setComputed, setDynamic]
      cases expandAttributes spec with
      | error e => rfl
      | ok found => exact congrArg Except.ok (h.foldl_setAttribute ht found)

/-- Setting all computed attributes. -/
theorem Site.Open.foldlM_setComputed (h : s.Open)
    (ht : (s.tree (.element id name attributes children rest) size).Accounted)
    (dynamic : List DynamicAttribute) :
    dynamic.foldlM (Tree.setComputed id)
        (s.tree (.element id name attributes children rest) size) =
      (setAllDynamic attributes dynamic).map fun attributes =>
        s.tree (.element id name attributes children rest) size := by
  induction dynamic generalizing attributes with
  | nil => rfl
  | cons d more ih =>
      rw [List.foldlM_cons, h.setComputed ht, setAllDynamic]
      cases setDynamic attributes d with
      | error e => rfl
      | ok found => exact ih (h.mapAttributes_head ht fun _ => found).2

end

/-- What the pass for attributes does at one element. -/
theorem computeAttributes_eq (t : Tree) (id : NodeId) :
    t.computeAttributes table id = (table.asks id).attributes.foldlM (Tree.setComputed id) t := by
  rw [Tree.computeAttributes, DirectiveTable.asks]
  cases table.get? id <;> rfl

theorem lowerAttributes_element_eq (mark : Mark) (name : String) (attributes : Attributes)
    (children rest : Forest Mark) :
    lowerAttributes (.element mark name attributes children rest) =
      setAllDynamic attributes mark.directives.attributes >>= fun attributes =>
        lowerAttributes children >>= fun children =>
          lowerAttributes rest >>= fun rest =>
            .ok (.element mark name attributes children rest) := by
  rw [lowerAttributes]
  cases setAllDynamic attributes mark.directives.attributes with
  | error e => rfl
  | ok attributes =>
      cases lowerAttributes children with
      | error e => rfl
      | ok children => cases lowerAttributes rest <;> rfl

/-- **The pass for computed attributes.** -/
theorem tracks_attributes (hφ : ∀ x, (φ x).directives = table.asks x) (f : Forest NodeId)
    (hK : Hole K) (ht : Tree.Accounted ⟨K f, loose, size⟩) :
    Tracks (LandsFrom table K loose size) (lowerAttributes (f.map φ))
      (f.elementLabels.foldlM (Tree.computeAttributes table) ⟨K f, loose, size⟩) := by
  induction f generalizing K size with
  | nil => exact .ok ⟨size, Nat.le_refl _, .nil, rfl, ht, rfl⟩
  | leaf id kind content rest ih =>
      rw [Forest.map, lowerAttributes]
      exact (ih (hK.behind (.leaf id kind content .nil)) ht).map fun m t h => h.leaf (hφ id)
  | element id name attributes children rest ihc ihr =>
      have hset : Tree.computeAttributes table
          ⟨K (.element id name attributes children rest), loose, size⟩ id = _ :=
        (computeAttributes_eq _ id).trans ((Site.Open.inContent hK loose).foldlM_setComputed ht _)
      rw [Forest.elementLabels_element, List.foldlM_cons, hset, Forest.map,
        lowerAttributes_element_eq, hφ]
      cases setAllDynamic attributes (table.asks id).attributes with
      | error e => exact rfl
      | ok found =>
          refine tracks_descend (G := .element id name found)
            (M := .element (φ id) name found) (hK.below .nil id name found)
            (fun x => hK.behind (.element id name found x .nil)) (Nat.le_refl _)
            ((Site.Open.inContent hK loose).mapAttributes_head ht fun _ => found).2 ihc
            (fun _ => ihr) fun f g m m' hf hg => ?_
          rw [Forest.map, Forest.map, hf, hg, hφ]

/-! ### Field hooks -/

section

variable {s : Site} {name : String} {attributes : Attributes} {children rest : Forest NodeId}

/-- Texts behind one another, under the numbers that come next. -/
def numberedLeaves : Nat → List String → Forest NodeId
  | _, [] => .nil
  | next, content :: more => .leaf next .raw content (numberedLeaves (next + 1) more)

theorem DirectiveTable.Below.map_numberedLeaves (hbelow : table.Below size) (texts : List String) :
    (numberedLeaves size texts).map table.asks = (rawLeaves texts).map Mark.directives := by
  induction texts generalizing size with
  | nil => rfl
  | cons content more ih =>
      rw [numberedLeaves, rawLeaves, Forest.map, Forest.map, ih (hbelow.mono (Nat.le_succ _)),
        hbelow.asks_eq (Nat.le_refl _)]
      rfl

/-- Writing texts behind the children of the first element. -/
theorem Site.Open.foldlM_writeTextLast (h : s.Open)
    (ht : (s.tree (.element id name attributes children rest) size).Accounted)
    (texts : List String) :
    texts.foldlM (fun t content => t.writeTextLast id content)
        (s.tree (.element id name attributes children rest) size) =
      .ok (s.tree (.element id name attributes (children ++ numberedLeaves size texts) rest)
        (size + texts.length)) ∧
    (s.tree (.element id name attributes (children ++ numberedLeaves size texts) rest)
      (size + texts.length)).Accounted := by
  induction texts generalizing children size with
  | nil =>
      rw [numberedLeaves, Forest.append_nil]
      exact ⟨rfl, ht⟩
  | cons content more ih =>
      obtain ⟨hwrite, ht⟩ := h.writeTextLast ht content
      have hmore := ih ht
      rw [Forest.append_assoc, Nat.add_right_comm] at hmore
      rw [List.foldlM_cons, hwrite]
      exact hmore

end

theorem applyHook_element_eq (hook : FieldHook) (mark : Mark) (name : String)
    (attributes : Attributes) (children rest : Forest Mark) :
    applyHook hook (.element mark name attributes children rest) =
      hook name attributes >>= fun found =>
        applyHook hook children >>= fun children =>
          applyHook hook rest >>= fun rest =>
            .ok (.element mark name found.1 (children ++ rawLeaves found.2) rest) := by
  rw [applyHook]
  cases hook name attributes with
  | error e => rfl
  | ok found =>
      cases applyHook hook children with
      | error e => rfl
      | ok children => cases applyHook hook rest <;> rfl

/-- **A field hook at every element.** -/
theorem tracks_hook (hook : FieldHook) (hφ : ∀ x, (φ x).directives = table.asks x)
    (f : Forest NodeId) (hK : Hole K) (hbelow : table.Below size)
    (ht : Tree.Accounted ⟨K f, loose, size⟩) :
    Tracks (LandsFrom table K loose size) (applyHook hook (f.map φ))
      (f.elementLabels.foldlM hook.inPlace ⟨K f, loose, size⟩) := by
  induction f generalizing K size with
  | nil => exact .ok ⟨size, Nat.le_refl _, .nil, rfl, ht, rfl⟩
  | leaf id kind content rest ih =>
      rw [Forest.map, applyHook]
      exact (ih (hK.behind (.leaf id kind content .nil)) hbelow ht).map fun m t h => h.leaf (hφ id)
  | element id name attributes children rest ihc ihr =>
      have hs := Site.Open.inContent hK loose
      have htag : Tree.tag ⟨K (.element id name attributes children rest), loose, size⟩ id = name :=
        hs.tag_head ht
      have hattributes : Tree.attributes ⟨K (.element id name attributes children rest), loose,
          size⟩ id = attributes := hs.attributes_head ht
      rw [Forest.elementLabels_element, List.foldlM_cons, FieldHook.inPlace, htag, hattributes,
        Forest.map, applyHook_element_eq]
      cases hook name attributes with
      | error e => exact rfl
      | ok found =>
          obtain ⟨hset, ht⟩ := hs.mapAttributes_head ht fun _ => found.1
          obtain ⟨hwrite, ht⟩ := hs.foldlM_writeTextLast ht found.2
          have hset : Tree.mapAttributes ⟨K (.element id name attributes children rest), loose,
              size⟩ id (fun _ => found.1) = _ := hset
          have hbelow' := hbelow.mono (Nat.le_add_right size found.2.length)
          simp only [hset, hwrite]
          refine tracks_descend (G := fun x y => .element id name found.1
              (x ++ numberedLeaves size found.2) y)
            (M := fun m m' => .element (φ id) name found.1 (m ++ rawLeaves found.2) m')
            (fun y => (hK.below .nil id name found.1 y).between .nil _)
            (fun x => hK.behind (.element id name found.1 (x ++ numberedLeaves size found.2) .nil))
            (Nat.le_add_right _ _) ht (fun hK' => ihc hK' hbelow')
            (fun hk hK' => ihr hK' (hbelow'.mono hk)) fun f g m m' hf hg => ?_
          simp only [Forest.map, Forest.map_append, hf, hg, hφ, hbelow.map_numberedLeaves]

/-! ### Reserved elements -/

/-- Unwrapping the first of some siblings. -/
theorem unwrap_head {name : String} {attributes : Attributes} {children rest : Forest NodeId}
    (hK : Hole K)
    (ht : Tree.Accounted ⟨K (.element id name attributes children rest), loose, size⟩) :
    Tree.unwrap ⟨K (.element id name attributes children rest), loose, size⟩ id =
      .ok ⟨K (children ++ rest), .element id name attributes .nil loose, size⟩ ∧
    Tree.Accounted ⟨K (children ++ rest), .element id name attributes .nil loose, size⟩ := by
  have hs := Site.Open.inContent hK loose
  obtain ⟨parent, hparent⟩ := Option.ne_none_iff_exists'.1
    (Site.Open.parent?_ne_none hK ht
      (Forest.label_mem_element id name attributes children rest))
  have hfind : Tree.find? ⟨K (.element id name attributes children rest), loose, size⟩ id =
      some (.element ⟨id, name, attributes, children⟩) := hs.find?_element ht
  have hreplace : Tree.replace ⟨K (.element id name attributes children rest), loose, size⟩ id
      Tree.childrenOf = ⟨K (children ++ rest), loose, size⟩ :=
    hs.replace_head (n := .element ⟨id, name, attributes, children⟩) ht Tree.childrenOf
  constructor
  · rw [Tree.unwrap, hparent, hfind]
    simp only [hreplace]
    rfl
  · refine hs.accounted ht (.element id name attributes .nil .nil) 0 ?_
    rw [Forest.labels_append]
    exact .refl _

/-- **The pass that takes out the reserved elements.** -/
theorem exists_unwrapped_reserved (o : CompilerOptions) (f : Forest NodeId) (hK : Hole K)
    (ht : Tree.Accounted ⟨K f, loose, size⟩) :
    ∃ junk, f.elementLabels.foldlM (Tree.unwrapReserved o) ⟨K f, loose, size⟩ =
        .ok ⟨K (f.unwrapNamed o.reservedTag), junk ++ loose, size⟩ ∧
      Tree.Accounted ⟨K (f.unwrapNamed o.reservedTag), junk ++ loose, size⟩ := by
  induction f generalizing K loose with
  | nil => exact ⟨.nil, rfl, ht⟩
  | leaf id kind content rest ih => exact ih (hK.behind (.leaf id kind content .nil)) ht
  | element id name attributes children rest ihc ihr =>
      have hname : Tree.name? ⟨K (.element id name attributes children rest), loose, size⟩ id =
          some name := (Site.Open.inContent hK loose).name?_head ht
      rw [Forest.elementLabels_element, List.foldlM_cons, Tree.unwrapReserved, Tree.isReserved,
        hname, Forest.unwrapNamed]
      by_cases hreserved : name = o.reservedTag
      · obtain ⟨hunwrap, ht⟩ := unwrap_head hK ht
        obtain ⟨junk, hinside, ht⟩ := ihc (hK.between .nil rest) ht
        obtain ⟨junk', houtside, ht⟩ := ihr (hK.behind (children.unwrapNamed o.reservedTag)) ht
        rw [if_pos (by simp [hreserved]), hunwrap, if_pos hreserved]
        refine ⟨junk' ++ (junk ++ .element id name attributes .nil .nil), ?_, ?_⟩
        · exact (foldlM_append_of_ok hinside houtside).trans (by simp [Forest.append_assoc])
        · simpa [Forest.append_assoc] using ht
      · obtain ⟨junk, hinside, ht⟩ := ihc (hK.below .nil id name attributes rest) ht
        obtain ⟨junk', houtside, ht⟩ := ihr (hK.behind (.element id name attributes
          (children.unwrapNamed o.reservedTag) .nil)) ht
        rw [if_neg (by simp [hreserved]), if_neg hreserved]
        refine ⟨junk' ++ junk, ?_, ?_⟩
        · exact (foldlM_append_of_ok hinside houtside).trans (by simp [Forest.append_assoc])
        · simpa [Forest.append_assoc] using ht

end ViewCompiler
