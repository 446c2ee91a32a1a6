/-
**Forests of the same structure.**

Two forests of the same structure differ in labels only.  If no label of the one occurs twice, then
there is a relabelling that takes it to the other, and everything that is found in the one by its
label is found in the other by the new label.

Main definitions:

* `ViewCompiler.Element.map`, `ViewCompiler.Node.map` — elements and nodes under new labels.

Main results:

* `ViewCompiler.Forest.mem_elements_cases`, `ViewCompiler.Forest.find?_of_mem_elements` — where the
  elements of a forest stand;
* `ViewCompiler.Forest.exists_map_of_plain_eq` — **forests of the same structure are relabellings of
  each other**;
* `ViewCompiler.Forest.find?_map`, `ViewCompiler.Forest.plain_splice_map` — finding and replacing
  under a relabelling.
-/

import ViewCompiler.Proofs.Markup.Records

set_option relaxedAutoImplicit false
set_option autoImplicit false

namespace ViewCompiler

variable {ι κ : Type}

/-- An element under new labels. -/
def Element.map (φ : ι → κ) (e : Element ι) : Element κ :=
  ⟨φ e.label, e.name, e.attributes, e.children.map φ⟩

/-- A node under new labels. -/
def Node.map (φ : ι → κ) : Node ι → Node κ
  | .element e => .element (e.map φ)
  | .leaf label kind content => .leaf (φ label) kind content

namespace Forest

/-! ### Elements -/

theorem mem_elements_of_mem_topElements {f : Forest ι} {e : Element ι} (h : e ∈ f.topElements) :
    e ∈ f.elements := by
  induction f with
  | nil => cases h
  | element label name attributes children rest _ ih =>
      rcases List.mem_cons.1 h with rfl | h
      · exact List.mem_cons_self
      · exact List.mem_cons_of_mem _ (List.mem_append_right _ (ih h))
  | leaf label kind content rest ih => exact ih h

/-- What is an element below an element is an element of the whole. -/
theorem mem_elements_of_mem_children {f : Forest ι} {d e : Element ι} (hd : d ∈ f.elements)
    (he : e ∈ d.children.elements) : e ∈ f.elements := by
  induction f with
  | nil => cases hd
  | element label name attributes children rest ihc ihr =>
      refine List.mem_cons_of_mem _ (List.mem_append.2 ?_)
      rcases List.mem_cons.1 hd with rfl | hd
      · exact .inl he
      · exact (List.mem_append.1 hd).imp ihc ihr
  | leaf label kind content rest ih => exact ih hd

/-- An element stands at the top or right below another element. -/
theorem mem_elements_cases {f : Forest ι} {e : Element ι} (h : e ∈ f.elements) :
    e ∈ f.topElements ∨ ∃ d ∈ f.elements, e ∈ d.children.topElements := by
  induction f with
  | nil => cases h
  | element label name attributes children rest ihc ihr =>
      rcases List.mem_cons.1 h with rfl | h
      · exact .inl List.mem_cons_self
      · rcases List.mem_append.1 h with h | h
        · right
          rcases ihc h with htop | ⟨d, hd, hchild⟩
          · exact ⟨_, List.mem_cons_self, htop⟩
          · exact ⟨d, List.mem_cons_of_mem _ (List.mem_append_left _ hd), hchild⟩
        · rcases ihr h with htop | ⟨d, hd, hchild⟩
          · exact .inl (List.mem_cons_of_mem _ htop)
          · exact .inr ⟨d, List.mem_cons_of_mem _ (List.mem_append_right _ hd), hchild⟩
  | leaf label kind content rest ih => exact ih h

theorem label_mem_roots {f : Forest ι} {e : Element ι} (h : e ∈ f.topElements) :
    e.label ∈ f.roots := by
  induction f with
  | nil => cases h
  | element label name attributes children rest _ ih =>
      rcases List.mem_cons.1 h with rfl | h
      · exact List.mem_cons_self
      · exact List.mem_cons_of_mem _ (ih h)
  | leaf label kind content rest ih => exact List.mem_cons_of_mem _ (ih h)

theorem label_mem_labels {f : Forest ι} {e : Element ι} (h : e ∈ f.elements) :
    e.label ∈ f.labels := by
  induction f with
  | nil => cases h
  | element label name attributes children rest ihc ihr =>
      rcases List.mem_cons.1 h with rfl | h
      · exact List.mem_cons_self
      · exact List.mem_cons_of_mem _ (List.mem_append.2 ((List.mem_append.1 h).imp ihc ihr))
  | leaf label kind content rest ih => exact List.mem_cons_of_mem _ (ih h)

section

variable [DecidableEq ι]

theorem find?_of_mem_elements {f : Forest ι} (h : f.labels.Nodup) {e : Element ι}
    (he : e ∈ f.elements) : f.find? e.label = some (.element e) := by
  induction f with
  | nil => cases he
  | element label name attributes children rest ihc ihr =>
      obtain ⟨hlabel, hbelow⟩ := List.nodup_cons.1 h
      obtain ⟨hchildren, hrest, hdisjoint⟩ := List.nodup_append.1 hbelow
      rcases List.mem_cons.1 he with rfl | he
      · exact if_pos rfl
      · have hmem : e.label ∈ children.labels ++ rest.labels :=
          List.mem_append.2 ((List.mem_append.1 he).imp label_mem_labels label_mem_labels)
        have hne : label ≠ e.label := fun heq => hlabel (heq ▸ hmem)
        rw [find?, if_neg hne]
        rcases List.mem_append.1 he with he | he
        · rw [ihc hchildren he, Option.some_or]
        · have hnot : e.label ∉ children.labels := fun hmem =>
            hdisjoint _ hmem _ (label_mem_labels he) rfl
          rw [find?_eq_none_iff.2 hnot, Option.none_or, ihr hrest he]
  | leaf label kind content rest ih =>
      obtain ⟨hlabel, hrest⟩ := List.nodup_cons.1 h
      have hne : label ≠ e.label := fun heq => hlabel (heq ▸ label_mem_labels he)
      rw [find?, if_neg hne, ih hrest he]

theorem mem_elements_of_find? {f : Forest ι} {x : ι} {e : Element ι}
    (h : f.find? x = some (.element e)) :
    e ∈ f.elements := by
  induction f with
  | nil => cases h
  | element label name attributes children rest ihc ihr =>
      rw [find?] at h
      split at h
      · cases h
        exact List.mem_cons_self
      · refine List.mem_cons_of_mem _ (List.mem_append.2 ?_)
        exact (Option.or_eq_some_iff.1 h).imp ihc fun h => ihr h.2
  | leaf label kind content rest ih =>
      rw [find?] at h
      split at h
      · cases h
      · exact ih h

end

/-! ### New labels -/

variable (φ : ι → κ)

@[simp] theorem labels_map (f : Forest ι) : (f.map φ).labels = f.labels.map φ := by
  induction f with
  | nil => rfl
  | element _ _ _ _ _ ihc ihr => simp [map, labels, ihc, ihr]
  | leaf _ _ _ _ ih => simp [map, labels, ih]

@[simp] theorem topElements_map (f : Forest ι) :
    (f.map φ).topElements = f.topElements.map (·.map φ) := by
  induction f with
  | nil => rfl
  | element _ _ _ _ _ _ ih => simp [map, topElements, Element.map, ih]
  | leaf _ _ _ _ ih => simp [map, topElements, ih]

@[simp] theorem elements_map (f : Forest ι) : (f.map φ).elements = f.elements.map (·.map φ) := by
  induction f with
  | nil => rfl
  | element _ _ _ _ _ ihc ihr => simp [map, elements, Element.map, ihc, ihr]
  | leaf _ _ _ _ ih => simp [map, elements, ih]

@[simp] theorem map_append (f g : Forest ι) : (f ++ g).map φ = f.map φ ++ g.map φ := by
  induction f with
  | nil => rfl
  | element _ _ _ _ _ _ ih => simp [map, ih]
  | leaf _ _ _ _ ih => simp [map, ih]

@[simp] theorem map_single (n : Node ι) : (single n).map φ = single (n.map φ) := by
  cases n <;> rfl

theorem plain_map (f : Forest ι) : (f.map φ).plain = f.plain := by
  induction f with
  | nil => rfl
  | element _ _ _ _ _ ihc ihr => simp_all [plain, map]
  | leaf _ _ _ _ ih => simp_all [plain, map]

@[simp] theorem plain_append (f g : Forest ι) : (f ++ g).plain = f.plain ++ g.plain :=
  map_append _ f g

variable {φ}

theorem map_congr {ψ : ι → κ} {f : Forest ι} (h : ∀ x ∈ f.labels, φ x = ψ x) :
    f.map φ = f.map ψ := by
  induction f with
  | nil => rfl
  | element label name attributes children rest ihc ihr =>
      simp only [labels, List.forall_mem_cons, List.forall_mem_append] at h
      rw [map, map, h.1, ihc h.2.1, ihr h.2.2]
  | leaf label kind content rest ih =>
      simp only [labels, List.forall_mem_cons] at h
      rw [map, map, h.1, ih h.2]

/-- **Forests of the same structure are relabellings of each other.** -/
theorem exists_map_of_plain_eq [DecidableEq ι] [Inhabited κ] {f : Forest ι} {g : Forest κ}
    (hf : f.labels.Nodup) (h : g.plain = f.plain) : ∃ φ : ι → κ, g = f.map φ := by
  induction f generalizing g with
  | nil =>
      cases g with
      | nil => exact ⟨fun _ => default, rfl⟩
      | element | leaf => cases h
  | element label name attributes children rest ihc ihr =>
      cases g with
      | nil | leaf => cases h
      | element label' name' attributes' children' rest' =>
          obtain ⟨-, rfl, rfl, hchildren, hrest⟩ := element.inj h
          obtain ⟨hlabel, hbelow⟩ := List.nodup_cons.1 hf
          obtain ⟨hnodup, hnodup', hdisjoint⟩ := List.nodup_append.1 hbelow
          obtain ⟨φ, rfl⟩ := ihc hnodup hchildren
          obtain ⟨ψ, rfl⟩ := ihr hnodup' hrest
          -- the label itself, then what is below it, then what comes behind it
          refine ⟨fun x => if x = label then label' else if x ∈ children.labels then φ x else ψ x,
            ?_⟩
          have hne : ∀ x ∈ children.labels ++ rest.labels, x ≠ label := by
            rintro x hx rfl
            exact hlabel hx
          rw [map, if_pos rfl]
          congr 1
          · refine map_congr fun x hx => ?_
            rw [if_neg (hne x (List.mem_append_left _ hx)), if_pos hx]
          · refine map_congr fun x hx => ?_
            rw [if_neg (hne x (List.mem_append_right _ hx)),
              if_neg fun hmem => hdisjoint x hmem x hx rfl]
  | leaf label kind content rest ih =>
      cases g with
      | nil | element => cases h
      | leaf label' kind' content' rest' =>
          obtain ⟨-, rfl, rfl, hrest⟩ := leaf.inj h
          obtain ⟨hlabel, hnodup⟩ := List.nodup_cons.1 hf
          obtain ⟨φ, rfl⟩ := ih hnodup hrest
          refine ⟨fun x => if x = label then label' else φ x, ?_⟩
          rw [map, if_pos rfl]
          congr 1
          refine map_congr fun x hx => ?_
          rw [if_neg]
          rintro rfl
          exact hlabel hx

/-! ### Finding and replacing under new labels -/

/-- No other label gets the new label of `label`. -/
def Distinguishes (φ : ι → κ) (f : Forest ι) (label : ι) : Prop :=
  ∀ x ∈ f.labels, φ x = φ label → x = label

theorem Distinguishes.below {label l : ι} {name : String} {attributes : Attributes}
    {children rest : Forest ι}
    (h : Distinguishes φ (element l name attributes children rest) label) :
    (φ l = φ label ↔ l = label) ∧ Distinguishes φ children label ∧ Distinguishes φ rest label := by
  refine ⟨⟨h l List.mem_cons_self, fun heq => heq ▸ rfl⟩, fun x hx => h x ?_, fun x hx => h x ?_⟩
  · exact List.mem_cons_of_mem _ (List.mem_append_left _ hx)
  · exact List.mem_cons_of_mem _ (List.mem_append_right _ hx)

theorem Distinguishes.behind {label l : ι} {kind : LeafKind} {content : String} {rest : Forest ι}
    (h : Distinguishes φ (leaf l kind content rest) label) :
    (φ l = φ label ↔ l = label) ∧ Distinguishes φ rest label :=
  ⟨⟨h l List.mem_cons_self, fun heq => heq ▸ rfl⟩, fun x hx => h x (List.mem_cons_of_mem _ hx)⟩

variable [DecidableEq ι] [DecidableEq κ]

theorem find?_map {f : Forest ι} {label : ι} (h : Distinguishes φ f label) :
    (f.map φ).find? (φ label) = (f.find? label).map (·.map φ) := by
  induction f with
  | nil => rfl
  | element l name attributes children rest ihc ihr =>
      obtain ⟨hl, hchildren, hrest⟩ := h.below
      rw [map, find?, find?]
      by_cases heq : l = label
      · rw [if_pos (hl.2 heq), if_pos heq]
        rfl
      · rw [if_neg (mt hl.1 heq), if_neg heq, ihc hchildren, ihr hrest]
        cases children.find? label <;> rfl
  | leaf l kind content rest ih =>
      obtain ⟨hl, hrest⟩ := h.behind
      rw [map, find?, find?]
      by_cases heq : l = label
      · rw [if_pos (hl.2 heq), if_pos heq]
        rfl
      · rw [if_neg (mt hl.1 heq), if_neg heq, ih hrest]

/-- Replacing a node by siblings of the same structure gives forests of the same structure. -/
theorem plain_splice_map {f : Forest ι} {label : ι} (h : Distinguishes φ f label)
    {g : Node ι → Forest ι} {g' : Node κ → Forest κ}
    (hg : ∀ n : Node ι, (g' (n.map φ)).plain = (g n).plain) :
    ((f.map φ).splice (φ label) g').plain = (f.splice label g).plain := by
  induction f with
  | nil => rfl
  | element l name attributes children rest ihc ihr =>
      obtain ⟨hl, hchildren, hrest⟩ := h.below
      rw [map, splice, splice]
      by_cases heq : l = label
      · rw [if_pos (hl.2 heq), if_pos heq, plain_append, plain_append, ihr hrest]
        exact congrArg (· ++ _) (hg (.element ⟨l, name, attributes, children⟩))
      · rw [if_neg (mt hl.1 heq), if_neg heq]
        exact congrArg₂ (element () name attributes) (ihc hchildren) (ihr hrest)
  | leaf l kind content rest ih =>
      obtain ⟨hl, hrest⟩ := h.behind
      rw [map, splice, splice]
      by_cases heq : l = label
      · rw [if_pos (hl.2 heq), if_pos heq, plain_append, plain_append, ih hrest]
        exact congrArg (· ++ _) (hg (.leaf l kind content))
      · rw [if_neg (mt hl.1 heq), if_neg heq]
        exact congrArg (leaf () kind content) (ih hrest)

end Forest

end ViewCompiler
