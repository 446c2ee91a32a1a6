/-
**What translating changes.**

A tree is translated in place: its nodes are visited one by one, a node that turns translation off is
left alone and not gone below.  Every visit changes what one node says and nothing else, so numbers,
parents and children stay what they are, and the walk goes on through the tree as it was.  At the
end those nodes are translated that were visited and do not turn translation off, and these are the
nodes of the document that do not lie in the subtree of a node that does.  So the same comes out as
if the document was translated from the top down.

Main definitions:

* `ViewCompiler.Retold` — a text after translation: what stands between its blanks is translated;
* `ViewCompiler.Kind.Retold` — what a node says after translation;
* `ViewCompiler.Tree.Sheltered` — a node lies in the subtree of one that turns translation off;
* `ViewCompiler.Tree.Retells` — what translating changes in a tree, and what not;
* `ViewCompiler.Tree.Asks` — a text that the translator is asked for.

Main results:

* `ViewCompiler.translateSliced?_eq` — the blanks around a text can be cut out by its length;
* `ViewCompiler.Tree.Accounted.translate_eq` — the walk translates what is not sheltered;
* `ViewCompiler.Tree.Accounted.content_translate` — **the walk translates the document**;
* `ViewCompiler.Tree.translate_retells` — **translating touches only what it may**.
-/

import ViewCompiler.Proofs.Markup.Bytewise
import ViewCompiler.Proofs.Markup.Surroundings
import ViewCompiler.Proofs.Markup.Walking
import ViewCompiler.Proofs.Template.Stripping
import ViewCompiler.Proofs.Text.Padding
import ViewCompiler.Template.Translation

set_option relaxedAutoImplicit false
set_option autoImplicit false

namespace ViewCompiler

variable {ι : Type}

/-! ### What a node says -/

/-- A text after translation: a blank one stays, and of any other what stands between the blanks at
its two ends is translated. -/
inductive Retold (translate : String → String) : String → String → Prop where
  | blank {text : String} (h : ∀ c ∈ text.toList, isBlank c = true) : Retold translate text text
  | padded {before source behind text : String}
      (h : Padded before.toList source.toList behind.toList text.toList) :
      Retold translate text (before ++ translate source ++ behind)

/-- An attribute after translation: one that is shown to a user is retold, any other stays. -/
inductive AttributeRetold (translate : String → String) :
    String × String → String × String → Prop where
  | shown {name value told : String} (hname : name ∈ shownAttributes)
      (h : Retold translate value told) : AttributeRetold translate (name, value) (name, told)
  | other {name value : String} (hname : name ∉ shownAttributes) :
      AttributeRetold translate (name, value) (name, value)

/-- What a node says after translation: its attributes or its text are retold, comments and raw
texts stay. -/
inductive Kind.Retold (translate : String → String) : Kind → Kind → Prop where
  | element {name : String} {a b : Attributes}
      (h : List.Forall₂ (AttributeRetold translate) a b) :
      Retold translate (.element name a) (.element name b)
  | text {content told : String} (h : ViewCompiler.Retold translate content told) :
      Retold translate (.leaf .text content) (.leaf .text told)
  | leaf {kind : LeafKind} {content : String} (h : kind ≠ .text) :
      Retold translate (.leaf kind content) (.leaf kind content)

/-- The content of a leaf, translated if it is a text. -/
def LeafKind.translate (translate : String → String) (kind : LeafKind) (content : String) :
    String :=
  if kind = .text then translatePadded translate content else content

/-- What a node says, translated. -/
def Kind.translate (translate : String → String) : Kind → Kind
  | .element name attributes => .element name (translateAttributes translate attributes)
  | .leaf kind content => .leaf kind (kind.translate translate content)

/-- The node, translated; what is below it stays. -/
def Node.translate (translate : String → String) : Node ι → Node ι
  | .element e => .element { e with attributes := translateAttributes translate e.attributes }
  | .leaf label kind content => .leaf label kind (kind.translate translate content)

/-- The texts of a node that are shown to a user. -/
def Kind.shown : Kind → List String
  | .element _ attributes => (attributes.filter fun a => shownAttributes.contains a.1).map (·.2)
  | .leaf .text content => [content]
  | .leaf _ _ => []

section Said

variable {translate other : String → String} {text told : String}

/-- There is one translation of a text. -/
theorem retold_iff : Retold translate text told ↔ told = translatePadded translate text := by
  by_cases hblank : ∀ c ∈ text.toList, isBlank c = true
  · have hall : allBlank text = true := List.all_eq_true.2 hblank
    rw [translatePadded, if_pos hall]
    constructor
    · rintro (_ | h)
      · rfl
      · exact absurd hblank h.not_blank
    · rintro rfl
      exact .blank hblank
  · have hall : ¬ allBlank text = true := mt List.all_eq_true.1 hblank
    rw [translatePadded, if_neg hall]
    constructor
    · rintro (h | h)
      · exact absurd h hblank
      · rw [trimmed, h.trim_eq, h.leadingBlanks_eq, h.trailingBlanks_eq, String.ofList_toList,
          String.ofList_toList, String.ofList_toList]
    · rintro rfl
      refine .padded (padded_iff.2 ⟨hblank, ?_⟩)
      simp [trimmed]

theorem retold_translatePadded (translate : String → String) (text : String) :
    Retold translate text (translatePadded translate text) :=
  retold_iff.2 rfl

/-- The lengths of a text with and without its blanks are where the blanks end and begin. -/
theorem slices_of_padded {before source behind : String}
    (h : Padded before.toList source.toList behind.toList text.toList) :
    let start := text.utf8ByteSize - (String.ofList (trimLeft text.toList)).utf8ByteSize
    slice? text 0 start = some before ∧
      slice? text (start + source.utf8ByteSize) text.utf8ByteSize = some behind := by
  have hbytes : ∀ s : String, s.utf8ByteSize = utf8Length s.toList := fun s => by
    rw [← utf8ByteSize_ofList, String.ofList_toList]
  have hleft : trimLeft text.toList = source.toList ++ behind.toList := by
    rw [trimLeft, h.text_eq]
    exact dropWhile_append_of_head h.before_blank h.head_behind_before
  have hsize : text.utf8ByteSize = utf8Length before.toList +
      (utf8Length source.toList + utf8Length behind.toList) := by
    rw [hbytes, h.text_eq, utf8Length_append, utf8Length_append]
  have hstart : text.utf8ByteSize - (String.ofList (trimLeft text.toList)).utf8ByteSize =
      utf8Length before.toList := by
    rw [hsize, utf8ByteSize_ofList, hleft, utf8Length_append, Nat.add_sub_cancel]
  have hsplit : text.toList = before.toList ++ source.toList ++ (behind.toList ++ []) := by
    rw [h.text_eq, List.append_nil, List.append_assoc]
  have hfront : slice? text (utf8Length []) (utf8Length [] + utf8Length before.toList) =
      some (.ofList before.toList) := slice?_of_append h.text_eq
  have hback := slice?_of_append hsplit
  rw [utf8Length_nil, Nat.zero_add, String.ofList_toList] at hfront
  rw [utf8Length_append, String.ofList_toList, Nat.add_assoc, ← hsize] at hback
  dsimp only
  rw [hstart, hbytes source]
  exact ⟨hfront, hback⟩

/-- **Cut out at byte offsets, the blanks are the same**: the cuts meet no character, and a text for
which there is no other translation stays. -/
theorem translateSliced?_eq (translate : String → String) (text : String) :
    (translateSliced? translate text).map (·.getD text) =
      some (translatePadded translate text) := by
  have hretold := retold_translatePadded translate text
  generalize translatePadded translate text = told at hretold ⊢
  cases hretold with
  | blank hblank =>
      have hempty : trimmed text = "" := by
        rw [trimmed, trim_of_blank hblank, String.ofList_nil]
      rw [translateSliced?, hempty]
      rfl
  | @padded before source behind _ h =>
      have hsource : trimmed text = source := by
        rw [trimmed, h.trim_eq, String.ofList_toList]
      have hne : source.isEmpty = false := by
        rw [Bool.eq_false_iff, Ne, String.isEmpty_iff]
        rintro rfl
        exact h.source_ne String.toList_empty
      obtain ⟨hfront, hback⟩ := slices_of_padded h
      rw [translateSliced?]
      simp only [hsource, hne, Bool.false_eq_true, if_false]
      split
      · next hsame =>
          have htext : text = before ++ source ++ behind := by
            rw [← String.toList_inj, h.text_eq, String.toList_append, String.toList_append,
              List.append_assoc]
          rw [hsame, ← htext]
          rfl
      · rw [hfront, hback]
        rfl

/-- Only what is made of the text between the blanks matters. -/
theorem translatePadded_congr
    (h : ∀ before source behind : String,
      Padded before.toList source.toList behind.toList text.toList →
        other source = translate source) :
    translatePadded other text = translatePadded translate text := by
  rw [← retold_iff]
  have hretold := retold_translatePadded other text
  generalize translatePadded other text = told at hretold ⊢
  cases hretold with
  | blank hblank => exact .blank hblank
  | @padded before source behind _ hpadded =>
      rw [h before source behind hpadded]
      exact .padded hpadded

/-- Nothing changes if the text between the blanks does not. -/
theorem translatePadded_id (text : String) : translatePadded (fun source => source) text = text := by
  have hretold := retold_translatePadded (fun source => source) text
  generalize translatePadded (fun source => source) text = told at hretold ⊢
  cases hretold with
  | blank => rfl
  | padded h =>
      rw [← String.toList_inj, h.text_eq]
      simp

theorem forall₂_translateAttributes (translate : String → String) (attributes : Attributes) :
    List.Forall₂ (AttributeRetold translate) attributes
      (translateAttributes translate attributes) := by
  rw [translateAttributes, List.forall₂_map_right_iff, List.forall₂_same]
  rintro ⟨name, value⟩ -
  dsimp only
  split
  · next hshown =>
      exact .shown (List.contains_iff_mem.1 hshown) (retold_translatePadded translate value)
  · next hother => exact .other (mt List.contains_iff_mem.2 hother)

/-- What a node says is translated as it should be. -/
theorem Kind.retold_translate (translate : String → String) (k : Kind) :
    k.Retold translate (k.translate translate) := by
  cases k with
  | element name attributes => exact .element (forall₂_translateAttributes translate attributes)
  | leaf kind content =>
      cases kind with
      | text => exact .text (retold_translatePadded translate content)
      | comment | raw => exact .leaf (by decide)

/-- Only what is made of the texts that are shown matters. -/
theorem Kind.translate_congr {k : Kind}
    (h : ∀ text ∈ k.shown, translatePadded other text = translatePadded translate text) :
    k.translate other = k.translate translate := by
  cases k with
  | element name attributes =>
      refine congrArg (Kind.element name) (List.map_congr_left fun a ha => ?_)
      split
      · next hshown =>
          rw [h a.2 (List.mem_map_of_mem (List.mem_filter.2 ⟨ha, hshown⟩))]
      · rfl
  | leaf kind content =>
      cases kind with
      | text => exact congrArg (Kind.leaf .text) (h content List.mem_cons_self)
      | comment | raw => rfl

theorem Kind.translate_id (k : Kind) : k.translate (fun source => source) = k := by
  cases k with
  | element name attributes =>
      refine congrArg (Kind.element name) ((List.map_congr_left fun a _ => ?_).trans
        (List.map_id attributes))
      rw [translatePadded_id, ite_self]
      rfl
  | leaf kind content =>
      refine congrArg (Kind.leaf kind) ?_
      rw [LeafKind.translate, translatePadded_id, ite_self]

end Said

/-! ### Some nodes of a forest -/

namespace Forest

/-- The forest with the nodes translated where `p` holds. -/
def translateAt (translate : String → String) (p : ι → Bool) : Forest ι → Forest ι
  | nil => nil
  | element label name attributes children rest =>
      element label name (if p label then translateAttributes translate attributes else attributes)
        (children.translateAt translate p) (rest.translateAt translate p)
  | leaf label kind content rest =>
      leaf label kind (if p label then kind.translate translate content else content)
        (rest.translateAt translate p)

end Forest

/-- The row with what the node says translated, if `told`. -/
def Record.retold (translate : String → String) (told : Bool) (r : Record ι) : Record ι :=
  { r with kind := if told then r.kind.translate translate else r.kind }

namespace Forest

variable {translate other : String → String} {p q : ι → Bool} {f : Forest ι} {x : ι}

theorem roots_translateAt (translate : String → String) (p : ι → Bool) (f : Forest ι) :
    (f.translateAt translate p).roots = f.roots := by
  induction f with
  | nil => rfl
  | element label _ _ _ _ _ ih => exact congrArg (label :: ·) ih
  | leaf label _ _ _ ih => exact congrArg (label :: ·) ih

/-- Translating changes what the rows say, and neither labels nor children. -/
theorem records_translateAt (translate : String → String) (p : ι → Bool) (f : Forest ι) :
    (f.translateAt translate p).records =
      f.records.map fun row => (row.1, row.2.retold translate (p row.1)) := by
  induction f with
  | nil => rfl
  | element label name attributes children rest ihc ihr =>
      rw [translateAt, records, records, List.map_cons, List.map_append, ihc, ihr,
        roots_translateAt, Record.retold]
      cases p label <;> rfl
  | leaf label kind content rest ih =>
      rw [translateAt, records, records, List.map_cons, ih, Record.retold]
      cases p label <;> rfl

theorem labels_translateAt (translate : String → String) (p : ι → Bool) (f : Forest ι) :
    (f.translateAt translate p).labels = f.labels := by
  rw [← map_fst_records, records_translateAt, List.map_map, ← map_fst_records f]
  rfl

/-- Only where it is translated matters. -/
theorem translateAt_congr (h : ∀ x ∈ f.labels, p x = q x) :
    f.translateAt translate p = f.translateAt translate q := by
  induction f with
  | nil => rfl
  | element label name attributes children rest ihc ihr =>
      obtain ⟨hself, hbelow⟩ := List.forall_mem_cons.1 h
      obtain ⟨hchildren, hrest⟩ := List.forall_mem_append.1 hbelow
      rw [translateAt, translateAt, hself, ihc hchildren, ihr hrest]
  | leaf label kind content rest ih =>
      obtain ⟨hself, hrest⟩ := List.forall_mem_cons.1 h
      rw [translateAt, translateAt, hself, ih hrest]

/-- Only what is made of the nodes that are translated matters. -/
theorem translateAt_agree
    (h : ∀ row ∈ f.records, p row.1 = true →
      row.2.kind.translate other = row.2.kind.translate translate) :
    f.translateAt other p = f.translateAt translate p := by
  induction f with
  | nil => rfl
  | element label name attributes children rest ihc ihr =>
      obtain ⟨hself, hbelow⟩ := List.forall_mem_cons.1 h
      obtain ⟨hchildren, hrest⟩ := List.forall_mem_append.1 hbelow
      rw [translateAt, translateAt, ihc hchildren, ihr hrest]
      split
      · next hp => rw [(Kind.element.inj (hself hp)).2]
      · rfl
  | leaf label kind content rest ih =>
      obtain ⟨hself, hrest⟩ := List.forall_mem_cons.1 h
      rw [translateAt, translateAt, ih hrest]
      split
      · next hp => rw [(Kind.leaf.inj (hself hp)).2]
      · rfl

/-- The forest stays if no node that is translated changes. -/
theorem translateAt_eq_self
    (h : ∀ row ∈ f.records, p row.1 = true → row.2.kind.translate translate = row.2.kind) :
    f.translateAt translate p = f := by
  induction f with
  | nil => rfl
  | element label name attributes children rest ihc ihr =>
      obtain ⟨hself, hbelow⟩ := List.forall_mem_cons.1 h
      obtain ⟨hchildren, hrest⟩ := List.forall_mem_append.1 hbelow
      rw [translateAt, ihc hchildren, ihr hrest]
      split
      · next hp => rw [(Kind.element.inj (hself hp)).2]
      · rfl
  | leaf label kind content rest ih =>
      obtain ⟨hself, hrest⟩ := List.forall_mem_cons.1 h
      rw [translateAt, ih hrest]
      split
      · next hp => rw [(Kind.leaf.inj (hself hp)).2]
      · rfl

/-- Translating one more node. -/
theorem splice_translateAt [DecidableEq ι] (hf : f.labels.Nodup) (hx : p x = false) :
    (f.translateAt translate p).splice x (fun n => single (n.translate translate)) =
      f.translateAt translate (Function.update p x true) := by
  have hupdate : ∀ {g : Forest ι}, x ∉ g.labels →
      g.translateAt translate p = g.translateAt translate (Function.update p x true) := by
    intro g hg
    refine translateAt_congr fun y hy => (Function.update_of_ne ?_ _ _).symm
    rintro rfl
    exact hg hy
  induction f with
  | nil => rfl
  | element label name attributes children rest ihc ihr =>
      obtain ⟨hlabel, hbelow⟩ := List.nodup_cons.1 hf
      obtain ⟨hchildren, hrest, -⟩ := List.nodup_append.1 hbelow
      rw [translateAt, translateAt, splice, ihr hrest]
      split
      · next heq =>
          -- the element itself: no label below it is its own
          subst heq
          have hnot : label ∉ children.labels := fun hmem =>
            hlabel (List.mem_append_left _ hmem)
          rw [hx, hupdate hnot, Function.update_self]
          rfl
      · next hne => rw [ihc hchildren, Function.update_of_ne hne]
  | leaf label kind content rest ih =>
      rw [translateAt, translateAt, splice, ih (List.nodup_cons.1 hf).2]
      split
      · next heq =>
          subst heq
          rw [hx, Function.update_self]
          rfl
      · next hne => rw [Function.update_of_ne hne]

/-! ### Where a walk arrives -/

section Exposed

variable [DecidableEq ι] {off : ι → Bool} {label : ι} {name : String} {attributes : Attributes}
  {children rest : Forest ι}

/-- A walk that stops where `off` holds arrives at the label and does not stop there. -/
def exposed (off : ι → Bool) (f : Forest ι) (x : ι) : Bool :=
  decide (x ∈ (f.pruned off).labels) && !off x

theorem mem_of_exposed (h : f.exposed off x = true) : x ∈ f.labels :=
  (labels_pruned_sublist f off).subset (of_decide_eq_true (Bool.and_eq_true_iff.1 h).1)

theorem exposed_self : (element label name attributes children rest).exposed off label =
    !off label := by
  simp [exposed, pruned, labels]

theorem exposed_inside (hf : (element label name attributes children rest).labels.Nodup)
    (hx : x ∈ children.labels) :
    (element label name attributes children rest).exposed off x =
      (!off label && children.exposed off x) := by
  obtain ⟨hlabel, hbelow⟩ := List.nodup_cons.1 hf
  have hne : x ≠ label := fun heq => hlabel (heq ▸ List.mem_append_left _ hx)
  have hnot : x ∉ (rest.pruned off).labels := fun hmem =>
    (List.nodup_append'.1 hbelow).2.2 hx ((labels_pruned_sublist rest off).subset hmem)
  rw [exposed, exposed, pruned, labels]
  cases off label <;> simp [hne, hnot, labels]

theorem exposed_behind (hf : (element label name attributes children rest).labels.Nodup)
    (hx : x ∈ rest.labels) :
    (element label name attributes children rest).exposed off x = rest.exposed off x := by
  obtain ⟨hlabel, hbelow⟩ := List.nodup_cons.1 hf
  have hne : x ≠ label := fun heq => hlabel (heq ▸ List.mem_append_right _ hx)
  have hnot : x ∉ (children.pruned off).labels := fun hmem =>
    (List.nodup_append'.1 hbelow).2.2 ((labels_pruned_sublist children off).subset hmem) hx
  rw [exposed, exposed, pruned, labels]
  cases off label <;> simp [hne, hnot, labels]

theorem exposed_behind_leaf {kind : LeafKind} {content : String} (hne : x ≠ label) :
    (leaf label kind content rest).exposed off x = rest.exposed off x := by
  simp [exposed, pruned, labels, hne]

/-- Translating from the top down translates the nodes at which such a walk arrives. -/
theorem translate_eq_translateAt (hf : f.labels.Nodup)
    (hoff : ∀ row ∈ f.records, off row.1 = translationOff row.2.kind.attributes) :
    f.translate translate = f.translateAt translate (f.exposed off) := by
  induction f with
  | nil => rfl
  | element label name attributes children rest ihc ihr =>
      obtain ⟨hchildren, hrest, -⟩ := List.nodup_append.1 (List.nodup_cons.1 hf).2
      obtain ⟨hself, hbelow⟩ := List.forall_mem_cons.1 hoff
      obtain ⟨hoffChildren, hoffRest⟩ := List.forall_mem_append.1 hbelow
      have hself : off label = translationOff attributes := hself
      have hbehind : ∀ x ∈ rest.labels,
          (element label name attributes children rest).exposed off x = rest.exposed off x :=
        fun x hx => exposed_behind hf hx
      rw [Forest.translate, translateAt, exposed_self, ← hself, translateAt_congr hbehind,
        ← ihr hrest hoffRest]
      cases hstop : off label with
      | true =>
          have hinside : children.translateAt translate
              ((element label name attributes children rest).exposed off) = children := by
            refine translateAt_eq_self fun row hrow hp => ?_
            rw [exposed_inside hf (mem_labels_of_mem_records hrow), hstop] at hp
            cases hp
          rw [hinside]
          rfl
      | false =>
          have hsame : ∀ x ∈ children.labels, children.exposed off x =
              (element label name attributes children rest).exposed off x := by
            intro x hx
            rw [exposed_inside hf hx, hstop]
            rfl
          rw [← translateAt_congr hsame, ← ihc hchildren hoffChildren]
          rfl
  | leaf label kind content rest ih =>
      obtain ⟨hlabel, hrest⟩ := List.nodup_cons.1 hf
      obtain ⟨hself, hoffRest⟩ := List.forall_mem_cons.1 hoff
      have hself : off label = false := hself
      have hbehind : ∀ x ∈ rest.labels,
          (leaf label kind content rest).exposed off x = rest.exposed off x := by
        intro x hx
        refine exposed_behind_leaf ?_
        rintro rfl
        exact hlabel hx
      have hexposed : (leaf label kind content rest).exposed off label = true := by
        simp [exposed, pruned, labels, hself]
      rw [translateAt, hexposed, translateAt_congr hbehind, ← ih hrest hoffRest]
      cases kind <;> rfl

end Exposed

end Forest

/-! ### Some nodes of a tree -/

namespace Tree

variable {t : Tree} {translate other : String → String} {p : NodeId → Bool} {id x : NodeId}

/-- The node turns translation off, for itself and all below it. -/
def turnsOff (t : Tree) (id : NodeId) : Bool :=
  translationOff (t.attributes id)

/-- The tree with the nodes of the document translated where `p` holds. -/
def translateAt (translate : String → String) (t : Tree) (p : NodeId → Bool) : Tree :=
  { t with content := t.content.translateAt translate p }

theorem attributes_eq (t : Tree) (id : NodeId) :
    t.attributes id = ((t.kind? id).map Kind.attributes).getD [] := by
  rw [attributes, kind?]
  cases t.find? id with
  | none => rfl
  | some n => cases n <;> rfl

namespace Accounted

theorem kind?_root (ht : t.Accounted) : t.kind? root = none := by
  rw [kind?, find?, Forest.find?_eq_none_iff.2 ht.not_mem_loose.1,
    Forest.find?_eq_none_iff.2 ht.not_mem_loose.2]
  rfl

/-- Nothing is written on the document that could turn translation off. -/
theorem turnsOff_root (ht : t.Accounted) : t.turnsOff root = false := by
  rw [turnsOff, attributes_eq, ht.kind?_root]
  rfl

/-- Numbers stay. -/
theorem translateAt (ht : t.Accounted) (translate : String → String) (p : NodeId → Bool) :
    (t.translateAt translate p).Accounted := by
  have hlabels : (t.translateAt translate p).whole.labels = t.whole.labels := by
    rw [whole, whole, Forest.labels_append, Forest.labels_append, Forest.labels_single,
      Forest.labels_single]
    exact congrArg (fun labels => root :: labels ++ t.loose.labels)
      (Forest.labels_translateAt translate p t.content)
  rw [Accounted, hlabels]
  exact ht

end Accounted

/-- The table of the tree, if no loose piece is translated. -/
theorem records_translateAt (hp : ∀ x ∈ t.loose.labels, p x = false) :
    (t.translateAt translate p).whole.records =
      t.whole.records.map fun row => (row.1, row.2.retold translate (p row.1)) := by
  have hloose : t.loose.records.map (fun row => (row.1, row.2.retold translate (p row.1))) =
      t.loose.records := by
    refine (List.map_congr_left fun row hrow => ?_).trans (List.map_id _)
    rw [hp row.1 (Forest.mem_labels_of_mem_records hrow)]
    rfl
  have hroot : (t.translateAt translate p).asNode.record =
      t.asNode.record.retold translate (p root) := by
    rw [Node.record, Record.retold]
    refine congrArg₂ Record.mk ?_ (Forest.roots_translateAt translate p t.content)
    cases p root <;> rfl
  rw [whole, whole, Forest.records_append, Forest.records_append, Forest.records_single,
    Forest.records_single, List.map_append, hloose, List.map_cons, hroot]
  exact congrArg (fun rows => (root, t.asNode.record.retold translate (p root)) ::
    rows ++ t.loose.records) (Forest.records_translateAt translate p t.content)

namespace Accounted

theorem record?_translateAt (ht : t.Accounted) (hp : ∀ x ∈ t.loose.labels, p x = false)
    (id : NodeId) : (t.translateAt translate p).record? id =
      (t.record? id).map (Record.retold translate (p id)) := by
  refine Option.ext fun r => ?_
  rw [(ht.translateAt translate p).record?_eq_some_iff, records_translateAt hp,
    Option.map_eq_some_iff, List.mem_map]
  constructor
  · rintro ⟨⟨x, old⟩, hrow, heq⟩
    obtain ⟨rfl, rfl⟩ := Prod.mk.inj heq
    exact ⟨old, ht.record?_eq_some_iff.2 hrow, rfl⟩
  · rintro ⟨old, hold, rfl⟩
    exact ⟨(id, old), ht.record?_eq_some_iff.1 hold, rfl⟩

theorem roots_children_translateAt (ht : t.Accounted) (hp : ∀ x ∈ t.loose.labels, p x = false)
    (id : NodeId) : ((t.translateAt translate p).children id).roots = (t.children id).roots := by
  rw [roots_children, roots_children, ht.record?_translateAt hp, Option.map_map]
  rfl

theorem parent?_translateAt (ht : t.Accounted) (hp : ∀ x ∈ t.loose.labels, p x = false)
    (id : NodeId) : (t.translateAt translate p).parent? id = t.parent? id := by
  refine Option.ext fun parent => ?_
  rw [(ht.translateAt translate p).parent?_eq_some_iff, ht.parent?_eq_some_iff,
    ht.roots_children_translateAt hp]

/-- What a node says, if no loose piece is translated. -/
theorem kind?_translateAt (ht : t.Accounted) (hp : ∀ x ∈ t.loose.labels, p x = false)
    (id : NodeId) : (t.translateAt translate p).kind? id =
      (t.kind? id).map fun k => if p id then k.translate translate else k := by
  by_cases hid : id = root
  · rw [hid, (ht.translateAt translate p).kind?_root, ht.kind?_root]
    rfl
  · rw [kind?_eq _ hid, kind?_eq _ hid, ht.record?_translateAt hp, Option.map_map, Option.map_map]
    rfl

end Accounted

/-! ### Visiting the nodes one by one -/

/-- Translating what a node of the document says replaces the node. -/
theorem translateNode_eq (hcontent : t.content.labels.Nodup) (hx : x ∉ t.loose.labels) :
    t.translateNode translate x =
      { t with content := t.content.splice x fun n => .single (n.translate translate) } := by
  have hfind : t.find? x = t.content.find? x := by
    rw [find?, Forest.find?_eq_none_iff.2 hx, Option.or_none]
  rw [translateNode, hfind]
  cases hn : t.content.find? x with
  | none => rw [Forest.splice_of_not_mem (Forest.find?_eq_none_iff.1 hn)]
  | some n =>
      -- only what is put in the place of this node matters
      have hsame : ∀ g : Node NodeId → Forest NodeId, g n = .single (n.translate translate) →
          t.content.splice x g = t.content.splice x fun n => .single (n.translate translate) :=
        fun g hg => Forest.splice_eq_of_find? hcontent hn hg
      cases n with
      | element e =>
          dsimp only
          rw [mapAttributes, replace, Forest.splice_of_not_mem hx, hsame _ rfl]
      | leaf label kind content =>
          cases kind with
          | text =>
              dsimp only
              rw [setText, replace, Forest.splice_of_not_mem hx, hsame _ rfl]
          | comment | raw => rw [← hsame .single rfl, Forest.splice_self fun _ _ => rfl]

namespace Accounted

/-- **Visiting a node** of a tree that is translated in part translates it, if it does not turn
translation off. -/
theorem translateVisit_eq (ht : t.Accounted) (hp : ∀ x ∈ t.loose.labels, p x = false)
    (hx : x ∉ t.loose.labels) (hpx : p x = false) :
    translateVisit translate (t.translateAt translate p) x =
      (t.translateAt translate (if t.turnsOff x then p else Function.update p x true),
        if t.turnsOff x then [] else (t.children x).roots) := by
  have hattributes : (t.translateAt translate p).attributes x = t.attributes x := by
    rw [attributes_eq, attributes_eq, ht.kind?_translateAt hp, hpx, Option.map_map]
    rfl
  rw [translateVisit, hattributes, ← turnsOff]
  cases t.turnsOff x with
  | true => rfl
  | false =>
      have hnode : (t.translateAt translate p).translateNode translate x =
          t.translateAt translate (Function.update p x true) := by
        rw [translateNode_eq (ht.translateAt translate p).nodup_content hx]
        exact congrArg (fun content => { t with content := content })
          (Forest.splice_translateAt ht.nodup_content hpx)
      have hp' : ∀ y ∈ t.loose.labels, Function.update p x true y = false := by
        intro y hy
        rw [Function.update_of_ne, hp y hy]
        rintro rfl
        exact hx hy
      dsimp only
      rw [hnode, ht.roots_children_translateAt hp']
      rfl

/-- What is exposed in the document is exposed in its content. -/
theorem exposed_document (ht : t.Accounted) (hid : id ∈ t.content.labels) :
    t.document.exposed t.turnsOff id = t.content.exposed t.turnsOff id := by
  have hdocument : (Forest.element root "" [] t.content Forest.nil).labels.Nodup := by
    rw [Forest.labels, Forest.labels, List.append_nil]
    exact (List.nodup_append.1 ht.nodup).1
  refine (Forest.exposed_inside hdocument hid).trans ?_
  rw [ht.turnsOff_root]
  rfl

theorem not_exposed_of_mem_loose (ht : t.Accounted) {off : NodeId → Bool}
    (hx : x ∈ t.loose.labels) : t.document.exposed off x = false := by
  rw [Bool.eq_false_iff]
  intro hexposed
  refine ht.not_mem_nodes hx ?_
  rw [← labels_document]
  exact Forest.mem_of_exposed hexposed

end Accounted

/-- The walk has come to a tree in which all is translated that is exposed and not still to
visit. -/
structure Midway (translate : String → String) (t : Tree) (todo : List NodeId) (s : Tree) :
    Prop where
  nodup : todo.Nodup
  arrives : ∀ id ∈ todo, id ∈ (t.document.pruned t.turnsOff).labels
  tree_eq : s = t.translateAt translate fun id =>
    t.document.exposed t.turnsOff id && decide (id ∉ todo)

namespace Accounted

/-- At first all is to visit, and nothing is translated. -/
theorem midway_start (ht : t.Accounted) (translate : String → String) :
    t.Midway translate (t.document.pruned t.turnsOff).labels t := by
  refine ⟨(Forest.labels_pruned_sublist _ _).nodup ?_, fun _ h => h, ?_⟩
  · rw [labels_document]
    exact (List.nodup_append.1 ht.nodup).1
  · rw [Tree.translateAt, Forest.translateAt_eq_self]
    intro row _ htold
    obtain ⟨hexposed, hnot⟩ := Bool.and_eq_true_iff.1 htold
    exact absurd (of_decide_eq_true (Bool.and_eq_true_iff.1 hexposed).1) (of_decide_eq_true hnot)

/-- A visit does what is to do for the first node. -/
theorem midway_visit (ht : t.Accounted) {more : List NodeId} {s : Tree}
    (hs : t.Midway translate (x :: more) s) :
    ∃ s', translateVisit translate s x =
        (s', if t.turnsOff x then [] else (t.children x).roots) ∧ t.Midway translate more s' := by
  obtain ⟨htodo, harrives, rfl⟩ := hs
  obtain ⟨hx, hmore⟩ := List.forall_mem_cons.1 harrives
  obtain ⟨hnew, htodo⟩ := List.nodup_cons.1 htodo
  have hnotLoose : x ∉ t.loose.labels := by
    intro hloose
    refine ht.not_mem_nodes hloose ?_
    rw [← labels_document]
    exact (Forest.labels_pruned_sublist _ _).subset hx
  have hloose : ∀ id ∈ t.loose.labels,
      (t.document.exposed t.turnsOff id && decide (id ∉ x :: more)) = false := by
    intro id hid
    rw [ht.not_exposed_of_mem_loose hid, Bool.false_and]
  have hexposed : t.document.exposed t.turnsOff x = !t.turnsOff x := by
    rw [Forest.exposed, decide_eq_true hx, Bool.true_and]
  refine ⟨_, ht.translateVisit_eq hloose hnotLoose (by simp), htodo, hmore, ?_⟩
  refine congrArg (Tree.translateAt translate t) (funext fun id => ?_)
  by_cases heq : id = x
  · subst heq
    cases hoff : t.turnsOff id with
    | true => simp [hexposed, hoff]
    | false => simp [hexposed, hoff, hnew]
  · cases t.turnsOff x with
    | true => simp [heq]
    | false => simp [heq]

/-- **The walk translates what is exposed**: what it arrives at and what does not turn translation
off. -/
theorem translate_eq (ht : t.Accounted) (translate : String → String) :
    t.translate translate = t.translateAt translate (t.document.exposed t.turnsOff) := by
  have hfuel : (t.document.pruned t.turnsOff).labels.length ≤ t.size :=
    (Forest.labels_pruned_sublist _ _).length_le.trans ht.length_document_le
  have hvisit : ∀ x more s, t.Midway translate (x :: more) s →
      ∃ s', translateVisit translate s x =
        (s', if t.turnsOff x then [] else (t.children x).roots) ∧ t.Midway translate more s' :=
    fun _ _ _ hs => ht.midway_visit hs
  have hwalk := depthFirst_invariant hvisit (ht.follows.pruned t.turnsOff) hfuel
    (ht.midway_start translate)
  rw [Forest.roots_pruned, roots_document] at hwalk
  refine hwalk.tree_eq.trans (congrArg (Tree.translateAt translate t) (funext fun id => ?_))
  exact Bool.and_true _

/-- **The walk translates the document**, as it is translated from the top down. -/
theorem content_translate (ht : t.Accounted) (translate : String → String) :
    (t.translate translate).content = t.content.translate translate := by
  have hoff : ∀ row ∈ t.content.records,
      t.turnsOff row.1 = translationOff row.2.kind.attributes := by
    intro row hrow
    rw [turnsOff, ht.attributes_of_mem_records hrow]
  rw [ht.translate_eq, Forest.translate_eq_translateAt ht.nodup_content hoff]
  exact Forest.translateAt_congr fun id hid => ht.exposed_document hid

end Accounted

/-! ### Subtrees in which translation is off -/

/-- The node lies in the subtree of one that turns translation off. -/
def Sheltered (t : Tree) (id : NodeId) : Prop :=
  ∃ ancestor, t.isAncestorOrSelf ancestor id = true ∧ t.turnsOff ancestor = true

namespace Accounted

/-- **The walk arrives at the nodes that are not sheltered.** -/
theorem exposed_iff (ht : t.Accounted) (hid : id ∈ t.content.labels) :
    t.document.exposed t.turnsOff id = true ↔ ¬ t.Sheltered id := by
  rw [ht.exposed_document hid, Forest.exposed, Bool.and_eq_true_iff, decide_eq_true_iff,
    ht.mem_labels_pruned_iff ht.turnsOff_root, and_iff_right hid, Bool.not_eq_true']
  constructor
  · rintro ⟨hclear, hself⟩ ⟨ancestor, hancestor, hoff⟩
    rcases isAncestorOrSelf_eq_true.1 hancestor with rfl | hbelow
    · rw [hself] at hoff
      cases hoff
    · exact hclear ancestor hoff hbelow
  · intro hopen
    refine ⟨fun ancestor hoff hmem => ?_, Bool.eq_false_iff.2 fun hoff => ?_⟩
    · exact hopen ⟨ancestor, isAncestorOrSelf_eq_true.2 (.inr hmem), hoff⟩
    · exact hopen ⟨id, isAncestorOrSelf_eq_true.2 (.inl rfl), hoff⟩

end Accounted

/-! ### What translating touches -/

/-- What translating makes of the tree `t`: numbers, parents, children and loose pieces stay; a node
in the subtree of one that turns translation off says what it said; any other node of the document
is retold. -/
structure Retells (translate : String → String) (t u : Tree) : Prop where
  size_eq : u.size = t.size
  labels_eq : u.content.labels = t.content.labels
  parent?_eq : ∀ id, u.parent? id = t.parent? id
  roots_children_eq : ∀ id, (u.children id).roots = (t.children id).roots
  loose_eq : u.loose = t.loose
  sheltered : ∀ id, t.Sheltered id → u.kind? id = t.kind? id
  exposed : ∀ id ∈ t.content.labels, ¬ t.Sheltered id →
    ∃ k told, t.kind? id = some k ∧ u.kind? id = some told ∧ k.Retold translate told

/-- The translator is asked for the text: it stands between the blanks of a text that is shown, of a
node of the document that is not in the subtree of one that turns translation off. -/
def Asks (t : Tree) (source : String) : Prop :=
  ∃ id ∈ t.content.labels, ¬ t.Sheltered id ∧ ∃ k, t.kind? id = some k ∧
    ∃ text ∈ k.shown, ∃ before behind : String,
      Padded before.toList source.toList behind.toList text.toList

namespace Accounted

/-- What a node of the document says is found by its number. -/
theorem kind?_of_mem_records (ht : t.Accounted) {row : NodeId × Record NodeId}
    (hrow : row ∈ t.content.records) : t.kind? row.1 = some row.2.kind := by
  have hne : row.1 ≠ root := fun heq =>
    ht.not_mem_loose.1 (heq ▸ Forest.mem_labels_of_mem_records hrow)
  have hwhole : row ∈ t.whole.records := by
    rw [whole, Forest.records_append, Forest.records_single]
    exact List.mem_append_left _ (List.mem_cons_of_mem _ hrow)
  rw [kind?_eq t hne, ht.record?_eq_some_iff.2 hwhole]
  rfl

/-- A translated tree is the tree retold. -/
theorem retells (ht : t.Accounted) (translate : String → String) :
    t.Retells translate (t.translate translate) := by
  have hloose : ∀ x ∈ t.loose.labels, t.document.exposed t.turnsOff x = false :=
    fun x hx => ht.not_exposed_of_mem_loose hx
  rw [ht.translate_eq]
  refine ⟨rfl, Forest.labels_translateAt _ _ _, ht.parent?_translateAt hloose,
    ht.roots_children_translateAt hloose, rfl, fun id hsheltered => ?_, fun id hid hopen => ?_⟩
  · rw [ht.kind?_translateAt hloose]
    cases hkind : t.kind? id with
    | none => rfl
    | some k =>
        have hhidden : t.document.exposed t.turnsOff id = false := by
          by_cases hid : id ∈ t.content.labels
          · exact Bool.eq_false_iff.2 fun hexposed => (ht.exposed_iff hid).1 hexposed hsheltered
          · refine Bool.eq_false_iff.2 fun hexposed => ?_
            have hmem := Forest.mem_of_exposed hexposed
            rw [labels_document, List.mem_cons, or_iff_left hid] at hmem
            rw [hmem, ht.kind?_root] at hkind
            cases hkind
        rw [Option.map_some, hhidden]
        rfl
  · obtain ⟨r, hr⟩ := Forest.exists_record hid
    have hkind : t.kind? id = some r.kind := ht.kind?_of_mem_records hr
    refine ⟨r.kind, r.kind.translate translate, hkind, ?_, r.kind.retold_translate translate⟩
    rw [ht.kind?_translateAt hloose, hkind, Option.map_some, (ht.exposed_iff hid).2 hopen]
    rfl

/-- Translators that agree on what they are asked for make the same tree. -/
theorem translate_agree (ht : t.Accounted)
    (h : ∀ source, t.Asks source → other source = translate source) :
    t.translate other = t.translate translate := by
  rw [ht.translate_eq, ht.translate_eq, Tree.translateAt, Tree.translateAt,
    Forest.translateAt_agree]
  intro row hrow hexposed
  refine Kind.translate_congr fun text htext => translatePadded_congr ?_
  intro before source behind hpadded
  have hid := Forest.mem_labels_of_mem_records hrow
  exact h source ⟨row.1, hid, (ht.exposed_iff hid).1 hexposed, row.2.kind,
    ht.kind?_of_mem_records hrow, text, htext, before, behind, hpadded⟩

end Accounted

/-- **Translating touches only what it may.**  Moreover the tree depends on the translator only
through what it makes of the texts that it is asked for, and the translator that changes nothing
changes no tree. -/
theorem translate_retells (translator : Translator) (lang : Lang) (document : DocumentId)
    (t : Tree) (ht : t.Accounted) :
    t.Retells (translator lang document) (t.translate (translator lang document)) ∧
      (∀ other : Translator,
        (∀ source, t.Asks source → other lang document source = translator lang document source) →
          t.translate (other lang document) = t.translate (translator lang document)) ∧
      t.translate (Translator.identity lang document) = t := by
  refine ⟨ht.retells _, fun other h => ht.translate_agree h, ?_⟩
  rw [ht.translate_eq]
  exact congrArg (fun content => { t with content := content })
    (Forest.translateAt_eq_self fun row _ _ => row.2.kind.translate_id)

/-- A notice with a paragraph that is not translated, a comment and a loose link. -/
def notice : Tree where
  content := .element 1 "div" [("title", " Save\n"), ("name", "Save")]
    (.element 2 "p" [("title", "Save"), ("t-translation", " off")]
      (.element 3 "b" [("title", "Save")] (.leaf 4 .text "Save" .nil) .nil)
      (.leaf 5 .text "\n Save\t" (.leaf 6 .comment "Save" (.leaf 7 .text " " .nil)))) .nil
  loose := .element 8 "a" [("title", "Save")] .nil .nil
  size := 9

/-- The bold text is kept, with its title; the text beside the paragraph is translated between its
blanks. -/
theorem translate_notice :
    notice.Accounted ∧
      let u := notice.translate fun source => if source = "Save" then "Enregistrer" else source
      u.kind? 3 = some (.element "b" [("title", "Save")]) ∧
        u.kind? 4 = some (.leaf .text "Save") ∧
        u.kind? 5 = some (.leaf .text "\n Enregistrer\t") ∧ u.loose = notice.loose := by
  have haccounted : notice.Accounted := .refl _
  let translator : Translator := fun _ _ source =>
    if source = "Save" then "Enregistrer" else source
  obtain ⟨hretells, -, -⟩ := translate_retells translator "fr" "notice" notice haccounted
  have hoff : notice.turnsOff 2 = true := by decide +kernel
  refine ⟨haccounted, ?_, ?_, ?_, hretells.loose_eq⟩
  · exact hretells.sheltered 3 ⟨2, by decide +kernel, hoff⟩
  · exact hretells.sheltered 4 ⟨2, by decide +kernel, hoff⟩
  · decide +kernel

end Tree

end ViewCompiler
