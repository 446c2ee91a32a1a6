/-
**The steps of a pass in place.**

A pass goes through the elements of the document in document order.  When the turn of an element
comes, it stands with its siblings at some place in the tree, and what is written goes next to it or
into it.

Main definitions:

* `ViewCompiler.Ends` — how a computation ends;
* `ViewCompiler.DirectiveTable.asks` — what a node asks for;
* `ViewCompiler.Lands` — a tree with lowered siblings at a place.

Main results:

* `ViewCompiler.Tree.Accounted.elementIds_eq` — the elements that a pass goes through;
* `ViewCompiler.Site.Open.writeBefore`, `ViewCompiler.Site.Open.writeAfter`,
  `ViewCompiler.Site.Open.writeLast` — **statements are written where they belong**.
-/

import ViewCompiler.Proofs.Markup.Sites
import ViewCompiler.Proofs.Markup.Walking
import ViewCompiler.Template.InPlace

set_option relaxedAutoImplicit false
set_option autoImplicit false

namespace ViewCompiler

/-! ### How a computation ends -/

/-- The computation ends with the error, if one is given, and otherwise with a result of which `P`
holds. -/
def Ends {α : Type} (e : Option CompileError) (P : α → Prop) (r : Except CompileError α) : Prop :=
  match e with
  | some e => r = .error e
  | none => ∃ a, r = .ok a ∧ P a

theorem bind_of_ok {α β ε : Type} {r : Except ε α} {a : α} {f : α → Except ε β} {r' : Except ε β}
    (hr : r = .ok a) (hf : f a = r') : r.bind f = r' := by
  rw [hr]
  exact hf

theorem foldlM_append_of_ok {α β ε : Type} {step : β → α → Except ε β} {l l' : List α} {b b' : β}
    {r : Except ε β} (h : l.foldlM step b = .ok b') (h' : l'.foldlM step b' = r) :
    (l ++ l').foldlM step b = r := by
  rw [List.foldlM_append]
  exact bind_of_ok h h'

namespace Ends

variable {α β : Type} {e e' : Option CompileError} {P : α → Prop} {Q : β → Prop}
  {r : Except CompileError α} {f : α → Except CompileError β}

theorem ok {a : α} (h : P a) : Ends none P (.ok a) :=
  ⟨a, rfl, h⟩

theorem error (e : CompileError) : Ends (some e) P (.error e) :=
  rfl

/-- One computation after another. -/
theorem bind (hr : Ends e P r) (hf : ∀ a, P a → Ends e' Q (f a)) :
    Ends (e.or e') Q (r >>= f) := by
  cases e with
  | some e =>
      obtain rfl : r = .error e := hr
      exact rfl
  | none =>
      obtain ⟨a, rfl, ha⟩ := hr
      exact hf a ha

theorem mono {P' : α → Prop} (hr : Ends e P r) (h : ∀ a, P a → P' a) : Ends e P' r := by
  cases e with
  | some e => exact hr
  | none =>
      obtain ⟨a, ha, hP⟩ := hr
      exact ⟨a, ha, h a hP⟩

end Ends

/-- The computation fails as another one does, or its result is in a relation to the result of the
other. -/
def Tracks {α β : Type} (P : β → α → Prop) (r : Except CompileError β)
    (run : Except CompileError α) : Prop :=
  match r with
  | .error e => run = .error e
  | .ok b => ∃ a, run = .ok a ∧ P b a

namespace Tracks

variable {α β α' β' : Type} {P : β → α → Prop} {Q : β' → α' → Prop} {r : Except CompileError β}
  {run : Except CompileError α}

theorem ok {a : α} {b : β} (h : P b a) : Tracks P (.ok b) (.ok a) :=
  ⟨a, rfl, h⟩

/-- One computation after another. -/
theorem bind {k : β → Except CompileError β'} {f : α → Except CompileError α'}
    (h : Tracks P r run) (hf : ∀ b a, P b a → Tracks Q (k b) (f a)) :
    Tracks Q (r >>= k) (run >>= f) := by
  cases r with
  | error e =>
      obtain rfl : run = .error e := h
      exact rfl
  | ok b =>
      obtain ⟨a, rfl, ha⟩ := h
      exact hf b a ha

theorem mono {P' : β → α → Prop} (h : Tracks P r run) (hP : ∀ b a, P b a → P' b a) :
    Tracks P' r run := by
  cases r with
  | error e => exact h
  | ok b =>
      obtain ⟨a, ha, hb⟩ := h
      exact ⟨a, ha, hP b a hb⟩

theorem map {g : β → β'} {Q : β' → α → Prop} (h : Tracks P r run)
    (hg : ∀ b a, P b a → Q (g b) a) : Tracks Q (r.map g) run := by
  cases r with
  | error e => exact h
  | ok b =>
      obtain ⟨a, ha, hb⟩ := h
      exact ⟨a, ha, hg b a hb⟩

/-- What comes after a check is tracked if the check is. -/
theorem of_ends {e : Option CompileError} {P : α → Prop} {k : Except CompileError β'}
    {f : α → Except CompileError α'} (h : Ends e P run) (hf : ∀ a, P a → Tracks Q k (f a)) :
    Tracks Q (refuse e >>= fun _ => k) (run >>= f) := by
  cases e with
  | some e =>
      obtain rfl : run = .error e := h
      exact rfl
  | none =>
      obtain ⟨a, rfl, ha⟩ := h
      exact hf a ha

end Tracks

/-- A result that is given if a check finds nothing. -/
def checked (e : Option CompileError) (m : Forest Mark) : Except CompileError (Forest Mark) :=
  refuse e >>= fun _ => .ok m

theorem ends_iff_tracks {α : Type} {e : Option CompileError} {m : Forest Mark}
    {P : Forest Mark → α → Prop} {run : Except CompileError α} :
    Ends e (P m) run ↔ Tracks P (checked e m) run := by
  cases e <;> exact Iff.rfl

theorem checked_or (e e' : Option CompileError) (m m' : Forest Mark)
    (M : Forest Mark → Forest Mark → Forest Mark) :
    checked (e.or e') (M m m') =
      checked e m >>= fun m => checked e' m' >>= fun m' => .ok (M m m') := by
  cases e <;> cases e' <;> rfl

/-! ### Tables and lists -/

/-- What a node asks for. -/
def DirectiveTable.asks (table : DirectiveTable) (id : NodeId) : Directives :=
  (table.get? id).getD {}

/-- No entry is about a number that is not handed out yet. -/
def DirectiveTable.Below (table : DirectiveTable) (size : Nat) : Prop :=
  ∀ id, size ≤ id → table.get? id = none

namespace DirectiveTable

variable {table : DirectiveTable} {size k : Nat}

theorem Below.mono (h : table.Below size) (hle : size ≤ k) : table.Below k := fun id hid =>
  h id (Nat.le_trans hle hid)

theorem Below.asks_eq (h : table.Below size) {id : NodeId} (hid : size ≤ id) :
    table.asks id = {} := by
  rw [asks, h id hid]
  rfl

end DirectiveTable

/-- The numbers of the elements in document order. -/
def Forest.elementLabels {ι : Type} (f : Forest ι) : List ι :=
  f.elements.map (·.label)

namespace Forest

variable {ι : Type}

@[simp] theorem elementLabels_nil : (nil : Forest ι).elementLabels = [] := rfl

@[simp] theorem elementLabels_leaf (label : ι) (kind : LeafKind) (content : String)
    (rest : Forest ι) : (leaf label kind content rest).elementLabels = rest.elementLabels := rfl

@[simp] theorem elementLabels_element (label : ι) (name : String) (attributes : Attributes)
    (children rest : Forest ι) : (element label name attributes children rest).elementLabels =
      label :: (children.elementLabels ++ rest.elementLabels) := by
  simp [elementLabels, elements]

end Forest

namespace Tree

variable {t : Tree}

theorem PartOf.filter_elements {f : Forest NodeId} (hf : t.PartOf f) (ht : t.Accounted) :
    (f.labels.filter fun id => (t.name? id).isSome) = f.elementLabels := by
  induction f with
  | nil => rfl
  | element id name attributes children rest ihc ihr =>
      obtain ⟨below, hfind, -⟩ := hf.find?_element ht
      rw [Forest.labels, List.filter_cons_of_pos (by simp [name?, hfind]), List.filter_append,
        ihc hf.inside, ihr hf.behind, Forest.elementLabels_element]
  | leaf id kind content rest ih =>
      rw [Forest.labels, List.filter_cons_of_neg (by simp [name?, hf.find?_leaf ht]),
        ih hf.behind_leaf, Forest.elementLabels_leaf]

/-- **The elements that a pass goes through.** -/
theorem Accounted.elementIds_eq (ht : t.Accounted) : t.elementIds = t.content.elementLabels := by
  rw [elementIds, ht.descendants_eq ht.root_lt_size]
  exact ht.partOf_content.filter_elements ht

/-- Elements that ask for nothing are left as they are. -/
theorem Accounted.foldlM_askingIds (ht : t.Accounted) {table : DirectiveTable}
    {step : Tree → NodeId → Except CompileError Tree}
    (hstep : ∀ t id, table.get? id = none → step t id = .ok t) (u : Tree) :
    (t.askingIds table).foldlM step u = t.content.elementLabels.foldlM step u := by
  rw [askingIds, List.foldlM_filter, ht.elementIds_eq]
  congr
  funext t id
  split
  · rfl
  · next h => exact (hstep t id (by simpa using h)).symm

end Tree

/-! ### Writing at a place -/

namespace Site.Open

variable {s : Site} {rest children : Forest NodeId} {id : NodeId} {name : String}
  {attributes : Attributes} {size : Nat} {n : Node NodeId}

/-- Room for one more node. -/
theorem accounted_succ {x y : Forest NodeId} (h : s.Open) (ht : (s.tree x size).Accounted)
    (hlabels : y.labels.Perm (size :: x.labels)) : (s.tree y (size + 1)).Accounted :=
  h.accounted ht .nil 1 hlabels

/-- Written in front of the first node. -/
theorem writeBefore (h : s.Open) (ht : (s.tree (.single n ++ rest) size).Accounted)
    (hparent : (s.tree (.single n ++ rest) size).parent? n.label ≠ none) (w : Statement) :
    (s.tree (.single n ++ rest) size).writeBefore n.label w =
      .ok (s.tree (.leaf size .raw w.text (.single n ++ rest)) (size + 1)) ∧
    (s.tree (.leaf size .raw w.text (.single n ++ rest)) (size + 1)).Accounted := by
  have hinsert := ht.insertBeside_new .raw w.text hparent
    fun piece node => piece ++ node
  rw [h.replace_head ht] at hinsert
  exact ⟨congrArg (Except.mapError CompileError.tree) hinsert, h.accounted_succ ht (.refl _)⟩

/-- Written just behind the first node. -/
theorem writeAfter (h : s.Open) (ht : (s.tree (.single n ++ rest) size).Accounted)
    (hparent : (s.tree (.single n ++ rest) size).parent? n.label ≠ none) (w : Statement) :
    (s.tree (.single n ++ rest) size).writeAfter n.label w =
      .ok (s.tree (.single n ++ .leaf size .raw w.text rest) (size + 1)) ∧
    (s.tree (.single n ++ .leaf size .raw w.text rest) (size + 1)).Accounted := by
  have hinsert := ht.insertBeside_new .raw w.text hparent
    fun piece node => node ++ piece
  rw [h.replace_head ht, Forest.append_assoc] at hinsert
  refine ⟨congrArg (Except.mapError CompileError.tree) hinsert, h.accounted_succ ht ?_⟩
  rw [Forest.labels_append, Forest.labels_append]
  exact List.perm_middle

/-- Written behind the children of the first node. -/
theorem writeTextLast (h : s.Open)
    (ht : (s.tree (.element id name attributes children rest) size).Accounted)
    (content : String) :
    (s.tree (.element id name attributes children rest) size).writeTextLast id content =
      .ok (s.tree (.element id name attributes
        (children ++ .leaf size .raw content .nil) rest) (size + 1)) ∧
    (s.tree (.element id name attributes
      (children ++ .leaf size .raw content .nil) rest) (size + 1)).Accounted := by
  have hfind : (s.tree (.element id name attributes children rest) size).find? id = some _ :=
    h.find?_head (n := .element ⟨id, name, attributes, children⟩) ht
  have hreplace := h.replace_head (n := .element ⟨id, name, attributes, children⟩) ht
    (Tree.appendBelow (.leaf size .raw content .nil))
  have hinsert := ht.appendChild_new .raw content hfind
  have hwritten := congrArg (fun t : Tree => { t with size := size + 1 }) hreplace
  refine ⟨(congrArg (Except.mapError CompileError.tree) hinsert).trans
    (congrArg Except.ok hwritten), h.accounted_succ ht ?_⟩
  simp only [Forest.labels, Forest.labels_append, List.append_assoc, List.singleton_append]
  exact (List.perm_middle.cons _).trans (.swap ..)

theorem writeLast (h : s.Open)
    (ht : (s.tree (.element id name attributes children rest) size).Accounted) (w : Statement) :
    (s.tree (.element id name attributes children rest) size).writeLast id w =
      .ok (s.tree (.element id name attributes
        (children ++ .leaf size .raw w.text .nil) rest) (size + 1)) ∧
    (s.tree (.element id name attributes
      (children ++ .leaf size .raw w.text .nil) rest) (size + 1)).Accounted :=
  h.writeTextLast ht w.text

theorem find?_element (h : s.Open)
    (ht : (s.tree (.element id name attributes children rest) size).Accounted) :
    (s.tree (.element id name attributes children rest) size).find? id =
      some (.element ⟨id, name, attributes, children⟩) :=
  h.find?_head (n := .element ⟨id, name, attributes, children⟩) ht

theorem children_head (h : s.Open)
    (ht : (s.tree (.element id name attributes children rest) size).Accounted) :
    (s.tree (.element id name attributes children rest) size).children id = children := by
  rw [Tree.children, if_neg (ht.ne_root_of_find? (h.find?_element ht)), h.find?_element ht]

theorem attributes_head (h : s.Open)
    (ht : (s.tree (.element id name attributes children rest) size).Accounted) :
    (s.tree (.element id name attributes children rest) size).attributes id = attributes := by
  rw [Tree.attributes, h.find?_element ht]

theorem name?_head (h : s.Open)
    (ht : (s.tree (.element id name attributes children rest) size).Accounted) :
    (s.tree (.element id name attributes children rest) size).name? id = some name := by
  rw [Tree.name?, h.find?_element ht]

theorem tag_head (h : s.Open)
    (ht : (s.tree (.element id name attributes children rest) size).Accounted) :
    (s.tree (.element id name attributes children rest) size).tag id = name := by
  rw [Tree.tag, h.name?_head ht]
  rfl

/-- An element is no blank text. -/
theorem isBlankText_element (h : s.Open)
    (ht : (s.tree (.element id name attributes children rest) size).Accounted) :
    (s.tree (.element id name attributes children rest) size).isBlankText id = false := by
  rw [Tree.isBlankText, Tree.text?, h.find?_element ht]
  rfl

theorem isBlankText_leaf {kind : LeafKind} {content : String} (h : s.Open)
    (ht : (s.tree (.leaf id kind content rest) size).Accounted) :
    (s.tree (.leaf id kind content rest) size).isBlankText id =
      Forest.isBlankLeaf kind content := by
  have hfind : (s.tree (.leaf id kind content rest) size).find? id =
      some (.leaf id kind content) := h.find?_head (n := .leaf id kind content) ht
  rw [Tree.isBlankText, Tree.text?, hfind]
  cases kind <;> simp [Forest.isBlankLeaf]

end Site.Open

/-! ### Taking out of a place -/

namespace Site.Open

variable {s : Site} {rest children : Forest NodeId} {id : NodeId} {name : String}
  {attributes : Attributes} {size : Nat}

/-- The first element gives up its children. -/
theorem takeChildren_head (h : s.Open)
    (ht : (s.tree (.element id name attributes children rest) size).Accounted) :
    (s.tree (.element id name attributes children rest) size).takeChildren id =
      (children.roots, (s.addLoose children).tree (.element id name attributes .nil rest) size) ∧
    ((s.addLoose children).tree (.element id name attributes .nil rest) size).Accounted := by
  have hroot := h.ne_root ht (Forest.label_mem_element id name attributes children rest)
  have hreplace := h.replace_head (n := .element ⟨id, name, attributes, children⟩) ht Tree.childless
  constructor
  · rw [Tree.takeChildren, h.children_head ht, if_neg hroot]
    exact congrArg (fun t : Tree => (children.roots, { t with loose := children ++ t.loose }))
      hreplace
  · refine h.accounted ht _ 0 ?_
    exact List.perm_middle

/-- The first node is taken out. -/
theorem detach_head {n : Node NodeId} (h : s.Open)
    (ht : (s.tree (.single n ++ rest) size).Accounted)
    (hparent : (s.tree (.single n ++ rest) size).parent? n.label ≠ none) :
    (s.tree (.single n ++ rest) size).detach n.label =
      (s.addLoose (.single n)).tree rest size ∧
    ((s.addLoose (.single n)).tree rest size).Accounted := by
  obtain ⟨parent, hparent⟩ := Option.ne_none_iff_exists'.1 hparent
  constructor
  · rw [Tree.detach, hparent, h.find?_head ht]
    simp only [h.replace_head ht]
    rfl
  · refine h.accounted ht _ 0 ?_
    rw [Forest.labels_append]
    exact .refl _

/-- A statement takes the place of the first node, which has a parent whatever is in front of it. -/
theorem writeInPlace {n : Node NodeId} (h : s.Open)
    (ht : (s.tree (.single n ++ rest) size).Accounted)
    (hparent : ∀ before size, (s.tree (before ++ (.single n ++ rest)) size).Accounted →
      (s.tree (before ++ (.single n ++ rest)) size).parent? n.label ≠ none) (w : Statement) :
    ((s.tree (.single n ++ rest) size).writeBefore n.label w).map (·.detach n.label) =
      .ok ((s.addLoose (.single n)).tree (.leaf size .raw w.text rest) (size + 1)) ∧
    ((s.addLoose (.single n)).tree (.leaf size .raw w.text rest) (size + 1)).Accounted := by
  let front := Forest.leaf size .raw w.text .nil
  obtain ⟨hwrite, ht⟩ := h.writeBefore ht (hparent .nil _ ht) w
  obtain ⟨hdetach, ht⟩ := (h.behind front).detach_head ht (hparent front _ ht)
  exact ⟨(congrArg (Except.map (·.detach n.label)) hwrite).trans (congrArg Except.ok hdetach), ht⟩

end Site.Open

/-! ### Going through siblings -/

/-- A written statement asks for nothing. -/
@[simp] theorem Statement.map_before (w : Statement) (m : Forest Mark) :
    (w.before m).map Mark.directives = .leaf {} .raw w.text (m.map Mark.directives) := rfl

/-- The tree has siblings at a place in the document that are those of `m`, and the next number to
hand out is the one given. -/
def Lands (table : DirectiveTable) (K : Forest NodeId → Forest NodeId) (loose : Forest NodeId)
    (size : Nat) (m : Forest Mark) (t : Tree) : Prop :=
  ∃ g, t = ⟨K g, loose, size⟩ ∧ t.Accounted ∧ g.map table.asks = m.map Mark.directives

/-- The same for a pass that takes nothing out. -/
def LandsFrom (table : DirectiveTable) (K : Forest NodeId → Forest NodeId) (loose : Forest NodeId)
    (size : Nat) (m : Forest Mark) (t : Tree) : Prop :=
  ∃ k, size ≤ k ∧ Lands table K loose k m t

section

variable {table : DirectiveTable} {K : Forest NodeId → Forest NodeId}
  {loose children rest : Forest NodeId} {size₀ size : Nat} {m : Forest Mark}
  {t : Tree} {id : NodeId} {name : String} {attributes : Attributes} {mark : Mark}
  {e e' : Option CompileError} {step : Tree → NodeId → Except CompileError Tree}

/-- A leaf is passed by. -/
theorem LandsFrom.leaf {kind : LeafKind} {content : String}
    (h : LandsFrom table (fun x => K (.leaf id kind content x)) loose size m t)
    (hmark : mark.directives = table.asks id) :
    LandsFrom table K loose size (.leaf mark kind content m) t := by
  obtain ⟨k, hk, g, rfl, ht, hg⟩ := h
  refine ⟨k, hk, .leaf id kind content g, rfl, ht, ?_⟩
  rw [Forest.map, Forest.map, hmark, hg]

/-- **Inside comes before outside**: once the turn of an element is over, what is inside of it comes
next, and then what is behind.  `G` puts the two where they stand now. -/
theorem tracks_descend {G : Forest NodeId → Forest NodeId → Forest NodeId} {ids ids' : List NodeId}
    {inside outside : Except CompileError (Forest Mark)}
    {M : Forest Mark → Forest Mark → Forest Mark}
    (hG : ∀ rest, Hole fun children => K (G children rest))
    (hG' : ∀ children, Hole fun rest => K (G children rest)) (hsize : size₀ ≤ size)
    (ht : Tree.Accounted ⟨K (G children rest), loose, size⟩)
    (hinside : ∀ {K'}, Hole K' → Tree.Accounted ⟨K' children, loose, size⟩ →
      Tracks (LandsFrom table K' loose size) inside (ids.foldlM step ⟨K' children, loose, size⟩))
    (houtside : ∀ {K' k}, size ≤ k → Hole K' → Tree.Accounted ⟨K' rest, loose, k⟩ →
      Tracks (LandsFrom table K' loose k) outside (ids'.foldlM step ⟨K' rest, loose, k⟩))
    (hM : ∀ f g m m', f.map table.asks = m.map Mark.directives →
      g.map table.asks = m'.map Mark.directives →
      (G f g).map table.asks = (M m m').map Mark.directives) :
    Tracks (LandsFrom table K loose size₀) (inside >>= fun m => outside >>= fun m' => .ok (M m m'))
      ((ids ++ ids').foldlM step ⟨K (G children rest), loose, size⟩) := by
  rw [List.foldlM_append]
  refine (hinside (hG rest) ht).bind ?_
  rintro m _ ⟨k, hk, f, rfl, hinner, hf⟩
  rw [← bind_pure (ids'.foldlM step _)]
  refine (houtside hk (hG' f) hinner).bind ?_
  rintro m' _ ⟨k', hk', g, rfl, houter, hg⟩
  exact ⟨_, rfl, k', Nat.le_trans hsize (Nat.le_trans hk hk'), _, rfl, houter, hM f g m m' hf hg⟩

/-- The same for a pass that checks while it goes. -/
theorem ends_descend {G : Forest NodeId → Forest NodeId → Forest NodeId} {ids ids' : List NodeId}
    {inside outside : Forest Mark} {M : Forest Mark → Forest Mark → Forest Mark}
    (hG : ∀ rest, Hole fun children => K (G children rest))
    (hG' : ∀ children, Hole fun rest => K (G children rest)) (hsize : size₀ ≤ size)
    (ht : Tree.Accounted ⟨K (G children rest), loose, size⟩)
    (hinside : ∀ {K'}, Hole K' → Tree.Accounted ⟨K' children, loose, size⟩ →
      Ends e (LandsFrom table K' loose size inside) (ids.foldlM step ⟨K' children, loose, size⟩))
    (houtside : ∀ {K' k}, size ≤ k → Hole K' → Tree.Accounted ⟨K' rest, loose, k⟩ →
      Ends e' (LandsFrom table K' loose k outside) (ids'.foldlM step ⟨K' rest, loose, k⟩))
    (hM : ∀ f g m m', f.map table.asks = m.map Mark.directives →
      g.map table.asks = m'.map Mark.directives →
      (G f g).map table.asks = (M m m').map Mark.directives) :
    Ends (e.or e') (LandsFrom table K loose size₀ (M inside outside))
      ((ids ++ ids').foldlM step ⟨K (G children rest), loose, size⟩) := by
  rw [ends_iff_tracks, checked_or]
  exact tracks_descend hG hG' hsize ht (fun hK' ht => ends_iff_tracks.1 (hinside hK' ht))
    (fun hk hK' ht => ends_iff_tracks.1 (houtside hk hK' ht)) hM

/-- The same as landing at a place in any tree, with more loose pieces than there were. -/
def LandsBeside (table : DirectiveTable) (s : Site) (size : Nat) (m : Forest Mark) (t : Tree) :
    Prop :=
  ∃ junk g, t = (s.addLoose junk).tree g size ∧ t.Accounted ∧
    g.map table.asks = m.map Mark.directives

/-- A leaf is passed by. -/
theorem LandsBeside.leaf {s : Site} {kind : LeafKind} {content : String}
    (h : LandsBeside table (s.behind (.leaf id kind content .nil)) size m t)
    (hmark : mark.directives = table.asks id) :
    LandsBeside table s size (.leaf mark kind content m) t := by
  obtain ⟨junk, g, rfl, ht, hg⟩ := h
  refine ⟨junk, .leaf id kind content g, rfl, ht, ?_⟩
  rw [Forest.map, Forest.map, hmark, hg]

/-- Inside comes before outside, also where something is taken out: `J` is what has been taken out
once the turn of the inside is over, and `B` what stands in front of the outside then. -/
theorem tracks_beside {s u : Site} {J B : Forest NodeId → Forest NodeId → Forest NodeId}
    {ids ids' : List NodeId} {inside outside : Except CompileError (Forest Mark)}
    {M : Forest Mark → Forest Mark → Forest Mark} {k k' k'' : Nat}
    (hplace : ∀ junk g, (u.addLoose junk).tree g k' =
      ((s.addLoose (J junk g)).behind (B junk g)).tree rest k')
    (hinside : Tracks (LandsBeside table u k') inside (ids.foldlM step (u.tree children k)))
    (houtside : ∀ junk g, (((s.addLoose (J junk g)).behind (B junk g)).tree rest k').Accounted →
      Tracks (LandsBeside table ((s.addLoose (J junk g)).behind (B junk g)) k'') outside
        (ids'.foldlM step (((s.addLoose (J junk g)).behind (B junk g)).tree rest k')))
    (hM : ∀ junk g g' m m', g.map table.asks = m.map Mark.directives →
      g'.map table.asks = m'.map Mark.directives →
      (B junk g ++ g').map table.asks = (M m m').map Mark.directives) :
    Tracks (LandsBeside table s k'') (inside >>= fun m => outside >>= fun m' => .ok (M m m'))
      ((ids ++ ids').foldlM step (u.tree children k)) := by
  rw [List.foldlM_append]
  refine hinside.bind ?_
  rintro m _ ⟨junk, g, rfl, ht, hg⟩
  rw [hplace] at ht ⊢
  rw [← bind_pure (ids'.foldlM step _)]
  refine (houtside junk g ht).bind ?_
  rintro m' _ ⟨junk', g', rfl, ht, hg'⟩
  have htree : (((s.addLoose (J junk g)).behind (B junk g)).addLoose junk').tree g' k'' =
      (s.addLoose (junk' ++ J junk g)).tree (B junk g ++ g') k'' := by
    simp only [Site.tree, Site.addLoose, Site.behind, Forest.append_assoc]
  exact ⟨_, rfl, junk' ++ J junk g, B junk g ++ g', htree, ht, hM junk g g' m m' hg hg'⟩

/-- The same for a pass that checks while it goes. -/
theorem ends_beside {s u : Site} {J B : Forest NodeId → Forest NodeId → Forest NodeId}
    {ids ids' : List NodeId} {inside outside : Forest Mark}
    {M : Forest Mark → Forest Mark → Forest Mark} {k k' k'' : Nat}
    (hplace : ∀ junk g, (u.addLoose junk).tree g k' =
      ((s.addLoose (J junk g)).behind (B junk g)).tree rest k')
    (hinside : Ends e (LandsBeside table u k' inside) (ids.foldlM step (u.tree children k)))
    (houtside : ∀ junk g, (((s.addLoose (J junk g)).behind (B junk g)).tree rest k').Accounted →
      Ends e' (LandsBeside table ((s.addLoose (J junk g)).behind (B junk g)) k'' outside)
        (ids'.foldlM step (((s.addLoose (J junk g)).behind (B junk g)).tree rest k')))
    (hM : ∀ junk g g' m m', g.map table.asks = m.map Mark.directives →
      g'.map table.asks = m'.map Mark.directives →
      (B junk g ++ g').map table.asks = (M m m').map Mark.directives) :
    Ends (e.or e') (LandsBeside table s k'' (M inside outside))
      ((ids ++ ids').foldlM step (u.tree children k)) := by
  rw [ends_iff_tracks, checked_or]
  exact tracks_beside hplace (ends_iff_tracks.1 hinside)
    (fun junk g ht => ends_iff_tracks.1 (houtside junk g ht)) hM

end

end ViewCompiler
