/-
**What a patch does.**

A patch is about the first node that its locator selects, the target.  It is refused if there is
none, if it goes around the document itself, or if one of its `<attribute>` elements has no name.
Otherwise copies of its content, without a line feed at the start, stand beside the target, in its
place or behind its children, or the attributes of the target are set; and nothing else is changed.

Main definitions:

* `ViewCompiler.Trims`, `ViewCompiler.Tree.Copies` — the content as it is put into place;
* `ViewCompiler.settersOf`, `ViewCompiler.Attributes.Updates` — attributes after an attribute patch;
* `ViewCompiler.PatchSpec.Refuses` — why a patch is refused;
* `ViewCompiler.PatchSpec.Leaves` — **what a patch makes of the content of a document**.

Main results:

* `ViewCompiler.Attributes.get?_foldl_reset`, `ViewCompiler.Attributes.updates_foldl_reset` — what
  setting attributes one after the other does;
* `ViewCompiler.Tree.copies_importFragment` — what is imported;
* `ViewCompiler.PatchSpec.error_iff_refuses`, `ViewCompiler.PatchSpec.leaves_applyTo` — errors and
  effects of a patch;
* `ViewCompiler.PatchSpec.applyTo_correct` — **applying a patch, for every tree and every patch that
  an element stands for**.
-/

import ViewCompiler.Proofs.Inheritance.EditByEdit
import ViewCompiler.Proofs.Locator.Selection

set_option relaxedAutoImplicit false
set_option autoImplicit false

namespace ViewCompiler

variable {ι : Type}

/-! ### Attributes -/

/-- The `<attribute>` elements of a content that name the given attribute. -/
def settersOf (body : Forest ι) (name : String) : List (Element ι) :=
  body.topElements.filter fun e => e.name = "attribute" ∧ e.attr? "name" = some name

namespace Attributes

/-- Attributes after those were set that a content names: each of them reads as the text of the last
element that names it, and the others are what they were, in the same order. -/
structure Updates (body : Forest ι) (old new : Attributes) : Prop where
  get?_eq : ∀ name e, (settersOf body name).getLast? = some e →
    new.get? name = some e.children.textContent
  others_eq : (new.filter fun a => (settersOf body a.1).isEmpty) =
    old.filter fun a => (settersOf body a.1).isEmpty

theorem get?_cons (key value name : String) (more : Attributes) :
    Attributes.get? ((key, value) :: more) name =
      if key = name then some value else Attributes.get? more name := by
  rw [get?, List.find?_cons]
  by_cases h : key = name <;> simp [h, get?]

theorem get?_set (a : Attributes) (key value name : String) :
    (a.set key value).get? name = if key = name then some value else a.get? name := by
  induction a with
  | nil => exact get?_cons key value name []
  | cons first more ih =>
      obtain ⟨k, v⟩ := first
      rw [set]
      split
      · next heq =>
          subst heq
          rw [get?_cons, get?_cons]
          split <;> rfl
      · next hne =>
          rw [get?_cons, get?_cons, ih]
          by_cases hk : k = name
          · rw [if_pos hk, if_neg fun h => hne (hk.trans h.symm), if_pos hk]
          · rw [if_neg hk, if_neg hk]

theorem get?_remove {key name : String} (h : key ≠ name) (a : Attributes) :
    (a.remove key).get? name = a.get? name := by
  induction a with
  | nil => rfl
  | cons first more ih =>
      obtain ⟨k, v⟩ := first
      rw [remove, List.eraseP_cons]
      by_cases hk : k = key
      · subst hk
        simp [get?_cons, h]
      · simp only [hk, decide_false, cond_false]
        rw [get?_cons, get?_cons]
        exact congrArg _ ih

theorem get?_reset (a : Attributes) (setting : String × String) (name : String) :
    (a.reset setting).get? name = if setting.1 = name then some setting.2 else a.get? name := by
  rw [reset, get?_set]
  split
  · rfl
  · next h => exact get?_remove h a

theorem filter_set {key : String} {P : String → Bool} (h : P key = false) (a : Attributes)
    (value : String) : (a.set key value).filter (fun b => P b.1) = a.filter fun b => P b.1 := by
  induction a with
  | nil => simp [set, h]
  | cons first more ih =>
      obtain ⟨k, v⟩ := first
      rw [set]
      split
      · next heq =>
          subst heq
          simp [h]
      · rw [List.filter_cons, List.filter_cons, ih]

theorem filter_remove {key : String} {P : String → Bool} (h : P key = false) (a : Attributes) :
    (a.remove key).filter (fun b => P b.1) = a.filter fun b => P b.1 := by
  induction a with
  | nil => rfl
  | cons first more ih =>
      obtain ⟨k, v⟩ := first
      rw [remove, List.eraseP_cons]
      by_cases hk : k = key
      · subst hk
        simp [h]
      · simp only [hk, decide_false, cond_false]
        rw [List.filter_cons, List.filter_cons]
        exact congrArg (fun rest => if P k = true then (k, v) :: rest else rest) ih

/-- Attributes read as they were set last. -/
theorem get?_foldl_reset (settings : List (String × String)) (a : Attributes) (name : String) :
    (settings.foldl reset a).get? name =
      ((settings.filter (·.1 = name)).getLast?.map (·.2)).or (a.get? name) := by
  induction settings using List.reverseRecOn with
  | nil => rfl
  | append_singleton settings setting ih =>
      rw [List.foldl_append, List.foldl_cons, List.foldl_nil, get?_reset, ih, List.filter_append]
      by_cases h : setting.1 = name
      · simp [h]
      · simp [h]

theorem filter_foldl_reset {P : String → Bool} {settings : List (String × String)}
    (h : ∀ setting ∈ settings, P setting.1 = false) (a : Attributes) :
    ((settings.foldl reset a).filter fun b => P b.1) = a.filter fun b => P b.1 := by
  induction settings generalizing a with
  | nil => rfl
  | cons setting more ih =>
      obtain ⟨hfirst, hmore⟩ := List.forall_mem_cons.1 h
      rw [List.foldl_cons, ih hmore, reset, filter_set hfirst, filter_remove hfirst]

/-- If each of the elements has a name then all of them are heard. -/
theorem settingsOf_eq {elements : List (Element ι)}
    (h : ∀ e ∈ elements, e.attr? "name" ≠ none) :
    settingsOf elements =
      elements.map fun e => ((e.attr? "name").getD "", e.children.textContent) := by
  induction elements with
  | nil => rfl
  | cons e more ih =>
      obtain ⟨he, hmore⟩ := List.forall_mem_cons.1 h
      obtain ⟨name, hname⟩ := Option.ne_none_iff_exists'.1 he
      rw [settingsOf, List.map_cons, hname, ← ih hmore]
      rfl

/-- The settings of one attribute come from the elements that name it. -/
theorem filter_attributeSettings {body : Forest ι}
    (h : ∀ e ∈ attributeElements body, e.attr? "name" ≠ none) (name : String) :
    (attributeSettings body).filter (·.1 = name) =
      (settersOf body name).map fun e => (name, e.children.textContent) := by
  have hsetters : settersOf body name =
      (attributeElements body).filter fun e => e.attr? "name" = some name := by
    rw [settersOf, attributeElements, List.filter_filter]
    exact List.filter_congr fun e _ => by simp [Bool.and_comm]
  rw [attributeSettings, settingsOf_eq h, hsetters]
  generalize attributeElements body = elements at h ⊢
  induction elements with
  | nil => rfl
  | cons e more ih =>
      obtain ⟨he, hmore⟩ := List.forall_mem_cons.1 h
      obtain ⟨found, hfound⟩ := Option.ne_none_iff_exists'.1 he
      rw [List.map_cons, List.filter_cons, List.filter_cons, ih hmore, hfound]
      by_cases heq : found = name
      · simp [heq]
      · simp [heq]

/-- **Setting the attributes that a content names, one after the other, updates them.** -/
theorem updates_foldl_reset {body : Forest ι}
    (h : ∀ e ∈ attributeElements body, e.attr? "name" ≠ none) (a : Attributes) :
    Updates body a ((attributeSettings body).foldl reset a) := by
  constructor
  · intro name e he
    rw [get?_foldl_reset, filter_attributeSettings h, List.getLast?_map, he]
    rfl
  · refine filter_foldl_reset (P := fun name => (settersOf body name).isEmpty) ?_ a
    intro setting hsetting
    have hmem : setting ∈ (attributeSettings body).filter (·.1 = setting.1) :=
      List.mem_filter.2 ⟨hsetting, decide_eq_true rfl⟩
    rw [filter_attributeSettings h] at hmem
    obtain ⟨e, he, -⟩ := List.mem_map.1 hmem
    rw [Bool.eq_false_iff, Ne, List.isEmpty_iff]
    exact List.ne_nil_of_mem he

end Attributes

/-! ### Copies -/

theorem Forest.plain_eq_self (f : Forest Unit) : f.plain = f := by
  induction f with
  | nil => rfl
  | element _ _ _ _ _ ihc ihr => exact congrArg₂ (element () _ _) ihc ihr
  | leaf _ _ _ _ ih => exact congrArg (leaf () _ _) ih

/-- A content without one line feed at the start of an opening text, and without that text if there
is nothing else in it. -/
inductive Trims : Forest Unit → Forest Unit → Prop
  | dropped (rest : Forest Unit) : Trims (.leaf () .text "\n" rest) rest
  | shortened {content : String} (h : content ≠ "") (rest : Forest Unit) :
      Trims (.leaf () .text ("\n" ++ content) rest) (.leaf () .text content rest)
  | kept {body : Forest Unit}
      (h : ∀ content rest, body ≠ .leaf () .text ("\n" ++ content) rest) : Trims body body

theorem trims_trimFragment (f : Forest ι) : Trims f.plain (trimFragment f).1.plain := by
  by_cases hfeed : ∃ label content rest, f = .leaf label .text ("\n" ++ content) rest
  · obtain ⟨label, content, rest, rfl⟩ := hfeed
    rw [trimFragment_lineFeed]
    by_cases hempty : content = ""
    · rw [if_pos hempty, hempty]
      exact .dropped _
    · rw [if_neg hempty]
      exact .shortened hempty _
  · rw [trimFragment_other fun label content rest heq => hfeed ⟨label, content, rest, heq⟩]
    refine .kept fun content rest hplain => hfeed ?_
    cases f with
    | nil | element => cases hplain
    | leaf label kind found rest =>
        obtain ⟨-, rfl, rfl, -⟩ := Forest.leaf.inj hplain
        exact ⟨label, content, rest, rfl⟩

theorem labels_trimFragment_sublist (f : Forest ι) :
    (trimFragment f).1.labels.Sublist f.labels := by
  rw [trimFragment.eq_def]
  split
  · split
    · exact List.sublist_cons_self _ _
    · exact .refl _
    · exact .refl _
  · exact .refl _

/-- Copies of a content as they are put into place: new nodes with its structure. -/
structure Tree.Copies (t : Tree) (body : Forest Unit) (f : Forest NodeId) : Prop where
  trims : Trims body f.plain
  nodup : f.labels.Nodup
  fresh : ∀ x ∈ f.labels, t.size ≤ x

theorem Tree.copies_importFragment (t : Tree) (body : Forest Unit) :
    t.Copies body (t.importFragment body).1 := by
  have hlabels := body.labels_numberEach t.size
  have hsublist := labels_trimFragment_sublist (body.numberEach t.size).1
  refine ⟨?_, hsublist.nodup (hlabels.nodup_iff.2 List.nodup_range'), fun x hx => ?_⟩
  · have htrims := trims_trimFragment (body.numberEach t.size).1
    rwa [Forest.plain_numberEach, Forest.plain_eq_self] at htrims
  · exact (List.mem_range'_1.1 (hlabels.mem_iff.1 (hsublist.subset hx))).1

namespace PatchSpec

/-! ### Refusals -/

/-- Why a patch is refused. -/
inductive Refuses (s : PatchSpec) (t : Tree) : PatchError → Prop
  | nodeNotFound (h : ∀ y, ¬ s.locator.Selects .present t y) :
      Refuses s t (.nodeNotFound s.locator.source)
  | detachedTarget (hposition : s.position = .before ∨ s.position = .after ∨ s.position = .replace)
      (h : s.locator.SelectsFirst .present t Tree.root) :
      Refuses s t (.detachedTarget s.locator.source)
  | attributeWithoutName {target : NodeId} {e : Element Unit} (hposition : s.position = .attributes)
      (htarget : s.locator.SelectsFirst .present t target) (he : e ∈ s.body.topElements)
      (hname : e.name = "attribute") (hnone : e.attr? "name" = none) :
      Refuses s t .attributeWithoutName

variable {s : PatchSpec} {t : Tree} {target : NodeId}

theorem needsParent_iff : s.position.needsParent = true ↔
    s.position = .before ∨ s.position = .after ∨ s.position = .replace := by
  cases s.position <;> simp [Position.needsParent]

theorem lacksName_iff : s.lacksName = true ↔ s.position = .attributes ∧
    ∃ e ∈ s.body.topElements, e.name = "attribute" ∧ e.attr? "name" = none := by
  simp [lacksName, attributeElements]

/-- With a target, there are two reasons left. -/
theorem refuses_iff (hs : ∀ step ∈ s.locator.steps, step.Positioned) (ht : t.Accounted)
    (hfound : s.locator.first? t = some target) {error : PatchError} :
    s.Refuses t error ↔
      s.position.needsParent = true ∧ target = Tree.root ∧
          error = .detachedTarget s.locator.source ∨
        s.lacksName = true ∧ error = .attributeWithoutName := by
  have htarget := (Path.first?_eq_some_iff hs ht).1 hfound
  constructor
  · intro hrefuses
    cases hrefuses with
    | nodeNotFound h => exact absurd htarget.1 (h target)
    | detachedTarget hposition h =>
        have hroot := hfound.symm.trans ((Path.first?_eq_some_iff hs ht).2 h)
        exact .inl ⟨needsParent_iff.2 hposition, Option.some.inj hroot, rfl⟩
    | attributeWithoutName hposition _ he hname hnone =>
        exact .inr ⟨lacksName_iff.2 ⟨hposition, _, he, hname, hnone⟩, rfl⟩
  · rintro (⟨hposition, rfl, rfl⟩ | ⟨hlacks, rfl⟩)
    · exact .detachedTarget (needsParent_iff.1 hposition) htarget
    · obtain ⟨hposition, e, he, hname, hnone⟩ := lacksName_iff.1 hlacks
      exact .attributeWithoutName hposition htarget he hname hnone

/-- **A patch is refused for these reasons.** -/
theorem error_iff_refuses (hs : ∀ step ∈ s.locator.steps, step.Positioned) (ht : t.Accounted)
    {error : PatchError} : (s.applyTo t).1 = some error ↔ s.Refuses t error := by
  rw [applyTo, targetIn]
  cases hfound : s.locator.first? t with
  | none =>
      have hnone := (Path.first?_eq_none_iff hs ht).1 hfound
      constructor
      · rintro ⟨⟩
        exact .nodeNotFound hnone
      · intro hrefuses
        cases hrefuses with
        | nodeNotFound => rfl
        | detachedTarget _ h | attributeWithoutName _ h => exact absurd h.1 (hnone _)
  | some target =>
      obtain ⟨children, hbranch⟩ :=
        s.locator.branches_select ht target (List.mem_of_mem_head? hfound)
      rw [refuses_iff hs ht hfound, ← hbranch.parent?_eq_none_iff ht]
      cases hneeds : s.position.needsParent with
      | true =>
          have hnames : s.lacksName = false := by
            rw [Bool.eq_false_iff]
            intro hlacks
            rw [(lacksName_iff.1 hlacks).1] at hneeds
            cases hneeds
          cases hparent : t.parent? target with
          | none => simp [hnames, hparent, @eq_comm _ error]
          | some parent => simp [hnames, hparent]
      | false =>
          cases hlacks : s.lacksName with
          | true => simp [@eq_comm _ error]
          | false => simp

/-! ### Effects -/

/-- **What a patch makes of the content of a document**, given its target. -/
inductive Leaves (s : PatchSpec) (t : Tree) (target : NodeId) : Forest NodeId → Prop
  | before {frames : List (Frame NodeId)} {l r f : Forest NodeId} {n : Node NodeId}
      (hposition : s.position = .before) (hf : t.Copies s.body f) (hn : n.label = target)
      (h : t.content = Frame.fill frames (l ++ (.single n ++ r))) :
      Leaves s t target (Frame.fill frames (l ++ (f ++ (.single n ++ r))))
  | after {frames : List (Frame NodeId)} {l r f : Forest NodeId} {n : Node NodeId}
      (hposition : s.position = .after) (hf : t.Copies s.body f) (hn : n.label = target)
      (h : t.content = Frame.fill frames (l ++ (.single n ++ r))) :
      Leaves s t target (Frame.fill frames (l ++ (.single n ++ (f ++ r))))
  | replace {frames : List (Frame NodeId)} {l r f : Forest NodeId} {n : Node NodeId}
      (hposition : s.position = .replace) (hf : t.Copies s.body f) (hn : n.label = target)
      (h : t.content = Frame.fill frames (l ++ (.single n ++ r))) :
      Leaves s t target (Frame.fill frames (l ++ (f ++ r)))
  | insideDocument {f : Forest NodeId} (hposition : s.position = .inside)
      (hf : t.Copies s.body f) (htarget : target = Tree.root) : Leaves s t target (t.content ++ f)
  | inside {frames : List (Frame NodeId)} {l r f : Forest NodeId} {e : Element NodeId}
      (hposition : s.position = .inside) (hf : t.Copies s.body f) (he : e.label = target)
      (h : t.content = Frame.fill frames (l ++ (.single (.element e) ++ r))) :
      Leaves s t target
        (Frame.fill frames (l ++ (.single (.element { e with children := e.children ++ f }) ++ r)))
  | attributesDocument (hposition : s.position = .attributes) (htarget : target = Tree.root) :
      Leaves s t target t.content
  | attributes {frames : List (Frame NodeId)} {l r : Forest NodeId} {e : Element NodeId}
      {new : Attributes} (hposition : s.position = .attributes) (he : e.label = target)
      (h : t.content = Frame.fill frames (l ++ (.single (.element e) ++ r)))
      (hnew : e.attributes.Updates s.body new) :
      Leaves s t target
        (Frame.fill frames (l ++ (.single (.element { e with attributes := new }) ++ r)))

/-- What patching a target makes of the content. -/
theorem leaves_patchAt {children : Forest NodeId} (ht : t.Accounted)
    (hbranch : t.Branch target children)
    (hmem : s.position.needsParent = true → target ∈ t.content.labels)
    (hnames : s.position = .attributes → ∀ e ∈ attributeElements s.body, e.attr? "name" ≠ none) :
    s.Leaves t target (t.patchAt target s.position s.body).content := by
  have hcopies := t.copies_importFragment s.body
  generalize hf : (t.importFragment s.body).1 = f at hcopies
  cases hposition : s.position with
  | before =>
      obtain ⟨n, frames, l, r, hn, hfill, hsplice⟩ :=
        Forest.exists_place ht.nodup_content (hmem (by rw [hposition]; rfl))
      have hcontent : (t.patchAt target .before s.body).content =
          Frame.fill frames (l ++ (f ++ (.single n ++ r))) := by
        rw [← Forest.append_assoc f, ← hf]
        exact hsplice _
      rw [hcontent]
      exact .before hposition hcopies hn hfill
  | after =>
      obtain ⟨n, frames, l, r, hn, hfill, hsplice⟩ :=
        Forest.exists_place ht.nodup_content (hmem (by rw [hposition]; rfl))
      have hcontent : (t.patchAt target .after s.body).content =
          Frame.fill frames (l ++ (.single n ++ (f ++ r))) := by
        rw [← Forest.append_assoc (.single n), ← hf]
        exact hsplice _
      rw [hcontent]
      exact .after hposition hcopies hn hfill
  | replace =>
      obtain ⟨n, frames, l, r, hn, hfill, hsplice⟩ :=
        Forest.exists_place ht.nodup_content (hmem (by rw [hposition]; rfl))
      have hcontent : (t.patchAt target .replace s.body).content =
          Frame.fill frames (l ++ (f ++ r)) := by
        rw [← hf]
        exact hsplice _
      rw [hcontent]
      exact .replace hposition hcopies hn hfill
  | inside =>
      cases hbranch with
      | document =>
          have hcontent : (t.patchAt Tree.root .inside s.body).content = t.content ++ f := by
            rw [← hf]
            rfl
          rw [hcontent]
          exact .insideDocument hposition hcopies rfl
      | @element e he =>
          have hn := Forest.find?_of_mem_elements ht.nodup_content he
          have hne : e.label ≠ Tree.root := fun heq =>
            ht.root_not_mem (heq ▸ Forest.label_mem_labels he)
          obtain ⟨frames, l, r, hfill, hsplice⟩ := Forest.exists_fill ht.nodup_content hn
          have hcontent : (t.patchAt e.label .inside s.body).content = Frame.fill frames
              (l ++ (.single (.element { e with children := e.children ++ f }) ++ r)) := by
            rw [Tree.patchAt, Tree.Accounted.content_extend, if_neg hne, ← hf]
            exact hsplice _
          rw [hcontent]
          exact .inside hposition hcopies rfl hfill
  | attributes =>
      cases hbranch with
      | document =>
          have hcontent : (t.patchAt Tree.root .attributes s.body).content = t.content :=
            Forest.splice_of_not_mem ht.root_not_mem _
          rw [hcontent]
          exact .attributesDocument hposition rfl
      | @element e he =>
          have hn := Forest.find?_of_mem_elements ht.nodup_content he
          obtain ⟨frames, l, r, hfill, hsplice⟩ := Forest.exists_fill ht.nodup_content hn
          have hcontent : (t.patchAt e.label .attributes s.body).content =
              Frame.fill frames (l ++ (.single (.element { e with
                attributes := (attributeSettings s.body).foldl Attributes.reset e.attributes })
                ++ r)) := hsplice _
          rw [hcontent]
          exact .attributes hposition rfl hfill
            (Attributes.updates_foldl_reset (hnames hposition) _)

/-- **What a patch that is not refused does.** -/
theorem leaves_applyTo (hs : ∀ step ∈ s.locator.steps, step.Positioned) (ht : t.Accounted)
    (hok : (s.applyTo t).1 = none) :
    ∃ target, s.locator.SelectsFirst .present t target ∧
      s.Leaves t target (s.applyTo t).2.content := by
  rw [applyTo] at hok ⊢
  cases htarget : s.targetIn t with
  | error e =>
      rw [htarget] at hok
      cases hok
  | ok target =>
      simp only [htarget] at hok ⊢
      have hlacks : s.lacksName = false := by
        by_contra h
        rw [if_pos (by simpa using h)] at hok
        cases hok
      have hnames : s.position = .attributes →
          ∀ e ∈ attributeElements s.body, e.attr? "name" ≠ none := by
        intro hposition e he hnone
        rw [lacksName, hposition, decide_eq_true rfl, Bool.true_and, List.any_eq_false] at hlacks
        exact hlacks e he (by rw [hnone]; rfl)
      obtain ⟨children, hbranch⟩ := branch_of_targetIn ht htarget
      exact ⟨target, (Path.first?_eq_some_iff hs ht).1 (targetIn_eq_ok_iff.1 htarget).1,
        leaves_patchAt ht hbranch (mem_content_of_targetIn ht htarget) hnames⟩

/-- The positions in the locator of an element count from one. -/
theorem positioned_of_ofElement {e : Element ι} (h : ofElement e = .ok s) :
    ∀ step ∈ s.locator.steps, step.Positioned := by
  rw [ofElement] at h
  split at h
  · cases h
  · split at h
    · cases h
    · next locator hlocator =>
        cases h
        rw [locatorOf] at hlocator
        split at hlocator
        · split at hlocator
          · cases hlocator
          · next expression _ =>
              cases hparse : Path.parse expression with
              | error e => simp [hparse, Except.mapError] at hlocator
              | ok p =>
                  rw [hparse] at hlocator
                  cases hlocator
                  exact Path.positioned_of_parse hparse
        · split at hlocator
          · cases hlocator
            exact Path.positioned_attributeEquals _ _ _
          · cases hlocator

/-- **Applying a patch that an element stands for.**  No edit of it is refused by the tree; there are
errors for the reasons given above, and for no others; without an error the content becomes what the
patch makes of it, at the first node that the locator selects; and the numbers of the tree stay
accounted for. -/
theorem applyTo_correct {e : Element ι} (hs : ofElement e = .ok s) (ht : t.Accounted) :
    s.perform t = .ok (s.applyTo t) ∧
      (∀ error, (s.applyTo t).1 = some error ↔ s.Refuses t error) ∧
      ((s.applyTo t).1 = none → ∃ target, s.locator.SelectsFirst .present t target ∧
        s.Leaves t target (s.applyTo t).2.content) ∧
      (s.applyTo t).2.Accounted := by
  have hpositions := positioned_of_ofElement hs
  obtain ⟨hperform, haccounted⟩ := perform_eq ht s
  exact ⟨hperform, fun error => error_iff_refuses hpositions ht, leaves_applyTo hpositions ht,
    haccounted⟩

/-- An element put behind another one, a line feed before it dropped. -/
theorem applyTo_after :
    ∃ (s : PatchSpec) (t : Tree),
      ofElement (⟨(), "xpath", [("expr", "//b"), ("position", "after")],
        .leaf () .text "\n" (.element () "i" [] .nil .nil)⟩ : Element Unit) = .ok s ∧
      parse "<a><b/><c/></a>" = .ok t ∧ t.Accounted ∧
      (s.applyTo t).2.plain = .element () "a" [] (.element () "b" [] .nil
        (.element () "i" [] .nil (.element () "c" [] .nil .nil))) .nil ∧
      s.perform t = .ok (s.applyTo t) ∧
      ∃ target, s.locator.SelectsFirst .present t target ∧
        s.Leaves t target (s.applyTo t).2.content := by
  let s : PatchSpec := ⟨⟨"//b", true, [⟨.descendant, .named "b", []⟩]⟩, .after,
    .leaf () .text "\n" (.element () "i" [] .nil .nil)⟩
  let t : Tree := ⟨.element 1 "a" [] (.element 2 "b" [] .nil (.element 3 "c" [] .nil .nil)) .nil,
    .nil, 4⟩
  have hs : ofElement (⟨(), "xpath", [("expr", "//b"), ("position", "after")],
      .leaf () .text "\n" (.element () "i" [] .nil .nil)⟩ : Element Unit) = .ok s := by
    decide +kernel
  have hparse : parse "<a><b/><c/></a>" = .ok t := by decide +kernel
  have ht : t.Accounted := parse_accounted hparse
  obtain ⟨hperform, -, hleaves, -⟩ := applyTo_correct hs ht
  exact ⟨s, t, hs, hparse, ht, by decide +kernel, hperform, hleaves (by decide +kernel)⟩

end PatchSpec

end ViewCompiler
