/-
**What a bootstrapped catalog answers.**

After a bootstrap that has succeeded, the catalog holds one entry for each document of the resolved
store, and it gives entries by id, by owner and kind, and as a list.  These are the answers of the
store itself: the same documents are found, in the same order, and each is seen through its entry.
The entry has a text for every language, which is the translated arch compiled; asked for a
language that the catalog does not go by, it falls back on the first one that it does.

Main definitions:

* `ViewCompiler.entryOf` — the entry of a document;
* `ViewCompiler.CatalogOptions.spoken` — the language in which a catalog answers;
* `ViewCompiler.Catalog.Agrees` — a catalog answers like a store.

Main results:

* `ViewCompiler.exists_text` — every document that compiles has a text for every language;
* `ViewCompiler.Catalog.stage_of_refusal?_eq_none` — what a catalog that takes in fragments holds;
* `ViewCompiler.Catalog.bootstrap_agrees` — **a bootstrapped catalog answers like the resolved
  store**.
-/

import ViewCompiler.Proofs.Catalog.History
import ViewCompiler.Proofs.Catalog.Indexing
import ViewCompiler.Proofs.Inheritance.Reordering

set_option relaxedAutoImplicit false
set_option autoImplicit false

namespace ViewCompiler

variable {options : CatalogOptions} {hook : FieldHook} {translator : Translator}

/-! ### Languages -/

/-- The language in which a catalog answers when it is asked for another one. -/
def CatalogOptions.spoken (options : CatalogOptions) (lang : Lang) : Lang :=
  if lang ∈ options.effectiveLanguages then lang
  else options.effectiveLanguages.headD defaultLang

/-- The main language is the first of those that a catalog goes by. -/
theorem CatalogOptions.headD_effectiveLanguages (options : CatalogOptions) :
    options.effectiveLanguages.headD defaultLang = options.mainLanguage := by
  unfold CatalogOptions.effectiveLanguages CatalogOptions.mainLanguage
  cases options.languages with
  | nil => rfl
  | cons lang more => simp [List.eraseDups_cons]

theorem CatalogOptions.mainLanguage_mem (options : CatalogOptions) :
    options.mainLanguage ∈ options.effectiveLanguages := by
  unfold CatalogOptions.effectiveLanguages CatalogOptions.mainLanguage
  cases options.languages with
  | nil => simp
  | cons lang more => simp [List.eraseDups_cons]

/-! ### Texts -/

/-- The text under a language is the translated arch compiled. -/
theorem compileEach_eq_ok {o : CompilerOptions} {id : DocumentId} {arch : Forest Unit}
    {languages : List Lang} {texts : List (Lang × String)}
    (h : compileEach o hook translator id arch languages = .ok texts) :
    texts.map (·.1) = languages ∧ ∀ entry ∈ texts,
      compile o hook (arch.translate (translator entry.1 id)) = .ok entry.2 := by
  induction languages generalizing texts with
  | nil =>
      obtain rfl := Except.ok.inj h
      simp
  | cons lang more ih =>
      rw [compileEach] at h
      split at h
      · cases h
      · next text htext =>
          obtain ⟨rest, hrest, rfl⟩ := map_eq_ok_iff.1 h
          obtain ⟨hlanguages, htexts⟩ := ih hrest
          exact ⟨by rw [List.map_cons, hlanguages], List.forall_mem_cons.2 ⟨htext, htexts⟩⟩

/-- There is a text under each of the languages and no other. -/
theorem compileDocument_eq_ok {o : CompilerOptions} {id : DocumentId} {arch : Forest Unit}
    {languages : List Lang} {texts : List (Lang × String)}
    (h : compileDocument o hook translator id arch languages = .ok texts) :
    (∀ lang, lang ∈ texts.map (·.1) ↔ lang ∈ languages) ∧ ∀ entry ∈ texts,
      compile o hook (arch.translate (translator entry.1 id)) = .ok entry.2 := by
  obtain ⟨unsorted, hunsorted, rfl⟩ := map_eq_ok_iff.1 h
  obtain ⟨hlanguages, htexts⟩ := compileEach_eq_ok hunsorted
  have hperm := List.mergeSort_perm unsorted fun a b => decide (a.1 ≤ b.1)
  refine ⟨fun lang => ?_, fun entry hentry => htexts entry (hperm.mem_iff.1 hentry)⟩
  rw [(hperm.map (·.1)).mem_iff, hlanguages, List.mem_eraseDups]

/-- A text is found under every language that has one. -/
theorem text?_of_mem {e : CompiledDocument} {lang : Lang} (h : lang ∈ e.languages) :
    ∃ text, (lang, text) ∈ e.texts ∧ e.text? lang = some text := by
  obtain ⟨entry, hentry, rfl⟩ := List.mem_map.1 h
  have hsome : (e.texts.find? (·.1 = entry.1)).isSome = true :=
    List.find?_isSome.2 ⟨entry, hentry, by simp⟩
  obtain ⟨found, hfound⟩ := Option.isSome_iff_exists.1 hsome
  have hlang : found.1 = entry.1 := by simpa using List.find?_some hfound
  refine ⟨found.2, ?_, by rw [CompiledDocument.text?, hfound]; rfl⟩
  rw [← hlang]
  exact List.mem_of_find?_eq_some hfound

theorem text?_of_not_mem {e : CompiledDocument} {lang : Lang} (h : lang ∉ e.languages) :
    e.text? lang = none := by
  rw [CompiledDocument.text?, Option.map_eq_none_iff, List.find?_eq_none]
  intro entry hentry
  simpa using fun heq : entry.1 = lang => h (heq ▸ List.mem_map_of_mem hentry)

/-- The entry of a document. -/
def entryOf (options : CatalogOptions) (hook : FieldHook) (translator : Translator)
    (d : Document) : CompiledDocument where
  id := d.id
  owner := d.owner
  kind := d.kind
  priority := d.priority
  base := d.base
  arch := d.arch
  texts := ((compileDocument options.compiler hook translator d.id d.arch
    options.effectiveLanguages).toOption).getD []
  mainLanguage := options.mainLanguage

theorem compileEntry_eq_ok {d : Document} {texts : List (Lang × String)}
    (h : compileDocument options.compiler hook translator d.id d.arch
      options.effectiveLanguages = .ok texts) :
    compileEntry options hook translator d = .ok (entryOf options hook translator d) := by
  simp [compileEntry, entryOf, h, Except.map, Except.toOption]

/-- **Every document that compiles has a text for every language.** -/
theorem exists_text {d : Document} {texts : List (Lang × String)}
    (h : compileDocument options.compiler hook translator d.id d.arch
      options.effectiveLanguages = .ok texts) (lang : Lang) :
    ∃ text, compile options.compiler hook
        (d.arch.translate (translator (options.spoken lang) d.id)) = .ok text ∧
      (entryOf options hook translator d).output? lang = some text := by
  obtain ⟨hlanguages, htexts⟩ := compileDocument_eq_ok h
  have hentry : (entryOf options hook translator d).texts = texts := by
    simp [entryOf, h, Except.toOption]
  have hspeaks : ∀ lang, lang ∈ (entryOf options hook translator d).languages ↔
      lang ∈ options.effectiveLanguages := by
    intro lang
    rw [CompiledDocument.languages, hentry, hlanguages]
  by_cases hlang : lang ∈ options.effectiveLanguages
  · obtain ⟨text, hmem, htext⟩ := text?_of_mem ((hspeaks lang).2 hlang)
    rw [hentry] at hmem
    refine ⟨text, ?_, by rw [CompiledDocument.output?, htext, Option.some_or]⟩
    rw [CatalogOptions.spoken, if_pos hlang]
    exact htexts _ hmem
  · obtain ⟨text, hmem, htext⟩ := text?_of_mem ((hspeaks _).2 options.mainLanguage_mem)
    rw [hentry] at hmem
    have hnone := text?_of_not_mem fun hmem => hlang ((hspeaks lang).1 hmem)
    refine ⟨text, ?_, by rw [CompiledDocument.output?, hnone, Option.none_or]; exact htext⟩
    rw [CatalogOptions.spoken, if_neg hlang, options.headD_effectiveLanguages]
    exact htexts _ hmem

namespace Catalog

/-! ### What the first bootstrap finds -/

/-- Where nothing fails to compile, every document has its entry. -/
theorem entriesIn_eq {ds : List Document} (h : uncompiledIn options hook translator ds = []) :
    (∀ d ∈ ds, ∃ texts, compileDocument options.compiler hook translator d.id d.arch
        options.effectiveLanguages = .ok texts) ∧
      entriesIn options hook translator ds = ds.map (entryOf options hook translator) := by
  have htexts : ∀ d ∈ ds, ∃ texts, compileDocument options.compiler hook translator d.id d.arch
      options.effectiveLanguages = .ok texts := by
    intro d hd
    have hnone := List.filterMap_eq_nil_iff.1 h d hd
    rw [Option.map_eq_none_iff] at hnone
    cases hcompiled : compileDocument options.compiler hook translator d.id d.arch
        options.effectiveLanguages with
    | ok texts => exact ⟨texts, rfl⟩
    | error e => simp [hcompiled, errorOf?] at hnone
  refine ⟨htexts, ?_⟩
  rw [← List.filterMap_eq_map, entriesIn]
  refine List.filterMap_congr fun d hd => ?_
  obtain ⟨texts, hcompiled⟩ := htexts d hd
  rw [compileEntry_eq_ok hcompiled]
  rfl

/-- A bootstrap ends the loading, whatever it answers. -/
theorem refusal?_bootstrap (c : Catalog) (translator : Translator) :
    (c.call (.bootstrap translator)).2.refusal? ≠ none := by
  cases hrefusal : c.refusal? with
  | some refusal =>
      rw [call_of_refusal hrefusal rfl, hrefusal]
      exact Option.some_ne_none refusal
  | none =>
      obtain ⟨s, errors, hc⟩ := refusal?_eq_none.1 hrefusal
      rcases call_bootstrap_cases hc translator with
        ⟨_, heq⟩ | ⟨_, _, heq⟩ | ⟨_, _, _, heq⟩ <;> simp [heq, refusal?]

/-- A catalog that takes in fragments has not been bootstrapped since the last reset. -/
theorem not_bootstrap_of_refusal?_eq_none {c : Catalog} {calls : List Call}
    (hresets : ∀ x ∈ calls, x.isReset = false) (hc : (c.after calls).refusal? = none) :
    ∀ x ∈ calls, x.isBootstrap = false := by
  induction calls generalizing c with
  | nil => simp
  | cons x more ih =>
      obtain ⟨hx, hmore⟩ := List.forall_mem_cons.1 hresets
      refine List.forall_mem_cons.2 ⟨?_, ih hmore hc⟩
      cases x with
      | bootstrap translator =>
          obtain ⟨refusal, hrefusal⟩ :=
            Option.ne_none_iff_exists'.1 (c.refusal?_bootstrap translator)
          have hsame := after_of_refusal hrefusal hmore
          have hstays : (c.after (.bootstrap translator :: more)).refusal? = some refusal :=
            (congrArg refusal? hsame).trans hrefusal
          rw [hc] at hstays
          cases hstays
      | loadSource | load | get | first | documents | reset => rfl

/-- A catalog that takes in fragments holds what was loaded since the last reset. -/
theorem stage_of_refusal?_eq_none (calls : List Call)
    (hc : ((new options hook).after calls).refusal? = none) :
    ((new options hook).after calls).stage =
      .loading (stock (sinceReset calls)) (recorded .empty (sinceReset calls)) := by
  rw [after_eq_after_sinceReset] at hc ⊢
  have hresets : ∀ x ∈ sinceReset calls, x.isReset = false := fun _ => isReset_of_mem_sinceReset
  have hbootstraps := not_bootstrap_of_refusal?_eq_none hresets hc
  refine stage_of_loading options hook fun x hx => ?_
  simp [Call.keepsLoading, hbootstraps x hx, hresets x hx]

/-! ### Agreement -/

/-- A catalog answers like a store: every document is given, and found, as its entry. -/
structure Agrees (options : CatalogOptions) (hook : FieldHook) (translator : Translator)
    (s : Store) (c : Catalog) : Prop where
  /-- Every document of the store is listed once, in the order of the list. -/
  documents_eq : c.documents = s.documents.map (entryOf options hook translator)
  documents_perm : s.documents.Perm s.stored
  documents_before : s.documents.Pairwise Document.Before
  ids_nodup : s.ids.Nodup
  get?_eq : ∀ id, c.get? id = (s.get? id).map (entryOf options hook translator)
  first?_eq : ∀ owner kind,
    c.first? owner kind = (s.firstForOwner? owner kind).map (entryOf options hook translator)
  /-- The text of a document is its translated arch compiled. -/
  output : ∀ d ∈ s.stored, ∀ lang, ∃ text,
    compile options.compiler hook
      (d.arch.translate (translator (options.spoken lang) d.id)) = .ok text ∧
    (entryOf options hook translator d).output? lang = some text

/-- Entries of the documents on the list are found like the documents. -/
theorem agrees_of_stage {s : Store} {c : Catalog} (hs : s.Sound)
    (huncompiled : uncompiledIn options hook translator s.documents = [])
    (hc : c.stage = .ready (.ofEntries (entriesIn options hook translator s.documents))) :
    Agrees options hook translator s c := by
  obtain ⟨htexts, hentries⟩ := entriesIn_eq huncompiled
  have hdocuments : c.documents = s.documents.map (entryOf options hook translator) := by
    rw [Catalog.documents, hc, hentries]
    exact Directory.ordered_ofEntries
  have hids : (s.documents.map (·.id)).Nodup :=
    (s.documents_perm.map _).nodup_iff.2 hs.ids_nodup
  have hfiled : ((s.documents.map (entryOf options hook translator)).map (·.id)).Nodup := by
    rw [List.map_map]
    exact hids
  refine
    { documents_eq := hdocuments
      documents_perm := s.documents_perm
      documents_before := hs.documents_before
      ids_nodup := hs.ids_nodup
      get?_eq := fun id => ?_
      first?_eq := fun owner kind => ?_
      output := fun d hd lang => ?_ }
  · rw [Catalog.get?, hc, hentries]
    refine (Directory.get?_byId_of_nodup hfiled id).trans ?_
    rw [List.find?_map, Store.get?, ← find?_eq_of_perm s.documents_perm hids]
    rfl
  · rw [Catalog.first?, hc, hentries]
    refine (Directory.get?_byOwner _ owner kind).trans ?_
    rw [List.find?_map, hs.firstForOwner?_eq_find?]
    rfl
  · obtain ⟨texts, hcompiled⟩ := htexts d (s.documents_perm.mem_iff.2 hd)
    exact exists_text hcompiled lang

/-- **A bootstrapped catalog answers like the resolved store.** -/
theorem bootstrap_agrees (options : CatalogOptions) (hook : FieldHook) (calls : List Call)
    (translator : Translator) (summary : BootstrapSummary)
    (h : (((new options hook).after calls).call (.bootstrap translator)).1 =
      .bootstrapped summary) :
    Agrees options hook translator (resolvedFrom options (stock (sinceReset calls)))
      (((new options hook).after calls).call (.bootstrap translator)).2 := by
  obtain ⟨hoptions, hhook⟩ := (new options hook).after_options calls
  generalize hafter : (new options hook).after calls = c at *
  obtain rfl : c.options = options := hoptions
  obtain rfl : c.hook = hook := hhook
  have hresolved : (resolvedFrom c.options (stock (sinceReset calls))).Sound :=
    ((attained_stock _).resolve _).sound
  cases hrefusal : c.refusal? with
  | some refusal =>
      -- a catalog that has been bootstrapped before fails
      rcases refusal?_eq_some.1 hrefusal with ⟨_, _, hc⟩ | ⟨_, _, hc⟩
      · simp [call_bootstrap_ready hc] at h
      · simp [call_bootstrap_failed hc] at h
  | none =>
      have hc := stage_of_refusal?_eq_none calls (by rw [hafter, hrefusal])
      rw [hafter] at hc
      rcases call_bootstrap_cases hc translator with
        ⟨_, heq⟩ | ⟨_, _, heq⟩ | ⟨_, huncompiled, _, heq⟩
      · simp [heq] at h
      · simp [heq] at h
      · rw [heq]
        exact agrees_of_stage hresolved huncompiled rfl

/-- A card, and an offer made from it that comes first on the list. -/
def offers : List Call :=
  [.loadSource "<template id=\"card\"><p>New</p></template>",
    .loadSource ("<template inherit_id=\"card\" id=\"offer\" priority=\"8\">" ++
      "<xpath expr=\"/p\" position=\"after\"><b/></xpath></template>")]

/-- German, which is named twice, and English. -/
def bilingual : CatalogOptions := { languages := ["de", "en", "de"] }

/-- Knows one word of German. -/
def german : Translator := fun lang _ source =>
  if lang = "de" && source = "New" then "Neu" else source

/-- The catalog of the card and the offer answers in German when it is asked for French. -/
theorem offers_agree :
    ∃ summary, (((new bilingual .none).after offers).call (.bootstrap german)).1 =
        .bootstrapped summary ∧
      Agrees bilingual .none german (resolvedFrom bilingual (stock (sinceReset offers)))
        (((new bilingual .none).after offers).call (.bootstrap german)).2 ∧
      (resolvedFrom bilingual (stock offers)).ids = ["card", "offer"] ∧
      bilingual.spoken "fr" = "de" := by
  have hfound : foundIn bilingual (stock offers) (recorded .empty offers) = [] := by
    decide +kernel
  have hstored : uncompiledIn bilingual .none german
      (resolvedFrom bilingual (stock offers)).stored = [] := by
    decide +kernel
  have huncompiled : uncompiledIn bilingual .none german
      (resolvedFrom bilingual (stock offers)).documents = [] := by
    have hperm := (resolvedFrom bilingual (stock offers)).documents_perm.filterMap fun d =>
      (errorOf? (compileDocument bilingual.compiler .none german d.id d.arch
        bilingual.effectiveLanguages)).map (BootstrapError.compile d.id)
    exact (hperm.trans (.of_eq hstored)).eq_nil
  obtain ⟨hoptions, hhook⟩ := (new bilingual .none).after_options offers
  rcases call_bootstrap_cases (@stage_of_loading bilingual .none offers (by decide)) german with
    ⟨h, _⟩ | ⟨_, h, _⟩ | ⟨_, _, summary, heq⟩
  · rw [hoptions] at h
    exact absurd hfound h
  · rw [hoptions, hhook] at h
    exact absurd huncompiled h
  · have hanswer := congrArg Prod.fst heq
    exact ⟨summary, hanswer, bootstrap_agrees bilingual .none offers german summary hanswer,
      by decide +kernel, by decide⟩

end Catalog

end ViewCompiler
