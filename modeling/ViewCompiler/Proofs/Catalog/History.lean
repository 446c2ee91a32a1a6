/-
**What a catalog remembers of the calls to it.**

A catalog is called again and again: fragments are loaded, it is bootstrapped, asked for documents,
and reset.  What it answers depends on the calls since the last reset alone, and among those on the
ones up to the first bootstrap: they say which fragments were taken in and which errors were found,
and the bootstrap settles the rest.  An error that is found while a fragment is loaded is kept for
the bootstrap, which fails because of it; a bootstrap that has failed goes on failing with the same
errors.

Main definitions:

* `ViewCompiler.Catalog.Call`, `ViewCompiler.Catalog.Answer`, `ViewCompiler.Catalog.call` — calls
  and answers;
* `ViewCompiler.Catalog.outcomesOf` — what becomes of the fragments of a call, one by one;
* `ViewCompiler.Catalog.stock`, `ViewCompiler.Catalog.recorded` — what loading takes in, and the
  errors that it finds;
* `ViewCompiler.Catalog.Loading`, `ViewCompiler.Catalog.Failed`, `ViewCompiler.Catalog.Serving` —
  how a catalog answers before its first bootstrap, after one that has failed, and after one that
  has not.

Main results:

* `ViewCompiler.Catalog.after_eq_after_sinceReset` — what was before a reset is forgotten;
* `ViewCompiler.Catalog.after_loads` — loading adds up;
* `ViewCompiler.Catalog.chronicle` — **a catalog answers by its history**.
-/

import Mathlib.Data.List.Induction
import Mathlib.Data.List.TakeWhile
import ViewCompiler.Catalog.Stage
import ViewCompiler.Proofs.Inheritance.Listing

set_option relaxedAutoImplicit false
set_option autoImplicit false

namespace ViewCompiler

/-! ### Outcomes of loading -/

namespace Store

variable {ι : Type}

/-- What becomes of a fragment. -/
def outcome (s : Store) (e : Element ι) : Except LoadError Loaded :=
  (s.load e).map (·.1)

/-- The store after a fragment; one that cannot be taken in changes nothing. -/
def afterLoad (s : Store) (e : Element ι) : Store :=
  match s.load e with
  | .ok (_, t) => t
  | .error _ => s

/-- What becomes of fragments, each in the store that the ones before it have left. -/
def outcomes (s : Store) : List (Element ι) → List (Except LoadError Loaded)
  | [] => []
  | e :: more => s.outcome e :: (s.afterLoad e).outcomes more

theorem length_outcomes (s : Store) (es : List (Element ι)) :
    (s.outcomes es).length = es.length := by
  induction es generalizing s with
  | nil => rfl
  | cons e more ih => simp [outcomes, ih]

theorem loadEach_eq (s : Store) (es : List (Element ι)) :
    s.loadEach es = ((s.outcomes es).filterMap (·.toOption),
      (s.outcomes es).filterMap errorOf?, es.foldl afterLoad s) := by
  induction es generalizing s with
  | nil => rfl
  | cons e more ih =>
      cases h : s.load e with
      | error error =>
          simp [loadEach, outcomes, outcome, afterLoad, h, ih, Except.map, Except.toOption,
            errorOf?]
      | ok result =>
          simp [loadEach, outcomes, outcome, afterLoad, h, ih, List.filterMap_cons, Except.map,
            Except.toOption, errorOf?]

theorem Attained.afterLoad {s : Store} (hs : s.Attained) (e : Element ι) :
    (s.afterLoad e).Attained := by
  unfold Store.afterLoad
  split
  · next h => exact hs.load h
  · exact hs

end Store

/-- An outcome is a value or an error. -/
theorem length_filterMap_outcomes {ε α : Type} (outcomes : List (Except ε α)) :
    (outcomes.filterMap (·.toOption)).length + (outcomes.filterMap errorOf?).length =
      outcomes.length := by
  induction outcomes with
  | nil => rfl
  | cons x more ih =>
      rw [List.length_cons, ← ih]
      cases x with
      | error e => rfl
      | ok a => exact Nat.add_right_comm _ 1 _

namespace Catalog

/-! ### Calls and answers -/

/-- A call to a catalog. -/
inductive Call where
  | loadSource (source : String)
  | load (document : Tree)
  | bootstrap (translator : Translator)
  | get (id : DocumentId)
  | first (owner : Owner) (kind : ViewKind)
  | documents
  | reset

namespace Call

/-- The call hands fragments to the catalog. -/
def isLoad : Call → Bool
  | loadSource _ | load _ => true
  | _ => false

def isBootstrap : Call → Bool
  | bootstrap _ => true
  | _ => false

/-- The call asks for documents. -/
def isLookUp : Call → Bool
  | get _ | first _ _ | documents => true
  | _ => false

def isReset : Call → Bool
  | reset => true
  | _ => false

/-- The fragments that a call hands to the catalog, unless its source is no document. -/
def fragments : Call → Except ParseError (List (Element NodeId))
  | loadSource source => (parse source).map fun t => t.content.fragments
  | load t => .ok t.content.fragments
  | _ => .ok []

end Call

/-- What a call answers. -/
inductive Answer where
  | loaded (items : List Loaded)
  | refused (refusal : CatalogRefusal)
  | bootstrapped (summary : BootstrapSummary)
  | failed (errors : List BootstrapError)
  | found (document : Option CompiledDocument)
  | listed (documents : List CompiledDocument)
  | done

/-- No document is given. -/
def Answer.isNothing : Answer → Bool
  | found none | listed [] => true
  | _ => false

/-- The answer to fragments; a catalog that refuses them stays as it is. -/
def answerLoad (c : Catalog) :
    Except CatalogRefusal (List Loaded × Catalog) → Answer × Catalog
  | .ok (items, c) => (.loaded items, c)
  | .error refusal => (.refused refusal, c)

/-- The answer to a bootstrap. -/
def answerBootstrap :
    Except (List BootstrapError) BootstrapSummary × Catalog → Answer × Catalog
  | (.ok summary, c) => (.bootstrapped summary, c)
  | (.error errors, c) => (.failed errors, c)

/-- The answer to a call, and the catalog after it. -/
def call (c : Catalog) : Call → Answer × Catalog
  | .loadSource source => c.answerLoad (c.loadSource source)
  | .load t => c.answerLoad (c.load t.content)
  | .bootstrap translator => answerBootstrap (c.bootstrap translator)
  | .get id => (.found (c.get? id), c)
  | .first owner kind => (.found (c.first? owner kind), c)
  | .documents => (.listed c.documents, c)
  | .reset => (.done, c.reset)

/-- The catalog after calls. -/
def after (c : Catalog) (calls : List Call) : Catalog :=
  calls.foldl (fun c x => (c.call x).2) c

theorem after_append (c : Catalog) (calls more : List Call) :
    c.after (calls ++ more) = (c.after calls).after more :=
  List.foldl_append

/-! ### What loading takes in -/

/-- What becomes of the fragments of a call, one by one.  A source that is no document counts as
one fragment that cannot be taken in. -/
def outcomesOf (s : Store) (x : Call) : List (Except BootstrapError Loaded) :=
  match x.fragments with
  | .ok es => (s.outcomes es).map (·.mapError .load)
  | .error e => [.error (.parse e)]

/-- The fragments of a call that are taken in. -/
def loadedBy (s : Store) (x : Call) : List Loaded :=
  (outcomesOf s x).filterMap (·.toOption)

/-- The errors that are found in the fragments of a call. -/
def faultsOf (s : Store) (x : Call) : List BootstrapError :=
  (outcomesOf s x).filterMap errorOf?

/-- The store after a call. -/
def stockAfter (s : Store) (x : Call) : Store :=
  match x.fragments with
  | .ok es => es.foldl Store.afterLoad s
  | .error _ => s

/-- What calls have taken in. -/
def stock (calls : List Call) : Store :=
  calls.foldl stockAfter .empty

/-- The errors that are found in the fragments of calls, in the order of the calls. -/
def recorded (s : Store) : List Call → List BootstrapError
  | [] => []
  | x :: more => faultsOf s x ++ recorded (stockAfter s x) more

/-- What becomes of fragments, the errors seen as errors of a bootstrap. -/
theorem filterMap_mapError {ε δ α : Type} (f : ε → δ) (outcomes : List (Except ε α)) :
    (outcomes.map (·.mapError f)).filterMap (·.toOption) = outcomes.filterMap (·.toOption) ∧
      (outcomes.map (·.mapError f)).filterMap errorOf? = (outcomes.filterMap errorOf?).map f := by
  induction outcomes with
  | nil => exact ⟨rfl, rfl⟩
  | cons x more ih =>
      obtain ⟨hvalues, herrors⟩ := ih
      cases x with
      | error e => exact ⟨hvalues, congrArg (f e :: ·) herrors⟩
      | ok a => exact ⟨congrArg (a :: ·) hvalues, herrors⟩

theorem loadedBy_of_ok {s : Store} {x : Call} {es : List (Element NodeId)}
    (h : x.fragments = .ok es) : loadedBy s x = (s.outcomes es).filterMap (·.toOption) := by
  simp only [loadedBy, outcomesOf, h]
  exact (filterMap_mapError _ _).1

theorem faultsOf_of_ok {s : Store} {x : Call} {es : List (Element NodeId)}
    (h : x.fragments = .ok es) :
    faultsOf s x = ((s.outcomes es).filterMap errorOf?).map .load := by
  simp only [faultsOf, outcomesOf, h]
  exact (filterMap_mapError _ _).2

/-- Every fragment is taken in, or there is an error for it. -/
theorem length_loadedBy_add {s : Store} {x : Call} {es : List (Element NodeId)}
    (h : x.fragments = .ok es) :
    (loadedBy s x).length + (faultsOf s x).length = es.length := by
  rw [loadedBy, faultsOf, length_filterMap_outcomes, outcomesOf, h, List.length_map,
    Store.length_outcomes]

/-- In a source that is no document there is nothing to take in, and one error. -/
theorem loadedBy_of_error {s : Store} {x : Call} {e : ParseError} (h : x.fragments = .error e) :
    loadedBy s x = [] ∧ faultsOf s x = [.parse e] := by
  simp only [loadedBy, faultsOf, outcomesOf, h]
  exact ⟨rfl, rfl⟩

theorem recorded_append (s : Store) (calls more : List Call) :
    recorded s (calls ++ more) =
      recorded s calls ++ recorded (calls.foldl stockAfter s) more := by
  induction calls generalizing s with
  | nil => rfl
  | cons x calls ih => simp [recorded, ih]

/-! ### A catalog that takes in fragments -/

variable {c : Catalog} {s : Store} {errors : List BootstrapError}

/-- Loading answers with what was taken in and keeps the errors. -/
theorem call_load (hc : c.stage = .loading s errors) {x : Call} (hx : x.isLoad = true) :
    c.call x = (.loaded (loadedBy s x),
      { c with stage := .loading (stockAfter s x) (errors ++ faultsOf s x) }) := by
  have hdocument : ∀ (x : Call) (f : Forest NodeId), x.fragments = .ok f.fragments →
      c.load f = .ok (loadedBy s x,
        { c with stage := .loading (stockAfter s x) (errors ++ faultsOf s x) }) := by
    intro x f hf
    rw [loadedBy_of_ok hf, faultsOf_of_ok hf, stockAfter, hf]
    simp only [Catalog.load, hc, Store.loadEach_eq]
  cases x with
  | load t =>
      simp only [call, hdocument (.load t) t.content rfl, answerLoad]
  | loadSource source =>
      cases hparse : parse source with
      | ok t =>
          have hf : (Call.loadSource source).fragments = .ok t.content.fragments := by
            simp [Call.fragments, hparse, Except.map]
          simp only [call, Catalog.loadSource, hparse, hdocument _ t.content hf, answerLoad]
      | error e =>
          have hf : (Call.loadSource source).fragments = .error e := by
            simp [Call.fragments, hparse, Except.map]
          obtain ⟨hloaded, hfaults⟩ := loadedBy_of_error (s := s) hf
          simp only [call, Catalog.loadSource, hparse, hc, answerLoad, hloaded, hfaults,
            stockAfter, hf]
  | bootstrap | get | first | documents | reset => cases hx

/-- Being asked for documents changes nothing. -/
theorem call_lookUp (c : Catalog) {x : Call} (hx : x.isLookUp = true) : (c.call x).2 = c := by
  cases x with
  | get | first | documents => rfl
  | loadSource | load | bootstrap | reset => cases hx

/-- A catalog that is not bootstrapped gives nothing. -/
theorem isNothing_lookUp (hc : c.isReady = false) {x : Call} (hx : x.isLookUp = true) :
    (c.call x).1.isNothing = true := by
  unfold isReady at hc
  split at hc
  · cases hc
  · cases x with
    | get id => simp [call, Catalog.get?, Answer.isNothing]
    | first owner kind => simp [call, Catalog.first?, Answer.isNothing]
    | documents => simp [call, Catalog.documents, Answer.isNothing]
    | loadSource | load | bootstrap | reset => cases hx

theorem Call.fragments_of_not_load {x : Call} (h : x.isLoad = false) : x.fragments = .ok [] := by
  cases x with
  | loadSource | load => cases h
  | bootstrap | get | first | documents | reset => rfl

/-- The calls of a catalog that takes in fragments: loading and looking up. -/
def Call.keepsLoading (x : Call) : Bool :=
  !x.isBootstrap && !x.isReset

theorem Call.load_or_lookUp {x : Call} (h : x.keepsLoading = true) :
    x.isLoad = true ∨ x.isLookUp = true := by
  cases x with
  | loadSource | load => exact .inl rfl
  | get | first | documents => exact .inr rfl
  | bootstrap | reset => cases h

/-- **Loading adds up**: what was taken in, and the errors in the order of the calls. -/
theorem after_loads (hc : c.stage = .loading s errors) {loads : List Call}
    (h : ∀ x ∈ loads, x.keepsLoading = true) :
    c.after loads =
      { c with stage := .loading (loads.foldl stockAfter s) (errors ++ recorded s loads) } := by
  induction loads generalizing c s errors with
  | nil => simp [after, recorded, ← hc]
  | cons x more ih =>
      obtain ⟨hx, hmore⟩ := List.forall_mem_cons.1 h
      have hstep : (c.call x).2 =
          { c with stage := .loading (stockAfter s x) (errors ++ faultsOf s x) } := by
        cases hload : x.isLoad with
        | true => rw [call_load hc hload]
        | false =>
            have hlookUp : x.isLookUp = true := by simpa [hload] using Call.load_or_lookUp hx
            have hnone := Call.fragments_of_not_load hload
            rw [call_lookUp c hlookUp, faultsOf_of_ok hnone, stockAfter, hnone]
            simp [Store.outcomes, ← hc]
      have hafter : c.after (x :: more) = (c.call x).2.after more := rfl
      rw [hafter, hstep, ih rfl hmore, recorded, List.append_assoc, List.foldl_cons]

/-! ### A catalog that does not -/

/-- Why a catalog takes nothing in, if it does not. -/
def refusal? (c : Catalog) : Option CatalogRefusal :=
  match c.stage with
  | .loading _ _ => none
  | .ready _ => some .alreadyBootstrapped
  | .failed _ => some .bootstrapFailed

theorem refusal?_eq_some {refusal : CatalogRefusal} : c.refusal? = some refusal ↔
    (refusal = .alreadyBootstrapped ∧ ∃ directory, c.stage = .ready directory) ∨
      (refusal = .bootstrapFailed ∧ ∃ errors, c.stage = .failed errors) := by
  unfold refusal?
  cases c.stage <;> simp [eq_comm]

theorem refusal?_eq_none : c.refusal? = none ↔ ∃ s errors, c.stage = .loading s errors := by
  unfold refusal?
  cases c.stage <;> simp

/-- Fragments are refused, and so is a source that is no document. -/
theorem call_load_refused {refusal : CatalogRefusal} (hc : c.refusal? = some refusal) {x : Call}
    (hx : x.isLoad = true) : c.call x = (.refused refusal, c) := by
  rcases refusal?_eq_some.1 hc with ⟨rfl, _, hstage⟩ | ⟨rfl, _, hstage⟩
  all_goals
    cases x with
    | load t => simp only [call, Catalog.load, hstage, answerLoad]
    | loadSource source =>
        simp only [call, Catalog.loadSource, Catalog.load, hstage]
        cases parse source <;> rfl
    | bootstrap | get | first | documents | reset => cases hx

theorem call_bootstrap_failed (hc : c.stage = .failed errors) (translator : Translator) :
    c.call (.bootstrap translator) = (.failed errors, c) := by
  simp only [call, Catalog.bootstrap, hc, answerBootstrap]

theorem call_bootstrap_ready {directory : Directory} (hc : c.stage = .ready directory)
    (translator : Translator) :
    c.call (.bootstrap translator) = (.failed [.refused .alreadyBootstrapped], c) := by
  simp only [call, Catalog.bootstrap, hc, answerBootstrap]

/-- Once bootstrapped, a catalog stays as it is until it is reset. -/
theorem call_of_refusal {refusal : CatalogRefusal} (hc : c.refusal? = some refusal) {x : Call}
    (hx : x.isReset = false) : (c.call x).2 = c := by
  cases x with
  | loadSource | load => rw [call_load_refused hc rfl]
  | get | first | documents => rfl
  | reset => cases hx
  | bootstrap translator =>
      rcases refusal?_eq_some.1 hc with ⟨_, _, hstage⟩ | ⟨_, _, hstage⟩
      · rw [call_bootstrap_ready hstage]
      · rw [call_bootstrap_failed hstage]

theorem after_of_refusal {refusal : CatalogRefusal} (hc : c.refusal? = some refusal)
    {later : List Call} (h : ∀ x ∈ later, x.isReset = false) : c.after later = c := by
  induction later with
  | nil => rfl
  | cons x more ih =>
      obtain ⟨hx, hmore⟩ := List.forall_mem_cons.1 h
      have hstep : c.after (x :: more) = (c.call x).2.after more := rfl
      rw [hstep, call_of_refusal hc hx, ih hmore]

/-! ### The first bootstrap -/

/-- The errors that are found before anything is compiled: those of loading, then those of
resolving. -/
def foundIn (options : CatalogOptions) (s : Store) (errors : List BootstrapError) :
    List BootstrapError :=
  errors ++ (s.resolve options.resolver).1.errors.map .ofResolveError

/-- The documents of a store as a bootstrap finds them, in the order of the list. -/
def resolvedFrom (options : CatalogOptions) (s : Store) : Store :=
  (s.resolve options.resolver).2

/-- One error for each document that does not compile. -/
def uncompiledIn (options : CatalogOptions) (hook : FieldHook) (translator : Translator)
    (ds : List Document) : List BootstrapError :=
  ds.filterMap fun d =>
    (errorOf? (compileDocument options.compiler hook translator d.id d.arch
      options.effectiveLanguages)).map (.compile d.id)

theorem uncompiledIn_cons (options : CatalogOptions) (hook : FieldHook)
    (translator : Translator) (d : Document) (more : List Document) :
    uncompiledIn options hook translator (d :: more) =
      ((errorOf? (compileEntry options hook translator d)).map (.compile d.id)).toList ++
        uncompiledIn options hook translator more := by
  have herror : errorOf? (compileEntry options hook translator d) =
      errorOf? (compileDocument options.compiler hook translator d.id d.arch
        options.effectiveLanguages) := errorOf?_map _ _
  rw [uncompiledIn, List.filterMap_cons, ← herror]
  cases compileEntry options hook translator d <;> rfl

/-- The entries of the documents that compile. -/
def entriesIn (options : CatalogOptions) (hook : FieldHook) (translator : Translator)
    (ds : List Document) : List CompiledDocument :=
  ds.filterMap fun d => (compileEntry options hook translator d).toOption

/-- Every document gives an entry, or there is an error for it. -/
theorem compileEntries_eq (options : CatalogOptions) (hook : FieldHook) (translator : Translator)
    (ds : List Document) :
    compileEntries options hook translator ds =
      (uncompiledIn options hook translator ds, entriesIn options hook translator ds) := by
  induction ds with
  | nil => rfl
  | cons d more ih =>
      rw [uncompiledIn_cons, entriesIn, List.filterMap_cons, ← entriesIn]
      cases h : compileEntry options hook translator d <;>
        simp [compileEntries, h, ih, Except.toOption, errorOf?]

/-- **The first bootstrap** fails with the errors of loading and resolving, if there are any, then
with those of compiling, if there are any, and otherwise succeeds. -/
theorem call_bootstrap_cases (hc : c.stage = .loading s errors) (translator : Translator) :
    (foundIn c.options s errors ≠ [] ∧ c.call (.bootstrap translator) =
        (.failed (foundIn c.options s errors),
          { c with stage := .failed (foundIn c.options s errors) })) ∨
      (foundIn c.options s errors = [] ∧
        uncompiledIn c.options c.hook translator (resolvedFrom c.options s).documents ≠ [] ∧
        c.call (.bootstrap translator) =
          (.failed (uncompiledIn c.options c.hook translator (resolvedFrom c.options s).documents),
            { c with stage := .failed (uncompiledIn c.options c.hook translator
              (resolvedFrom c.options s).documents) })) ∨
      (foundIn c.options s errors = [] ∧
        uncompiledIn c.options c.hook translator (resolvedFrom c.options s).documents = [] ∧
        ∃ summary, c.call (.bootstrap translator) =
          (.bootstrapped summary,
            { c with stage := .ready (.ofEntries (entriesIn c.options c.hook translator
              (resolvedFrom c.options s).documents)) })) := by
  have hresolved : (s.resolve c.options.resolver).2 = resolvedFrom c.options s := rfl
  have hfoundIn : errors ++ (s.resolve c.options.resolver).1.errors.map .ofResolveError =
      foundIn c.options s errors := rfl
  simp only [call, Catalog.bootstrap, hc, hresolved, hfoundIn, compileEntries_eq]
  cases foundIn c.options s errors with
  | cons e more => exact .inl ⟨by simp, rfl⟩
  | nil =>
      right
      cases uncompiledIn c.options c.hook translator (resolvedFrom c.options s).documents with
      | cons e more => exact .inl ⟨rfl, by simp, rfl⟩
      | nil => exact .inr ⟨rfl, rfl, _, rfl⟩

/-! ### Resets -/

/-- The calls since the last reset. -/
def sinceReset (calls : List Call) : List Call :=
  (calls.reverse.takeWhile fun x => !x.isReset).reverse

theorem sinceReset_append_singleton (calls : List Call) (x : Call) :
    sinceReset (calls ++ [x]) = if x.isReset then [] else sinceReset calls ++ [x] := by
  cases hx : x.isReset <;> simp [sinceReset, hx]

theorem isReset_of_mem_sinceReset {calls : List Call} {x : Call} (hx : x ∈ sinceReset calls) :
    x.isReset = false := by
  simpa using List.mem_takeWhile_imp (List.mem_reverse.1 hx)

/-- No call changes what a catalog goes by. -/
theorem call_options (c : Catalog) (x : Call) :
    (c.call x).2.options = c.options ∧ (c.call x).2.hook = c.hook := by
  cases hreset : x.isReset with
  | true =>
      cases x with
      | reset => exact ⟨rfl, rfl⟩
      | loadSource | load | bootstrap | get | first | documents => cases hreset
  | false =>
      cases hrefusal : c.refusal? with
      | some refusal => simp [call_of_refusal hrefusal hreset]
      | none =>
          obtain ⟨s, errors, hc⟩ := refusal?_eq_none.1 hrefusal
          cases x with
          | loadSource | load =>
              rw [call_load hc rfl]
              exact ⟨rfl, rfl⟩
          | get | first | documents => exact ⟨rfl, rfl⟩
          | reset => cases hreset
          | bootstrap translator =>
              rcases call_bootstrap_cases hc translator with
                ⟨_, heq⟩ | ⟨_, _, heq⟩ | ⟨_, _, _, heq⟩ <;> simp [heq]

theorem after_options (c : Catalog) (calls : List Call) :
    (c.after calls).options = c.options ∧ (c.after calls).hook = c.hook := by
  induction calls generalizing c with
  | nil => exact ⟨rfl, rfl⟩
  | cons x more ih =>
      obtain ⟨hoptions, hhook⟩ := ih (c.call x).2
      obtain ⟨hoptions', hhook'⟩ := c.call_options x
      exact ⟨hoptions.trans hoptions', hhook.trans hhook'⟩

/-- **What was before a reset is forgotten.** -/
theorem after_eq_after_sinceReset (options : CatalogOptions) (hook : FieldHook)
    (calls : List Call) :
    (new options hook).after calls = (new options hook).after (sinceReset calls) := by
  induction calls using List.reverseRecOn with
  | nil => rfl
  | append_singleton calls x ih =>
      rw [sinceReset_append_singleton]
      cases hreset : x.isReset with
      | false => rw [after_append, ih, if_neg Bool.false_ne_true, after_append]
      | true =>
          obtain ⟨hoptions, hhook⟩ := (new options hook).after_options calls
          rw [after_append, if_pos rfl]
          cases x with
          | reset =>
              calc ((new options hook).after calls).reset
                _ = new ((new options hook).after calls).options
                      ((new options hook).after calls).hook := rfl
                _ = new options hook := by rw [hoptions, hhook]; rfl
          | loadSource | load | bootstrap | get | first | documents => cases hreset

/-- After loading since the last reset, and nothing else but looking up, a catalog holds what
loading has taken in. -/
theorem stage_of_loading (options : CatalogOptions) (hook : FieldHook) {loads : List Call}
    (h : ∀ x ∈ loads, x.keepsLoading = true) :
    ((new options hook).after loads).stage = .loading (stock loads) (recorded .empty loads) :=
  congrArg stage (after_loads (c := new options hook) rfl h)

/-! ### The history of a catalog -/

/-- The answer to the first bootstrap after loading calls.  Errors of loading stand in the order of
the calls, and those of resolving behind them; errors of compiling stand in the order of the
list. -/
structure Verdict (options : CatalogOptions) (hook : FieldHook) (loads : List Call)
    (translator : Translator) (answer : Answer) : Prop where
  faulty : foundIn options (stock loads) (recorded .empty loads) ≠ [] →
    answer = .failed (foundIn options (stock loads) (recorded .empty loads))
  uncompiled : foundIn options (stock loads) (recorded .empty loads) = [] →
    uncompiledIn options hook translator (resolvedFrom options (stock loads)).documents ≠ [] →
    answer = .failed
      (uncompiledIn options hook translator (resolvedFrom options (stock loads)).documents)
  fine : foundIn options (stock loads) (recorded .empty loads) = [] →
    uncompiledIn options hook translator (resolvedFrom options (stock loads)).documents = [] →
    ∃ summary, answer = .bootstrapped summary
  /-- Every document is on the list. -/
  documents_perm : (resolvedFrom options (stock loads)).documents.Perm
    (resolvedFrom options (stock loads)).stored
  documents_before : (resolvedFrom options (stock loads)).documents.Pairwise Document.Before

/-- A catalog that has not been bootstrapped takes in fragments and gives no document. -/
structure Loading (options : CatalogOptions) (hook : FieldHook) (loads : List Call)
    (c : Catalog) : Prop where
  load : ∀ x, x.isLoad = true → (c.call x).1 = .loaded (loadedBy (stock loads) x)
  /-- Every fragment is taken in, or an error is recorded for it. -/
  account : ∀ x es, x.fragments = .ok es →
    (loadedBy (stock loads) x).length + (faultsOf (stock loads) x).length = es.length
  /-- For a source that is no document one error is recorded. -/
  unreadable : ∀ x e, x.fragments = .error e →
    loadedBy (stock loads) x = [] ∧ faultsOf (stock loads) x = [.parse e]
  /-- What is recorded stays recorded. -/
  records : ∀ x, recorded .empty (loads ++ [x]) = recorded .empty loads ++ faultsOf (stock loads) x
  lookUp : ∀ x, x.isLookUp = true → (c.call x).1.isNothing = true
  bootstrap : ∀ translator,
    Verdict options hook loads translator (c.call (.bootstrap translator)).1

/-- A catalog whose bootstrap has failed refuses fragments, goes on failing in the same way, and
gives no document. -/
structure Failed (errors : List BootstrapError) (c : Catalog) : Prop where
  load : ∀ x, x.isLoad = true → (c.call x).1 = .refused .bootstrapFailed
  bootstrap : ∀ translator, (c.call (.bootstrap translator)).1 = .failed errors
  lookUp : ∀ x, x.isLookUp = true → (c.call x).1.isNothing = true

/-- A catalog that is bootstrapped refuses fragments and bootstraps, and goes on giving the
documents that it had `first`. -/
structure Serving (first c : Catalog) : Prop where
  load : ∀ x, x.isLoad = true → (c.call x).1 = .refused .alreadyBootstrapped
  bootstrap : ∀ translator,
    (c.call (.bootstrap translator)).1 = .failed [.refused .alreadyBootstrapped]
  lookUp : ∀ x, x.isLookUp = true → (c.call x).1 = (first.call x).1

/-- How a catalog answers after calls. -/
structure Chronicle (options : CatalogOptions) (hook : FieldHook) (calls : List Call) : Prop where
  /-- Before the first bootstrap since the last reset. -/
  loading : (∀ x ∈ sinceReset calls, x.isBootstrap = false) →
    Loading options hook (sinceReset calls) ((new options hook).after calls)
  /-- After a first bootstrap that has failed. -/
  failed : ∀ loads translator later errors,
    sinceReset calls = loads ++ .bootstrap translator :: later →
    (∀ x ∈ loads, x.isBootstrap = false) →
    (((new options hook).after loads).call (.bootstrap translator)).1 = .failed errors →
    Failed errors ((new options hook).after calls)
  /-- After a first bootstrap that has succeeded. -/
  serving : ∀ loads translator later summary,
    sinceReset calls = loads ++ .bootstrap translator :: later →
    (∀ x ∈ loads, x.isBootstrap = false) →
    (((new options hook).after loads).call (.bootstrap translator)).1 = .bootstrapped summary →
    Serving (((new options hook).after loads).call (.bootstrap translator)).2
      ((new options hook).after calls)

/-- Loading leads to stores with their books in order. -/
theorem attained_stock (calls : List Call) : (stock calls).Attained := by
  have hcall : ∀ {s : Store} (x : Call), s.Attained → (stockAfter s x).Attained := by
    intro s x hs
    unfold stockAfter
    split
    · next es _ => exact List.foldlRecOn es _ hs fun t ht e _ => ht.afterLoad e
    · exact hs
  exact List.foldlRecOn calls _ .empty fun s hs x _ => hcall x hs

theorem loading_of_stage {options : CatalogOptions} {hook : FieldHook} {loads : List Call}
    {c : Catalog} (hoptions : c.options = options) (hhook : c.hook = hook)
    (hc : c.stage = .loading (stock loads) (recorded .empty loads)) :
    Loading options hook loads c := by
  subst hoptions hhook
  have hresolved : (resolvedFrom c.options (stock loads)).Sound :=
    ((attained_stock loads).resolve c.options.resolver).sound
  refine
    { load := fun x hx => by rw [call_load hc hx]
      account := fun x es hes => length_loadedBy_add hes
      unreadable := fun x e he => loadedBy_of_error he
      records := fun x => ?_
      lookUp := fun x hx => isNothing_lookUp (by simp [isReady, hc]) hx
      bootstrap := fun translator => ?_ }
  · rw [recorded_append]
    simp [recorded, stock]
  · rcases call_bootstrap_cases hc translator with
      ⟨hfound, heq⟩ | ⟨hfound, huncompiled, heq⟩ | ⟨hfound, huncompiled, summary, heq⟩
    · exact ⟨fun _ => by rw [heq], fun h => absurd h hfound, fun h => absurd h hfound,
        Store.documents_perm _, hresolved.documents_before⟩
    · exact ⟨fun h => absurd hfound h, fun _ _ => by rw [heq],
        fun _ h => absurd h huncompiled, Store.documents_perm _, hresolved.documents_before⟩
    · exact ⟨fun h => absurd hfound h, fun _ h => absurd huncompiled h,
        fun _ _ => ⟨summary, by rw [heq]⟩, Store.documents_perm _, hresolved.documents_before⟩

theorem failed_of_stage (hc : c.stage = .failed errors) : Failed errors c where
  load x hx := by
    have hrefusal : c.refusal? = some .bootstrapFailed :=
      refusal?_eq_some.2 (.inr ⟨rfl, errors, hc⟩)
    rw [call_load_refused hrefusal hx]
  bootstrap translator := by rw [call_bootstrap_failed hc]
  lookUp x hx := isNothing_lookUp (by simp [isReady, hc]) hx

theorem serving_of_stage {directory : Directory} (hc : c.stage = .ready directory) :
    Serving c c where
  load x hx := by
    have hrefusal : c.refusal? = some .alreadyBootstrapped :=
      refusal?_eq_some.2 (.inl ⟨rfl, directory, hc⟩)
    rw [call_load_refused hrefusal hx]
  bootstrap translator := by rw [call_bootstrap_ready hc]
  lookUp x hx := rfl

/-- The first bootstrap settles how a catalog stands. -/
theorem stage_of_bootstrap (hc : c.stage = .loading s errors) {translator : Translator} :
    (∀ faults, (c.call (.bootstrap translator)).1 = .failed faults →
        (c.call (.bootstrap translator)).2.stage = .failed faults) ∧
      ∀ summary, (c.call (.bootstrap translator)).1 = .bootstrapped summary →
        (c.call (.bootstrap translator)).2.stage =
          .ready (.ofEntries
            (entriesIn c.options c.hook translator (resolvedFrom c.options s).documents)) := by
  rcases call_bootstrap_cases hc translator with
    ⟨_, heq⟩ | ⟨_, _, heq⟩ | ⟨_, _, _, heq⟩ <;> simp [heq]

/-- **A catalog answers by its history**: by the calls since the last reset, and among those by the
ones up to the first bootstrap. -/
theorem chronicle (options : CatalogOptions) (hook : FieldHook) (calls : List Call) :
    Chronicle options hook calls := by
  obtain ⟨hoptions, hhook⟩ := (new options hook).after_options calls
  rw [after_eq_after_sinceReset] at hoptions hhook
  have hresets : ∀ x ∈ sinceReset calls, x.isReset = false := fun _ => isReset_of_mem_sinceReset
  -- up to the first bootstrap there is only loading and looking up
  have hloads : ∀ loads : List Call, (∀ x ∈ loads, x ∈ sinceReset calls) →
      (∀ x ∈ loads, x.isBootstrap = false) →
      ((new options hook).after loads).stage = .loading (stock loads) (recorded .empty loads) := by
    intro loads hmem hloads
    refine stage_of_loading options hook fun x hx => ?_
    simp [Call.keepsLoading, hloads x hx, hresets x (hmem x hx)]
  -- and after it the catalog stays as it is
  have hlater : ∀ loads translator later refusal,
      sinceReset calls = loads ++ .bootstrap translator :: later →
      (((new options hook).after loads).call (.bootstrap translator)).2.refusal? = some refusal →
      (new options hook).after calls =
        (((new options hook).after loads).call (.bootstrap translator)).2 := by
    intro loads translator later refusal hsplit hrefusal
    have hreset : ∀ x ∈ later, x.isReset = false := by
      intro x hx
      refine hresets x ?_
      rw [hsplit]
      exact List.mem_append_right _ (List.mem_cons_of_mem _ hx)
    rw [after_eq_after_sinceReset, hsplit, after_append]
    exact after_of_refusal hrefusal hreset
  refine ⟨fun hbootstrap => ?_, ?_, ?_⟩
  · rw [after_eq_after_sinceReset]
    exact loading_of_stage hoptions hhook (hloads _ (fun _ => id) hbootstrap)
  · intro loads translator later errors hsplit hbootstrap hanswer
    have hstage := (stage_of_bootstrap (hloads loads (by simp +contextual [hsplit]) hbootstrap)).1
      errors hanswer
    rw [hlater loads translator later .bootstrapFailed hsplit
      (refusal?_eq_some.2 (.inr ⟨rfl, errors, hstage⟩))]
    exact failed_of_stage hstage
  · intro loads translator later summary hsplit hbootstrap hanswer
    have hstage := (stage_of_bootstrap (hloads loads (by simp +contextual [hsplit]) hbootstrap)).2
      summary hanswer
    rw [hlater loads translator later .alreadyBootstrapped hsplit
      (refusal?_eq_some.2 (.inl ⟨rfl, _, hstage⟩))]
    exact serving_of_stage hstage

/-- A source that breaks off makes the bootstrap fail, and every later one, whatever is loaded in
between. -/
theorem brokenSource_chronicle :
    (((new {} .none).after [.loadSource "<x", .documents]).call (.bootstrap .identity)).1 =
        .failed [.parse ⟨.unterminatedTag, 0⟩] ∧
      Failed [.parse ⟨.unterminatedTag, 0⟩] ((new {} .none).after
        [.loadSource "<view", .reset, .loadSource "<x", .documents, .bootstrap .identity,
          .loadSource "<template id=\"a\"><p/></template>"]) := by
  have hsince : sinceReset [.loadSource "<x", .documents] = [.loadSource "<x", .documents] := rfl
  have hfound : foundIn {} (stock [.loadSource "<x", .documents])
      (recorded .empty [.loadSource "<x", .documents]) = [.parse ⟨.unterminatedTag, 0⟩] := by
    decide +kernel
  have hverdict := ((chronicle {} .none [.loadSource "<x", .documents]).loading
    (by simp [hsince, Call.isBootstrap])).bootstrap .identity
  rw [hsince] at hverdict
  have hanswer := hverdict.faulty (by simp [hfound])
  rw [hfound] at hanswer
  refine ⟨hanswer, ?_⟩
  exact (chronicle {} .none _).failed [.loadSource "<x", .documents] .identity
    [.loadSource "<template id=\"a\"><p/></template>"] _ rfl (by simp [Call.isBootstrap]) hanswer

end Catalog

end ViewCompiler
