/-
**Compiled documents.**

Every document is compiled in all languages of the catalog.  Asked for another language, a
compiled document answers with its first one.

Main definitions:

* `ViewCompiler.CatalogOptions`, `ViewCompiler.CatalogOptions.effectiveLanguages` — what a catalog
  goes by;
* `ViewCompiler.CompiledDocument`, `ViewCompiler.CompiledDocument.output?` — a document with its
  texts;
* `ViewCompiler.compileEntry`, `ViewCompiler.compileEntries` — compiling resolved documents.
-/

import ViewCompiler.Catalog.Error
import ViewCompiler.Template.Compiler

set_option autoImplicit false

namespace ViewCompiler

/-- What a catalog goes by. -/
structure CatalogOptions where
  resolver : ResolverOptions := {}
  compiler : CompilerOptions := {}
  languages : List Lang := [defaultLang]
  deriving DecidableEq, Repr

/-- The first language, which is used where another is not available. -/
def CatalogOptions.mainLanguage (o : CatalogOptions) : Lang :=
  o.languages.headD defaultLang

/-- The languages without repetitions; the default language if none is given. -/
def CatalogOptions.effectiveLanguages (o : CatalogOptions) : List Lang :=
  if o.languages.isEmpty then [defaultLang] else o.languages.eraseDups

/-- A resolved document and its texts by language. -/
structure CompiledDocument where
  id : DocumentId
  owner : Owner
  kind : ViewKind
  priority : Int
  base : Option DocumentId
  arch : Forest Unit
  texts : List (Lang × String)
  mainLanguage : Lang
  deriving DecidableEq, Repr

namespace CompiledDocument

/-- The languages that the document is compiled in. -/
def languages (d : CompiledDocument) : List Lang :=
  d.texts.map (·.1)

/-- The text in exactly one language. -/
def text? (d : CompiledDocument) (lang : Lang) : Option String :=
  (d.texts.find? (·.1 = lang)).map (·.2)

/-- The text in a language, or in the main one. -/
def output? (d : CompiledDocument) (lang : Lang) : Option String :=
  (d.text? lang).or (d.text? d.mainLanguage)

end CompiledDocument

/-- Compiles one document in all languages. -/
def compileEntry (o : CatalogOptions) (hook : FieldHook) (translator : Translator)
    (d : Document) : Except CompileError CompiledDocument :=
  (compileDocument o.compiler hook translator d.id d.arch o.effectiveLanguages).map fun texts =>
    { id := d.id, owner := d.owner, kind := d.kind, priority := d.priority, base := d.base,
      arch := d.arch, texts := texts, mainLanguage := o.mainLanguage }

/-- Compiles documents; those that do not compile give an error each. -/
def compileEntries (o : CatalogOptions) (hook : FieldHook) (translator : Translator) :
    List Document → List BootstrapError × List CompiledDocument
  | [] => ([], [])
  | d :: more =>
      let (errors, entries) := compileEntries o hook translator more
      match compileEntry o hook translator d with
      | .error e => (.compile d.id e :: errors, entries)
      | .ok entry => (errors, entry :: entries)

end ViewCompiler
