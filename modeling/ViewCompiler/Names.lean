/-
**Names of documents, owners and languages.**

Main definitions:

* `ViewCompiler.DocumentId`, `ViewCompiler.Owner`, `ViewCompiler.Lang` — what documents,
  families of documents and languages are called.
-/

set_option autoImplicit false

namespace ViewCompiler

/-- The id of a document. -/
abbrev DocumentId := String

/-- The family that a document belongs to: the name of a model, or `template`. -/
abbrev Owner := String

/-- The owner of templates that name no model. -/
def templateOwner : Owner := "template"

/-- The code of a language. -/
abbrev Lang := String

/-- The language that is used when none is given. -/
def defaultLang : Lang := "en_US"

end ViewCompiler
