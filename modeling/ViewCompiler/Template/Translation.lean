/-
**Translating archs.**

Texts, and the attributes that are shown to a user, are translated before an arch is compiled.
What is translated is the text between the blanks at its two ends; the blanks stay.  An element
can turn translation off for itself and all below it.

Main definitions:

* `ViewCompiler.Translator` — a translation for each language, document and text;
* `ViewCompiler.translatePadded`, `ViewCompiler.Forest.translate` — translating a text and a
  forest;
* `ViewCompiler.translateSliced?` — translating a text, its blanks cut out at byte offsets;
* `ViewCompiler.Tree.translate` — translating a tree in place, its nodes visited one by one;
* `ViewCompiler.Glossary` — a table of translations, some for one document only.
-/

import ViewCompiler.Markup.Edit
import ViewCompiler.Names
import ViewCompiler.Template.Directive
import ViewCompiler.Text.Blank
import ViewCompiler.Text.Cursor

set_option autoImplicit false

namespace ViewCompiler

/-- A translation for each language, document and text. -/
abbrev Translator := Lang → DocumentId → String → String

/-- The translator that changes nothing. -/
def Translator.identity : Translator := fun _ _ source => source

/-- The attributes whose values are shown to a user. -/
def shownAttributes : List String :=
  ["string", "help", "placeholder", "title", "alt", "aria-label"]

/-- Translates what stands between the blanks at the two ends; blank text stays. -/
def translatePadded (translate : String → String) (text : String) : String :=
  if allBlank text then text
  else .ofList (leadingBlanks text.toList) ++ translate (trimmed text) ++
    .ofList (trailingBlanks text.toList)

/-- What a text becomes if translating changes it.  The blanks at its two ends are cut out by the
lengths of the text with and without them, and there is no answer if a cut meets a character. -/
def translateSliced? (translate : String → String) (text : String) : Option (Option String) :=
  let source := trimmed text
  if source.isEmpty then some none
  else
    let target := translate source
    if target = source then some none
    else
      let start := text.utf8ByteSize - (String.ofList (trimLeft text.toList)).utf8ByteSize
      let stop := start + source.utf8ByteSize
      (slice? text 0 start).bind fun before =>
        (slice? text stop text.utf8ByteSize).map fun behind => some (before ++ target ++ behind)

/-- Translates the values of attributes that are shown. -/
def translateAttributes (translate : String → String) (attributes : Attributes) : Attributes :=
  attributes.map fun a =>
    if shownAttributes.contains a.1 then (a.1, translatePadded translate a.2) else a

/-- The attributes turn translation off. -/
def translationOff (attributes : Attributes) : Bool :=
  (attributes.get? translationDirective).any fun value => trimmed value = "off"

/-- Translates texts and attributes, except where translation is off. -/
def Forest.translate {ι : Type} (translate : String → String) : Forest ι → Forest ι
  | nil => nil
  | leaf label .text content rest =>
      leaf label .text (translatePadded translate content) (rest.translate translate)
  | leaf label kind content rest => leaf label kind content (rest.translate translate)
  | element label name attributes children rest =>
      if translationOff attributes then
        element label name attributes children (rest.translate translate)
      else
        element label name (translateAttributes translate attributes)
          (children.translate translate) (rest.translate translate)

/-! ### Trees -/

namespace Tree

/-- Translates what one node says. -/
def translateNode (translate : String → String) (t : Tree) (id : NodeId) : Tree :=
  match t.find? id with
  | some (.leaf _ .text content) => t.setText id (translatePadded translate content)
  | some (.element _) => t.mapAttributes id (translateAttributes translate)
  | _ => t

/-- Visits a node: where translation is off, neither the node nor what is below it is touched. -/
def translateVisit (translate : String → String) (t : Tree) (id : NodeId) : Tree × List NodeId :=
  if translationOff (t.attributes id) then (t, [])
  else
    let t := t.translateNode translate id
    (t, (t.children id).roots)

/-- Translates texts and attributes of the document in place. -/
def translate (translate : String → String) (t : Tree) : Tree :=
  depthFirst (translateVisit translate) t.size [root] t

end Tree

/-! ### Glossaries -/

/-- One translation, for all documents or for one. -/
structure Glossary.Entry where
  lang : Lang
  document : Option DocumentId
  source : String
  target : String
  deriving DecidableEq, Repr

/-- A table of translations with one entry at most for a language, scope and text. -/
structure Glossary where
  entries : List Glossary.Entry
  deriving DecidableEq, Repr

namespace Glossary

/-- No translations. -/
def empty : Glossary := ⟨[]⟩

/-- The entry is the one for a language, scope and text. -/
def Entry.isFor (lang : Lang) (document : Option DocumentId) (source : String) (e : Entry) :
    Bool :=
  e.lang = lang && e.document = document && e.source = source

/-- Adds a translation; it replaces an older one of the same language, scope and text. -/
def insert (g : Glossary) (e : Entry) : Glossary :=
  ⟨g.entries.filter (!·.isFor e.lang e.document e.source) ++ [e]⟩

/-- The number of translations. -/
def size (g : Glossary) : Nat :=
  g.entries.length

/-- The translation for a scope. -/
def find? (g : Glossary) (lang : Lang) (document : Option DocumentId) (source : String) :
    Option String :=
  (g.entries.find? (·.isFor lang document source)).map (·.target)

/-- Looks for a translation for the document, then for one for all documents; without either the
text stays. -/
def translator (g : Glossary) : Translator := fun lang id source =>
  ((g.find? lang (some id) source).or (g.find? lang none source)).getD source

end Glossary

end ViewCompiler
