/-
**From tokens to trees.**

Tokens make up a document when start and end tags are balanced.  The reader keeps the elements
that are still open, the innermost first, each with the siblings already read before it.  Nodes
are numbered in source order.

Main definitions:

* `ViewCompiler.OpenElement`, `ViewCompiler.Reading` — what the reader keeps between two tokens;
* `ViewCompiler.Tree.ofTokens` — the document of a balanced token list;
* `ViewCompiler.parse` — the document of a source.
-/

import ViewCompiler.Markup.Token
import ViewCompiler.Markup.Tree

set_option autoImplicit false

namespace ViewCompiler

/-- An element whose end tag has not been read, with the siblings before it, last first. -/
structure OpenElement where
  label : NodeId
  name : String
  attributes : Attributes
  position : Nat
  before : Forest NodeId
  deriving Repr

/-- The open elements, innermost first; the nodes read since the last of their tags, last first;
and the next number. -/
structure Reading where
  opened : List OpenElement
  done : Forest NodeId
  next : NodeId
  deriving Repr

namespace Reading

/-- Nothing is read yet. -/
def start : Reading := ⟨[], .nil, 1⟩

/-- Takes in a leaf. -/
def addLeaf (r : Reading) (kind : LeafKind) (content : String) : Reading :=
  { r with done := .leaf r.next kind content r.done, next := r.next + 1 }

/-- Takes in one token. -/
def step (r : Reading) : Token → Except ParseError Reading
  | .text content => .ok (r.addLeaf .text content)
  | .comment content => .ok (r.addLeaf .comment content)
  | .startTag name attributes true _ =>
      .ok { r with done := .element r.next name attributes .nil r.done, next := r.next + 1 }
  | .startTag name attributes false position =>
      .ok ⟨⟨r.next, name, attributes, position, r.done⟩ :: r.opened, .nil, r.next + 1⟩
  | .endTag name position =>
      match r.opened with
      | [] => .error ⟨.unexpectedEndTag, position⟩
      | e :: opened =>
          if e.name = name then
            .ok { r with
              opened := opened
              done := .element e.label e.name e.attributes r.done.reverse e.before }
          else .error ⟨.unexpectedEndTag, position⟩

/-- Takes in tokens one after the other. -/
def steps (r : Reading) : List Token → Except ParseError Reading
  | [] => .ok r
  | token :: more =>
      match r.step token with
      | .error e => .error e
      | .ok r => r.steps more

/-- The document, if no element is open any more. -/
def finish (r : Reading) : Except ParseError Tree :=
  match r.opened with
  | [] => .ok ⟨r.done.reverse, .nil, r.next⟩
  | e :: _ => .error ⟨.unclosedElement, e.position⟩

end Reading

/-- The document of a balanced token list. -/
def Tree.ofTokens (tokens : List Token) : Except ParseError Tree :=
  (Reading.start.steps tokens).bind Reading.finish

/-- The document of a source. -/
def parse (source : String) : Except ParseError Tree :=
  (tokenize source).bind Tree.ofTokens

end ViewCompiler
