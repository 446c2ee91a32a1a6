/-
**Written form.**

A forest is written as it would stand in a source.  The two styles differ in elements without
children: `<x/>` in the one; in the other `<x></x>`, except for the elements that can never have
content.

Main definitions:

* `ViewCompiler.WriteStyle` — the two styles;
* `ViewCompiler.Forest.writeOnto`, `ViewCompiler.Forest.write` — the written form of a forest;
* `ViewCompiler.Tree.write`, `ViewCompiler.Tree.writeChildren` — the written form of a node of a
  tree, and of its children, the nodes visited one by one.
-/

import ViewCompiler.Markup.Escape
import ViewCompiler.Markup.Tree

set_option autoImplicit false

namespace ViewCompiler

/-- How elements without children are written. -/
inductive WriteStyle where
  | xml
  | html
  deriving DecidableEq, Repr

/-- The elements that never have content. -/
def voidElements : List String :=
  ["area", "base", "br", "col", "embed", "hr", "img", "input", "link", "meta", "param", "source",
    "track", "wbr"]

/-- The text of a leaf. -/
def writeLeaf : LeafKind → String → String
  | .text, content => .ofList (escapeText content.toList)
  | .comment, content => "<!--" ++ content ++ "-->"
  | .raw, content => content

/-- Attributes, each behind a space. -/
def writeAttributes (attributes : Attributes) : String :=
  attributes.foldl
    (fun out a => out ++ " " ++ a.1 ++ "=\"" ++ .ofList (escapeValue a.2.toList) ++ "\"") ""

/-- The start of a start tag, up to its closing bracket. -/
def writeOpening (name : String) (attributes : Attributes) : String :=
  "<" ++ name ++ writeAttributes attributes

/-- The end of the tag of an element without children. -/
def writeChildless (style : WriteStyle) (name : String) : String :=
  if style = .xml || voidElements.contains name then "/>" else "></" ++ name ++ ">"

namespace Forest

variable {ι : Type}

/-- Appends the written form to `out`. -/
def writeOnto (style : WriteStyle) : Forest ι → String → String
  | nil, out => out
  | element _ name attributes children rest, out =>
      let out := out ++ writeOpening name attributes
      let out :=
        if children.isEmpty then out ++ writeChildless style name
        else children.writeOnto style (out ++ ">") ++ ("</" ++ name ++ ">")
      rest.writeOnto style out
  | leaf _ kind content rest, out => rest.writeOnto style (out ++ writeLeaf kind content)

/-- The written form of a forest. -/
def write (style : WriteStyle) (f : Forest ι) : String :=
  f.writeOnto style ""

end Forest

/-! ### Trees -/

namespace Tree

/-- Visits a node.  An element with children is visited again behind them; then the flag is set, and
its end tag is written. -/
def writeVisit (style : WriteStyle) (t : Tree) (out : String) (x : NodeId × Bool) :
    String × List (NodeId × Bool) :=
  let children := (t.children x.1).roots.map fun child => (child, false)
  if x.1 = root then (out, children)
  else match t.find? x.1 with
    | some (.element e) =>
        if x.2 then (out ++ ("</" ++ e.name ++ ">"), [])
        else
          let out := out ++ writeOpening e.name e.attributes
          if children.isEmpty then (out ++ writeChildless style e.name, [])
          else (out ++ ">", children ++ [(x.1, true)])
    | some (.leaf _ kind content) => (out ++ writeLeaf kind content, [])
    | none => (out, [])

/-- Appends the written form of a node to `out`.  No node is visited more than twice. -/
def writeOnto (style : WriteStyle) (t : Tree) (out : String) (id : NodeId) : String :=
  depthFirst (t.writeVisit style) (2 * t.size) [(id, false)] out

/-- The written form of a node; that of the document is that of its content. -/
def write (style : WriteStyle) (t : Tree) (id : NodeId) : String :=
  t.writeOnto style "" id

/-- The written form of the children of a node. -/
def writeChildren (style : WriteStyle) (t : Tree) (id : NodeId) : String :=
  (t.children id).roots.foldl (t.writeOnto style) ""

end Tree

end ViewCompiler
