/-
**Labelled markup.**

The content of a document is a forest: a list of siblings, each an element with a forest of
children or a leaf.  Forests are written in first-child/next-sibling form, so that one recursion
walks down and along.  Every node carries a label; what the label is depends on the use (the
number of a node in an editable tree, the directives of an element under compilation, nothing).

Main definitions:

* `ViewCompiler.Forest` — siblings with everything below them;
* `ViewCompiler.Element`, `ViewCompiler.Node` — one member of a forest;
* `ViewCompiler.Forest.append`, `ViewCompiler.Forest.splice` — putting siblings side by side,
  and a forest in the place of a node;
* `ViewCompiler.Forest.labels`, `ViewCompiler.Forest.roots` — the labels in document order, and
  those of the top level;
* `ViewCompiler.Forest.map`, `ViewCompiler.Forest.plain` — relabelling and forgetting labels;
* `ViewCompiler.Forest.elements` — all elements in document order.
-/

set_option autoImplicit false

namespace ViewCompiler

/-- The attributes of an element in source order; a name may occur more than once. -/
abbrev Attributes := List (String × String)

/-- The first value of an attribute. -/
def Attributes.get? (attributes : Attributes) (name : String) : Option String :=
  (attributes.find? (·.1 = name)).map (·.2)

/-- The attributes with the first occurrence of `name` removed. -/
def Attributes.remove (attributes : Attributes) (name : String) : Attributes :=
  attributes.eraseP (·.1 = name)

/-- The attributes with `name` set to `value`: in the place of its first occurrence, else last. -/
def Attributes.set (attributes : Attributes) (name value : String) : Attributes :=
  match attributes with
  | [] => [(name, value)]
  | (key, old) :: more =>
      if key = name then (key, value) :: more
      else (key, old) :: Attributes.set more name value

/-- The three kinds of leaves: text that is escaped when written, comments, and text that is
written as it is. -/
inductive LeafKind where
  | text
  | comment
  | raw
  deriving DecidableEq, Repr

/-- Siblings in order, each with everything below it. -/
inductive Forest (ι : Type) where
  | nil
  | element (label : ι) (name : String) (attributes : Attributes) (children rest : Forest ι)
  | leaf (label : ι) (kind : LeafKind) (content : String) (rest : Forest ι)
  deriving DecidableEq, Repr, Inhabited

/-- An element with its children. -/
structure Element (ι : Type) where
  label : ι
  name : String
  attributes : Attributes
  children : Forest ι
  deriving DecidableEq, Repr

/-- One member of a forest. -/
inductive Node (ι : Type) where
  | element (element : Element ι)
  | leaf (label : ι) (kind : LeafKind) (content : String)
  deriving DecidableEq, Repr

variable {ι κ : Type}

/-- The label of a node. -/
def Node.label : Node ι → ι
  | .element e => e.label
  | .leaf label _ _ => label

/-- The first value of an attribute of an element. -/
def Element.attr? (e : Element ι) (name : String) : Option String :=
  e.attributes.get? name

namespace Forest

/-! ### Side by side -/

/-- The siblings of two forests, one after the other. -/
def append : Forest ι → Forest ι → Forest ι
  | nil, g => g
  | element label name attributes children rest, g =>
      element label name attributes children (append rest g)
  | leaf label kind content rest, g => leaf label kind content (append rest g)

instance : Append (Forest ι) := ⟨append⟩

@[simp] theorem nil_append (g : Forest ι) : (nil : Forest ι) ++ g = g := rfl

@[simp] theorem element_append (label : ι) (name : String) (attributes : Attributes)
    (children rest g : Forest ι) :
    element label name attributes children rest ++ g =
      element label name attributes children (rest ++ g) := rfl

@[simp] theorem leaf_append (label : ι) (kind : LeafKind) (content : String)
    (rest g : Forest ι) :
    leaf label kind content rest ++ g = leaf label kind content (rest ++ g) := rfl

@[simp] theorem append_nil (f : Forest ι) : f ++ nil = f := by
  induction f with
  | nil => rfl
  | element _ _ _ _ _ _ ih => rw [element_append, ih]
  | leaf _ _ _ _ ih => rw [leaf_append, ih]

theorem append_assoc (f g h : Forest ι) : f ++ g ++ h = f ++ (g ++ h) := by
  induction f with
  | nil => rfl
  | element _ _ _ _ _ _ ih => simp only [element_append, ih]
  | leaf _ _ _ _ ih => simp only [leaf_append, ih]

/-- The siblings in reverse order, in front of `g`. -/
def reverseOnto : Forest ι → Forest ι → Forest ι
  | nil, g => g
  | element label name attributes children rest, g =>
      reverseOnto rest (element label name attributes children g)
  | leaf label kind content rest, g => reverseOnto rest (leaf label kind content g)

/-- The siblings in reverse order; what is below each of them stays as it is. -/
def reverse (f : Forest ι) : Forest ι :=
  f.reverseOnto nil

/-- There is no node. -/
def isEmpty : Forest ι → Bool
  | nil => true
  | _ => false

/-- The number of siblings. -/
def width : Forest ι → Nat
  | nil => 0
  | element _ _ _ _ rest => rest.width + 1
  | leaf _ _ _ rest => rest.width + 1

/-- The number of nodes at all depths. -/
def size : Forest ι → Nat
  | nil => 0
  | element _ _ _ children rest => children.size + rest.size + 1
  | leaf _ _ _ rest => rest.size + 1

/-! ### Nodes and labels -/

/-- The siblings as a list. -/
def nodes : Forest ι → List (Node ι)
  | nil => []
  | element label name attributes children rest =>
      .element ⟨label, name, attributes, children⟩ :: rest.nodes
  | leaf label kind content rest => .leaf label kind content :: rest.nodes

/-- The elements among the siblings. -/
def topElements : Forest ι → List (Element ι)
  | nil => []
  | element label name attributes children rest =>
      ⟨label, name, attributes, children⟩ :: rest.topElements
  | leaf _ _ _ rest => rest.topElements

/-- All elements in document order. -/
def elements : Forest ι → List (Element ι)
  | nil => []
  | element label name attributes children rest =>
      ⟨label, name, attributes, children⟩ :: (children.elements ++ rest.elements)
  | leaf _ _ _ rest => rest.elements

/-- The labels of the siblings. -/
def roots : Forest ι → List ι
  | nil => []
  | element label _ _ _ rest => label :: rest.roots
  | leaf label _ _ rest => label :: rest.roots

/-- All labels in document order. -/
def labels : Forest ι → List ι
  | nil => []
  | element label _ _ children rest => label :: (children.labels ++ rest.labels)
  | leaf label _ _ rest => label :: rest.labels

/-- The text of all text leaves in document order. -/
def textContent : Forest ι → String
  | nil => ""
  | element _ _ _ children rest => children.textContent ++ rest.textContent
  | leaf _ .text content rest => content ++ rest.textContent
  | leaf _ _ _ rest => rest.textContent

/-! ### Relabelling -/

/-- The same forest under new labels. -/
def map (f : ι → κ) : Forest ι → Forest κ
  | nil => nil
  | element label name attributes children rest =>
      element (f label) name attributes (children.map f) (rest.map f)
  | leaf label kind content rest => leaf (f label) kind content (rest.map f)

/-- The structure of a forest, its labels forgotten. -/
def plain (f : Forest ι) : Forest Unit :=
  f.map fun _ => ()

/-! ### One node -/

/-- The forest of one node. -/
def single : Node ι → Forest ι
  | .element e => element e.label e.name e.attributes e.children nil
  | .leaf label kind content => leaf label kind content nil

variable [DecidableEq ι]

/-- The node with the given label. -/
def find? (label : ι) : Forest ι → Option (Node ι)
  | nil => none
  | element l name attributes children rest =>
      if l = label then some (.element ⟨l, name, attributes, children⟩)
      else (children.find? label).or (rest.find? label)
  | leaf l kind content rest =>
      if l = label then some (.leaf l kind content) else rest.find? label

/-- The label of the element that has the node with the given label as a child. -/
def holder? (label : ι) : Forest ι → Option ι
  | nil => none
  | element l _ _ children rest =>
      if label ∈ children.roots then some l
      else (children.holder? label).or (rest.holder? label)
  | leaf _ _ _ rest => rest.holder? label

/-- Every node with the given label is replaced by the siblings that `g` gives for it. -/
def splice (label : ι) (g : Node ι → Forest ι) : Forest ι → Forest ι
  | nil => nil
  | element l name attributes children rest =>
      if l = label then g (.element ⟨l, name, attributes, children⟩) ++ rest.splice label g
      else element l name attributes (children.splice label g) (rest.splice label g)
  | leaf l kind content rest =>
      if l = label then g (.leaf l kind content) ++ rest.splice label g
      else leaf l kind content (rest.splice label g)

/-- The forest without the node with the given label. -/
def remove (label : ι) (f : Forest ι) : Forest ι :=
  f.splice label fun _ => nil

end Forest

end ViewCompiler
