import ViewCompiler.Catalog.Directory
import ViewCompiler.Catalog.Entry
import ViewCompiler.Catalog.Error
import ViewCompiler.Catalog.Stage
import ViewCompiler.CommandLine
import ViewCompiler.FileTree
import ViewCompiler.Inheritance.Document
import ViewCompiler.Inheritance.Fragment
import ViewCompiler.Inheritance.Patch
import ViewCompiler.Inheritance.Resolution
import ViewCompiler.Inheritance.Spec
import ViewCompiler.Inheritance.Store
import ViewCompiler.Locator.Grammar
import ViewCompiler.Locator.Path
import ViewCompiler.Locator.Select
import ViewCompiler.Main
import ViewCompiler.Markup.Arena
import ViewCompiler.Markup.Bytewise
import ViewCompiler.Markup.Edit
import ViewCompiler.Markup.Escape
import ViewCompiler.Markup.Forest
import ViewCompiler.Markup.Numbering
import ViewCompiler.Markup.Outline
import ViewCompiler.Markup.Reader
import ViewCompiler.Markup.Reference
import ViewCompiler.Markup.Replacement
import ViewCompiler.Markup.Token
import ViewCompiler.Markup.Tree
import ViewCompiler.Markup.Writer
import ViewCompiler.Names
import ViewCompiler.Outcome
import ViewCompiler.Template.Collection
import ViewCompiler.Template.Compiler
import ViewCompiler.Template.Directive
import ViewCompiler.Template.Error
import ViewCompiler.Template.Expression
import ViewCompiler.Template.InPlace
import ViewCompiler.Template.Literal
import ViewCompiler.Template.Lowering.Assignment
import ViewCompiler.Template.Lowering.Block
import ViewCompiler.Template.Lowering.Call
import ViewCompiler.Template.Lowering.Count
import ViewCompiler.Template.Lowering.Output
import ViewCompiler.Template.Spread
import ViewCompiler.Template.Statement
import ViewCompiler.Template.Translation
import ViewCompiler.Text.Blank
import ViewCompiler.Text.Cursor
import ViewCompiler.Text.Numeral
import ViewCompiler.Text.Quoted
import ViewCompiler.Text.Unprintable
import ViewCompiler.Proofs.Inheritance.Phases
import ViewCompiler.Proofs.Inheritance.Levels
import ViewCompiler.Proofs.Inheritance.Settlement
import ViewCompiler.Proofs.Inheritance.Integrity
import ViewCompiler.Proofs.Inheritance.Accounting
import ViewCompiler.Proofs.Inheritance.Outcomes
import ViewCompiler.Proofs.Template.Nesting
import ViewCompiler.Proofs.Template.Agreement
import ViewCompiler.Proofs.Markup.Decoding
import ViewCompiler.Proofs.Markup.Legible
import ViewCompiler.Proofs.Markup.Scanning
import ViewCompiler.Proofs.Markup.RoundTrip
import ViewCompiler.Proofs.Inheritance.Reordering
import ViewCompiler.Proofs.Inheritance.LoadOrder
import ViewCompiler.Proofs.Template.Endings
import ViewCompiler.Proofs.Inheritance.Resumption
import ViewCompiler.Proofs.Inheritance.Listing
import ViewCompiler.Proofs.Catalog.History
import ViewCompiler.Proofs.Catalog.Indexing
import ViewCompiler.Proofs.Catalog.Agreement
import ViewCompiler.Proofs.Markup.Records
import ViewCompiler.Proofs.Markup.WellFormed
import ViewCompiler.Proofs.Markup.Editing
import ViewCompiler.Proofs.Markup.Placement
import ViewCompiler.Proofs.Markup.Relabelling
import ViewCompiler.Proofs.Markup.Surroundings
import ViewCompiler.Proofs.Markup.Pieces
import ViewCompiler.Proofs.Locator.Meaning
import ViewCompiler.Proofs.Locator.Branches
import ViewCompiler.Proofs.Locator.Structure
import ViewCompiler.Proofs.Locator.Selection
import ViewCompiler.Proofs.Inheritance.EditByEdit
import ViewCompiler.Proofs.Inheritance.Splicing
import ViewCompiler.Proofs.Inheritance.Composition
import ViewCompiler.Proofs.Markup.Verbatim
import ViewCompiler.Proofs.Template.Survivors
import ViewCompiler.Proofs.Template.Inclusions
import ViewCompiler.Proofs.Template.Interpolation
import ViewCompiler.Proofs.Template.Chains
import ViewCompiler.Proofs.Markup.Balance
import ViewCompiler.Proofs.Markup.Construction
import ViewCompiler.Proofs.Inheritance.AllOrNothing
import ViewCompiler.Proofs.Template.Residue
import ViewCompiler.Proofs.Template.Literals
import ViewCompiler.Proofs.Template.Stripping
import ViewCompiler.Proofs.Locator.Respacing
import ViewCompiler.Proofs.Locator.Slashes
import ViewCompiler.Proofs.Locator.Shorthand
import ViewCompiler.Proofs.Markup.Walking
import ViewCompiler.Proofs.Markup.Quoting
import ViewCompiler.Proofs.Markup.Comparison
import ViewCompiler.Proofs.Text.Padding
import ViewCompiler.Proofs.Template.Spacing
import ViewCompiler.Proofs.Template.Formatting
import ViewCompiler.Proofs.Template.Translating
import ViewCompiler.Proofs.Markup.Traversal
import ViewCompiler.Proofs.Inheritance.Outermost
import ViewCompiler.Proofs.Markup.Positions
import ViewCompiler.Proofs.Markup.Copying
import ViewCompiler.Proofs.Markup.Linking
import ViewCompiler.Proofs.Markup.Unlinking
import ViewCompiler.Proofs.Markup.LinkedCopies
import ViewCompiler.Proofs.Markup.Building
import ViewCompiler.Proofs.Template.Copies
import ViewCompiler.Proofs.Markup.Sites
import ViewCompiler.Proofs.Template.InPlace.Steps
import ViewCompiler.Proofs.Template.InPlace.Outputs
import ViewCompiler.Proofs.Template.InPlace.Elements
import ViewCompiler.Proofs.Template.InPlace.Blocks
import ViewCompiler.Proofs.Template.InPlace.Assignments
import ViewCompiler.Proofs.Template.InPlace.Bindings
import ViewCompiler.Proofs.Template.InPlace.Pending
import ViewCompiler.Proofs.Template.InPlace.Calls
import ViewCompiler.Proofs.Template.InPlace.Compiling
import ViewCompiler.Proofs.Template.InPlace.Endings
import ViewCompiler.Proofs.Markup.Places
import ViewCompiler.Proofs.Markup.Replacing
import ViewCompiler.Proofs.Markup.Bytewise
import ViewCompiler.Proofs.Markup.References
