import LiveTemplate.Assigns
import LiveTemplate.Assoc
import LiveTemplate.Change
import LiveTemplate.Component.Check
import LiveTemplate.Component.Declaration
import LiveTemplate.Component.GlobalAttribute
import LiveTemplate.Component.Spec
import LiveTemplate.Datum
import LiveTemplate.Decimal.Radix
import LiveTemplate.Decimal.Reading
import LiveTemplate.Decimal.Writing
import LiveTemplate.Diagnostic
import LiveTemplate.Diagnostic.Catalog
import LiveTemplate.Eval
import LiveTemplate.Eval.Fault
import LiveTemplate.Expr
import LiveTemplate.Expr.Fault
import LiveTemplate.Expr.Functions
import LiveTemplate.Expr.Reading
import LiveTemplate.Expr.Reads
import LiveTemplate.Expr.Shape
import LiveTemplate.Expr.Token
import LiveTemplate.Fingerprint
import LiveTemplate.Fragment
import LiveTemplate.Fragment.Building
import LiveTemplate.Html.Encoding
import LiveTemplate.Html.Escape
import LiveTemplate.Identity
import LiveTemplate.Markup.Lexer
import LiveTemplate.Markup.Segment
import LiveTemplate.Markup.Token
import LiveTemplate.Node
import LiveTemplate.Node.Parsing
import LiveTemplate.Number
import LiveTemplate.Proofs.Assigns.Content
import LiveTemplate.Proofs.Assigns.Exactness
import LiveTemplate.Proofs.Assigns.Failing
import LiveTemplate.Proofs.Assigns.Marks
import LiveTemplate.Proofs.Assigns.Merging
import LiveTemplate.Proofs.Assigns.Restating
import LiveTemplate.Proofs.Assigns.Tracking
import LiveTemplate.Proofs.Assigns.Writing
import LiveTemplate.Proofs.Client.Encoding
import LiveTemplate.Proofs.Client.Held
import LiveTemplate.Proofs.Client.Updating
import LiveTemplate.Proofs.Client.View
import LiveTemplate.Proofs.Client.Wire
import LiveTemplate.Proofs.Component.Applying
import LiveTemplate.Proofs.Component.Checked
import LiveTemplate.Proofs.Component.Declaring
import LiveTemplate.Proofs.Component.Defining
import LiveTemplate.Proofs.Component.Holding
import LiveTemplate.Proofs.Eval.Alike
import LiveTemplate.Proofs.Eval.Binding
import LiveTemplate.Proofs.Eval.Both
import LiveTemplate.Proofs.Eval.BoundNames
import LiveTemplate.Proofs.Eval.Content
import LiveTemplate.Proofs.Eval.Essence
import LiveTemplate.Proofs.Eval.Evaluation
import LiveTemplate.Proofs.Eval.Freshness
import LiveTemplate.Proofs.Eval.Lists
import LiveTemplate.Proofs.Eval.Members
import LiveTemplate.Proofs.Eval.Methods
import LiveTemplate.Proofs.Eval.Operations
import LiveTemplate.Proofs.Eval.Plain
import LiveTemplate.Proofs.Eval.Rebinding
import LiveTemplate.Proofs.Eval.Repeating
import LiveTemplate.Proofs.Eval.Scopes
import LiveTemplate.Proofs.Eval.Supply
import LiveTemplate.Proofs.Eval.Unaffected
import LiveTemplate.Proofs.Eval.Yields
import LiveTemplate.Proofs.Expr.Alike
import LiveTemplate.Proofs.Expr.Carrying
import LiveTemplate.Proofs.Expr.Confined
import LiveTemplate.Proofs.Expr.Faults
import LiveTemplate.Proofs.Expr.Lexemes
import LiveTemplate.Proofs.Expr.Locals
import LiveTemplate.Proofs.Expr.Operands
import LiveTemplate.Proofs.Expr.Passing
import LiveTemplate.Proofs.Expr.Phrases
import LiveTemplate.Proofs.Expr.Placing
import LiveTemplate.Proofs.Expr.Precedence
import LiveTemplate.Proofs.Expr.Shifting
import LiveTemplate.Proofs.Expr.Spacing
import LiveTemplate.Proofs.Expr.Substitutions
import LiveTemplate.Proofs.Expr.Unaffected
import LiveTemplate.Proofs.Fragment.Components
import LiveTemplate.Proofs.Fragment.Fingerprints
import LiveTemplate.Proofs.Fragment.Quoting
import LiveTemplate.Proofs.Fragment.Tracking
import LiveTemplate.Proofs.Html.Encoding
import LiveTemplate.Proofs.Html.Escaping
import LiveTemplate.Proofs.Markup.Chunks
import LiveTemplate.Proofs.Markup.Code
import LiveTemplate.Proofs.Markup.Extending
import LiveTemplate.Proofs.Markup.Faults
import LiveTemplate.Proofs.Markup.Readers
import LiveTemplate.Proofs.Markup.Running
import LiveTemplate.Proofs.Markup.Tiling
import LiveTemplate.Proofs.Markup.Tokens
import LiveTemplate.Proofs.Node.Accounting
import LiveTemplate.Proofs.Node.Calls
import LiveTemplate.Proofs.Node.Faults
import LiveTemplate.Proofs.Node.Laying
import LiveTemplate.Proofs.Node.Phrases
import LiveTemplate.Proofs.Node.Placing
import LiveTemplate.Proofs.Node.Spelling
import LiveTemplate.Proofs.Page.Drawing
import LiveTemplate.Proofs.Page.Faithful
import LiveTemplate.Proofs.Page.Following
import LiveTemplate.Proofs.Page.Interpretation
import LiveTemplate.Proofs.Page.Markupless
import LiveTemplate.Proofs.Page.Redrawing
import LiveTemplate.Proofs.Page.Skipping
import LiveTemplate.Proofs.Page.Spreading
import LiveTemplate.Proofs.Realm.Arguments
import LiveTemplate.Proofs.Realm.Blocked
import LiveTemplate.Proofs.Realm.Code
import LiveTemplate.Proofs.Realm.Evaluation
import LiveTemplate.Proofs.Realm.Lists
import LiveTemplate.Proofs.Realm.Members
import LiveTemplate.Proofs.Realm.Methods
import LiveTemplate.Proofs.Realm.Operations
import LiveTemplate.Proofs.Realm.Rendering
import LiveTemplate.Proofs.Realm.Values
import LiveTemplate.Proofs.Render.Building
import LiveTemplate.Proofs.Render.Keeping
import LiveTemplate.Proofs.Render.Mounting
import LiveTemplate.Proofs.Render.Nesting
import LiveTemplate.Proofs.Render.Reusing
import LiveTemplate.Proofs.Render.Scene
import LiveTemplate.Proofs.Render.Sites
import LiveTemplate.Proofs.Render.Soundness
import LiveTemplate.Proofs.Render.Unchanged
import LiveTemplate.Proofs.Render.Writes
import LiveTemplate.Proofs.Result
import LiveTemplate.Proofs.Session.Between
import LiveTemplate.Proofs.Session.Failure
import LiveTemplate.Proofs.Session.Live
import LiveTemplate.Proofs.Session.Numbers
import LiveTemplate.Proofs.Session.Orderly
import LiveTemplate.Proofs.Session.Silent
import LiveTemplate.Proofs.Session.Standing
import LiveTemplate.Proofs.Session.Steps
import LiveTemplate.Proofs.Session.Sync
import LiveTemplate.Proofs.Snapshot.Exactness
import LiveTemplate.Proofs.Snapshot.Forest
import LiveTemplate.Proofs.Snapshot.Page
import LiveTemplate.Proofs.Snapshot.RoundTrip
import LiveTemplate.Proofs.Snapshot.Skeleton
import LiveTemplate.Proofs.Text.Extending
import LiveTemplate.Proofs.Text.Lines
import LiveTemplate.Proofs.Tree.Comparison
import LiveTemplate.Proofs.Tree.ExactPatch
import LiveTemplate.Proofs.Tree.Exactness
import LiveTemplate.Proofs.Tree.FewestMoves
import LiveTemplate.Proofs.Tree.Moves
import LiveTemplate.Proofs.Tree.Parts
import LiveTemplate.Proofs.Tree.RoundTrip
import LiveTemplate.Proofs.Tree.Sharing
import LiveTemplate.Proofs.Tree.Subsequences
import LiveTemplate.Proofs.Tree.Totality
import LiveTemplate.Record
import LiveTemplate.Render
import LiveTemplate.Render.Arguments
import LiveTemplate.Render.Basic
import LiveTemplate.Session
import LiveTemplate.Snapshot
import LiveTemplate.Snapshot.Arena
import LiveTemplate.Source
import LiveTemplate.Span
import LiveTemplate.SyntaxError
import LiveTemplate.Template
import LiveTemplate.TemplateUnit
import LiveTemplate.Text.Blank
import LiveTemplate.Text.Braces
import LiveTemplate.Text.Case
import LiveTemplate.Text.Case.Runs
import LiveTemplate.Text.Cut
import LiveTemplate.Text.Quoted
import LiveTemplate.Text.Units
import LiveTemplate.Time
import LiveTemplate.Trace
import LiveTemplate.Trace.Line
import LiveTemplate.Tree
import LiveTemplate.Tree.Diff
import LiveTemplate.Tree.Html
import LiveTemplate.Tree.Moves
import LiveTemplate.Tree.Patch
import LiveTemplate.Value
import LiveTemplate.Value.Bindings
import LiveTemplate.Value.Collection
import LiveTemplate.Value.Json
import LiveTemplate.Value.Members
import LiveTemplate.Value.Methods
import LiveTemplate.Value.Sameness
import LiveTemplate.Value.Text
import LiveTemplate.Proofs.Assigns.Marking
