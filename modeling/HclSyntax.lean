import HclSyntax.Source
import HclSyntax.TokenKind
import HclSyntax.Utf8
import HclSyntax.Token
import HclSyntax.Number.Basic
import HclSyntax.Number.Numeral
import HclSyntax.Number.Double
import HclSyntax.Text.CharClass
import HclSyntax.Text.Invisible
import HclSyntax.Text.GraphemeBreak
import HclSyntax.Text.Quoted
import HclSyntax.Value
import HclSyntax.Syntax.Expr
import HclSyntax.Syntax.Body
import HclSyntax.Syntax.Walk
import HclSyntax.Diagnostic.Code
import HclSyntax.Diagnostic.Basic
import HclSyntax.Diagnostic.Report
import HclSyntax.Diagnostic.Problem
import HclSyntax.Text.Cluster
import HclSyntax.Text.Segmentation
import HclSyntax.StringChunk
import HclSyntax.Spelling
import HclSyntax.Cursor
import HclSyntax.LineComment
import HclSyntax.Parser.Basic
import HclSyntax.Parser.Resync
import HclSyntax.Parser.Literal
import HclSyntax.Parser.Operator
import HclSyntax.Parser.Comprehension
import HclSyntax.Parser.Collection
import HclSyntax.Parser.Path
import HclSyntax.Template.Part
import HclSyntax.Template.Nesting
import HclSyntax.Parser.Template
import HclSyntax.Parser.Expression
import HclSyntax.Parser.Body
import HclSyntax.Parse
import HclSyntax.Proofs.Parts
import HclSyntax.Proofs.CleanRun
import HclSyntax.Proofs.Known.Expression
import HclSyntax.Proofs.Known.Body
import HclSyntax.Proofs.Compositional
import HclSyntax.Proofs.Frame
import HclSyntax.Proofs.NoSilentError
import HclSyntax.Proofs.Cascade
import HclSyntax.Proofs.Grammar.Derives
import HclSyntax.Proofs.Grammar.Passing
import HclSyntax.Proofs.Sound.Nesting
import HclSyntax.Proofs.Sound.Collection
import HclSyntax.Proofs.Sound.Template
import HclSyntax.Proofs.Sound.Expression
import HclSyntax.Proofs.Grammar.Lines
import HclSyntax.Proofs.Sound.Body
import HclSyntax.Proofs.Soundness
import HclSyntax.Proofs.Complete.Place
import HclSyntax.Proofs.Complete.Nesting
import HclSyntax.Proofs.Complete.Collection
import HclSyntax.Proofs.Complete.Template
import HclSyntax.Proofs.Complete.Suffix
import HclSyntax.Proofs.Complete.Term
import HclSyntax.Proofs.Complete.Expression
import HclSyntax.Proofs.Completeness
import HclSyntax.Proofs.Print.Lexeme
import HclSyntax.Proofs.Print.Tree
import HclSyntax.Proofs.Print.Derives
import HclSyntax.Proofs.Print.Collection
import HclSyntax.Proofs.Print.Canonical
import HclSyntax.Proofs.RoundTrip
import HclSyntax.Proofs.Line.Agree
import HclSyntax.Proofs.Steady
import HclSyntax.Proofs.Line.Resync
import HclSyntax.Proofs.Line.Operator
import HclSyntax.Proofs.Line.Collection
import HclSyntax.Proofs.Line.Expression
import HclSyntax.Proofs.Line.Body
import HclSyntax.Proofs.Line.Entry
import HclSyntax.Proofs.Containment
import HclSyntax.Proofs.Progress.Advance
import HclSyntax.Proofs.Progress.Steps
import HclSyntax.Proofs.Progress.Arrives
import HclSyntax.Proofs.Progress.Inside
import HclSyntax.Proofs.Termination
import HclSyntax.Proofs.Recovery
import HclSyntax.Proofs.Written.Value
import HclSyntax.Proofs.Written.Trimmed
import HclSyntax.Proofs.Written.Template
import HclSyntax.Proofs.Grammar.Balanced
import HclSyntax.Proofs.Written.Shelter
import HclSyntax.Proofs.Written.Alike
import HclSyntax.Proofs.Written.Suffix
import HclSyntax.Proofs.Written.Collection
import HclSyntax.Proofs.Written.Quoted
import HclSyntax.Proofs.Written.Expression
import HclSyntax.Proofs.Written.Line
import HclSyntax.Proofs.Written.Body
import HclSyntax.Proofs.Meaning.Said
import HclSyntax.Proofs.Meaning.Place
import HclSyntax.Proofs.Meaning.Run
import HclSyntax.Proofs.Meaning.Chunk
import HclSyntax.Proofs.Meaning.Nesting
import HclSyntax.Proofs.Meaning.Collection
import HclSyntax.Proofs.Meaning.Template
import HclSyntax.Proofs.Meaning.Path
import HclSyntax.Proofs.Meaning.Expression
import HclSyntax.Proofs.Meaning.Body
import HclSyntax.Proofs.Meaning.Source
import HclSyntax.Proofs.Placeless
import HclSyntax.Proofs.Unseen
import HclSyntax.Proofs.Depth.Place
import HclSyntax.Proofs.Depth.Run
import HclSyntax.Proofs.Depth.Collection
import HclSyntax.Proofs.Depth.Template
import HclSyntax.Proofs.Depth.Path
import HclSyntax.Proofs.Depth.Expression
import HclSyntax.Proofs.Depth.Body
import HclSyntax.Proofs.Outermost
import HclSyntax.Proofs.Modes
import HclSyntax.Proofs.Normal.Tree
import HclSyntax.Proofs.Normal.Expression
import HclSyntax.Proofs.NormalForm
import HclSyntax.Proofs.Range.Tree
import HclSyntax.Proofs.Range.Place
import HclSyntax.Proofs.Range.Run
import HclSyntax.Proofs.Range.Collection
import HclSyntax.Proofs.Range.Path
import HclSyntax.Proofs.Range.Nesting
import HclSyntax.Proofs.Range.Template
import HclSyntax.Proofs.Range.Expression
import HclSyntax.Proofs.Range.Body
import HclSyntax.Proofs.Ranges
import HclSyntax.Proofs.Fence.Place
import HclSyntax.Proofs.Fence.Run
import HclSyntax.Proofs.Fence.Collection
import HclSyntax.Proofs.Fence.Expression
import HclSyntax.Proofs.Directives
import HclSyntax.Proofs.Text.Utf8
import HclSyntax.Proofs.Text.Rewriting
import HclSyntax.Proofs.Text.Escaping
import HclSyntax.Proofs.StandalonePath
import HclSyntax.Proofs.Grouping.Place
import HclSyntax.Proofs.Grouping.Tree
import HclSyntax.Proofs.Grouping.Expression
import HclSyntax.Proofs.Grouping
import HclSyntax.Proofs.Number.Value
import HclSyntax.Proofs.Number.Grammar
import HclSyntax.Proofs.Number.Reading
import HclSyntax.Proofs.Number.Writing
import HclSyntax.Proofs.Number.Reread
import HclSyntax.Proofs.Number.Index
import HclSyntax.Proofs.FreeVariables
import HclSyntax.Proofs.Delivery
import HclSyntax.Proofs.ItemEnd
import HclSyntax.Proofs.BracketEnd
import HclSyntax.Proofs.Spelling
import HclSyntax.Proofs.Order.Tree
import HclSyntax.Proofs.Order.Place
import HclSyntax.Proofs.Order.Collection
import HclSyntax.Proofs.Order.Template
import HclSyntax.Proofs.Order.Expression
import HclSyntax.Proofs.Order.Body
import HclSyntax.Proofs.WalkOrder
import HclSyntax.Proofs.Text.EscapePlace
import HclSyntax.Proofs.Text.CommentWidth
import HclSyntax.Proofs.Snippet
import HclSyntax.Proofs.Pointing.Run
import HclSyntax.Proofs.Pointing.Collection
import HclSyntax.Proofs.Pointing.Template
import HclSyntax.Proofs.Pointing.Expression
import HclSyntax.Proofs.Pointing.Body
import HclSyntax.Proofs.Pointing
