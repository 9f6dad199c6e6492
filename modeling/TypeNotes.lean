import TypeNotes.Command
import TypeNotes.Command.Arguments
import TypeNotes.Command.Basic
import TypeNotes.Config.Basic
import TypeNotes.Config.File
import TypeNotes.Config.Stub
import TypeNotes.Config.Value
import TypeNotes.Decimal.Binary64
import TypeNotes.Failure
import TypeNotes.Files.Collect
import TypeNotes.Files.Glob
import TypeNotes.Files.Path
import TypeNotes.Files.Tree
import TypeNotes.Main
import TypeNotes.Note.Basic
import TypeNotes.Note.Block
import TypeNotes.Note.Entry
import TypeNotes.Note.Heading
import TypeNotes.Proofs.Signature.Lookahead
import TypeNotes.Ruby.Definition
import TypeNotes.Ruby.Frame
import TypeNotes.Ruby.Mask
import TypeNotes.Ruby.Parameter
import TypeNotes.Ruby.Source
import TypeNotes.Rule.Basic
import TypeNotes.Rule.CrossReference
import TypeNotes.Rule.Form
import TypeNotes.Rule.Offense
import TypeNotes.Rule.Redundancy
import TypeNotes.Rule.Shape
import TypeNotes.Rule.Spacing
import TypeNotes.Rule.Types
import TypeNotes.Signature.Byte
import TypeNotes.Signature.Cursor
import TypeNotes.Signature.Grammar
import TypeNotes.Signature.Pattern
import TypeNotes.Signature.Script
import TypeNotes.Signature.Stream
import TypeNotes.Signature.Token
import TypeNotes.Span
import TypeNotes.Text.Basic
import TypeNotes.Text.Quoted
import TypeNotes.Unicode.Printable
import TypeNotes.Unicode.Space
import TypeNotes.Unicode.Word
import TypeNotes.Utf8
import TypeNotes.Violation
import TypeNotes.Yaml.Document
import TypeNotes.Yaml.Reader
import TypeNotes.Yaml.Scalar
import TypeNotes.Yaml.Scanner
import TypeNotes.Yaml.Token
import TypeNotes.Proofs.Signature.Termination
import TypeNotes.Proofs.Signature.Derivation
import TypeNotes.Proofs.Signature.Reading
import TypeNotes.Proofs.Signature.Soundness
import TypeNotes.Proofs.Signature.Completeness
import TypeNotes.Proofs.Signature.Recognition
import TypeNotes.Proofs.Signature.Lexing
import TypeNotes.Proofs.Signature.Blame
import TypeNotes.Proofs.Ruby.Comment
import TypeNotes.Proofs.Ruby.Location
import TypeNotes.Proofs.Ruby.Mask
import TypeNotes.Proofs.Note.Entry
import TypeNotes.Proofs.Note.Error
import TypeNotes.Proofs.Rule.CrossReference
import TypeNotes.Proofs.Checked.Basic
import TypeNotes.Proofs.Checked.Lexer
import TypeNotes.Proofs.Checked.Source
import TypeNotes.Proofs.Checked.Note
import TypeNotes.Proofs.Checked.Rule
import TypeNotes.Proofs.Checked.Lint
import TypeNotes.Proofs.Ruby.Declaration
import TypeNotes.Proofs.Note.Heading
import TypeNotes.Proofs.Note.Motion
import TypeNotes.Proofs.Rule.Motion
import TypeNotes.Proofs.Lint.Translation
import TypeNotes.Proofs.Ruby.Padding
import TypeNotes.Proofs.Lint.LineEnd
import TypeNotes.Proofs.Note.Written
import TypeNotes.Proofs.Lint.NotedMethod
import TypeNotes.Proofs.Lint.Report
import TypeNotes.Proofs.Signature.Transparency
import TypeNotes.Proofs.Ruby.CommentText
import TypeNotes.Proofs.Rule.SourceOrder
import TypeNotes.Proofs.Command
import TypeNotes.Proofs.Files.Glob
import TypeNotes.Proofs.Distinct
import TypeNotes.Proofs.Files.Collect
import TypeNotes.Proofs.Note.Order
import TypeNotes.Proofs.Rule.Place
import TypeNotes.Proofs.Lint.Repetition
import TypeNotes.Proofs.Ruby.DataSection
import TypeNotes.Proofs.Lint.DataSection
import TypeNotes.Proofs.Signature.Material
import TypeNotes.Proofs.Signature.Arrow
import TypeNotes.Proofs.Note.Assertion
import TypeNotes.Proofs.Signature.Follow
import TypeNotes.Proofs.Signature.Sequel
import TypeNotes.Proofs.Signature.Seam
import TypeNotes.Proofs.Signature.Tag
import TypeNotes.Proofs.Signature.Excerpt
import TypeNotes.Proofs.Signature.Sequence
import TypeNotes.Proofs.Note.Remark
import TypeNotes.Proofs.Signature.Viability
import TypeNotes.Proofs.Signature.Stalling
import TypeNotes.Proofs.Signature.ViablePrefix
import TypeNotes.Proofs.Note.Grouping
import TypeNotes.Proofs.Note.Ownership
import TypeNotes.Proofs.Note.Lenient
import TypeNotes.Proofs.Note.Marker
import TypeNotes.Proofs.Rule.NamePlace
import TypeNotes.Proofs.Rule.EmbeddedExtent
import TypeNotes.Proofs.Rule.KeywordName
import TypeNotes.Proofs.Rule.MissingColon
import TypeNotes.Proofs.Ruby.Geometry
import TypeNotes.Proofs.Ruby.Heredoc
import TypeNotes.Proofs.Ruby.Respaced
import TypeNotes.Proofs.Ruby.ParameterList
import TypeNotes.Proofs.Ruby.Literal
import TypeNotes.Proofs.Signature.Partition
import TypeNotes.Proofs.Rule.VariableSpacing
import TypeNotes.Proofs.Config.Document
import TypeNotes.Proofs.Config.RuleSet
import TypeNotes.Proofs.Checked.Format
import TypeNotes.Proofs.Files.Path
import TypeNotes.Proofs.Config.Reload
import TypeNotes.Proofs.Files.Walk
import TypeNotes.Proofs.Note.SegmentTable
import TypeNotes.Proofs.Signature.Evaluation
import TypeNotes.Proofs.Signature.Progress
