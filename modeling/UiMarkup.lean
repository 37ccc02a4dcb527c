import UiMarkup.Source
import UiMarkup.Text.Blank
import UiMarkup.Text.Pieces
import UiMarkup.Token.Basic
import UiMarkup.Token.Lexeme
import UiMarkup.Result
import UiMarkup.Declaration.Basic
import UiMarkup.Declaration.Printer
import UiMarkup.Declaration.ParseError
import UiMarkup.Declaration.Reading
import UiMarkup.Declaration.Stream
import UiMarkup.Number.Power
import UiMarkup.Number.Decimal
import UiMarkup.Number.Binary64
import UiMarkup.Number.Shortest
import UiMarkup.Value.Basic
import UiMarkup.Value.Literal
import UiMarkup.Value.Written
import UiMarkup.NameMap
import UiMarkup.Schema.Error
import UiMarkup.Schema.Attribute
import UiMarkup.Schema.Registry
import UiMarkup.Schema.File
import UiMarkup.Schema.Builtin
import UiMarkup.Check.Error
import UiMarkup.Check.Component
import UiMarkup.Check.Assignment
import UiMarkup.Check.Stylesheet
import UiMarkup.Check.Validator
import UiMarkup.FileText
import UiMarkup.Toml.Value
import UiMarkup.Toml.Text
import UiMarkup.Toml.Scalar
import UiMarkup.Toml.Table
import UiMarkup.Toml.Document
import UiMarkup.Schema.Toml
import UiMarkup.Text.Width
import UiMarkup.Report.Ink
import UiMarkup.Report.Lines
import UiMarkup.Report.Layout
import UiMarkup.CommandLine.Arguments
import UiMarkup.CommandLine.Run
import UiMarkup.Main
import UiMarkup.Proofs.Token.Places
import UiMarkup.Proofs.Token.Spelling
import UiMarkup.Proofs.Token.Patterns
import UiMarkup.Proofs.Declaration.Grammar
import UiMarkup.Proofs.Declaration.Advance
import UiMarkup.Proofs.Declaration.Reached
import UiMarkup.Proofs.Declaration.Extent
import UiMarkup.Proofs.Declaration.Parsing
import UiMarkup.Proofs.Declaration.Erasure
import UiMarkup.Proofs.Declaration.Printing
import UiMarkup.Proofs.Declaration.Walk
import UiMarkup.Proofs.NameMap
import UiMarkup.Proofs.Check.Values
import UiMarkup.Proofs.Check.Order
import UiMarkup.Proofs.Check.Outcome
import UiMarkup.Proofs.Check.Defects
import UiMarkup.Proofs.Check.Typing
import UiMarkup.Proofs.Check.Agreement
import UiMarkup.Proofs.Declaration.Places
import UiMarkup.Proofs.Declaration.ErrorPlaces
import UiMarkup.Proofs.Declaration.Slicing
import UiMarkup.Proofs.Declaration.DepthLimit
import UiMarkup.Proofs.Check.Rules
import UiMarkup.Proofs.Number.Rounding
import UiMarkup.Proofs.Value.Numerals
import UiMarkup.Proofs.Value.Written
import UiMarkup.Proofs.Check.Erasure
import UiMarkup.Proofs.Check.Formatting
import UiMarkup.Proofs.Declaration.Legible
import UiMarkup.Proofs.Check.WriteBack
import UiMarkup.Proofs.Check.Inlining
import UiMarkup.Proofs.Schema.Registration
import UiMarkup.Proofs.Schema.Index
import UiMarkup.Proofs.Check.Growth
import UiMarkup.Proofs.Schema.History
import UiMarkup.Proofs.Declaration.Impossible
import UiMarkup.Proofs.Token.Joining
import UiMarkup.Proofs.Check.Relocation
import UiMarkup.Proofs.Check.Joining
import UiMarkup.Proofs.Token.Munch
import UiMarkup.Proofs.Token.Slices
import UiMarkup.Proofs.Declaration.Cursor
import UiMarkup.Proofs.Token.Excerpts
import UiMarkup.Proofs.Declaration.Nesting
import UiMarkup.Proofs.Declaration.Excerpts
import UiMarkup.Proofs.Check.Quoting
import UiMarkup.Proofs.Token.Filler
import UiMarkup.Proofs.Check.Filler
import UiMarkup.Proofs.Declaration.Delimiters
import UiMarkup.Proofs.Schema.Entries
import UiMarkup.Proofs.Schema.Loading
import UiMarkup.Proofs.Schema.SoundFiles
import UiMarkup.Proofs.Source.Positions
import UiMarkup.Proofs.Report.Lines
import UiMarkup.Proofs.Report.Location
import UiMarkup.Proofs.Number.Nearest
import UiMarkup.Proofs.Value.Numbers
import UiMarkup.Proofs.Value.Tokens
import UiMarkup.Proofs.Check.Precedence
import UiMarkup.Proofs.Check.Flattening
import UiMarkup.Proofs.Schema.Repetition
import UiMarkup.Proofs.Token.ClosingMark
import UiMarkup.Proofs.Text.Pieces
import UiMarkup.Proofs.Number.Scaling
import UiMarkup.Proofs.Value.Colors
import UiMarkup.Proofs.Value.LetterCase
import UiMarkup.Proofs.Check.Dump
import UiMarkup.Proofs.CommandLine.Arguments
import UiMarkup.Proofs.CommandLine.Agreement
