import PackageRecipe.CommandLine
import PackageRecipe.Completion
import PackageRecipe.Completion.Item
import PackageRecipe.Completion.Query
import PackageRecipe.Completion.Ranking
import PackageRecipe.Completion.ReleaseDate
import PackageRecipe.Completion.Score
import PackageRecipe.Completion.Version
import PackageRecipe.Decimal.Shortest
import PackageRecipe.Editor.Cursor
import PackageRecipe.Editor.Diagnostic
import PackageRecipe.Editor.Hover
import PackageRecipe.Editor.Message
import PackageRecipe.Editor.Outline
import PackageRecipe.FileTree
import PackageRecipe.Json
import PackageRecipe.Json.Reader
import PackageRecipe.Json.Record
import PackageRecipe.Json.Writer
import PackageRecipe.Keyed
import PackageRecipe.Main
import PackageRecipe.Package
import PackageRecipe.Program
import PackageRecipe.Proofs.Completion.Agreement
import PackageRecipe.Proofs.Completion.Describing
import PackageRecipe.Proofs.Completion.Ranking
import PackageRecipe.Proofs.Completion.SortKeys
import PackageRecipe.Proofs.Completion.Versions
import PackageRecipe.Proofs.Editor.Nesting
import PackageRecipe.Proofs.Editor.Regions
import PackageRecipe.Proofs.Editor.Typing
import PackageRecipe.Proofs.FileTree
import PackageRecipe.Proofs.Json.Record
import PackageRecipe.Proofs.Keyed
import PackageRecipe.Proofs.Registry.Address
import PackageRecipe.Proofs.Registry.Keeping
import PackageRecipe.Proofs.Registry.Visit
import PackageRecipe.Proofs.Report
import PackageRecipe.Proofs.Schema.Nodes
import PackageRecipe.Proofs.Sdl.Accounting
import PackageRecipe.Proofs.Sdl.Braces
import PackageRecipe.Proofs.Sdl.Containment
import PackageRecipe.Proofs.Sdl.Covering
import PackageRecipe.Proofs.Sdl.Cutting
import PackageRecipe.Proofs.Sdl.Depth
import PackageRecipe.Proofs.Sdl.Descent
import PackageRecipe.Proofs.Sdl.Escaping
import PackageRecipe.Proofs.Sdl.Grammar
import PackageRecipe.Proofs.Sdl.Grouping
import PackageRecipe.Proofs.Sdl.LineEnd
import PackageRecipe.Proofs.Sdl.Lineage
import PackageRecipe.Proofs.Sdl.Literal
import PackageRecipe.Proofs.Sdl.Lookahead
import PackageRecipe.Proofs.Sdl.Numeral
import PackageRecipe.Proofs.Sdl.NumeralToken
import PackageRecipe.Proofs.Sdl.Origin
import PackageRecipe.Proofs.Sdl.Phrase
import PackageRecipe.Proofs.Sdl.Placement
import PackageRecipe.Proofs.Sdl.Prefix
import PackageRecipe.Proofs.Sdl.Printing
import PackageRecipe.Proofs.Sdl.Quoting
import PackageRecipe.Proofs.Sdl.Recovery
import PackageRecipe.Proofs.Sdl.Reporting
import PackageRecipe.Proofs.Sdl.Scanning
import PackageRecipe.Proofs.Sdl.Shifting
import PackageRecipe.Proofs.Sdl.Slicing
import PackageRecipe.Proofs.Sdl.Spacing
import PackageRecipe.Proofs.Sdl.Spelling
import PackageRecipe.Proofs.Sdl.Truncating
import PackageRecipe.Proofs.Sdl.Views
import PackageRecipe.Proofs.Session.Schedule
import PackageRecipe.Proofs.Session.Settling
import PackageRecipe.Proofs.Task.Binding
import PackageRecipe.Proofs.Task.Command
import PackageRecipe.Proofs.Task.Packages
import PackageRecipe.Proofs.Task.Scope
import PackageRecipe.Proofs.Task.Storage
import PackageRecipe.Proofs.Text.Line
import PackageRecipe.Proofs.Text.Pattern
import PackageRecipe.Proofs.Text.Position
import PackageRecipe.Proofs.Text.Row
import PackageRecipe.Proofs.Url.Component
import PackageRecipe.Proofs.Url.Directory
import PackageRecipe.Proofs.Validation.Resolution
import PackageRecipe.Proofs.Validation.Rules
import PackageRecipe.Proofs.Validation.SubPackage
import PackageRecipe.Registry
import PackageRecipe.Registry.Answer
import PackageRecipe.Registry.Status
import PackageRecipe.Report
import PackageRecipe.Schema
import PackageRecipe.Schema.License
import PackageRecipe.Schema.Recipe
import PackageRecipe.Sdl.Descent
import PackageRecipe.Sdl.Document
import PackageRecipe.Sdl.Escape
import PackageRecipe.Sdl.Numeral
import PackageRecipe.Sdl.Piece
import PackageRecipe.Sdl.Problem
import PackageRecipe.Sdl.Statement
import PackageRecipe.Sdl.Tag
import PackageRecipe.Sdl.Token
import PackageRecipe.Sdl.Value
import PackageRecipe.Session
import PackageRecipe.Session.Exchange
import PackageRecipe.Session.Message
import PackageRecipe.Session.Schedule
import PackageRecipe.Settings
import PackageRecipe.Settings.Reading
import PackageRecipe.Task
import PackageRecipe.Task.Definition
import PackageRecipe.Task.Discovery
import PackageRecipe.Task.Message
import PackageRecipe.Text.Blank
import PackageRecipe.Text.Case
import PackageRecipe.Text.DecimalDigit
import PackageRecipe.Text.Latin
import PackageRecipe.Text.Letter
import PackageRecipe.Text.Mark
import PackageRecipe.Text.Pattern
import PackageRecipe.Text.Position
import PackageRecipe.Text.Span
import PackageRecipe.Text.Split
import PackageRecipe.Toml
import PackageRecipe.Toml.Scalar
import PackageRecipe.Toml.Table
import PackageRecipe.Url
import PackageRecipe.Url.Host
import PackageRecipe.Url.Percent
import PackageRecipe.Url.Punycode
import PackageRecipe.Validation
