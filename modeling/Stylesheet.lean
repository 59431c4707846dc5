import Stylesheet.Block
import Stylesheet.Build
import Stylesheet.CommandLine
import Stylesheet.Comment
import Stylesheet.Compilation
import Stylesheet.Compiler
import Stylesheet.Condition.Basic
import Stylesheet.Condition.Resolve
import Stylesheet.Config.Basic
import Stylesheet.Config.Reader
import Stylesheet.Constant.Feed
import Stylesheet.Constant.Placeholder
import Stylesheet.Cut
import Stylesheet.Decimal.Binary
import Stylesheet.Decimal.Integer
import Stylesheet.Decimal.Layout
import Stylesheet.Decimal.Reader
import Stylesheet.Decimal.Shortest
import Stylesheet.Delimiter
import Stylesheet.Diagnostic.Basic
import Stylesheet.Diagnostic.Catalog
import Stylesheet.Diagnostic.Severity
import Stylesheet.Error
import Stylesheet.Extension.Baseline
import Stylesheet.Extension.Basic
import Stylesheet.Extension.Color
import Stylesheet.FileTree
import Stylesheet.Flag
import Stylesheet.Grid
import Stylesheet.Include
import Stylesheet.Json.Basic
import Stylesheet.Json.Parser
import Stylesheet.Json.Printer
import Stylesheet.Literal
import Stylesheet.Loop
import Stylesheet.Main
import Stylesheet.Mixin.Definition
import Stylesheet.Mixin.Expansion
import Stylesheet.Mixin.Invocation
import Stylesheet.Node.Basic
import Stylesheet.Node.Flat
import Stylesheet.Node.Parser
import Stylesheet.Node.Printer
import Stylesheet.Path
import Stylesheet.Proofs.Flattening
import Stylesheet.Selector
import Stylesheet.Source
import Stylesheet.Stage.Basic
import Stylesheet.Stage.Constants
import Stylesheet.Stage.Layout
import Stylesheet.Stage.Mixins
import Stylesheet.Stage.Standard
import Stylesheet.Table
import Stylesheet.Text.Basic
import Stylesheet.Text.Blank
import Stylesheet.Text.WordChar
import Stylesheet.Tight
import Stylesheet.TopLevel
import Stylesheet.Url
import Stylesheet.Value
import Stylesheet.Xml
import Stylesheet.Yaml.Basic
import Stylesheet.Yaml.Parser
import Stylesheet.Yaml.Scalar
import Stylesheet.Yaml.Token
import Stylesheet.Proofs.Brackets
import Stylesheet.Proofs.Clean
import Stylesheet.Proofs.Run
import Stylesheet.Proofs.Threshold
import Stylesheet.Proofs.Reading
import Stylesheet.Proofs.Statement
import Stylesheet.Proofs.RoundTrip
import Stylesheet.Proofs.Normalization
import Stylesheet.Proofs.Expansion
import Stylesheet.Proofs.Template
import Stylesheet.Proofs.CycleGuard
import Stylesheet.Proofs.Hygiene
import Stylesheet.Proofs.Scanning
import Stylesheet.Proofs.Parsed
import Stylesheet.Proofs.Acceptance
import Stylesheet.Proofs.Flags
import Stylesheet.Proofs.Conditionals
import Stylesheet.Proofs.Loops
import Stylesheet.Proofs.Places
import Stylesheet.Proofs.IncludeClosure
import Stylesheet.Proofs.Inert
import Stylesheet.Proofs.Literals
import Stylesheet.Proofs.Derivation
import Stylesheet.Proofs.Respelling
import Stylesheet.Proofs.Spellings
import Stylesheet.Proofs.Tightening
import Stylesheet.Proofs.ShortValues
import Stylesheet.Proofs.Imports
import Stylesheet.Proofs.Compressed
import Stylesheet.Proofs.Strings
import Stylesheet.Proofs.FixedPoint
import Stylesheet.Proofs.Lossless
import Stylesheet.Proofs.Structure
import Stylesheet.Proofs.Balance
import Stylesheet.Proofs.Precedence
import Stylesheet.Proofs.Offsets
import Stylesheet.Proofs.Matching
import Stylesheet.Proofs.BlockSearch
import Stylesheet.Proofs.ImportOnce
import Stylesheet.Proofs.Seams
import Stylesheet.Proofs.Builds
import Stylesheet.Proofs.Separators
import Stylesheet.Proofs.Interpolation
import Stylesheet.Proofs.Quotes
import Stylesheet.Proofs.Ampersands
import Stylesheet.Proofs.OpenStrings
import Stylesheet.Proofs.Unquoting
import Stylesheet.Proofs.LineComments
import Stylesheet.Proofs.Comparisons
import Stylesheet.Proofs.Invocations
import Stylesheet.Proofs.MixinDefinitions
import Stylesheet.Proofs.Climbing
import Stylesheet.Proofs.LiteralSpans
import Stylesheet.Proofs.TightLines
import Stylesheet.Proofs.HiddenIncludes
import Stylesheet.Proofs.BlankedComments
import Stylesheet.Proofs.ByteScan
