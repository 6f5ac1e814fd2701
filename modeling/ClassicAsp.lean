import ClassicAsp.Analysis
import ClassicAsp.AnalysisCache
import ClassicAsp.Assoc
import ClassicAsp.BlankLine
import ClassicAsp.Block
import ClassicAsp.CaseTable
import ClassicAsp.CaseTable.Builtin
import ClassicAsp.CaseTable.Bundled
import ClassicAsp.CaseTable.Reading
import ClassicAsp.CommandLine.Arguments
import ClassicAsp.CommandLine.Files
import ClassicAsp.CommandLine.Glob
import ClassicAsp.CommandLine.Help
import ClassicAsp.CommandLine.Run
import ClassicAsp.Config
import ClassicAsp.Config.Discovery
import ClassicAsp.Config.Reading
import ClassicAsp.Directive
import ClassicAsp.Document
import ClassicAsp.Fault
import ClassicAsp.FileTree
import ClassicAsp.Format
import ClassicAsp.Indentation
import ClassicAsp.Limits
import ClassicAsp.Line
import ClassicAsp.Literal
import ClassicAsp.Main
import ClassicAsp.Normalization
import ClassicAsp.Outline
import ClassicAsp.Path
import ClassicAsp.Proofs.Alignment
import ClassicAsp.Proofs.AnalysisReuse
import ClassicAsp.Proofs.Ancestors
import ClassicAsp.Proofs.Appending
import ClassicAsp.Proofs.BlankEnds
import ClassicAsp.Proofs.Blanks
import ClassicAsp.Proofs.CaseRewriting
import ClassicAsp.Proofs.CheckRun
import ClassicAsp.Proofs.CommentLevels
import ClassicAsp.Proofs.Continuations
import ClassicAsp.Proofs.EntryOrder
import ClassicAsp.Proofs.FileRewriting
import ClassicAsp.Proofs.FileVerdicts
import ClassicAsp.Proofs.Forest
import ClassicAsp.Proofs.FoundPhrases
import ClassicAsp.Proofs.Growth
import ClassicAsp.Proofs.IndentBounds
import ClassicAsp.Proofs.InnermostBlocks
import ClassicAsp.Proofs.LayoutFixpoint
import ClassicAsp.Proofs.LeadingWords
import ClassicAsp.Proofs.Letters
import ClassicAsp.Proofs.Levels
import ClassicAsp.Proofs.LineNormalization
import ClassicAsp.Proofs.LinePlaces
import ClassicAsp.Proofs.LineSplitting
import ClassicAsp.Proofs.Lines
import ClassicAsp.Proofs.LiteralGaps
import ClassicAsp.Proofs.LiteralNumbers
import ClassicAsp.Proofs.LongestPhrases
import ClassicAsp.Proofs.MarkerSearch
import ClassicAsp.Proofs.Markers
import ClassicAsp.Proofs.Masking
import ClassicAsp.Proofs.MemberReferences
import ClassicAsp.Proofs.Moves
import ClassicAsp.Proofs.NestingCeiling
import ClassicAsp.Proofs.OpenBlocks
import ClassicAsp.Proofs.OperatorSpacing
import ClassicAsp.Proofs.Outlines
import ClassicAsp.Proofs.OwnedBytes
import ClassicAsp.Proofs.Ownership
import ClassicAsp.Proofs.Placeholders
import ClassicAsp.Proofs.Positions
import ClassicAsp.Proofs.Preservation
import ClassicAsp.Proofs.RecasingFixpoint
import ClassicAsp.Proofs.RecasingSteps
import ClassicAsp.Proofs.Relayout
import ClassicAsp.Proofs.Replay
import ClassicAsp.Proofs.Respacing
import ClassicAsp.Proofs.Restoring
import ClassicAsp.Proofs.Restyling
import ClassicAsp.Proofs.Rewording
import ClassicAsp.Proofs.SecondPass
import ClassicAsp.Proofs.ServiceTrace
import ClassicAsp.Proofs.SettingsLayers
import ClassicAsp.Proofs.SettledMembers
import ClassicAsp.Proofs.SettledTexts
import ClassicAsp.Proofs.SpacedTokens
import ClassicAsp.Proofs.StatementLevels
import ClassicAsp.Proofs.TableEpochs
import ClassicAsp.Proofs.TokenForms
import ClassicAsp.Proofs.Transparency
import ClassicAsp.Proofs.Truncation
import ClassicAsp.Proofs.Walk
import ClassicAsp.Proofs.WellCased
import ClassicAsp.Proofs.Writing
import ClassicAsp.Recasing
import ClassicAsp.Region
import ClassicAsp.Service
import ClassicAsp.Service.Request
import ClassicAsp.Spacing
import ClassicAsp.Statement.Form
import ClassicAsp.Statement.Role
import ClassicAsp.TableStore
import ClassicAsp.Text.Alphabetic
import ClassicAsp.Text.Blank
import ClassicAsp.Text.Bytes
import ClassicAsp.Text.CaseRun
import ClassicAsp.Text.Cased
import ClassicAsp.Text.Folding
import ClassicAsp.Text.Lowercase
import ClassicAsp.Text.Mark
import ClassicAsp.Text.Numeral
import ClassicAsp.Text.Numeric
import ClassicAsp.Text.PivotTree
import ClassicAsp.Text.Ranges
import ClassicAsp.Text.Recent
import ClassicAsp.Text.Split
import ClassicAsp.Text.Word
import ClassicAsp.Token
import ClassicAsp.Toml.Decode
import ClassicAsp.Toml.Reader
import ClassicAsp.Toml.Scalar
import ClassicAsp.Toml.Value
