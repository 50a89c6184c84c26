import SfcServer.Component.Basic
import SfcServer.Component.Describe
import SfcServer.Component.Documentation
import SfcServer.Component.Extract
import SfcServer.Engine.Answer
import SfcServer.Engine.Frame
import SfcServer.Engine.Hover
import SfcServer.Engine.Launch
import SfcServer.Engine.Link
import SfcServer.Engine.Session
import SfcServer.Fault
import SfcServer.Json.Access
import SfcServer.Json.Basic
import SfcServer.Json.Display
import SfcServer.Json.Reader
import SfcServer.Json.Writer
import SfcServer.Keyed
import SfcServer.Main
import SfcServer.Markup.Directive
import SfcServer.Markup.Document
import SfcServer.Markup.Element
import SfcServer.Markup.Region
import SfcServer.Markup.Token
import SfcServer.Notice
import SfcServer.Number.Decimal
import SfcServer.Number.Double
import SfcServer.Offset.Breakpoints
import SfcServer.Offset.Lines
import SfcServer.Projection
import SfcServer.Proofs.Action
import SfcServer.Proofs.Component.Insertion
import SfcServer.Proofs.Component.Names
import SfcServer.Proofs.Engine.Conversation
import SfcServer.Proofs.Engine.Framing
import SfcServer.Proofs.Engine.Liveness
import SfcServer.Proofs.Engine.Notes
import SfcServer.Proofs.Engine.Replies
import SfcServer.Proofs.Engine.Requests
import SfcServer.Proofs.Engine.Transcript
import SfcServer.Proofs.Engine.Turns
import SfcServer.Proofs.Keyed
import SfcServer.Proofs.Markup.Cutting
import SfcServer.Proofs.Markup.DocumentLayout
import SfcServer.Proofs.Markup.EndNames
import SfcServer.Proofs.Markup.Finding
import SfcServer.Proofs.Markup.Innermost
import SfcServer.Proofs.Markup.Layout
import SfcServer.Proofs.Markup.Modes
import SfcServer.Proofs.Markup.Placement
import SfcServer.Proofs.Markup.Ranges
import SfcServer.Proofs.Markup.RawBodies
import SfcServer.Proofs.Markup.Reach
import SfcServer.Proofs.Markup.Rescan
import SfcServer.Proofs.Markup.StartTags
import SfcServer.Proofs.Markup.Tiling
import SfcServer.Proofs.Markup.TreeReader
import SfcServer.Proofs.Markup.TreeRun
import SfcServer.Proofs.Markup.TreeSteps
import SfcServer.Proofs.Markup.Written
import SfcServer.Proofs.Offset.Lines
import SfcServer.Proofs.Offset.Lookup
import SfcServer.Proofs.Offset.Nearest
import SfcServer.Proofs.Offset.Places
import SfcServer.Proofs.Projection.Regions
import SfcServer.Proofs.Projection.RoundTrip
import SfcServer.Proofs.Projection.Script
import SfcServer.Proofs.Projection.Spans
import SfcServer.Proofs.Server.EngineFindings
import SfcServer.Proofs.Server.Publications
import SfcServer.Proofs.Server.Runs
import SfcServer.Proofs.Server.Synchrony
import SfcServer.Proofs.Server.Timers
import SfcServer.Proofs.Server.Watching
import SfcServer.Proofs.Service.Declarations
import SfcServer.Proofs.Service.Findings
import SfcServer.Proofs.Service.Highlights
import SfcServer.Proofs.Service.Moves
import SfcServer.Proofs.Service.Outline
import SfcServer.Proofs.Store.Coherence
import SfcServer.Proofs.Store.Dependents
import SfcServer.Proofs.Store.Entries
import SfcServer.Proofs.Store.History
import SfcServer.Proofs.Store.Reading
import SfcServer.Proofs.Store.Versions
import SfcServer.Proofs.Template.Balance
import SfcServer.Proofs.Template.Breakpoints
import SfcServer.Proofs.Template.Chains
import SfcServer.Proofs.Template.Collecting
import SfcServer.Proofs.Template.Folding
import SfcServer.Proofs.Template.Fragments
import SfcServer.Proofs.Template.Interpolations
import SfcServer.Proofs.Template.Location
import SfcServer.Proofs.Template.Marks
import SfcServer.Proofs.Template.Nesting
import SfcServer.Proofs.Template.Order
import SfcServer.Proofs.Template.Owners
import SfcServer.Proofs.Template.Regions
import SfcServer.Proofs.Template.Reopening
import SfcServer.Proofs.Template.Sequence
import SfcServer.Proofs.Template.Stranding
import SfcServer.Proofs.Template.Values
import SfcServer.Proofs.Text.Ascii
import SfcServer.Proofs.Text.Braces
import SfcServer.Proofs.Text.Characters
import SfcServer.Proofs.Text.Parts
import SfcServer.Protocol.Encode
import SfcServer.Protocol.Value
import SfcServer.Script.Grammar
import SfcServer.Script.Grammar.Block
import SfcServer.Script.Grammar.ClassBody
import SfcServer.Script.Grammar.Expression
import SfcServer.Script.Grammar.Goal
import SfcServer.Script.Grammar.Literal
import SfcServer.Script.Grammar.Statement
import SfcServer.Script.Grammar.Type
import SfcServer.Script.Lexical
import SfcServer.Script.Program
import SfcServer.Script.Reader
import SfcServer.Script.Spot
import SfcServer.Script.Tree
import SfcServer.Server.Basic
import SfcServer.Server.Message
import SfcServer.Server.Request
import SfcServer.Server.Validation
import SfcServer.Service.Basic
import SfcServer.Service.Markup
import SfcServer.Service.Query
import SfcServer.Settings.Basic
import SfcServer.Settings.Command
import SfcServer.Store.Basic
import SfcServer.Store.Load
import SfcServer.Template.Branch
import SfcServer.Template.Expression
import SfcServer.Template.Render
import SfcServer.Text.Basic
import SfcServer.Text.Encoding
import SfcServer.Text.Letter
import SfcServer.Text.LowerCase
import SfcServer.Text.Numeral
import SfcServer.Text.Printable
import SfcServer.Text.Utf8
import SfcServer.Uri.File
import SfcServer.Uri.Path
import SfcServer.Uri.Percent
