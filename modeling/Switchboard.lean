import Switchboard.Address
import Switchboard.Assets
import Switchboard.Bounds
import Switchboard.CloseReason
import Switchboard.Command.Options
import Switchboard.Command.Run
import Switchboard.Config.Check
import Switchboard.Config.Document
import Switchboard.Config.Layers
import Switchboard.Config.Level
import Switchboard.Config.Settings
import Switchboard.Counters
import Switchboard.Decimal.Double
import Switchboard.Decimal.Shortest
import Switchboard.Envelope
import Switchboard.Event
import Switchboard.Files
import Switchboard.Frame
import Switchboard.Http.Answer
import Switchboard.Http.Routes
import Switchboard.Http.Target
import Switchboard.Hub.Basic
import Switchboard.Hub.Mailbox
import Switchboard.Hub.Peers
import Switchboard.Hub.Report
import Switchboard.Json.Decode
import Switchboard.Json.Fault
import Switchboard.Json.Print
import Switchboard.Json.Read
import Switchboard.Json.Scan
import Switchboard.Json.Skip
import Switchboard.Json.Tree
import Switchboard.Json.Value
import Switchboard.Logging.Filter
import Switchboard.Logging.Moment
import Switchboard.Logging.Output
import Switchboard.Logging.Record
import Switchboard.Main
import Switchboard.Path
import Switchboard.Policy
import Switchboard.Proofs.Assets.Serving
import Switchboard.Proofs.Config.Durations
import Switchboard.Proofs.Config.FixedPoint
import Switchboard.Proofs.Config.LevelNames
import Switchboard.Proofs.Config.Levels
import Switchboard.Proofs.Config.Overrides
import Switchboard.Proofs.Config.Precedence
import Switchboard.Proofs.Config.Scalars
import Switchboard.Proofs.Config.Sections
import Switchboard.Proofs.Counters.Documents
import Switchboard.Proofs.Counters.Walk
import Switchboard.Proofs.Decimal.Rounding
import Switchboard.Proofs.Envelope.Opacity
import Switchboard.Proofs.Envelope.Reading
import Switchboard.Proofs.Envelope.Refusal
import Switchboard.Proofs.Files.Paths
import Switchboard.Proofs.Hub.Directory
import Switchboard.Proofs.Hub.Flag
import Switchboard.Proofs.Hub.Growth
import Switchboard.Proofs.Hub.Likeness
import Switchboard.Proofs.Hub.Outline
import Switchboard.Proofs.Hub.Recount
import Switchboard.Proofs.Hub.Shares
import Switchboard.Proofs.Hub.Tallies
import Switchboard.Proofs.Json.Alone
import Switchboard.Proofs.Json.Documents
import Switchboard.Proofs.Json.Grammar
import Switchboard.Proofs.Json.Integers
import Switchboard.Proofs.Json.Items
import Switchboard.Proofs.Json.Magnitudes
import Switchboard.Proofs.Json.Meanings
import Switchboard.Proofs.Json.Names
import Switchboard.Proofs.Json.Numerals
import Switchboard.Proofs.Json.Overlays
import Switchboard.Proofs.Json.Printing
import Switchboard.Proofs.Json.Records
import Switchboard.Proofs.Json.Restoring
import Switchboard.Proofs.Json.Scaling
import Switchboard.Proofs.Json.Skipping
import Switchboard.Proofs.Json.Texts
import Switchboard.Proofs.Json.Tokens
import Switchboard.Proofs.Json.Trees
import Switchboard.Proofs.Json.Writing
import Switchboard.Proofs.Relay.Admission
import Switchboard.Proofs.Relay.Calls
import Switchboard.Proofs.Relay.Census
import Switchboard.Proofs.Relay.Concord
import Switchboard.Proofs.Relay.Containment
import Switchboard.Proofs.Relay.Flag
import Switchboard.Proofs.Relay.Handover
import Switchboard.Proofs.Relay.Lockstep
import Switchboard.Proofs.Relay.Moments
import Switchboard.Proofs.Relay.Offence
import Switchboard.Proofs.Relay.Pacing
import Switchboard.Proofs.Relay.Passage
import Switchboard.Proofs.Relay.Settling
import Switchboard.Proofs.Relay.Shutdown
import Switchboard.Proofs.Relay.Standing
import Switchboard.Proofs.Relay.Teardown
import Switchboard.Proofs.Session.Accounts
import Switchboard.Proofs.Session.Fates
import Switchboard.Proofs.Session.Flag
import Switchboard.Proofs.Session.Gauge
import Switchboard.Proofs.Session.Independence
import Switchboard.Proofs.Session.Ledger
import Switchboard.Proofs.Session.Opacity
import Switchboard.Proofs.Session.Ownership
import Switchboard.Proofs.Session.Queues
import Switchboard.Proofs.Session.Reckoning
import Switchboard.Proofs.Session.Records
import Switchboard.Proofs.Session.Recount
import Switchboard.Proofs.Session.Refusals
import Switchboard.Proofs.Session.Routing
import Switchboard.Proofs.Session.Shares
import Switchboard.Proofs.Stage.Forward
import Switchboard.Proofs.Text.Lenient
import Switchboard.Proofs.Text.Lowering
import Switchboard.Proofs.Text.Pieces
import Switchboard.Proofs.Text.Spelling
import Switchboard.Proofs.Text.Trimming
import Switchboard.Proofs.Tls.Chain
import Switchboard.Proofs.Tls.FirstKey
import Switchboard.Proofs.Tls.Lines
import Switchboard.Proofs.Tls.Sections
import Switchboard.Proofs.Tls.Sextets
import Switchboard.Proofs.Tls.Startup
import Switchboard.Relay.Action
import Switchboard.Relay.Clock
import Switchboard.Relay.Link
import Switchboard.Relay.Wire
import Switchboard.Relay.World
import Switchboard.Session
import Switchboard.Stage
import Switchboard.Text.Blank
import Switchboard.Text.Borders
import Switchboard.Text.CaseTable
import Switchboard.Text.Hidden
import Switchboard.Text.Lines
import Switchboard.Text.Lowercase
import Switchboard.Text.Numeral
import Switchboard.Text.Percent
import Switchboard.Text.Quoted
import Switchboard.Text.Utf8
import Switchboard.Tls.Base64
import Switchboard.Tls.Der
import Switchboard.Tls.Material
import Switchboard.Tls.Pem
