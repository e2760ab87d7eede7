import AwaitStore.Bench.Action
import AwaitStore.Bench.Benchmark
import AwaitStore.Bench.Blocks
import AwaitStore.Bench.Draw
import AwaitStore.Bench.Fault
import AwaitStore.Bench.IndexRange
import AwaitStore.Bench.Mix
import AwaitStore.Bench.Population
import AwaitStore.Bench.Results
import AwaitStore.Bench.Run
import AwaitStore.Bench.Suite
import AwaitStore.Capacity
import AwaitStore.Client.Dialogue
import AwaitStore.Client.Link
import AwaitStore.Client.Remote
import AwaitStore.CommandLine.Connect
import AwaitStore.CommandLine.Files
import AwaitStore.CommandLine.Help
import AwaitStore.CommandLine.Host
import AwaitStore.CommandLine.Measure
import AwaitStore.CommandLine.Options
import AwaitStore.CommandLine.Serve
import AwaitStore.Config.Address
import AwaitStore.Config.Json
import AwaitStore.Config.Load
import AwaitStore.Config.Settings
import AwaitStore.Data
import AwaitStore.Decimal.Binary64
import AwaitStore.Decimal.Fixed
import AwaitStore.Decimal.Shortest
import AwaitStore.Main
import AwaitStore.Operation
import AwaitStore.Request
import AwaitStore.Server.Outlet
import AwaitStore.Server.Pool
import AwaitStore.Server.Service
import AwaitStore.Server.Sessions
import AwaitStore.Server.Sha256
import AwaitStore.Server.Users
import AwaitStore.Shell.Command
import AwaitStore.Shell.Literal
import AwaitStore.Shell.Report
import AwaitStore.Shell.Runner
import AwaitStore.Store.Backend
import AwaitStore.Store.Kind
import AwaitStore.Store.PerKeyConditions
import AwaitStore.Store.ShardLocks
import AwaitStore.Store.Sharded
import AwaitStore.Store.SharedCondition
import AwaitStore.Store.SingleLock
import AwaitStore.Store.SipHash
import AwaitStore.Store.Triggers
import AwaitStore.Text.Blank
import AwaitStore.Text.Utf8
import AwaitStore.Wire.Decode
import AwaitStore.Wire.Encode
import AwaitStore.Wire.Fault
import AwaitStore.Wire.Frame
import AwaitStore.Wire.FrameReader
import AwaitStore.Wire.FrameWriter
import AwaitStore.Wire.Incoming
import AwaitStore.Wire.Listing
import AwaitStore.Wire.Message
import AwaitStore.Wire.Word
import AwaitStore.Proofs.Calls
import AwaitStore.Proofs.Store.Bookkeeping
import AwaitStore.Proofs.Store.Lap
import AwaitStore.Proofs.Store.FirstMatch
import AwaitStore.Proofs.Store.PerKeyRecords
import AwaitStore.Proofs.Store.SharedRecords
import AwaitStore.Proofs.Store.WaiterIds
import AwaitStore.Proofs.Server.Staffing
import AwaitStore.Proofs.Wire.Grammar
import AwaitStore.Proofs.Wire.Collections
import AwaitStore.Proofs.Wire.Decoding
import AwaitStore.Proofs.Wire.Writers
import AwaitStore.Proofs.Wire.RoundTrip
import AwaitStore.Proofs.Wire.Acceptance
import AwaitStore.Proofs.Server.Admission
import AwaitStore.Proofs.Store.Notice
import AwaitStore.Proofs.Store.Summons
import AwaitStore.Proofs.Store.Upkeep
import AwaitStore.Proofs.Store.AtomicStore
import AwaitStore.Proofs.Store.Turns
import AwaitStore.Proofs.Store.Equivalence
import AwaitStore.Proofs.Store.Shards
import AwaitStore.Proofs.Store.OneTable
import AwaitStore.Proofs.Wire.Streams
import AwaitStore.Proofs.Wire.Boundaries
import AwaitStore.Proofs.Store.LockSteps
import AwaitStore.Proofs.Store.LockOrder
import AwaitStore.Proofs.Store.Visits
import AwaitStore.Proofs.Store.InTurn
import AwaitStore.Proofs.Store.Interleaving
import AwaitStore.Proofs.Store.Serializability
import AwaitStore.Proofs.Server.Strain
import AwaitStore.Proofs.Server.Outlet
import AwaitStore.Proofs.Server.Connections
import AwaitStore.Proofs.Server.History
import AwaitStore.Proofs.Server.Enrolment
import AwaitStore.Proofs.Server.Jobs
import AwaitStore.Proofs.Server.Completion
import AwaitStore.Proofs.Server.Replies
import AwaitStore.Proofs.Server.LoginReplies
import AwaitStore.Proofs.Server.Outboxes
import AwaitStore.Proofs.Server.Answers
import AwaitStore.Proofs.Server.Credentials
import AwaitStore.Proofs.Server.Gate
import AwaitStore.Proofs.Store.Returns
import AwaitStore.Proofs.Client.Passage
import AwaitStore.Proofs.Client.Afar
import AwaitStore.Proofs.Client.Callers
import AwaitStore.Proofs.Client.Exchange
import AwaitStore.Proofs.Client.Accounts
import AwaitStore.Proofs.Client.Routing
import AwaitStore.Proofs.Client.Logins
import AwaitStore.Proofs.Client.Fates
import AwaitStore.Proofs.Client.Wakeups
import AwaitStore.Proofs.Client.Rest
import AwaitStore.Proofs.Client.Delivery
import AwaitStore.Proofs.Shell.Grammar
import AwaitStore.Proofs.Shell.Words
import AwaitStore.Proofs.Shell.Literals
import AwaitStore.Proofs.Shell.Arguments
import AwaitStore.Proofs.Shell.Parsing
import AwaitStore.Proofs.Shell.Printing
import AwaitStore.Proofs.Wire.Sizes
import AwaitStore.Proofs.Store.Provenance
import AwaitStore.Proofs.Client.ReplySizes
import AwaitStore.Proofs.Bench.Claiming
import AwaitStore.Proofs.Store.Quiet
import AwaitStore.Proofs.Bench.Drawing
import AwaitStore.Proofs.Bench.Fitting
import AwaitStore.Proofs.Bench.KeyRanges
import AwaitStore.Proofs.Bench.Filling
import AwaitStore.Proofs.Bench.Moves
import AwaitStore.Proofs.Bench.Tally
import AwaitStore.Proofs.Bench.Weights
import AwaitStore.Proofs.Bench.Statistics
import AwaitStore.Proofs.Wire.Damage
import AwaitStore.Proofs.Store.Release
import AwaitStore.Proofs.Bench.Conditions
import AwaitStore.Proofs.Bench.Unlocking
import AwaitStore.Proofs.Bench.ReportNames
import AwaitStore.Proofs.Bench.Reports
import AwaitStore.Proofs.Store.Outcomes
import AwaitStore.Proofs.Shell.Notes
import AwaitStore.Proofs.Shell.Lines
