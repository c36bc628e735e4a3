import LeastLoad.Time
import LeastLoad.Expiry.Ring
import LeastLoad.Expiry.Sliding
import LeastLoad.Random.Words
import LeastLoad.Random.Xoshiro
import LeastLoad.Metrics.Reservoir
import LeastLoad.Choice.Partition
import LeastLoad.Choice.Weighted
import LeastLoad.Metrics.Rate
import LeastLoad.Metrics.Exposition
import LeastLoad.Metrics.Telemetry
import LeastLoad.IndexedHeap.Basic
import LeastLoad.IndexedHeap.Check
import LeastLoad.Endpoint.Load
import LeastLoad.Endpoint.Directory
import LeastLoad.Fleet.Ranking
import LeastLoad.Fleet.Grouping
import LeastLoad.Fleet.Listener
import LeastLoad.Fleet.Basic
import LeastLoad.Fleet.Loads
import LeastLoad.Fleet.Dispatch
import LeastLoad.Fleet.Members
import LeastLoad.Text.Shortest
import LeastLoad.Text.Reader
import LeastLoad.Text.Numeral
import LeastLoad.Config.Value
import LeastLoad.Config.Settings
import LeastLoad.Config.Strict
import LeastLoad.Config.Override
import LeastLoad.Config.Extract
import LeastLoad.Text.Escape
import LeastLoad.Config.Json
import LeastLoad.Config.Toml.Moment
import LeastLoad.Config.Toml.Tree
import LeastLoad.Config.Toml
import LeastLoad.Config.Yaml.Cursor
import LeastLoad.Config.Yaml.FlowScalar
import LeastLoad.Config.Yaml.BlockScalar
import LeastLoad.Config.Yaml.Tag
import LeastLoad.Config.Yaml.Token
import LeastLoad.Config.Yaml.Node
import LeastLoad.Config.Yaml.Document
import LeastLoad.Config.Yaml.Schema
import LeastLoad.Config.Yaml
import LeastLoad.Config.Environment
import LeastLoad.Config.Document
import LeastLoad.Config.Layers
import LeastLoad.Config.Arguments
import LeastLoad.Fleet.Builder
import LeastLoad.Proofs.Expiry.Stored
import LeastLoad.Proofs.Expiry.Ledger
import LeastLoad.Proofs.Expiry.Delivered
import LeastLoad.Proofs.Expiry.Remaining
import LeastLoad.Proofs.Expiry.Conserved
import LeastLoad.Proofs.IndexedHeap.Index
import LeastLoad.Proofs.IndexedHeap.Contents
import LeastLoad.Proofs.IndexedHeap.Rekey
import LeastLoad.Proofs.IndexedHeap.Sound
import LeastLoad.Proofs.IndexedHeap.Session
import LeastLoad.Proofs.IndexedHeap.Lawless
import LeastLoad.Proofs.Endpoint.Load
import LeastLoad.Proofs.Fleet.Ranking
import LeastLoad.Proofs.Fleet.Level
import LeastLoad.Proofs.Endpoint.Directory
import LeastLoad.Proofs.Fleet.Alone
import LeastLoad.Proofs.Fleet.Install
import LeastLoad.Proofs.Fleet.Solo
import LeastLoad.Proofs.Fleet.Exact
import LeastLoad.Proofs.Expiry.Awaited
import LeastLoad.Proofs.Endpoint.Awaited
import LeastLoad.Proofs.Fleet.Wakeups
import LeastLoad.Proofs.Fleet.Exhausted
import LeastLoad.Proofs.Endpoint.Unused
import LeastLoad.Proofs.Fleet.Overlooked
import LeastLoad.Proofs.Endpoint.Synced
import LeastLoad.Proofs.Endpoint.Account
import LeastLoad.Proofs.Fleet.Sorted
import LeastLoad.Proofs.Fleet.Prompt
import LeastLoad.Proofs.Fleet.Tasks
import LeastLoad.Proofs.Fleet.Misplaced
import LeastLoad.Proofs.Fleet.Failing
import LeastLoad.Proofs.Fleet.Watched
import LeastLoad.Proofs.Fleet.Stir
import LeastLoad.Proofs.Fleet.Shared
import LeastLoad.Proofs.Fleet.Joined
import LeastLoad.Proofs.Fleet.Runs
import LeastLoad.Proofs.Fleet.Heard
import LeastLoad.Proofs.Fleet.Unheard
import LeastLoad.Proofs.Fleet.Elsewhere
import LeastLoad.Proofs.Fleet.Raised
import LeastLoad.Proofs.Endpoint.Standing
import LeastLoad.Proofs.Choice.Partition
import LeastLoad.Proofs.Choice.Weighted
import LeastLoad.Proofs.Fleet.Scan
import LeastLoad.Proofs.Fleet.Shifts
import LeastLoad.Proofs.Fleet.Rooted
import LeastLoad.Proofs.Fleet.Deeds
import LeastLoad.Proofs.Config.Written
import LeastLoad.Proofs.Config.Arguments
import LeastLoad.Proofs.Config.Latest
import LeastLoad.Proofs.Fleet.Built
import LeastLoad.Proofs.Fleet.Grouped
import LeastLoad.Proofs.Fleet.References
import LeastLoad.Proofs.Fleet.Accounted
import LeastLoad.Proofs.Fleet.Entered
import LeastLoad.Proofs.Fleet.Charged
import LeastLoad.Proofs.Fleet.Calm
import LeastLoad.Proofs.Fleet.Even
import LeastLoad.Proofs.IndexedHeap.Repeated
import LeastLoad.Proofs.IndexedHeap.Agree
import LeastLoad.Proofs.IndexedHeap.Resort
import LeastLoad.Proofs.Fleet.Refreshed
import LeastLoad.Proofs.Fleet.Settled
import LeastLoad.Proofs.Fleet.Watchful
import LeastLoad.Proofs.Fleet.Rebuilt
import LeastLoad.Proofs.Endpoint.Uses
import LeastLoad.Proofs.Fleet.Standing
import LeastLoad.Proofs.Fleet.Rotation
import LeastLoad.Proofs.Fleet.Turns
import LeastLoad.Proofs.Metrics.Reservoir
import LeastLoad.Proofs.Metrics.Exposition
import LeastLoad.Proofs.Expiry.Whereabouts
import LeastLoad.Proofs.Expiry.Located
import LeastLoad.Proofs.Expiry.Outstanding
import LeastLoad.Proofs.Endpoint.Reading
