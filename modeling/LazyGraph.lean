import LazyGraph.Accessor
import LazyGraph.Accessor.Context
import LazyGraph.Accessor.Plan
import LazyGraph.Cache
import LazyGraph.Cache.Container
import LazyGraph.Cache.Normalizer
import LazyGraph.Cache.Path
import LazyGraph.Cache.Position
import LazyGraph.Cache.Reference
import LazyGraph.Cache.Snapshot
import LazyGraph.Cache.Store
import LazyGraph.Cache.Subscription
import LazyGraph.Client
import LazyGraph.Client.Exchange
import LazyGraph.Client.Watch
import LazyGraph.CommandLine
import LazyGraph.CommandLine.Arguments
import LazyGraph.CommandLine.Help
import LazyGraph.CommandLine.Level
import LazyGraph.CommandLine.Run
import LazyGraph.Digest
import LazyGraph.Document
import LazyGraph.Document.Builder
import LazyGraph.Document.FieldTree
import LazyGraph.Document.Variables
import LazyGraph.Error
import LazyGraph.Fields
import LazyGraph.Http
import LazyGraph.Http.Retry
import LazyGraph.Json
import LazyGraph.Json.Printer
import LazyGraph.Json.Reader
import LazyGraph.Json.Record
import LazyGraph.Main
import LazyGraph.Number.Double
import LazyGraph.Number.Shortest
import LazyGraph.Operation
import LazyGraph.Proofs.Accessor.Identity
import LazyGraph.Proofs.Accessor.Inert
import LazyGraph.Proofs.Accessor.Look
import LazyGraph.Proofs.Accessor.Pass
import LazyGraph.Proofs.Accessor.Placeholder
import LazyGraph.Proofs.Accessor.Reuse
import LazyGraph.Proofs.Accessor.Selecting
import LazyGraph.Proofs.Accessor.Tour
import LazyGraph.Proofs.Cache.Account
import LazyGraph.Proofs.Cache.Alias
import LazyGraph.Proofs.Cache.Capacity
import LazyGraph.Proofs.Cache.Clearing
import LazyGraph.Proofs.Cache.Closed
import LazyGraph.Proofs.Cache.DeepRead
import LazyGraph.Proofs.Cache.Dependence
import LazyGraph.Proofs.Cache.Descent
import LazyGraph.Proofs.Cache.Divergence
import LazyGraph.Proofs.Cache.Event
import LazyGraph.Proofs.Cache.Eviction
import LazyGraph.Proofs.Cache.Failure
import LazyGraph.Proofs.Cache.Invariant
import LazyGraph.Proofs.Cache.Normalization
import LazyGraph.Proofs.Cache.Notification
import LazyGraph.Proofs.Cache.Order
import LazyGraph.Proofs.Cache.Path
import LazyGraph.Proofs.Cache.PlainRun
import LazyGraph.Proofs.Cache.Position
import LazyGraph.Proofs.Cache.Reach
import LazyGraph.Proofs.Cache.Reconstruction
import LazyGraph.Proofs.Cache.Repetition
import LazyGraph.Proofs.Cache.Replacement
import LazyGraph.Proofs.Cache.Retention
import LazyGraph.Proofs.Cache.RoundTrip
import LazyGraph.Proofs.Cache.Seeding
import LazyGraph.Proofs.Cache.Snapshot
import LazyGraph.Proofs.Cache.Standing
import LazyGraph.Proofs.Cache.Step
import LazyGraph.Proofs.Cache.Store
import LazyGraph.Proofs.Cache.Sweeping
import LazyGraph.Proofs.Cache.Touched
import LazyGraph.Proofs.Client.Arrival
import LazyGraph.Proofs.Client.Completeness
import LazyGraph.Proofs.Client.Coverage
import LazyGraph.Proofs.Client.Delivery
import LazyGraph.Proofs.Client.Faithful
import LazyGraph.Proofs.Client.Fetching
import LazyGraph.Proofs.Client.Lone
import LazyGraph.Proofs.Client.Reading
import LazyGraph.Proofs.Client.Seclusion
import LazyGraph.Proofs.Client.Settling
import LazyGraph.Proofs.Client.Sharing
import LazyGraph.Proofs.Client.Trail
import LazyGraph.Proofs.Client.Transition
import LazyGraph.Proofs.Client.Truthful
import LazyGraph.Proofs.Client.Upkeep
import LazyGraph.Proofs.Client.Uptake
import LazyGraph.Proofs.Document
import LazyGraph.Proofs.Document.Binding
import LazyGraph.Proofs.Document.Memory
import LazyGraph.Proofs.Document.Mention
import LazyGraph.Proofs.Document.Occurrence
import LazyGraph.Proofs.Document.Rendering
import LazyGraph.Proofs.Document.Response
import LazyGraph.Proofs.Document.Typing
import LazyGraph.Proofs.Document.Variables
import LazyGraph.Proofs.Fields
import LazyGraph.Proofs.Http.Retry
import LazyGraph.Proofs.Json.Equality
import LazyGraph.Proofs.Json.Expansion
import LazyGraph.Proofs.Json.Mirror
import LazyGraph.Proofs.Json.Place
import LazyGraph.Proofs.Json.Position
import LazyGraph.Proofs.Json.References
import LazyGraph.Proofs.Json.Removal
import LazyGraph.Proofs.Json.Stripping
import LazyGraph.Proofs.Json.Unfolding
import LazyGraph.Proofs.Recency
import LazyGraph.Proofs.Schedule
import LazyGraph.Proofs.Schedule.Attachment
import LazyGraph.Proofs.Schedule.Grouping
import LazyGraph.Proofs.Schedule.History
import LazyGraph.Proofs.Schema.TypeRef
import LazyGraph.Proofs.Selection.Memory
import LazyGraph.Proofs.Selection.Orderly
import LazyGraph.Proofs.Selection.Regular
import LazyGraph.Proofs.Selection.Signature
import LazyGraph.Proofs.Selection.Typing
import LazyGraph.Proofs.SelectionPath.Naming
import LazyGraph.Proofs.SelectionPath.Written
import LazyGraph.Proofs.Settings.Layers
import LazyGraph.Proofs.Text.Segments
import LazyGraph.Recency
import LazyGraph.Schedule
import LazyGraph.Schema
import LazyGraph.Schema.TypeRef
import LazyGraph.Selection
import LazyGraph.SelectionPath
import LazyGraph.Settings
import LazyGraph.Settings.File
import LazyGraph.Settings.Reader
import LazyGraph.Simulation
import LazyGraph.Simulation.Agenda
import LazyGraph.Simulation.Batching
import LazyGraph.Simulation.Disk
import LazyGraph.Simulation.Machine
import LazyGraph.Simulation.Script
import LazyGraph.Simulation.Session
import LazyGraph.Simulation.Terminal
import LazyGraph.Text
import LazyGraph.Toml
import LazyGraph.Toml.Quoted
import LazyGraph.Toml.Reader
import LazyGraph.Toml.Scalar
import LazyGraph.Transport
