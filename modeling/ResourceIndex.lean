import ResourceIndex.Agenda
import ResourceIndex.Analysis.Snippet
import ResourceIndex.Analysis.Stemmer
import ResourceIndex.Analysis.Token
import ResourceIndex.Batch
import ResourceIndex.Cluster.Backend
import ResourceIndex.Cluster.Batch
import ResourceIndex.Cluster.Cascade
import ResourceIndex.Cluster.Client
import ResourceIndex.Cluster.Exchange
import ResourceIndex.Cluster.Mapping
import ResourceIndex.Cluster.Meaning
import ResourceIndex.Cluster.Query
import ResourceIndex.Debounce.Basic
import ResourceIndex.Debounce.Schedule
import ResourceIndex.Engine
import ResourceIndex.Error
import ResourceIndex.Event.Basic
import ResourceIndex.Event.Channel
import ResourceIndex.Identity
import ResourceIndex.Indexer
import ResourceIndex.Json.Basic
import ResourceIndex.Json.Printer
import ResourceIndex.Json.Reader
import ResourceIndex.Json.Record
import ResourceIndex.Number.Binary64
import ResourceIndex.Number.BinaryFormat
import ResourceIndex.Number.Literal
import ResourceIndex.Number.Shortest
import ResourceIndex.Path
import ResourceIndex.Pipeline.Basic
import ResourceIndex.Pipeline.Call
import ResourceIndex.Pipeline.Run
import ResourceIndex.Query.Automaton
import ResourceIndex.Query.Basic
import ResourceIndex.Query.Glob
import ResourceIndex.Query.Parser
import ResourceIndex.Query.Regex
import ResourceIndex.Query.Scope
import ResourceIndex.Query.Token
import ResourceIndex.Resource.Basic
import ResourceIndex.Resource.Codec
import ResourceIndex.Resource.Stored
import ResourceIndex.Resource.Tags
import ResourceIndex.Search.Codec
import ResourceIndex.Search.Request
import ResourceIndex.Search.Response
import ResourceIndex.Service
import ResourceIndex.Settings.Basic
import ResourceIndex.Settings.Codec
import ResourceIndex.Settings.Layer
import ResourceIndex.Settings.Level
import ResourceIndex.Settings.Load
import ResourceIndex.Store.Basic
import ResourceIndex.Store.Cascade
import ResourceIndex.Store.Query
import ResourceIndex.Store.Search
import ResourceIndex.Text.Alphanumeric
import ResourceIndex.Text.Blank
import ResourceIndex.Text.CharRanges
import ResourceIndex.Text.Cut
import ResourceIndex.Text.Digits
import ResourceIndex.Text.LetterCase
import ResourceIndex.Text.Lowercase
import ResourceIndex.Text.Percent
import ResourceIndex.Text.Utf8
import ResourceIndex.Timestamp.Basic
import ResourceIndex.Timestamp.Text
import ResourceIndex.Toml.Printer
import ResourceIndex.Toml.Quoted
import ResourceIndex.Toml.Reader
import ResourceIndex.Toml.Scalar
import ResourceIndex.Toml.Table
import ResourceIndex.Url.Basic
import ResourceIndex.Url.Host
import ResourceIndex.Url.Punycode
import ResourceIndex.Proofs.Batch.Direct
import ResourceIndex.Proofs.Batch.Session
import ResourceIndex.Proofs.Batch.Groups
import ResourceIndex.Proofs.Batch.Record
import ResourceIndex.Proofs.Store.Batches
import ResourceIndex.Proofs.Path.Canonical
import ResourceIndex.Proofs.Path.Rebasing
import ResourceIndex.Proofs.Query.Literal
import ResourceIndex.Proofs.Query.Automaton
import ResourceIndex.Proofs.Query.Pieces
import ResourceIndex.Proofs.Store.Documents
import ResourceIndex.Proofs.Store.Subtree
import ResourceIndex.Proofs.Store.Relocation
import ResourceIndex.Proofs.Store.Reachable
import ResourceIndex.Proofs.Store.Move
import ResourceIndex.Proofs.Store.Descendants
import ResourceIndex.Proofs.Store.Trash
import ResourceIndex.Proofs.Store.Purge
import ResourceIndex.Proofs.Search.Response
import ResourceIndex.Proofs.Store.Compiling
import ResourceIndex.Proofs.Store.Search
import ResourceIndex.Proofs.Store.Paging
import ResourceIndex.Proofs.Cluster.Agreement
import ResourceIndex.Proofs.Debounce.Spaces
import ResourceIndex.Proofs.Agenda.Entries
import ResourceIndex.Proofs.Debounce.Steps
import ResourceIndex.Proofs.Debounce.Course
import ResourceIndex.Proofs.Debounce.Tasks
import ResourceIndex.Proofs.Debounce.Operations
import ResourceIndex.Proofs.Debounce.Chronicle
import ResourceIndex.Proofs.Debounce.Ledger
import ResourceIndex.Proofs.Debounce.Window
import ResourceIndex.Proofs.Debounce.Independence
import ResourceIndex.Proofs.Identity.Text
import ResourceIndex.Proofs.Service.Cache
import ResourceIndex.Proofs.Service.Faults
import ResourceIndex.Proofs.Pipeline.Steps
import ResourceIndex.Proofs.Pipeline.Events
import ResourceIndex.Proofs.Pipeline.Requests
import ResourceIndex.Proofs.Pipeline.Deliveries
import ResourceIndex.Proofs.Pipeline.Conclusion
import ResourceIndex.Proofs.Pipeline.Discipline
import ResourceIndex.Proofs.Pipeline.Operations
import ResourceIndex.Proofs.Pipeline.Closing
import ResourceIndex.Proofs.Store.Independence
import ResourceIndex.Proofs.Query.Tokens
import ResourceIndex.Proofs.Query.Clauses
import ResourceIndex.Proofs.Query.Written
import ResourceIndex.Proofs.Cluster.Patterns
import ResourceIndex.Proofs.Query.Meaning
import ResourceIndex.Proofs.Store.Queries
import ResourceIndex.Proofs.Cluster.Queries
import ResourceIndex.Proofs.Query.Backends
import ResourceIndex.Proofs.Query.Names
import ResourceIndex.Proofs.Batch.Pushes
import ResourceIndex.Proofs.Batch.Failures
import ResourceIndex.Proofs.Store.Workspace
import ResourceIndex.Proofs.Json.Scalars
import ResourceIndex.Proofs.Json.Text
import ResourceIndex.Proofs.Json.Members
import ResourceIndex.Proofs.Resource.Codec
import ResourceIndex.Proofs.Timestamp.Text
import ResourceIndex.Proofs.Store.Source
import ResourceIndex.Proofs.Store.Held
import ResourceIndex.Proofs.Store.FreePlaces
import ResourceIndex.Proofs.Store.TrashBin
import ResourceIndex.Proofs.Store.Reindex
import ResourceIndex.Proofs.Text.Blank
import ResourceIndex.Proofs.Query.Scope
import ResourceIndex.Proofs.Identity.Spelling
import ResourceIndex.Proofs.Query.Joined
import ResourceIndex.Proofs.Store.Joined
import ResourceIndex.Proofs.Text.FinalSigma
import ResourceIndex.Proofs.Store.Keywords
import ResourceIndex.Proofs.Number.Rounding
import ResourceIndex.Proofs.Number.Shortest
import ResourceIndex.Proofs.Json.Numbers
import ResourceIndex.Proofs.Json.Order
import ResourceIndex.Proofs.Json.Lines
import ResourceIndex.Proofs.Resource.Stored
import ResourceIndex.Proofs.Cluster.Exchanges
import ResourceIndex.Proofs.Cluster.Bulk
import ResourceIndex.Proofs.Cluster.Pushes
import ResourceIndex.Proofs.Cluster.Connecting
import ResourceIndex.Proofs.Analysis.Markup
import ResourceIndex.Proofs.Settings.Level
import ResourceIndex.Proofs.Text.Percent
import ResourceIndex.Proofs.Url.Segments
import ResourceIndex.Proofs.Cluster.Lookup
import ResourceIndex.Proofs.Toml.Quoted
import ResourceIndex.Proofs.Toml.Scalar
import ResourceIndex.Proofs.Toml.Document
import ResourceIndex.Proofs.Settings.Saved
