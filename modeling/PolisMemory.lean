import PolisMemory.JsonText
import PolisMemory.HashChain
import PolisMemory.Ledger
import PolisMemory.Chain
import PolisMemory.Bundle
import PolisMemory.Sqlite
import PolisMemory.Append
import PolisMemory.Appends
import PolisMemory.Attempts
import PolisMemory.SqliteRuns
import PolisMemory.AppendRuns
import PolisMemory.Anchor
import PolisMemory.Tables
import PolisMemory.Schema
import PolisMemory.Journal
import PolisMemory.Compaction
import PolisMemory.Catalog
import PolisMemory.Runs
import PolisMemory.Reorg
import PolisMemory.Applied
import PolisMemory.Undo
import PolisMemory.UndoReorg
import PolisMemory.Revert
import PolisMemory.Coldness
import PolisMemory.Adjudicate
import PolisMemory.Queue
import PolisMemory.Sourcing
import PolisMemory.Forest
import PolisMemory.Shape
import PolisMemory.Protected
import PolisMemory.Frame
import PolisMemory.History
import PolisMemory.Processes
import PolisMemory.InFlight
import PolisMemory.Races
import PolisMemory.Integrity
import PolisMemory.Dangling
import PolisMemory.Vacuum
import PolisMemory.Cadence
import PolisMemory.Envelope
import PolisMemory.Foreign
import PolisMemory.Import
import PolisMemory.Segments
import PolisMemory.ForeignChains
import PolisMemory.Tombstones
import PolisMemory.Received
import PolisMemory.Confluence
import PolisMemory.Bodies
import PolisMemory.Subscriptions
import PolisMemory.Projects
import PolisMemory.Interruption
import PolisMemory.Adopt
import PolisMemory.Adoption
import PolisMemory.Jobs
import PolisMemory.Fencing
import PolisMemory.Backup
import PolisMemory.Recording
import PolisMemory.Notes
import PolisMemory.NoteHistory
import PolisMemory.InRun
import PolisMemory.InRunEntries
import PolisMemory.Transactions
import PolisMemory.Capture
import PolisMemory.Captures
import PolisMemory.Supersessions
import PolisMemory.Codec
import PolisMemory.Claims
import PolisMemory.ClaimTables
import PolisMemory.ClaimQueries
import PolisMemory.Acks
import PolisMemory.Network
import PolisMemory.NetworkSteps
import PolisMemory.Acknowledged
import PolisMemory.Paging
import PolisMemory.JsonValue
import PolisMemory.Packs
import PolisMemory.Inspection
import PolisMemory.Pages
import PolisMemory.AgentGuard
import PolisMemory.Separators
import PolisMemory.PayloadHash
import PolisMemory.Hex
import PolisMemory.ColdCompaction
import PolisMemory.Export
import PolisMemory.Lexical
import PolisMemory.Mirror
import PolisMemory.Readiness
import PolisMemory.Interruptions
import PolisMemory.Migration
import PolisMemory.SchemaKnowledge
import PolisMemory.Attaches
import PolisMemory.RollUp
import PolisMemory.Dedup
import PolisMemory.Occurrences
import PolisMemory.Chunks
import PolisMemory.Splits
import PolisMemory.Fence
import PolisMemory.Keeper
import PolisMemory.QueryPlan
import PolisMemory.Excerpt
import PolisMemory.Staging
import PolisMemory.DotProduct
import PolisMemory.Subtree
import PolisMemory.JsonGrammar
import PolisMemory.Extract
import PolisMemory.Filing
import PolisMemory.CatalogSnapshot
import PolisMemory.IndexTick
import PolisMemory.VectorCache
import PolisMemory.Shedding
import PolisMemory.PackBudget
import PolisMemory.LikePattern
import PolisMemory.Grep
import PolisMemory.Backtrack
import PolisMemory.Marked
import PolisMemory.Scrub
import PolisMemory.ScrubRules
import PolisMemory.Redaction
import PolisMemory.ScrubRuns
import PolisMemory.Loops
import PolisMemory.Traversals
import PolisMemory.Calendar
import PolisMemory.Timestamps
import PolisMemory.QueueTurns
import PolisMemory.QueueHistory
import PolisMemory.Spans
import PolisMemory.Windows
import PolisMemory.Placements
import PolisMemory.Freshness
import PolisMemory.Quarantine
import PolisMemory.PassReverts
import PolisMemory.StopHook
