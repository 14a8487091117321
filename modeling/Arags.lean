import Arags.Lib.Table
import Arags.Lib.Runs
import Arags.Rlm.Jobs
import Arags.Rlm.Queue
import Arags.Rlm.Moves
import Arags.Rlm.LeaseSafety
import Arags.Rlm.JobIdentity
import Arags.Rlm.QuorumIndependence
import Arags.Rlm.Statements
import Arags.Rlm.Groups
import Arags.Lib.Text
import Arags.Rlm.Submissions
import Arags.Rlm.QuorumRows
import Arags.Rlm.Quorum
import Arags.Index.Chunker
import Arags.Index.Chunks
import Arags.Index.Versions
import Arags.Index.Stream
import Arags.Index.Reindex
import Arags.Index.Streams
import Arags.Index.Interleaving
import Arags.Watch.Daemon
import Arags.Rlm.Cascade
import Arags.Rlm.Consensus
import Arags.Rlm.Decision
import Arags.Rlm.Publication
import Arags.Index.Bootstrap
import Arags.Index.Embeds
import Arags.Index.VectorCoverage
import Arags.Index.Online
import Arags.Index.OnlineSafety
import Arags.Index.Digests
import Arags.Lib.Utf8
import Arags.Qa.Cache
import Arags.Qa.Staleness
import Arags.Rlm.L1Work
import Arags.Rlm.Reassign
import Arags.Rlm.Staging
import Arags.Rlm.Staleness
import Arags.Qa.Query
import Arags.Qa.ServeGate
import Arags.Explore.Maps
import Arags.Spaces.EmbedTexts
import Arags.Spaces.Rederivation
import Arags.Rlm.Supply
import Arags.Rlm.Progress
import Arags.Index.ActiveRows
import Arags.Index.BufferCounts
import Arags.Index.StreamBuffers
import Arags.Index.BufferTotals
import Arags.Index.Resurrection
import Arags.Explore.AnchorStaleness
import Arags.Archive.TimeTravel
import Arags.Archive.AsOf
import Arags.Rlm.DecisionCalls
import Arags.Rlm.ByzantineBound
import Arags.Rlm.Credits
import Arags.Rlm.L1Refresh
import Arags.Qa.NearHit
import Arags.Qa.NearReach
import Arags.Explore.Search
import Arags.Qa.PendingQa
import Arags.Index.VectorFiles
import Arags.Rlm.NodeCuts
import Arags.Lib.Chains
import Arags.Qa.AnswerHistory
import Arags.Memory.Consolidation
import Arags.Spaces.PendingVectors
import Arags.Spaces.Reconcile
import Arags.Spaces.ReconcileRuns
import Arags.Spaces.WritePaths
import Arags.Lib.Schema
import Arags.Schema.Migrations
import Arags.Schema.MigrationRestart
import Arags.Search.Summary
import Arags.Search.Unified
import Arags.Search.Sealed
import Arags.Lib.Threads
import Arags.Spaces.SpaceFile
import Arags.Auth.Sessions
import Arags.Qa.PendingRaces
import Arags.Lib.LinkedRows
import Arags.Rlm.NodeHistory
import Arags.Explore.MapHistory
import Arags.Search.Approved
import Arags.Explore.ReviewGate
import Arags.Qa.QuestionVectors
import Arags.Index.ChunkWrites
import Arags.Index.EmbeddingCache
import Arags.Search.Hybrid
import Arags.Lib.ForeignKeys
import Arags.Schema.MigrationData
import Arags.Qa.DigestPlan
import Arags.Qa.ReadYourWrites
import Arags.Rlm.Tolerance
import Arags.Rlm.Review
import Arags.Rlm.Ledger
import Arags.Schema.DeleteBuffer
import Arags.Rlm.CliqueSearch
import Arags.Rlm.JobKeys
import Arags.Lib.Autocommit
import Arags.Rlm.EnqueueFaults
import Arags.Index.ChunkCover
import Arags.Search.Fusion
import Arags.Search.EntityVotes
import Arags.Explore.AnchorPins
import Arags.Memory.Maintenance
import Arags.Search.Budget
import Arags.Qa.InvalidationReport
import Arags.Qa.Eviction
import Arags.Rlm.TrustedChoice
import Arags.Memory.Removal
import Arags.Embedding.RawChunk
import Arags.Embedding.RecursiveChunker
import Arags.Embedding.MarkdownChunker
import Arags.Embedding.TextChunker
import Arags.Embedding.WordGroups
import Arags.Embedding.TextPlan
import Arags.Embedding.CodeChunker
import Arags.Embedding.Panics
import Arags.Embedding.TextCover
import Arags.Embedding.LineWindows
import Arags.Embedding.StructureBlocks
import Arags.Embedding.CodeCover
import Arags.Embedding.RecursiveBudget
import Arags.Embedding.CodeBudget
import Arags.Embedding.TextBudget
import Arags.Ignore.Glob
import Arags.Lib.LastMatch
import Arags.Ignore.Rules
import Arags.Ignore.Discover
import Arags.Ignore.GitSemantics
import Arags.Ignore.Force
import Arags.Knowledge.Segmentation
import Arags.Knowledge.Store
import Arags.Knowledge.IndexFile
import Arags.Knowledge.Transfer
import Arags.Cli.Backends
import Arags.Wiki.Format
import Arags.Wiki.Pages
import Arags.Cli.StripCot
import Arags.Lib.Fts5
import Arags.Search.FtsQuery
import Arags.Search.Context
import Arags.Memory.Bookkeeping
import Arags.Explore.Confidence
import Arags.Auth.RateLimit
import Arags.Embedding.PipelineGlob
import Arags.Search.BuildContext
import Arags.Watch.Loop
import Arags.Watch.Markers
import Arags.Auth.Identity
import Arags.Lib.Attempts
import Arags.Llm.Transport
import Arags.Lib.Json
import Arags.Llm.Families
import Arags.Lib.Floats
import Arags.Embedding.HalfFloats
import Arags.Lib.Wire
import Arags.Embedding.OllamaHttp
import Arags.Qa.Ask
import Arags.Rlm.Volunteer
import Arags.Rlm.ClaimedWork
import Arags.Rlm.Attestation
import Arags.Spaces.LossWindow
import Arags.Lib.Tensors
import Arags.Embedding.MiniLm
import Arags.Embedding.Batches
