import AegisDB.Library.Transition
import AegisDB.Library.Wildcard
import AegisDB.Library.Checked
import AegisDB.Library.Table
import AegisDB.Library.MergedTable
import AegisDB.Library.Replicas
import AegisDB.Library.LastWrite
import AegisDB.Library.Maxima
import AegisDB.Library.Layers
import AegisDB.Library.Batch
import AegisDB.Library.SortedPrefix
import AegisDB.Library.StableSort
import AegisDB.Library.Kinds
import AegisDB.Library.SnapshotHistory
import AegisDB.Library.Bytes
import AegisDB.Library.Regions
import AegisDB.Library.Aead
import AegisDB.Library.Bits
import AegisDB.Library.Crc32
import AegisDB.Library.Frames
import AegisDB.Library.Stepwise
import AegisDB.Library.Binary64
import AegisDB.Library.Rounding
import AegisDB.Library.Kleene
import AegisDB.Library.Segments
import AegisDB.Library.Separators
import AegisDB.Library.Text
import AegisDB.Library.IpAddress
import AegisDB.Library.HashChain
import AegisDB.Library.Json
import AegisDB.Library.JsonPath
import AegisDB.Library.PrefixCode
import AegisDB.Library.Hex
import AegisDB.Library.Interleaving
import AegisDB.Library.Circle
import AegisDB.Library.Directory
import AegisDB.Library.LeaderLog
import AegisDB.Library.LeaderCompleteness
import AegisDB.Replication.Log
import AegisDB.Replication.Raft
import AegisDB.Replication.Cluster
import AegisDB.Replication.Handlers
import AegisDB.Replication.Election
import AegisDB.Replication.Refinement
import AegisDB.Replication.CommitRule
import AegisDB.Replication.ClusterHistory
import AegisDB.Replication.Safety
import AegisDB.Replication.Transaction
import AegisDB.Replication.AtomicCommit
import AegisDB.Replication.Sharding
import AegisDB.Replication.Crdt
import AegisDB.Replication.VectorClock
import AegisDB.Replication.SnapshotTransfer
import AegisDB.Replication.HashRing
import AegisDB.Replication.ObservedRemove
import AegisDB.Replication.LastWriter
import AegisDB.Replication.MultiValue
import AegisDB.Replication.Position
import AegisDB.Replication.NodeRun
import AegisDB.Replication.ApplyOrder
import AegisDB.Replication.Decisions
import AegisDB.Replication.ParticipantRun
import AegisDB.Replication.PreparedKeys
import AegisDB.Replication.HybridClock
import AegisDB.Storage.Transaction
import AegisDB.Storage.SnapshotReads
import AegisDB.Storage.LostUpdate
import AegisDB.Storage.Serializability
import AegisDB.Storage.LogRecord
import AegisDB.Storage.Block
import AegisDB.Storage.LocalBackend
import AegisDB.Storage.LocalCommit
import AegisDB.Storage.LocalIsolation
import AegisDB.Storage.BufferPool
import AegisDB.Storage.PinDiscipline
import AegisDB.Storage.DurableVersions
import AegisDB.Storage.LockSafety
import AegisDB.Storage.LsnDiscipline
import AegisDB.Storage.RecordRoundTrip
import AegisDB.Storage.SlottedPage
import AegisDB.Storage.Wal
import AegisDB.Storage.WalFiles
import AegisDB.Storage.WalRecovery
import AegisDB.Query.Value
import AegisDB.Query.Expression
import AegisDB.Query.ThreeValuedLogic
import AegisDB.Query.Join
import AegisDB.Query.JoinOutput
import AegisDB.Query.JoinAgreement
import AegisDB.Query.NestedLoop
import AegisDB.Query.Index
import AegisDB.Query.TableData
import AegisDB.Query.Context
import AegisDB.Query.Plan
import AegisDB.Query.Substitution
import AegisDB.Query.Statement
import AegisDB.Query.RowDeletion
import AegisDB.Query.ExactDeletion
import AegisDB.Query.Snapshot
import AegisDB.TimeSeries.Compression
import AegisDB.TimeSeries.BitStream
import AegisDB.TimeSeries.RoundTrip
import AegisDB.TimeSeries.DecoderSafety
import AegisDB.TimeSeries.LimitedQuery
import AegisDB.TimeSeries.Aggregation
import AegisDB.TimeSeries.Downsampling
import AegisDB.TimeSeries.BufferLayers
import AegisDB.TimeSeries.ColdFrame
import AegisDB.TimeSeries.ColdStore
import AegisDB.TimeSeries.ColdRefinement
import AegisDB.TimeSeries.Retention
import AegisDB.TimeSeries.Recompress
import AegisDB.TimeSeries.EngineRuns
import AegisDB.TimeSeries.Query
import AegisDB.TimeSeries.QueryRuns
import AegisDB.TimeSeries.Engine
import AegisDB.TimeSeries.SeriesName
import AegisDB.TimeSeries.SeriesIndex
import AegisDB.Server.Rbac
import AegisDB.Server.Auth
import AegisDB.Server.SessionOwner
import AegisDB.Server.PasswordChange
import AegisDB.Server.OpLog
import AegisDB.Server.RedoLog
import AegisDB.Server.PointRecovery
import AegisDB.Server.Script
import AegisDB.Server.ScriptIsolation
import AegisDB.Server.Mutation
import AegisDB.Server.ClientAddress
import AegisDB.Server.DeletionAudit
import AegisDB.Documents.Value
import AegisDB.Documents.Index
import AegisDB.Documents.Query
import AegisDB.Documents.Validation
import AegisDB.Documents.Collection
import AegisDB.Documents.FindAgreement
import AegisDB.Documents.Sort
import AegisDB.Documents.CollectionInvariant
import AegisDB.Server.Backup
import AegisDB.Server.BackupDamage
import AegisDB.Shield.Policy
import AegisDB.Shield.Engine
import AegisDB.Client.Transaction
import AegisDB.Client.Pool
import AegisDB.Vault.MasterKey
import AegisDB.Vault.Store
import AegisDB.Vault.Vault
import AegisDB.Vault.Durability
import AegisDB.Vault.Sealing
import AegisDB.Vault.NonInterference
import AegisDB.Ledgers.Engine
import AegisDB.Ledgers.TamperEvidence
import AegisDB.WideColumn.Engine
import AegisDB.WideColumn.LastWriteWins
import AegisDB.Updates.Orchestrator
import AegisDB.Updates.Exclusion
import AegisDB.Updates.Rollback
import AegisDB.Server.RateLimit
import AegisDB.Streaming.Order
import AegisDB.Vector.CollectionRun
import AegisDB.FullText.Runs
import AegisDB.KeyValue.Store
import AegisDB.KeyValue.Expiry
import AegisDB.Server.WriteAtomic
import AegisDB.Graph.Store
import AegisDB.Graph.Dangling
import AegisDB.Documents.Persistence
import AegisDB.Query.Transfer
import AegisDB.Query.Sort
import AegisDB.Query.Like
