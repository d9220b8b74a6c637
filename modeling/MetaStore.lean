import MetaStore.Memory.Metadata
import MetaStore.Memory.Watch
import MetaStore.Memory.LeaseKeys
import MetaStore.Batch.Adaptation
import MetaStore.RocksDB.RaftLogReads
import MetaStore.RocksDB.RevisionRuns
import MetaStore.RocksDB.CatchUp
import MetaStore.RocksDB.Replicas
import MetaStore.RocksDB.FailedBatch
import MetaStore.RocksDB.DeleteRange
import MetaStore.Cluster.Agreement
import MetaStore.Cluster.Responses
import MetaStore.Cluster.Engines
import MetaStore.Cluster.CommitOrder
import MetaStore.MVCC.Lookups
import MetaStore.MVCC.FailedWrites
import MetaStore.MVCC.Lifetimes
import MetaStore.LeaseRead.FastReads
import MetaStore.Raft.AppliedReads
import MetaStore.Raft.Pipeline
import MetaStore.Raft.Publication
import MetaStore.Raft.CleanRestarts
import MetaStore.Auth.KeyPermissions
import MetaStore.Auth.Protection
import MetaStore.Auth.Logins
import MetaStore.Leases.Manager
import MetaStore.Leases.Renewals
import MetaStore.Leases.AutoIds
import MetaStore.KVStore.Delivery
import MetaStore.KVStore.Channels
import MetaStore.Server.StreamEnds
import MetaStore.Concurrency.FirstCreate
import MetaStore.Concurrency.Election
import MetaStore.Concurrency.Mutex
import MetaStore.MVCC.Compactors
import MetaStore.LeaseRead.Duration
import MetaStore.MySQL.PrefixRange
import MetaStore.MySQL.Transactions
import MetaStore.Server.Limits
import MetaStore.Cluster.Members
import MetaStore.Reliability.Validation
import MetaStore.Auth.Tokens
import MetaStore.Auth.WellFormed
import MetaStore.Auth.Replication
import MetaStore.MVCC.Encoding
import MetaStore.RocksDB.RecordCodec
import MetaStore.Leases.Serialization
import MetaStore.LeaseRead.SmartConfig
import MetaStore.Memory.Shards
import MetaStore.Memory.Transparency
import MetaStore.RocksDB.Entries
