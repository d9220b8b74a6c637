import MetaStore.Memory.BatchOrder
import MetaStore.Memory.CommitOrder
import MetaStore.RocksDB.CommitOrder

/-! Commits that mix operations and old-format entries, in both engines. -/
namespace MetaStore.Cluster

end MetaStore.Cluster
