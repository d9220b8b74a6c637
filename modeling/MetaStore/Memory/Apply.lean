import MetaStore.KVStore.Waiters
import MetaStore.Memory.Store

/-! The replicated memory engine and the operations its apply loop performs one at a
time (internal/memory/kvstore.go). -/
namespace MetaStore
open Std

@[ext] structure Memory where
  etcd : Memory.MemoryEtcd
  waiters : Waiters

namespace Memory

/-- The payload of a snapshot. Encoding it as protobuf and decoding it again is taken to
give the same data. -/
structure SnapshotData where
  revision : ℤ
  kvData : ShardedMap
  leases : ExtTreeMap ℤ Lease

/-- `GetSnapshot`. -/
def MemoryEtcd.getSnapshot (s : MemoryEtcd) : SnapshotData := ⟨s.revision,s.kvData,s.leases⟩

/-- `recoverFromSnapshot`. -/
def MemoryEtcd.recoverFromSnapshot (s : MemoryEtcd) (snapshot : SnapshotData) : MemoryEtcd :=
  { s with revision := snapshot.revision, kvData := snapshot.kvData, leases := snapshot.leases }

/-- `applyLegacyOp` on a decoded key and value. -/
def MemoryEtcd.applyLegacyOp (s : MemoryEtcd) (key val : Bytes) : MemoryEtcd :=
  (s.putDirect key val 0).1

/-- The deletion a `DELETE` operation asks for. -/
def MemoryEtcd.applyDelete (s : MemoryEtcd) (op : RaftOperation) : MemoryEtcd :=
  (s.deleteDirect op.key op.rangeEnd).1

/-- The write a `PUT` operation asks for. -/
def MemoryEtcd.applyPut (s : MemoryEtcd) (op : RaftOperation) : MemoryEtcd :=
  (s.putDirect op.key op.value op.leaseID).1

/-- Run a transaction and keep its response for the waiting call; a failed one has none. -/
def applyTxn (clock : Clock) (m : Memory) (op : RaftOperation) : Memory :=
  let r := m.etcd.applyTxnWithShardLocks clock op.compares op.thenOps op.elseOps
  ⟨r.1,m.waiters.saveTxnResult op.seqNum r.2.toOption⟩

def applyLease (clock : Clock) (m : Memory) (op : RaftOperation) (ttl : ℤ) : Memory :=
  { m with etcd := m.etcd.applyLeaseOperationDirect clock op.type op.leaseID ttl }

/-- The switch of `applyOperation`. -/
def applyEffect (clock : Clock) (m : Memory) (op : RaftOperation) : Memory :=
  match op.type with
  | .put => { m with etcd := m.etcd.applyPut op }
  | .delete => { m with etcd := m.etcd.applyDelete op }
  | .leaseGrant => m.applyLease clock op op.ttl
  | .leaseRevoke => m.applyLease clock op 0
  | .txn => m.applyTxn clock op
  | .other _ => m

def notify (m : Memory) (op : RaftOperation) : Memory :=
  { m with waiters := m.waiters.notify op.seqNum }

def applyOperation (clock : Clock) (m : Memory) (op : RaftOperation) : Memory :=
  (m.applyEffect clock op).notify op

/-- The data replicas have to agree on: records, revision and the key sets of the leases. -/
def SameData (s t : MemoryEtcd) : Prop :=
  s.kvData = t.kvData ∧ s.revision = t.revision ∧
    ∀ id : ℤ, s.leases[id]?.map Lease.keys = t.leases[id]?.map Lease.keys

end Memory
end MetaStore
