import MetaStore.Library.Interleaving
import MetaStore.Memory.Apply

/-! Batched application of committed operations (internal/memory/batch_apply.go).
A run of PUTs, or of single-key DELETEs, is handed to one goroutine per shard. The
goroutines share the revision counter and the leases, so a batch has one outcome for
every order of their atomic steps and `ApplyBatch` is a relation. -/
namespace MetaStore.Memory
open Std Interleaving

/-- The atomic steps of `batchApplyPutNoLock`. The goroutine holds the lock of its shard, so
reading the old record and writing the new one is a single step. -/
inductive PutStep
  | draw (op : RaftOperation)
  | store (op : RaftOperation) (newRevision : ℤ)
  | link (op : RaftOperation)

namespace PutStep

def key : PutStep → Bytes
  | draw op => op.key
  | store op _ => op.key
  | link op => op.key

def exec : PutStep → MemoryEtcd → MemoryEtcd × List PutStep
  | draw op,s => ({ s with revision := s.revision+1 },[store op (s.revision+1)])
  | store op newRevision,s =>
    let kv := putRecord (s.kvData.get op.key) newRevision op.key op.value op.leaseID
    ({ s with kvData := s.kvData.set op.key kv },[link op])
  | link op,s => ({ s with leases := attachKey s.leases op.leaseID op.key },[])

def shard (a : PutStep) : Fin numShards := getShard a.key

end PutStep

/-- The atomic steps of `batchApplyDeleteNoLock`; a missing key ends it at once. -/
inductive DeleteStep
  | check (key : Bytes)
  | count (key : Bytes) (kv : KeyValue)
  | erase (key : Bytes) (kv : KeyValue)
  | unlink (key : Bytes) (kv : KeyValue)

namespace DeleteStep

def key : DeleteStep → Bytes
  | check key => key
  | count key _ => key
  | erase key _ => key
  | unlink key _ => key

def exec : DeleteStep → MemoryEtcd → MemoryEtcd × List DeleteStep
  | check key,s =>
    match s.kvData.get key with
    | some kv => (s,[count key kv])
    | none => (s,[])
  | count key kv,s => ({ s with revision := s.revision+1 },[erase key kv])
  | erase key kv,s => ({ s with kvData := s.kvData.delete key },[unlink key kv])
  | unlink key kv,s => ({ s with leases := detachKey s.leases kv.lease key },[])

def shard (a : DeleteStep) : Fin numShards := getShard a.key

end DeleteStep

/-- `batchApplyPut`: the operations grouped by shard, one goroutine per group. -/
def BatchApplyPut (ops : List RaftOperation) (s t : MemoryEtcd) : Prop :=
  Ends PutStep.exec ⟨s,split PutStep.shard (ops.map PutStep.draw)⟩ t

/-- `batchApplyDeleteSingleKey`. -/
def BatchApplyDeleteSingleKey (ops : List RaftOperation) (s t : MemoryEtcd) : Prop :=
  Ends DeleteStep.exec ⟨s,split DeleteStep.shard (ops.map fun op => DeleteStep.check op.key)⟩ t

/-- `batchApplyDelete`: all single keys in parallel, then the ranges one after the other. -/
def BatchApplyDelete (ops : List RaftOperation) (s t : MemoryEtcd) : Prop :=
  let singleKeyOps := ops.filter fun op => op.rangeEnd = []
  let rangeOps := ops.filter fun op => op.rangeEnd ≠ []
  ∃ s', (if singleKeyOps = [] then s' = s else BatchApplyDeleteSingleKey singleKeyOps s s') ∧
    t = rangeOps.foldl MemoryEtcd.applyDelete s'

/-- `flushBatch` on a batch of one type. -/
def FlushBatch (clock : Clock) (currentType : RaftOpType) (currentBatch : List RaftOperation)
    (m m' : Memory) : Prop :=
  if currentBatch = [] then m' = m
  else match currentType with
    | .put => BatchApplyPut currentBatch m.etcd m'.etcd ∧ m'.waiters = m.waiters
    | .delete => BatchApplyDelete currentBatch m.etcd m'.etcd ∧ m'.waiters = m.waiters
    | .txn => m' = currentBatch.foldl (applyTxn clock) m
    | .leaseGrant => m' = currentBatch.foldl (fun m op => m.applyLease clock op op.ttl) m
    | .leaseRevoke => m' = currentBatch.foldl (fun m op => m.applyLease clock op op.ttl) m
    | .other _ => m' = m

/-- The loop of `applyBatch`: a change of type flushes the current batch. -/
def BatchLoop (clock : Clock) : RaftOpType → List RaftOperation → List RaftOperation →
    Memory → Memory → Prop
  | currentType,currentBatch,[],m,m' => FlushBatch clock currentType currentBatch m m'
  | currentType,currentBatch,op :: ops,m,m' =>
    if currentType ≠ op.type ∧ currentBatch ≠ [] then
      ∃ m₁, FlushBatch clock currentType currentBatch m m₁ ∧
        BatchLoop clock op.type [op] ops m₁ m'
    else BatchLoop clock op.type (currentBatch ++ [op]) ops m m'

/-- `applyBatch`: `m'` is an outcome of applying the batch to `m`. -/
def ApplyBatch (clock : Clock) (ops : List RaftOperation) (m m' : Memory) : Prop :=
  match ops with
  | [] => m' = m
  | [op] => m' = m.applyOperation clock op
  | _ => ∃ m₁, BatchLoop clock (.other []) [] ops m m₁ ∧ m' = ops.foldl notify m₁

/-- The states of the engine's data: a new store, batches, old-format entries, renewed
leases, and snapshots of such states. Client calls change the waiters only. -/
inductive Reachable : MemoryEtcd → Prop
  | new : Reachable .empty
  | batch {s t : MemoryEtcd} {w w' : Waiters} (clock : Clock) (ops : List RaftOperation) :
      Reachable s → ApplyBatch clock ops ⟨s,w⟩ ⟨t,w'⟩ → Reachable t
  | legacy {s : MemoryEtcd} (key val : Bytes) : Reachable s → Reachable (s.applyLegacyOp key val)
  | renew {s : MemoryEtcd} (clock : Clock) (id : ℤ) :
      Reachable s → Reachable (s.leaseRenew clock id).1
  | restore {s t : MemoryEtcd} :
      Reachable s → Reachable t → Reachable (s.recoverFromSnapshot t.getSnapshot)

end MetaStore.Memory
