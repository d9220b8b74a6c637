import MetaStore.Memory.Batch

/-! The commits that the memory engine takes from the raft node (`readCommits` of
internal/memory/kvstore.go). -/
namespace MetaStore.Memory

inductive Datum
  | operation (op : RaftOperation)
  | legacy (key val : Bytes)

def Datum.operation? : Datum → Option RaftOperation
  | operation op => some op
  | legacy _ _ => none

def Datum.legacy? : Datum → Option (Bytes × Bytes)
  | operation _ => none
  | legacy key val => some (key,val)

/-- One commit: old-format entries are applied where they stand, operations are collected and
applied as a batch at the end. -/
def ReadCommit (clock : Clock) (data : List Datum) (m m' : Memory) : Prop :=
  let etcd := (data.filterMap Datum.legacy?).foldl (fun s kv => s.applyLegacyOp kv.1 kv.2) m.etcd
  ApplyBatch clock (data.filterMap Datum.operation?) { m with etcd := etcd } m'

end MetaStore.Memory
