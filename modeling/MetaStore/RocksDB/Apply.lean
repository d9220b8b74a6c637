import MetaStore.KVStore.Waiters
import MetaStore.RocksDB.Store

/-! Applying committed operations to the store on RocksDB, one at a time (`applyOperation`)
and as a list with one final write (`applyOperationsBatch`), and its snapshots. -/
namespace MetaStore.RocksDB
open Std

structure Engine where
  records : Records
  waiters : Waiters

def Engine.new : Engine := ⟨⟨∅,0,0⟩,.empty⟩

def applyRecords (env : Env) (r : Records) (op : RaftOperation) : Records :=
  match op.type with
  | .put => (putUnlocked env r op.key op.value op.leaseID).1
  | .delete => deleteUnlocked r op.key op.rangeEnd
  | .leaseGrant => leaseGrantUnlocked env r op.leaseID op.ttl
  | .leaseRevoke => (leaseRevokeUnlocked r op.leaseID).1
  | .txn => (txnUnlocked env r op.compares op.thenOps op.elseOps).1
  | .other _ => r

def txnResponse (env : Env) (r : Records) (op : RaftOperation) : Option TxnResponse :=
  match op.type with
  | .txn => (txnUnlocked env r op.compares op.thenOps op.elseOps).2.toOption
  | _ => none

def applyOperation (env : Env) (e : Engine) (op : RaftOperation) : Engine where
  records := applyRecords env e.records op
  waiters := (e.waiters.saveTxnResult op.seqNum (txnResponse env e.records op)).notify op.seqNum

/-- The effect of an operation on the records and the open batch: transactions write at
once, everything else waits for the final write. -/
def prepareRecords (env : Env) (r : Records) (batch : Batch) (op : RaftOperation) :
    Records × Batch :=
  match op.type with
  | .put => preparePutBatch env r batch op.key op.value op.leaseID
  | .delete => prepareDeleteBatch r batch op.key op.rangeEnd
  | .leaseGrant => prepareLeaseGrantBatch env r batch op.leaseID op.ttl
  | .leaseRevoke => (r,prepareLeaseRevokeBatch r batch op.leaseID)
  | .txn => ((txnUnlocked env r op.compares op.thenOps op.elseOps).1,batch)
  | .other _ => (r,batch)

def prepareOperations (env : Env) : Engine × Batch → List RaftOperation → Engine × Batch
  | s,[] => s
  | (e,batch),op :: ops =>
    let p := prepareRecords env e.records batch op
    prepareOperations env
      (⟨p.1,e.waiters.saveTxnResult op.seqNum (txnResponse env e.records op)⟩,p.2) ops

/-- `writeOK` says whether the database accepts the final write; only then calls are woken. -/
def applyOperationsBatch (env : Env) (writeOK : Bool) (e : Engine) (ops : List RaftOperation) :
    Engine :=
  let s := prepareOperations env (e,[]) ops
  if writeOK then
    { records := { s.1.records with db := WriteBatch.write s.1.records.db s.2 }
      waiters := ops.foldl (fun w op => w.notify op.seqNum) s.1.waiters }
  else s.1

end MetaStore.RocksDB
