import MetaStore.Cluster.Soundness
import MetaStore.Memory.BatchRefinement
import MetaStore.RocksDB.Apply

/-! The two engines as the calls of a cluster see them. An outcome of applying operations is
given on the data alone, with the responses it keeps; the waiters then change in the same way
in both engines: the responses are kept and the calls are woken. -/
namespace MetaStore
open Std

def Waiters.saveTxnResults (w : Waiters) (ops : List RaftOperation)
    (responses : List (Option TxnResponse)) : Waiters :=
  (ops.zip responses).foldl (fun w x => w.saveTxnResult x.1.seqNum x.2) w

lemma Waiters.saveTxnResults_append (w : Waiters) {ops : List RaftOperation}
    {rs : List (Option TxnResponse)} (h : ops.length = rs.length) (ops' : List RaftOperation)
    (rs' : List (Option TxnResponse)) :
    w.saveTxnResults (ops ++ ops') (rs ++ rs') =
      (w.saveTxnResults ops rs).saveTxnResults ops' rs' := by
  rw [saveTxnResults,List.zip_append h,List.foldl_append]
  rfl

lemma Waiters.saveTxnResults_none (w : Waiters) (ops : List RaftOperation) :
    w.saveTxnResults ops (.replicate ops.length none) = w := by
  induction ops generalizing w with
  | nil => rfl
  | cons op ops ih => exact ih _

namespace Memory

def txnResponses (clock : Clock) : MemoryEtcd → List RaftOperation → List (Option TxnResponse)
  | _,[] => []
  | s,op :: ops =>
    let r := s.applyTxnWithShardLocks clock op.compares op.thenOps op.elseOps
    r.2.toOption :: txnResponses clock r.1 ops

/-- The responses that `flushBatch` keeps. -/
def flushResponses (clock : Clock) (currentType : RaftOpType) (s : MemoryEtcd)
    (batch : List RaftOperation) : List (Option TxnResponse) :=
  match currentType with
  | .txn => txnResponses clock s batch
  | _ => .replicate batch.length none

lemma length_txnResponses (clock : Clock) (s : MemoryEtcd) (ops : List RaftOperation) :
    (txnResponses clock s ops).length = ops.length := by
  induction ops generalizing s with
  | nil => rfl
  | cons op ops ih => simp only [txnResponses,List.length_cons,ih]

lemma length_flushResponses (clock : Clock) (currentType : RaftOpType) (s : MemoryEtcd)
    (batch : List RaftOperation) :
    batch.length = (flushResponses clock currentType s batch).length := by
  unfold flushResponses
  split
  · exact (length_txnResponses clock s batch).symm
  · rw [List.length_replicate]

/-- The loop of `applyBatch` on the data, with the responses of the current batch and of the
operations to come. -/
def LoopOutcome (clock : Clock) : RaftOpType → List RaftOperation → List RaftOperation →
    MemoryEtcd → MemoryEtcd → List (Option TxnResponse) → Prop
  | currentType,batch,[],s,s',responses =>
    (∃ w, FlushBatch clock currentType batch ⟨s,.empty⟩ ⟨s',w⟩) ∧
      responses = flushResponses clock currentType s batch
  | currentType,batch,op :: ops,s,s',responses =>
    if currentType ≠ op.type ∧ batch ≠ [] then
      ∃ s₁ responses₁, (∃ w, FlushBatch clock currentType batch ⟨s,.empty⟩ ⟨s₁,w⟩) ∧
        LoopOutcome clock op.type [op] ops s₁ s' responses₁ ∧
          responses = flushResponses clock currentType s batch ++ responses₁
    else LoopOutcome clock op.type (batch ++ [op]) ops s s' responses

/-- An outcome of `applyBatch` on the data, with the responses it keeps. -/
def BatchOutcome (clock : Clock) (ops : List RaftOperation) (s s' : MemoryEtcd)
    (responses : List (Option TxnResponse)) : Prop :=
  match ops with
  | [] => s' = s ∧ responses = []
  | [op] => s' = ((⟨s,.empty⟩ : Memory).applyOperation clock op).etcd ∧
      responses = flushResponses clock op.type s [op]
  | _ => LoopOutcome clock (.other []) [] ops s s' responses

lemma foldl_applyTxn (clock : Clock) (ops : List RaftOperation) (s : MemoryEtcd) (w : Waiters) :
    ops.foldl (applyTxn clock) ⟨s,w⟩ =
      ⟨ops.foldl (fun s op =>
        (s.applyTxnWithShardLocks clock op.compares op.thenOps op.elseOps).1) s,
        w.saveTxnResults ops (txnResponses clock s ops)⟩ := by
  induction ops generalizing s w with
  | nil => rfl
  | cons op ops ih => exact ih _ _

lemma flushBatch_iff_outcome (clock : Clock) (currentType : RaftOpType)
    (batch : List RaftOperation) (s s' : MemoryEtcd) (w w' : Waiters) :
    FlushBatch clock currentType batch ⟨s,w⟩ ⟨s',w'⟩ ↔
      (∃ v, FlushBatch clock currentType batch ⟨s,.empty⟩ ⟨s',v⟩) ∧
        w' = w.saveTxnResults batch (flushResponses clock currentType s batch) := by
  have lease (v : Waiters) : batch.foldl (fun m op => m.applyLease clock op op.ttl) ⟨s,v⟩ =
      (⟨batch.foldl (fun s op => s.applyLeaseOperationDirect clock op.type op.leaseID op.ttl) s,
        v⟩ : Memory) := foldl_etcd
    (fun s op => MemoryEtcd.applyLeaseOperationDirect clock s op.type op.leaseID op.ttl) _ _
  unfold FlushBatch
  by_cases hnil : batch = []
  · subst hnil
    cases currentType <;> simp [flushResponses,txnResponses,Waiters.saveTxnResults]
  simp only [if_neg hnil]
  cases currentType with
  | txn => simp [foldl_applyTxn,flushResponses]
  | leaseGrant => simp [lease,flushResponses,Waiters.saveTxnResults_none]
  | leaseRevoke => simp [lease,flushResponses,Waiters.saveTxnResults_none]
  | _ => simp [flushResponses,Waiters.saveTxnResults_none]

lemma batchLoop_iff_outcome (clock : Clock) (ops : List RaftOperation) (currentType : RaftOpType)
    (batch : List RaftOperation) (s s' : MemoryEtcd) (w w' : Waiters) :
    BatchLoop clock currentType batch ops ⟨s,w⟩ ⟨s',w'⟩ ↔
      ∃ responses, LoopOutcome clock currentType batch ops s s' responses ∧
        w' = w.saveTxnResults (batch ++ ops) responses := by
  induction ops generalizing currentType batch s w with
  | nil =>
    rw [BatchLoop,flushBatch_iff_outcome]
    simp [LoopOutcome]
  | cons op ops ih =>
    rw [BatchLoop]
    simp only [LoopOutcome]
    split_ifs with hflush
    · have split : ∀ rs, w.saveTxnResults (batch ++ op :: ops)
          (flushResponses clock currentType s batch ++ rs) =
          (w.saveTxnResults batch (flushResponses clock currentType s batch)).saveTxnResults
            (op :: ops) rs := fun rs =>
        w.saveTxnResults_append (length_flushResponses clock currentType s batch) (op :: ops) rs
      constructor
      · rintro ⟨⟨s₁,w₁⟩,hb,hrest⟩
        obtain ⟨hdata,rfl⟩ := (flushBatch_iff_outcome ..).1 hb
        obtain ⟨rs,hrs,rfl⟩ := (ih ..).1 hrest
        exact ⟨_,⟨s₁,rs,hdata,hrs,rfl⟩,(split rs).symm⟩
      · rintro ⟨_,⟨s₁,rs,hb,hrs,rfl⟩,rfl⟩
        exact ⟨⟨s₁,_⟩,(flushBatch_iff_outcome ..).2 ⟨hb,rfl⟩,(ih ..).2 ⟨rs,hrs,split rs⟩⟩
    · rw [ih,List.append_assoc,List.singleton_append]

lemma applyEffect_eq (clock : Clock) (op : RaftOperation) (s : MemoryEtcd) (w : Waiters) :
    applyEffect clock ⟨s,w⟩ op = ⟨(applyEffect clock ⟨s,.empty⟩ op).etcd,
      w.saveTxnResults [op] (flushResponses clock op.type s [op])⟩ := by
  unfold applyEffect flushResponses
  cases op.type <;> rfl

lemma foldl_notify (ops : List RaftOperation) (m : Memory) :
    ops.foldl notify m = ⟨m.etcd,ops.foldl (fun w op => w.notify op.seqNum) m.waiters⟩ := by
  induction ops generalizing m with
  | nil => rfl
  | cons op ops ih => exact ih _

/-- The outcomes on the data are exactly those of `applyBatch`, which then keeps the responses
and wakes the calls. -/
theorem applyBatch_iff_outcome (clock : Clock) (ops : List RaftOperation) (s s' : MemoryEtcd)
    (w w' : Waiters) :
    ApplyBatch clock ops ⟨s,w⟩ ⟨s',w'⟩ ↔ ∃ responses, BatchOutcome clock ops s s' responses ∧
      w' = ops.foldl (fun w op => w.notify op.seqNum) (w.saveTxnResults ops responses) := by
  unfold ApplyBatch BatchOutcome
  split
  · simp [Waiters.saveTxnResults]
  · next op =>
    have single : (⟨s,w⟩ : Memory).applyOperation clock op =
        ⟨((⟨s,.empty⟩ : Memory).applyOperation clock op).etcd,
          (w.saveTxnResults [op] (flushResponses clock op.type s [op])).notify op.seqNum⟩ := by
      rw [applyOperation,applyEffect_eq]
      rfl
    simp [single]
  · simp only [foldl_notify,Memory.mk.injEq]
    constructor
    · rintro ⟨⟨s₁,w₁⟩,hloop,rfl,rfl⟩
      obtain ⟨rs,hrs,rfl⟩ := (batchLoop_iff_outcome ..).1 hloop
      exact ⟨rs,hrs,rfl⟩
    · rintro ⟨rs,hrs,rfl⟩
      exact ⟨⟨s',_⟩,(batchLoop_iff_outcome ..).2 ⟨rs,hrs,rfl⟩,rfl,rfl⟩

end Memory

namespace RocksDB

/-- The loop of `applyOperationsBatch` on the records and the open batch, with the responses it
keeps. -/
def prepareOutcome (env : Env) : Records × Batch → List RaftOperation →
    (Records × Batch) × List (Option TxnResponse)
  | p,[] => (p,[])
  | p,op :: ops =>
    let rest := prepareOutcome env (prepareRecords env p.1 p.2 op) ops
    (rest.1,txnResponse env p.1 op :: rest.2)

/-- The records that `applyOperationsBatch` leaves. -/
def batchOutcome (env : Env) (writeOK : Bool) (r : Records) (ops : List RaftOperation) : Records :=
  let p := (prepareOutcome env (r,[]) ops).1
  if writeOK then { p.1 with db := WriteBatch.write p.1.db p.2 } else p.1

lemma prepareOperations_eq_outcome (env : Env) (ops : List RaftOperation) (r : Records)
    (w : Waiters) (batch : Batch) :
    prepareOperations env (⟨r,w⟩,batch) ops =
      (⟨(prepareOutcome env (r,batch) ops).1.1,
        w.saveTxnResults ops (prepareOutcome env (r,batch) ops).2⟩,
        (prepareOutcome env (r,batch) ops).1.2) := by
  induction ops generalizing r w batch with
  | nil => rfl
  | cons op ops ih => exact ih _ _ _

/-- The records change whatever the waiters are; the responses are kept in any case, and the
calls are woken if the final write succeeds. -/
theorem applyOperationsBatch_eq_outcome (env : Env) (writeOK : Bool) (r : Records) (w : Waiters)
    (ops : List RaftOperation) :
    applyOperationsBatch env writeOK ⟨r,w⟩ ops =
      ⟨batchOutcome env writeOK r ops,
        (if writeOK then ops else []).foldl (fun w op => w.notify op.seqNum)
          (w.saveTxnResults ops (prepareOutcome env (r,[]) ops).2)⟩ := by
  unfold applyOperationsBatch batchOutcome
  simp only [prepareOperations_eq_outcome]
  cases writeOK <;> rfl

end RocksDB

namespace Cluster

/-- The in-memory engine; a `Txn` that gives up leaves its response behind. -/
def memoryEngine : Engine Memory.MemoryEtcd where
  Outcome s ops s' responses notified :=
    ∃ clock, Memory.BatchOutcome clock ops s s' responses ∧ notified = true
  dropsResult := false

/-- The engine on RocksDB; `notified` says whether the final write succeeded. -/
def rocksEngine : Engine RocksDB.Records where
  Outcome r ops r' responses notified :=
    ∃ env, r' = RocksDB.batchOutcome env notified r ops ∧
      responses = (RocksDB.prepareOutcome env (r,[]) ops).2
  dropsResult := true

section Runs
variable {σ : Type*} {E : Engine σ} {store after : σ}

def grant (id : ℤ) : RaftOperation := { type := .leaseGrant, leaseID := id, ttl := 60 }

def firstGrant (id : ℤ) : RaftOperation := { grant id with seqNum := Waiters.seqName 1 }

lemma mem_closed_first :
    0 ∈ ((Waiters.empty.draw.register (Waiters.seqName 1)).notify (Waiters.seqName 1)).closed := by
  decide

lemma exists_own (outcome : E.Outcome store [firstGrant 1] after [none] true) :
    ∃ events s, Transition.Run (Step E) Distinct (.new store : State Unit σ) events s ∧
      ∃ c, s.calls 0 = some c ∧ c.op = firstGrant 1 ∧ c.phase = .returned none := by
  refine ⟨[.draw 0 () (grant 1),.register 0,.propose 0,.commit 0,.start () 1 after [none] true,
    .save (),.settle (),.notify (),.finish 0],_,
    .cons (fun h => nomatch h) (.draw _ 0 () (grant 1) rfl) <|
    .cons trivial (.register _ 0 _ rfl rfl) <|
    .cons trivial (.propose _ 0 _ 0 rfl rfl) <|
    .cons trivial (.commit _ 0 _ rfl List.mem_cons_self) <|
    .cons trivial (.start _ () 1 after [none] true rfl outcome) <|
    .cons ?_ (.save _ () _ _ _ _ _ rfl) <|
    .cons trivial (.settle _ () _ _ _ rfl) <|
    .cons ?_ (.notify _ () _ _ rfl) <|
    .cons trivial (.finish _ 0 _ 0 rfl rfl mem_closed_first) (.nil _),_,rfl,rfl,rfl⟩
  · intro task todo all later notified work kept
    cases work
    exact nomatch kept
  · intro task todo work id c hc
    cases work
    by_cases h : id = 0
    · subst h
      exact fun _ _ _ => ⟨_,rfl,rfl⟩
    · simp [State.setPhase,State.setWaiters,State.setNode,State.setWork,State.new,h] at hc

/-- A client of each node asks for a lease and both draw `seq-1`. The lease of node `true` is
committed and applied on node `false`, and the client of that node returns. -/
lemma exists_mistaken (outcome : E.Outcome store [firstGrant 1] after [none] true) :
    ∃ events s, Transition.Run (Step E) (fun _ _ => True) (.new store : State Bool σ) events s ∧
      ¬ s.Sound := by
  refine ⟨[.draw 0 true (grant 1),.register 0,.propose 0,.draw 1 false (grant 2),.register 1,
    .propose 1,.commit 0,.start false 1 after [none] true,.save false,.settle false,.notify false,
    .finish 1],_,
    .cons trivial (.draw _ 0 true (grant 1) rfl) <|
    .cons trivial (.register _ 0 _ rfl rfl) <|
    .cons trivial (.propose _ 0 _ 0 rfl rfl) <|
    .cons trivial (.draw _ 1 false (grant 2) rfl) <|
    .cons trivial (.register _ 1 _ rfl rfl) <|
    .cons trivial (.propose _ 1 _ 0 rfl rfl) <|
    .cons trivial (.commit _ 0 _ rfl (List.mem_cons_of_mem _ List.mem_cons_self)) <|
    .cons trivial (.start _ false 1 after [none] true rfl outcome) <|
    .cons trivial (.save _ false _ _ _ _ _ rfl) <|
    .cons trivial (.settle _ false _ _ _ rfl) <|
    .cons trivial (.notify _ false _ _ rfl) <|
    .cons trivial (.finish _ 1 _ 0 rfl rfl mem_closed_first) (.nil _),fun sound => ?_⟩
  obtain ⟨⟨p,_,hp⟩,_⟩ := sound 1 _ none rfl rfl
  cases p with
  | zero =>
    have same : some (some 0) = some (some 1) := congrArg (Option.map LogEntry.proposer) hp
    exact absurd same (by decide)
  | succ p => exact nomatch hp

end Runs

lemma memoryEngine_grants :
    ∃ after, memoryEngine.Outcome .empty [firstGrant 1] after [none] true :=
  ⟨_,fun _ => 0,⟨rfl,rfl⟩,rfl⟩

lemma rocksEngine_grants : ∃ after,
    rocksEngine.Outcome RocksDB.Engine.new.records [firstGrant 1] after [none] true :=
  ⟨_,{ clock := fun _ => 0 },rfl,rfl⟩

end Cluster
end MetaStore
