import MetaStore.Memory.Stable

/-! When a batch does what its operations do one by one. Deletions commute, transactions
and lease operations are applied one at a time, and PUTs of one shard run on one goroutine;
only the revisions of neighbouring PUTs in different shards depend on the schedule. -/
namespace MetaStore.Memory
open Std Interleaving

namespace PutStep

theorem runs_draw (op : RaftOperation) (s : MemoryEtcd) :
    Runs exec [draw op] s (s.applyPut op) :=
  .cons (.cons (.cons (.nil _)))

theorem shard_of_mem_exec {a b : PutStep} {s : MemoryEtcd} (h : b ∈ (exec a s).2) :
    b.shard = a.shard := by
  cases a <;> simp only [exec,List.mem_singleton,List.not_mem_nil] at h <;> subst h <;> rfl

end PutStep

namespace DeleteStep

theorem exec_check (key : Bytes) (s : MemoryEtcd) :
    exec (check key) s = (s,((s.kvData.get key).map (count key)).toList) := by
  simp only [exec]
  cases s.kvData.get key <;> rfl

theorem exec_count (key : Bytes) (kv : KeyValue) (s : MemoryEtcd) :
    exec (count key kv) s = ({ s with revision := s.revision+1 },[erase key kv]) := rfl

theorem exec_erase (key : Bytes) (kv : KeyValue) (s : MemoryEtcd) :
    exec (erase key kv) s = ({ s with kvData := s.kvData.delete key },[unlink key kv]) := rfl

theorem exec_unlink (key : Bytes) (kv : KeyValue) (s : MemoryEtcd) :
    exec (unlink key kv) s = ({ s with leases := detachKey s.leases kv.lease key },[]) := rfl

theorem runs_check (key : Bytes) (s : MemoryEtcd) :
    Runs exec [check key] s (s.deleteOne key) := by
  refine .cons ?_
  rw [exec_check]
  cases h : s.kvData.get key with
  | none =>
    rw [MemoryEtcd.deleteOne_of_not_live h]
    exact .nil s
  | some kv =>
    rw [MemoryEtcd.deleteOne_of_get h]
    exact .cons (.cons (.cons (.nil _)))

theorem shard_of_mem_exec {a b : DeleteStep} {s : MemoryEtcd} (h : b ∈ (exec a s).2) :
    b.shard = a.shard := by
  cases a with
  | check key =>
    rw [exec_check] at h
    obtain ⟨kv,-,rfl⟩ := by simpa using h
    rfl
  | _ => simp only [exec,List.mem_singleton,List.not_mem_nil] at h <;> subst h <;> rfl

/-- Steps of different shards see different keys; the counter and the leases are shared, but
both only add up. -/
theorem independent {a b : DeleteStep} (h : a.shard ≠ b.shard) : Independent exec a b := by
  have hne : a.key ≠ b.key := fun he => h (by simp [shard,he])
  have hne' := Ne.symm hne
  intro s
  cases a <;> cases b <;>
    simp_all [exec_check,exec_count,exec_erase,exec_unlink,key,ShardedMap.get_delete]
  · exact ShardedMap.delete_comm ..
  · exact detachKey_comm ..

end DeleteStep

section Flush
variable {ops : List RaftOperation}

theorem batchApplyDeleteSingleKey_iff (ops : List RaftOperation) (s t : MemoryEtcd) :
    BatchApplyDeleteSingleKey ops s t ↔
      t = ops.foldl (fun s op => s.deleteOne op.key) s :=
  ends_split_iff (fun _ _ _ h => DeleteStep.shard_of_mem_exec h)
    (fun _ _ h => DeleteStep.independent h)
    (Runs.foldl (fun op s => DeleteStep.runs_check op.key s) ops s)

theorem batchApplyDelete_iff {s : MemoryEtcd} (hs : Keyed s.kvData) (ops : List RaftOperation)
    (t : MemoryEtcd) : BatchApplyDelete ops s t ↔ t = ops.foldl MemoryEtcd.applyDelete s := by
  have hsingle : ∀ l : List RaftOperation, (∀ op ∈ l, op.rangeEnd = []) →
      l.foldl (fun s op => s.deleteOne op.key) s = l.foldl MemoryEtcd.applyDelete s := by
    intro l hl
    refine List.foldl_ext _ _ _ fun u op hop => ?_
    rw [MemoryEtcd.applyDelete,hl op hop]
    rfl
  have hperm : (ops.filter (fun op => op.rangeEnd = []) ++
      ops.filter fun op => op.rangeEnd ≠ []).Perm ops := by
    simpa using List.filter_append_perm (fun op : RaftOperation => decide (op.rangeEnd = [])) ops
  rw [← MemoryEtcd.foldl_applyDelete_perm hs hperm,List.foldl_append,
    ← hsingle _ fun op hop => by simpa using (List.mem_filter.mp hop).2]
  simp only [BatchApplyDelete,batchApplyDeleteSingleKey_iff]
  constructor
  · rintro ⟨s',hs',rfl⟩
    split_ifs at hs' with hnil
    · rw [hs',hnil]
      rfl
    · rw [hs']
  · rintro rfl
    refine ⟨_,?_,rfl⟩
    split_ifs with hnil
    · rw [hnil]
      rfl
    · rfl

theorem batchApplyPut_iff {i : Fin numShards}
    (hops : ∀ op ∈ ops, getShard op.key = i) (s t : MemoryEtcd) :
    BatchApplyPut ops s t ↔ t = ops.foldl MemoryEtcd.applyPut s := by
  refine ends_split_iff_of_forall_owner (i := i) ?_ (Runs.foldl PutStep.runs_draw ops s)
  intro a ha
  obtain ⟨op,hop,rfl⟩ := List.mem_map.mp ha
  exact hops op hop

def PutsTogether (a b : RaftOperation) : Prop :=
  a.type = .put → b.type = .put → getShard a.key = getShard b.key

instance : DecidableRel PutsTogether := fun a b =>
  inferInstanceAs (Decidable (a.type = .put → b.type = .put → getShard a.key = getShard b.key))

theorem exists_shard_of_isChain (hchain : ops.IsChain PutsTogether)
    (hput : ∀ op ∈ ops, op.type = .put) : ∃ i, ∀ op ∈ ops, getShard op.key = i := by
  induction ops with
  | nil => exact ⟨getShard [],by simp⟩
  | cons a ops ih =>
    refine ⟨getShard a.key,?_⟩
    cases ops with
    | nil => simp
    | cons b ops =>
      obtain ⟨hab,hchain⟩ := List.isChain_cons_cons.mp hchain
      obtain ⟨i,hi⟩ := ih hchain fun op hop => hput op (List.mem_cons_of_mem a hop)
      have hb := hab (hput a (by simp)) (hput b (by simp))
      intro op hop
      rcases List.mem_cons.mp hop with rfl | hop
      · rfl
      · rw [hb,hi op hop,hi b (by simp)]

theorem foldl_etcd (f : MemoryEtcd → RaftOperation → MemoryEtcd) (l : List RaftOperation)
    (m : Memory) : l.foldl (fun m op => { m with etcd := f m.etcd op }) m =
      ⟨l.foldl f m.etcd,m.waiters⟩ := by
  induction l generalizing m with
  | nil => rfl
  | cons op l ih => exact ih _

theorem foldl_applyEffect_put {clock : Clock} {l : List RaftOperation}
    (hput : ∀ op ∈ l, op.type = .put) (m : Memory) :
    l.foldl (applyEffect clock) m = ⟨l.foldl MemoryEtcd.applyPut m.etcd,m.waiters⟩ := by
  rw [← foldl_etcd]
  refine List.foldl_ext _ _ _ fun m op hop => ?_
  rw [applyEffect,hput op hop]

theorem flushBatch_iff {clock : Clock} {currentType : RaftOpType} {batch : List RaftOperation}
    (htype : ∀ op ∈ batch, op.type = currentType) (hchain : batch.IsChain PutsTogether)
    {m m' : Memory} (hm : Keyed m.etcd.kvData) :
    FlushBatch clock currentType batch m m' ↔ m' = batch.foldl (applyEffect clock) m := by
  have hfold : ∀ f : Memory → RaftOperation → Memory,
      (∀ m op, op.type = currentType → applyEffect clock m op = f m op) →
      batch.foldl (applyEffect clock) m = batch.foldl f m := fun f hf =>
    List.foldl_ext _ _ _ fun m op hop => hf m op (htype op hop)
  unfold FlushBatch
  by_cases hnil : batch = []
  · simp [hnil]
  rw [if_neg hnil]
  cases currentType with
  | put =>
    obtain ⟨i,hi⟩ := exists_shard_of_isChain hchain htype
    rw [foldl_applyEffect_put htype]
    exact (and_congr_left' (batchApplyPut_iff hi ..)).trans (Memory.ext_iff (y := ⟨_,_⟩)).symm
  | delete =>
    rw [hfold _ fun m op h => by rw [applyEffect,h],foldl_etcd MemoryEtcd.applyDelete]
    exact (and_congr_left' (batchApplyDelete_iff hm ..)).trans (Memory.ext_iff (y := ⟨_,_⟩)).symm
  | txn => rw [hfold _ fun m op h => by rw [applyEffect,h]]
  | leaseGrant => rw [hfold _ fun m op h => by rw [applyEffect,h]]
  | leaseRevoke =>
    -- the batch passes the operation's TTL where the single path passes 0; a revoke reads neither
    rw [hfold (fun m op => m.applyLease clock op op.ttl) fun m op h => ?_]
    simp [applyEffect,h,applyLease,MemoryEtcd.applyLeaseOperationDirect]
  | other name =>
    rw [hfold (fun m _ => m) fun m op h => by rw [applyEffect,h]]
    simp

end Flush

section Loop
variable {clock : Clock}

theorem applyEffect_notify (m : Memory) (op op' : RaftOperation) :
    (m.notify op').applyEffect clock op = (m.applyEffect clock op).notify op' := by
  unfold applyEffect notify
  split <;> first | rfl | simp only [applyTxn,Waiters.saveTxnResult_notify]

theorem foldl_notify_foldl_applyEffect (ops : List RaftOperation) (m : Memory) :
    ops.foldl notify (ops.foldl (applyEffect clock) m) = ops.foldl (applyOperation clock) m := by
  have hpush : ∀ (l : List RaftOperation) (m : Memory) op,
      l.foldl (applyEffect clock) (m.notify op) = (l.foldl (applyEffect clock) m).notify op := by
    intro l
    induction l with
    | nil => exact fun _ _ => rfl
    | cons op' l ih =>
      intro m op
      rw [List.foldl_cons,applyEffect_notify,ih,List.foldl_cons]
  induction ops generalizing m with
  | nil => rfl
  | cons op ops ih =>
    rw [List.foldl_cons,List.foldl_cons,← hpush,ih,List.foldl_cons]
    rfl

lemma type_of_not_flush {currentType : RaftOpType} {batch : List RaftOperation} {op : RaftOperation}
    (htype : ∀ o ∈ batch, o.type = currentType) (h : ¬(currentType ≠ op.type ∧ batch ≠ [])) :
    ∀ o ∈ batch ++ [op], o.type = op.type := by
  intro o ho
  rcases List.mem_append.mp ho with ho | ho
  · rw [htype o ho]
    by_contra hne
    exact h ⟨hne,List.ne_nil_of_mem ho⟩
  · rw [List.mem_singleton.mp ho]

theorem batchLoop_iff {currentType : RaftOpType} {batch ops : List RaftOperation}
    (htype : ∀ op ∈ batch, op.type = currentType) (hchain : (batch ++ ops).IsChain PutsTogether)
    {m m' : Memory} (hm : Keyed m.etcd.kvData) :
    BatchLoop clock currentType batch ops m m' ↔
      m' = (batch ++ ops).foldl (applyEffect clock) m := by
  induction ops generalizing currentType batch m with
  | nil =>
    rw [List.append_nil] at hchain ⊢
    exact flushBatch_iff htype hchain hm
  | cons op ops ih =>
    rw [BatchLoop]
    split_ifs with hflush
    · have hbatch := (List.isChain_append.mp hchain).1
      simp only [flushBatch_iff htype hbatch hm,exists_eq_left]
      rw [ih (by simp) (List.isChain_append.mp hchain).2.1 (keyed_foldl_applyEffect hm clock batch)]
      simp only [List.foldl_append,List.foldl_cons,List.foldl_nil]
    · rw [ih (type_of_not_flush htype hflush) (by simpa using hchain) hm]
      simp

/-- A batch whose neighbouring PUTs go to one shard has one outcome: the engine that
applied its operations one by one. -/
theorem applyBatch_eq_foldl {ops : List RaftOperation} (hchain : ops.IsChain PutsTogether)
    {m m' : Memory} (hm : Keyed m.etcd.kvData) :
    ApplyBatch clock ops m m' ↔ m' = ops.foldl (applyOperation clock) m := by
  unfold ApplyBatch
  split
  · rfl
  · rfl
  · have hnil : ∀ op ∈ ([] : List RaftOperation), op.type = .other [] := by simp
    simp only [batchLoop_iff hnil hchain hm,exists_eq_left,List.nil_append,
      foldl_notify_foldl_applyEffect]

/-- A batch of deletions, its single keys before its ranges, does what the deletions do one by one,
whatever the schedule. -/
theorem batched_deletes_sequential {s : MemoryEtcd} (hs : Keyed s.kvData) {ops : List RaftOperation}
    (hops : ∀ op ∈ ops, op.type = .delete) (w : Waiters) (t : MemoryEtcd) :
    BatchApplyDelete ops s t ↔ t = (ops.foldl (applyOperation clock) ⟨s,w⟩).etcd := by
  have hfold : ∀ m : Memory, (ops.foldl (applyOperation clock) m).etcd =
      ops.foldl MemoryEtcd.applyDelete m.etcd := by
    induction ops with
    | nil => exact fun _ => rfl
    | cons op ops ih =>
      intro m
      have hop : (m.applyOperation clock op).etcd = m.etcd.applyDelete op := by
        rw [applyOperation,applyEffect,hops op List.mem_cons_self]
        rfl
      rw [List.foldl_cons,List.foldl_cons,ih fun o ho => hops o (List.mem_cons_of_mem op ho),hop]
  rw [batchApplyDelete_iff hs,hfold]

theorem batched_deletes_sequential_two :
    let s := (MemoryEtcd.empty.putDirect [97] [1] 0).1
    let ops : List RaftOperation := [{ type := .delete, key := [97], rangeEnd := [99] },
      { type := .delete, key := [97] }]
    BatchApplyDelete ops s (ops.foldl (applyOperation fun _ => 0) ⟨s,.empty⟩).etcd := by
  intro s ops
  have hs : Keyed s.kvData := Keyed.empty.set rfl
  exact (batched_deletes_sequential hs (by decide) .empty _).mpr rfl

end Loop

end MetaStore.Memory
