import MetaStore.RocksDB.Watch

/-! A list of operations whose final write fails. Revisions are stored one by one while the batch is
prepared and transactions write at once, so such a list has no effect only if nothing in it draws a
revision. -/
namespace MetaStore.RocksDB

def Draws (op : Op) : Prop := op.type = .put ∨ op.type = .delete

/-- The operation draws no revision: it is neither a put nor a deletion, and the branch of a
transaction that is executed has none. -/
def Quiet (db : Database) (op : RaftOperation) : Prop :=
  match op.type with
  | .put => False
  | .delete => False
  | .txn => ∀ o ∈ if compares db op.compares then op.thenOps else op.elseOps, ¬ Draws o
  | _ => True

structure NoEffect (env : Env) (r : Records) (ops : List RaftOperation) (r' : Records) : Prop where
  records : ∀ k, r'.db[kvKey k]? = r.db[kvKey k]?
  leases : ∀ id, r'.db[leaseKey id]? = r.db[leaseKey id]?
  revision : r'.cachedRevision = r.cachedRevision
  stored : r'.db[revisionKey]? = r.db[revisionKey]?
  events : (segments env false r ops).flatMap Segment.events = []

section Steps
variable (env : Env) (r : Records)

lemma txnOp_of_not_draws {op : Op} (h : ¬ Draws op) :
    ∃ response, txnOp env r op = (r,.ok response) ∧ txnSegment env r op = ⟨[],[]⟩ := by
  unfold txnOp txnSegment
  cases htype : op.type with
  | range => exact ⟨_,rfl,rfl⟩
  | put => exact absurd (.inl htype) h
  | delete => exact absurd (.inr htype) h
  | txn => exact ⟨_,rfl,rfl⟩

lemma cachedRevision_txnOp {op : Op} (h : Draws op) :
    r.cachedRevision < (txnOp env r op).1.cachedRevision := by
  unfold txnOp
  rcases h with h | h
  · rw [h]
    simp only [putUnlocked]
    split <;> exact Int.lt_succ r.cachedRevision
  · rw [h]
    simp only [deleteUnlocked]
    split_ifs <;> exact Int.lt_succ r.cachedRevision

lemma txnOps_quiet_or_draws (ops : List Op) :
    ((∀ op ∈ ops, ¬ Draws op) ∧ (txnOps env r ops).1 = r ∧
      (txnSegments env r ops).flatMap Segment.events = []) ∨
    (∃ op ∈ ops, Draws op) ∧ r.cachedRevision < (txnOps env r ops).1.cachedRevision := by
  induction ops generalizing r with
  | nil => exact .inl ⟨by simp,rfl,rfl⟩
  | cons op ops ih =>
    by_cases hop : Draws op
    · refine .inr ⟨⟨op,List.mem_cons_self,hop⟩,?_⟩
      have hlt := cachedRevision_txnOp env r hop
      rw [txnOps]
      cases (txnOp env r op).2 with
      | error err => exact hlt
      | ok response =>
        rcases ih (txnOp env r op).1 with ⟨-,heq,-⟩ | ⟨-,hlt'⟩
        · dsimp only
          rwa [heq]
        · exact hlt.trans hlt'
    · obtain ⟨response,heq,hsegment⟩ := txnOp_of_not_draws env r hop
      rw [txnOps,txnSegments,heq,hsegment]
      dsimp only
      rcases ih r with ⟨hquiet,hsame,hevents⟩ | ⟨⟨o,ho,hdraws⟩,hlt⟩
      · exact .inl ⟨List.forall_mem_cons.mpr ⟨hop,hquiet⟩,hsame,hevents⟩
      · exact .inr ⟨⟨o,List.mem_cons_of_mem op ho,hdraws⟩,hlt⟩

lemma prepared_quiet_or_draws (op : RaftOperation) :
    (Quiet r.db op ∧ (prepared env r op).db = r.db ∧
      (prepared env r op).cachedRevision = r.cachedRevision ∧
      (sentSegments env r op).flatMap Segment.events = []) ∨
    ¬ Quiet r.db op ∧ r.cachedRevision < (prepared env r op).cachedRevision := by
  unfold Quiet prepared prepareRecords sentSegments
  cases op.type with
  | put =>
    refine .inr ⟨id,?_⟩
    simp only [preparePutBatch]
    split <;> exact Int.lt_succ r.cachedRevision
  | delete =>
    refine .inr ⟨id,?_⟩
    simp only [prepareDeleteBatch]
    split_ifs <;> exact Int.lt_succ r.cachedRevision
  | txn =>
    rcases txnOps_quiet_or_draws env r (if compares r.db op.compares then op.thenOps else op.elseOps)
      with ⟨hquiet,hsame,hevents⟩ | ⟨⟨o,ho,hdraws⟩,hlt⟩
    · exact .inl ⟨hquiet,congrArg Records.db hsame,congrArg Records.cachedRevision hsame,hevents⟩
    · exact .inr ⟨fun hquiet => hquiet o ho hdraws,hlt⟩
  | leaseGrant => exact .inl ⟨trivial,rfl,rfl,rfl⟩
  | leaseRevoke => exact .inl ⟨trivial,rfl,rfl,rfl⟩
  | other name => exact .inl ⟨trivial,rfl,rfl,rfl⟩

lemma prepareOperations_quiet_or_draws (w : Waiters) (batch : Batch) (ops : List RaftOperation) :
    ((∀ op ∈ ops, Quiet r.db op) ∧
      (prepareOperations env (⟨r,w⟩,batch) ops).1.records.db = r.db ∧
      (prepareOperations env (⟨r,w⟩,batch) ops).1.records.cachedRevision = r.cachedRevision ∧
      (sent env r ops).flatMap Segment.events = []) ∨
    ¬ (∀ op ∈ ops, Quiet r.db op) ∧
      r.cachedRevision < (prepareOperations env (⟨r,w⟩,batch) ops).1.records.cachedRevision := by
  induction ops generalizing r w batch with
  | nil => exact .inl ⟨by simp,rfl,rfl,rfl⟩
  | cons op ops ih =>
    obtain ⟨added,hprepare,-⟩ := prepareRecords_logs env r batch op
    rw [prepareOperations,List.forall_mem_cons,sent,List.flatMap_append]
    dsimp only
    rw [hprepare]
    have hrest := ih (prepared env r op) (w.saveTxnResult op.seqNum (txnResponse env r op))
      (batch ++ added)
    rcases prepared_quiet_or_draws env r op with ⟨hquiet,hdb,hrevision,hevents⟩ | ⟨hloud,hlt⟩
    · rw [hdb,hrevision] at hrest
      rcases hrest with ⟨hall,hdb',hrevision',hevents'⟩ | ⟨hsome,hlt⟩
      · exact .inl ⟨⟨hquiet,hall⟩,hdb',hrevision',by rw [hevents,hevents']; rfl⟩
      · exact .inr ⟨fun h => hsome h.2,hlt⟩
    · refine .inr ⟨fun h => hloud h.1,?_⟩
      rcases hrest with ⟨-,-,hrevision,-⟩ | ⟨-,hlt'⟩
      · rwa [hrevision]
      · exact hlt.trans hlt'

end Steps

/-- A list whose final write fails has no effect exactly if nothing in it draws a revision. -/
theorem failed_batch_no_effect_iff (env : Env) (e : Engine) (ops : List RaftOperation) :
    NoEffect env e.records ops (applyOperationsBatch env false e ops).records ↔
      ∀ op ∈ ops, Quiet e.records.db op := by
  obtain ⟨r,w⟩ := e
  have hfailed : (applyOperationsBatch env false ⟨r,w⟩ ops).records =
      (prepareOperations env (⟨r,w⟩,[]) ops).1.records := rfl
  rw [hfailed]
  rcases prepareOperations_quiet_or_draws env r w [] ops with
    ⟨hquiet,hdb,hrevision,hevents⟩ | ⟨hloud,hlt⟩
  · refine iff_of_true ⟨by simp [hdb],by simp [hdb],hrevision,by rw [hdb],?_⟩ hquiet
    simpa [segments] using hevents
  · exact iff_of_false (fun h => hlt.ne' h.revision) hloud

/-- A single put: the revision is drawn and stored, although the batch is lost. -/
theorem failed_batch_draws_revision :
    let op : RaftOperation := { type := .put, key := [97], value := [1] }
    let e := applyOperationsBatch ⟨fun _ => 0,true⟩ false .new [op]
    e.records.cachedRevision = 1 ∧ e.records.db[revisionKey]? = some (.revision 1) ∧
      Engine.new.records.cachedRevision = 0 ∧ Engine.new.records.db[revisionKey]? = none :=
  ⟨rfl,rfl,rfl,rfl⟩

end MetaStore.RocksDB
