import MetaStore.RocksDB.Overlay

/-! When a list of operations with one final write does what the operations do one by one.
The batch form reads the database below its own batch, so an operation is safe when the
records it reads are not among those that earlier operations of the list have changed, and
a transaction, which writes below the batch, when the batch does not write over it. -/
namespace MetaStore.RocksDB
open Std WriteBatch
variable {batch : Batch} {op : RaftOperation} {key rangeEnd : Bytes} {env : Env} {r : Records}

/-- The database below the batch and the one with the batch written hold the same record. -/
def Settled (r : Records) (batch : Batch) (x : Bytes) : Prop :=
  (merged r batch).db[x]? = r.db[x]?

instance (r : Records) (batch : Batch) (x : Bytes) : Decidable (Settled r batch x) :=
  inferInstanceAs (Decidable (_ = _))

def ClearOperation (env : Env) (r : Records) (batch : Batch) (op : RaftOperation) : Prop :=
  match op.type with
  | .put => Settled r batch (kvKey op.key) ∧ (op.leaseID ≠ 0 → Settled r batch (leaseKey op.leaseID)) ∧
      (attachKey env r.db op.key op.leaseID).isOk
  | .delete => op.rangeEnd ≠ [] → ∀ x ∈ scan (merged r batch).db op.key op.rangeEnd,
      x ∈ scanBelow r.db op.key op.rangeEnd
  | .leaseGrant => True
  | .leaseRevoke => Settled r batch (leaseKey op.leaseID) ∧
      ∀ l, getLease r.db op.leaseID = .ok (some l) → l.keys.toList = []
  | .txn => (∀ cmp ∈ op.compares, Settled r batch (kvKey cmp.key)) ∧
      ∀ o ∈ branch r.db op.compares op.thenOps op.elseOps, ClearOp batch o
  | .other _ => True

def Clear (env : Env) : Records → Batch → List RaftOperation → Prop
  | _,_,[] => True
  | r,batch,op :: ops => ClearOperation env r batch op ∧
      Clear env (prepareRecords env r batch op).1 (prepareRecords env r batch op).2 ops

lemma preparePutBatch_merged {value : Bytes}
    {leaseID : ℤ} (hrev : RevisionFree batch) (hkv : Settled r batch (kvKey key))
    (hlease : leaseID ≠ 0 → Settled r batch (leaseKey leaseID))
    (hok : (attachKey env r.db key leaseID).isOk) :
    merged (preparePutBatch env r batch key value leaseID).1
        (preparePutBatch env r batch key value leaseID).2 =
      (putUnlocked env (merged r batch) key value leaseID).1 := by
  have hput : putUnlocked env (merged r batch) key value leaseID = _ := putUnlocked_eq hkv hlease
  have hattach : attachKey env (incrementRevision r).db key leaseID =
      attachKey env r.db key leaseID :=
    attachKey_congr fun _ => getElem?_incrementRevision_of_ne (leaseKey_ne_revisionKey leaseID)
  rw [hput,preparePutBatch]
  simp only [hattach]
  cases ha : attachKey env r.db key leaseID with
  | error err => rw [ha] at hok; cases hok
  | ok lease =>
    dsimp only
    rw [List.append_assoc,merged_append,merged_incrementRevision hrev]
    rfl

lemma inRange_of_lt {k : Bytes} (hlow : key ≤ k) (hhigh : k < rangeEnd) :
    inRange key rangeEnd k := by
  simp [inRange,hlow,hhigh]

lemma mem_scanBelow_keys {db : Database} {x : Bytes} :
    x ∈ ((scanBelow db key rangeEnd).map fun k => k.drop kvPrefix.length).map kvKey ↔
      x ∈ scanBelow db key rangeEnd := by
  have hself : ∀ y ∈ scanBelow db key rangeEnd, kvKey (y.drop kvPrefix.length) = y := by
    intro y hy
    obtain ⟨-,k,rfl,-⟩ := mem_scanBelow.mp hy
    rw [kvKey,kvKey,List.drop_left]
  rw [List.map_map,List.mem_map]
  constructor
  · rintro ⟨y,hy,rfl⟩
    exact (hself y hy).symm ▸ hy
  · exact fun hx => ⟨x,hx,hself x hx⟩

lemma prepareDeleteBatch_merged
    (hrev : RevisionFree batch)
    (h : rangeEnd ≠ [] → ∀ x ∈ scan (merged r batch).db key rangeEnd,
      x ∈ scanBelow r.db key rangeEnd) :
    merged (prepareDeleteBatch r batch key rangeEnd).1 (prepareDeleteBatch r batch key rangeEnd).2 =
      deleteUnlocked (merged r batch) key rangeEnd := by
  by_cases hend : rangeEnd = []
  · simp only [prepareDeleteBatch,deleteUnlocked,hend,if_true]
    rw [merged_append,merged_incrementRevision hrev]
    rfl
  · simp only [prepareDeleteBatch,deleteUnlocked,hend,if_false]
    rw [merged_append,← merged_incrementRevision hrev]
    refine Records.ext ?_ rfl rfl
    have hdeletes : ∀ l : List Bytes, (l.map fun k => BatchOp.delete (kvKey k) : Batch) =
        (l.map kvKey).map .delete := fun l => by rw [List.map_map]; rfl
    have hsame : ∀ s : Records, ∀ k, kvKey k ∈ (incrementRevision s).db ↔ kvKey k ∈ s.db := by
      intro s k
      rw [ExtTreeMap.mem_iff_isSome_getElem?,ExtTreeMap.mem_iff_isSome_getElem?,
        getElem?_incrementRevision_of_ne (kvKey_ne_revisionKey k)]
    ext1 x
    rw [hdeletes,getElem?_write,getElem?_write,pending_map_delete,pending_map_delete]
    by_cases hx : x ∈ scan (incrementRevision (merged r batch)).db key rangeEnd
    · obtain ⟨hmem,k,rfl,hk⟩ := mem_scan.mp hx
      have hbelow := h hend _ (mem_scan.mpr ⟨(hsame _ k).mp hmem,k,rfl,hk⟩)
      obtain ⟨hmem',hrange⟩ := mem_scanBelow.mp hbelow
      rw [if_pos hx,if_pos (mem_scanBelow_keys.mpr
        (mem_scanBelow.mpr ⟨(hsame r k).mpr hmem',hrange⟩))]
    · rw [if_neg hx]
      split_ifs with hbelow
      · -- a key the batch deletes from below is not there once the batch is written
        obtain ⟨-,k,rfl,hlow,hhigh⟩ := mem_scanBelow.mp (mem_scanBelow_keys.mp hbelow)
        have hnot : kvKey k ∉ (incrementRevision (merged r batch)).db := fun hmem =>
          hx (mem_scan.mpr ⟨hmem,k,rfl,inRange_of_lt hlow hhigh⟩)
        simpa using hnot
      · rfl

lemma prepareLeaseRevokeBatch_merged {leaseID : ℤ}
    (hsettled : Settled r batch (leaseKey leaseID))
    (h : ∀ l, getLease r.db leaseID = .ok (some l) → l.keys.toList = []) :
    merged r (prepareLeaseRevokeBatch r batch leaseID) =
      (leaseRevokeUnlocked (merged r batch) leaseID).1 := by
  have hlease : getLease (merged r batch).db leaseID = getLease r.db leaseID := by
    rw [getLease,getLease,hsettled]
  rw [leaseRevokeUnlocked,hlease,prepareLeaseRevokeBatch]
  cases hl : getLease r.db leaseID with
  | error err => rfl
  | ok lease =>
    cases lease with
    | none => rfl
    | some l =>
      simp only [h l hl,List.map_nil,List.append_nil,List.foldl_nil]
      rw [merged_append]
      rfl

theorem prepareRecords_merged
    (hrev : RevisionFree batch) (h : ClearOperation env r batch op) :
    merged (prepareRecords env r batch op).1 (prepareRecords env r batch op).2 =
      applyRecords env (merged r batch) op := by
  unfold ClearOperation at h
  unfold prepareRecords applyRecords
  cases ht : op.type <;> rw [ht] at h <;> dsimp only at h ⊢
  case put => exact preparePutBatch_merged hrev h.1 h.2.1 h.2.2
  case delete => exact prepareDeleteBatch_merged hrev h
  case leaseGrant =>
    rw [prepareLeaseGrantBatch,merged_append]
    rfl
  case leaseRevoke => exact prepareLeaseRevokeBatch_merged h.1 h.2
  case txn => exact (txnUnlocked_merged hrev h.1 h.2).symm

lemma revisionFree_prepareRecords
    (h : RevisionFree batch) : RevisionFree (prepareRecords env r batch op).2 := by
  have happend : ∀ b : Batch, RevisionFree b → RevisionFree (batch ++ b) := fun b hb o ho =>
    (List.mem_append.mp ho).elim (h o) (hb o)
  unfold prepareRecords
  cases op.type with
  | put =>
    have hkv : RevisionFree [putKeyValue r.db (r.cachedRevision+1) op.key op.value op.leaseID] :=
      fun o ho => by rw [List.mem_singleton.mp ho]; exact kvKey_ne_revisionKey op.key
    dsimp only [preparePutBatch]
    split
    · exact happend _ hkv
    · next lease hl =>
      rw [List.append_assoc]
      refine happend _ fun o ho => ?_
      rcases List.mem_append.mp ho with ho | ho
      · exact hkv o ho
      · rw [(mem_attachKey hl ho).2]
        exact leaseKey_ne_revisionKey op.leaseID
  | delete =>
    dsimp only [prepareDeleteBatch]
    split_ifs
    · exact happend _ fun o ho => by
        rw [List.mem_singleton.mp ho]; exact kvKey_ne_revisionKey op.key
    · refine happend _ fun o ho => ?_
      obtain ⟨k,-,rfl⟩ := List.mem_map.mp ho
      exact kvKey_ne_revisionKey k
  | leaseGrant =>
    exact happend _ fun o ho => by
      rw [List.mem_singleton.mp ho]; exact leaseKey_ne_revisionKey op.leaseID
  | leaseRevoke =>
    dsimp only [prepareLeaseRevokeBatch]
    split
    · exact h
    · exact h
    · rw [List.append_assoc]
      refine happend _ fun o ho => ?_
      rcases List.mem_append.mp ho with ho | ho
      · obtain ⟨k,-,rfl⟩ := List.mem_map.mp ho
        exact kvKey_ne_revisionKey k
      · rw [List.mem_singleton.mp ho]
        exact leaseKey_ne_revisionKey op.leaseID
  | txn => exact h
  | other name => exact h

lemma prepareOperations_merged {e : Engine} {ops : List RaftOperation}
    (hrev : RevisionFree batch) (h : Clear env e.records batch ops) :
    merged (prepareOperations env (e,batch) ops).1.records (prepareOperations env (e,batch) ops).2 =
      ops.foldl (applyRecords env) (merged e.records batch) := by
  induction ops generalizing e batch with
  | nil => rfl
  | cons op ops ih =>
    rw [prepareOperations,List.foldl_cons,← prepareRecords_merged hrev h.1]
    exact ih (revisionFree_prepareRecords hrev) h.2

lemma records_foldl_applyOperation (env : Env) (ops : List RaftOperation) (e : Engine) :
    (ops.foldl (applyOperation env) e).records = ops.foldl (applyRecords env) e.records := by
  induction ops generalizing e with
  | nil => rfl
  | cons op ops ih => exact ih (applyOperation env e op)

end MetaStore.RocksDB
