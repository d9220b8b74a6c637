import MetaStore.KVStore.Watch
import MetaStore.RocksDB.LeaseKeys

/-! The watches of the store on RocksDB. Transactions write and notify at once; the other
operations of a list put their writes into the batch and their events into a queue, which is
emptied after the final write. A segment holds the writes of one piece of work and the events
that go with them. -/
namespace MetaStore.RocksDB
open Std WriteBatch ChangeLog

structure Segment where
  events : List WatchEvent
  writes : List RecordWrite

/-- One operation of a transaction. A range deletion decodes the records by gob for its events,
which never succeeds on them. -/
def txnSegment (env : Env) (r : Records) (op : Op) : Segment :=
  let newRevision := r.cachedRevision+1
  match op.type with
  | .put =>
    let prevKv := getKeyValue r.db op.key
    let kv := putRecord prevKv newRevision op.key op.value op.leaseID
    if refuses env r.db op.key op.leaseID then ⟨[],[]⟩
    else ⟨[putEvent kv prevKv newRevision],[⟨op.key,some kv,some newRevision⟩]⟩
  | .delete =>
    if op.rangeEnd = [] then
      ⟨(getKeyValue r.db op.key).toList.map (deleteEvent · newRevision),
        [⟨op.key,none,some newRevision⟩]⟩
    else
      ⟨[],(scan r.db op.key op.rangeEnd).map fun k =>
        ⟨k.drop kvPrefix.length,none,some newRevision⟩⟩
  | .range => ⟨[],[]⟩
  | .txn => ⟨[],[]⟩

def txnSegments (env : Env) : Records → List Op → List Segment
  | _,[] => []
  | r,op :: ops => txnSegment env r op ::
    match (txnOp env r op).2 with
    | .error _ => []
    | .ok _ => txnSegments env (txnOp env r op).1 ops

def toDelete (db : Database) (key rangeEnd : Bytes) : List Bytes :=
  if rangeEnd = [] then [key] else (scanBelow db key rangeEnd).map fun k => k.drop kvPrefix.length

/-- What an operation adds to the batch and to the queue. The keys of a revoked lease are deleted
without a revision and without events. -/
def preparedSegments (env : Env) (r : Records) (op : RaftOperation) : List Segment :=
  let newRevision := r.cachedRevision+1
  match op.type with
  | .put =>
    let prevKv := getKeyValue r.db op.key
    let kv := putRecord prevKv newRevision op.key op.value op.leaseID
    [⟨if refuses env r.db op.key op.leaseID then [] else [putEvent kv prevKv newRevision],
      [⟨op.key,some kv,some newRevision⟩]⟩]
  | .delete => (toDelete (incrementRevision r).db op.key op.rangeEnd).map fun key =>
      ⟨(getKeyValue r.db key).toList.map (deleteEvent · newRevision),
        [⟨key,none,some newRevision⟩]⟩
  | .leaseRevoke =>
    match getLease r.db op.leaseID with
    | .ok (some l) => [⟨[],l.keys.toList.map fun key => ⟨key,none,none⟩⟩]
    | _ => []
  | .leaseGrant => []
  | .txn => []
  | .other _ => []

def sentSegments (env : Env) (r : Records) (op : RaftOperation) : List Segment :=
  match op.type with
  | .txn => txnSegments env r (if compares r.db op.compares then op.thenOps else op.elseOps)
  | _ => []

/-- The records after the preparation of an operation, which do not depend on the batch. -/
def prepared (env : Env) (r : Records) (op : RaftOperation) : Records :=
  (prepareRecords env r [] op).1

def sent (env : Env) : Records → List RaftOperation → List Segment
  | _,[] => []
  | r,op :: ops => sentSegments env r op ++ sent env (prepared env r op) ops

def queued (env : Env) : Records → List RaftOperation → List Segment
  | _,[] => []
  | r,op :: ops => preparedSegments env r op ++ queued env (prepared env r op) ops

/-- All segments of `applyOperationsBatch`, in the order of their writes and events. -/
def segments (env : Env) (writeOK : Bool) (r : Records) (ops : List RaftOperation) : List Segment :=
  sent env r ops ++ if writeOK then queued env r ops else []

def Segment.received (sub : WatchSubscription) (g : Segment) : List WatchEvent :=
  g.events.flatMap sub.notifyWatches

def received (sub : WatchSubscription) (gs : List Segment) : List WatchEvent :=
  gs.flatMap (Segment.received sub)

def history (view : Bytes → Option KeyValue) (gs : List Segment) : List RecordChange :=
  changes view (gs.flatMap Segment.writes)

section Views
variable (env : Env) (r : Records)
variable {db : Database} {key : Bytes}

lemma getKeyValue_incrementRevision : getKeyValue (incrementRevision r).db = getKeyValue r.db := by
  funext k
  rw [getKeyValue,getKeyValue,getElem?_incrementRevision_of_ne (kvKey_ne_revisionKey k)]

lemma replay_deletions (view : Bytes → Option KeyValue) (keys : List Bytes) (revision : Option ℤ)
    (k : Bytes) : replay view (keys.map fun key => (⟨key,none,revision⟩ : RecordWrite)) k =
      if k ∈ keys then none else view k := by
  induction keys generalizing view with
  | nil => simp
  | cons key keys ih =>
    rw [List.map_cons,replay_cons,ih,Write.apply,Function.update_apply]
    by_cases hk : k ∈ keys <;> by_cases hkey : k = key <;> simp [hk,hkey]

def Logs (b : Batch) (ws : List RecordWrite) : Prop :=
  ∀ db, getKeyValue (write db b) = replay (getKeyValue db) ws

lemma logs_nil : Logs [] [] := fun _ => rfl

lemma Logs.append {a b : Batch} {ws ws' : List RecordWrite} (ha : Logs a ws) (hb : Logs b ws') :
    Logs (a ++ b) (ws ++ ws') := by
  intro db
  rw [write_append,hb,ha,replay_append]

lemma logs_put (key : Bytes) (kv : KeyValue) (revision : Option ℤ) :
    Logs [.put (kvKey key) (.keyValue kv)] [⟨key,some kv,revision⟩] := by
  intro db
  funext k
  rw [getKeyValue,getElem?_write]
  change _ = Function.update (getKeyValue db) key (some kv) k
  rw [Function.update_apply]
  by_cases hk : k = key
  · simp [hk,pending_cons,BatchOp.key,BatchOp.value]
  · have hne : kvKey key ≠ kvKey k := fun h => hk (kvKey_injective h).symm
    simp [hk,hne,pending_cons,BatchOp.key,getKeyValue]

lemma logs_deletes (keys : List Bytes) (revision : Option ℤ) :
    Logs (keys.map fun key => .delete (kvKey key)) (keys.map fun key => ⟨key,none,revision⟩) := by
  intro db
  funext k
  rw [replay_deletions,getKeyValue,getElem?_write]
  have hpending : pending (keys.map fun key => (.delete (kvKey key) : BatchOp Bytes Value)) (kvKey k) =
      if k ∈ keys then some none else none := by
    have h := pending_map_delete (V := Value) (keys.map kvKey) (kvKey k)
    rw [List.map_map] at h
    refine h.trans ?_
    simp only [List.mem_map,kvKey_injective.eq_iff,exists_eq_right]
  rw [hpending]
  by_cases hk : k ∈ keys <;> simp [hk,getKeyValue]

lemma logs_lease (id : ℤ) (op : BatchOp Bytes Value) (hop : op.key = leaseKey id) : Logs [op] [] := by
  intro db
  funext k
  have hne : op.key ≠ kvKey k := fun h => leaseKey_ne_kvKey id k (hop.symm.trans h)
  rw [getKeyValue,getElem?_write]
  simp [pending_cons,hne,getKeyValue]

lemma logs_attachKey {leaseID : ℤ} {b : Batch}
    (h : attachKey env db key leaseID = .ok b) : Logs b [] := by
  unfold attachKey at h
  split_ifs at h
  · obtain rfl := Except.ok.inj h
    exact logs_nil
  · split at h
    · cases h
    · obtain rfl := Except.ok.inj h
      exact logs_nil
    · split at h
      · cases h
      · obtain rfl := Except.ok.inj h
        exact logs_lease leaseID _ rfl

lemma attachKey_incrementRevision (key : Bytes) (leaseID : ℤ) :
    attachKey env (incrementRevision r).db key leaseID = attachKey env r.db key leaseID :=
  attachKey_congr fun _ => getElem?_incrementRevision_of_ne (leaseKey_ne_revisionKey leaseID)

lemma refuses_eq_true_iff {leaseID : ℤ} :
    refuses env db key leaseID = true ↔ ∃ err, attachKey env db key leaseID = .error err := by
  unfold refuses
  cases attachKey env db key leaseID <;> simp

lemma getKeyValue_putUnlocked (key value : Bytes) (leaseID : ℤ) :
    getKeyValue (putUnlocked env r key value leaseID).1.db =
      replay (getKeyValue r.db) (if refuses env r.db key leaseID then [] else
        [⟨key,some (putRecord (getKeyValue r.db key) (r.cachedRevision+1) key value leaseID),
          some (r.cachedRevision+1)⟩]) := by
  rw [putUnlocked,attachKey_incrementRevision,refuses]
  cases hattach : attachKey env r.db key leaseID with
  | error err => exact getKeyValue_incrementRevision r
  | ok lease =>
    have hlogs := (logs_put key (putRecord (getKeyValue r.db key) (r.cachedRevision+1) key value
      leaseID) (some (r.cachedRevision+1))).append (logs_attachKey env hattach)
    have h := hlogs (incrementRevision r).db
    rw [getKeyValue_incrementRevision] at h
    exact h

instance (key rangeEnd k : Bytes) : Decidable (Targets key rangeEnd k) :=
  inferInstanceAs (Decidable (if rangeEnd = [] then k = key else inRange key rangeEnd k = true))

lemma drop_kvKey (k : Bytes) : (kvKey k).drop kvPrefix.length = k := List.drop_left

lemma mem_scan_drop {rangeEnd k : Bytes} :
    k ∈ (scan db key rangeEnd).map (List.drop kvPrefix.length) ↔
      kvKey k ∈ db ∧ inRange key rangeEnd k = true := by
  simp only [List.mem_map,mem_scan]
  constructor
  · rintro ⟨_,⟨hx,k',rfl,hk'⟩,rfl⟩
    rw [drop_kvKey]
    exact ⟨hx,hk'⟩
  · rintro ⟨hx,hk⟩
    exact ⟨kvKey k,⟨hx,k,rfl,hk⟩,drop_kvKey k⟩

lemma getKeyValue_of_not_mem {k : Bytes} (h : kvKey k ∉ db) :
    getKeyValue db k = none := by
  rw [getKeyValue,ExtTreeMap.getElem?_eq_none h]

lemma getKeyValue_deleteUnlocked (key rangeEnd k : Bytes) :
    getKeyValue (deleteUnlocked r key rangeEnd).db k =
      if Targets key rangeEnd k then none else getKeyValue r.db k := by
  by_cases hk : Targets key rangeEnd k
  · rw [if_pos hk,getKeyValue,getElem?_deleteUnlocked_of_targets r hk]
  · rw [if_neg hk,getKeyValue,getElem?_deleteUnlocked_of_not_targets r fun k' hk' =>
      kvKey_injective hk' ▸ hk,getElem?_incrementRevision_of_ne (kvKey_ne_revisionKey k)]
    rfl

lemma map_scan_drop (key rangeEnd : Bytes) {β : Type} (f : Bytes → β) :
    ((scan db key rangeEnd).map fun k => f (k.drop kvPrefix.length)) =
      ((scan db key rangeEnd).map (List.drop kvPrefix.length)).map f := by
  rw [List.map_map]
  rfl

theorem getKeyValue_txnOp (op : Op) :
    getKeyValue (txnOp env r op).1.db = replay (getKeyValue r.db) (txnSegment env r op).writes := by
  unfold txnOp txnSegment
  cases op.type with
  | range => rfl
  | txn => rfl
  | put =>
    dsimp only
    rw [getKeyValue_putUnlocked]
    split_ifs <;> rfl
  | delete =>
    dsimp only
    funext k
    by_cases hend : op.rangeEnd = []
    · rw [if_pos hend]
      have htarget : Targets op.key op.rangeEnd k ↔ k = op.key := by rw [Targets,if_pos hend]
      change _ = Function.update (getKeyValue r.db) op.key none k
      rw [getKeyValue_deleteUnlocked,Function.update_apply]
      exact if_congr htarget rfl rfl
    · rw [if_neg hend,map_scan_drop op.key op.rangeEnd fun k =>
        (⟨k,none,some (r.cachedRevision+1)⟩ : RecordWrite),replay_deletions,getKeyValue_deleteUnlocked]
      have htarget : Targets op.key op.rangeEnd k ↔ inRange op.key op.rangeEnd k = true := by
        rw [Targets,if_neg hend]
      by_cases hk : inRange op.key op.rangeEnd k = true
      · rw [if_pos (htarget.mpr hk)]
        split_ifs with hmem
        · rfl
        · exact (getKeyValue_of_not_mem fun hdb => hmem (mem_scan_drop.mpr ⟨hdb,hk⟩)).symm
      · rw [if_neg fun h => hk (htarget.mp h),if_neg fun h => hk (mem_scan_drop.mp h).2]

lemma getKeyValue_txnOps (ops : List Op) :
    getKeyValue (txnOps env r ops).1.db =
      replay (getKeyValue r.db) ((txnSegments env r ops).flatMap Segment.writes) := by
  induction ops generalizing r with
  | nil => rfl
  | cons op ops ih =>
    rw [txnOps,txnSegments,List.flatMap_cons,replay_append,← getKeyValue_txnOp]
    cases (txnOp env r op).2 with
    | error err => rfl
    | ok response => exact ih _

lemma getKeyValue_prepareDelete (key rangeEnd : Bytes) :
    getKeyValue (prepareDeleteBatch r [] key rangeEnd).1.db = getKeyValue r.db := by
  unfold prepareDeleteBatch
  dsimp only
  split_ifs <;> exact getKeyValue_incrementRevision r

theorem prepareRecords_logs (batch : Batch) (op : RaftOperation) :
    ∃ added, prepareRecords env r batch op = (prepared env r op,batch ++ added) ∧
      Logs added ((preparedSegments env r op).flatMap Segment.writes) ∧
      getKeyValue (prepared env r op).db =
        replay (getKeyValue r.db) ((sentSegments env r op).flatMap Segment.writes) := by
  unfold prepared prepareRecords preparedSegments sentSegments
  cases op.type with
  | put =>
    have hput := logs_put op.key (putRecord (getKeyValue r.db op.key) (r.cachedRevision+1) op.key
      op.value op.leaseID) (some (r.cachedRevision+1))
    simp only [preparePutBatch]
    cases hattach : attachKey env (incrementRevision r).db op.key op.leaseID with
    | error err => exact ⟨_,rfl,hput,getKeyValue_incrementRevision r⟩
    | ok lease =>
      refine ⟨_,Prod.ext rfl (List.append_assoc _ _ _),?_,getKeyValue_incrementRevision r⟩
      exact hput.append (logs_attachKey env hattach)
  | delete =>
    obtain ⟨keys,hkeys⟩ : ∃ keys, keys = toDelete (incrementRevision r).db op.key op.rangeEnd :=
      ⟨_,rfl⟩
    refine ⟨keys.map fun key => .delete (kvKey key),?_,?_,getKeyValue_prepareDelete r _ _⟩
    · rw [hkeys,toDelete]
      dsimp only [prepareDeleteBatch]
      split_ifs <;> rfl
    · dsimp only
      rw [← hkeys,List.flatMap_map]
      have hwrites : (keys.flatMap fun key => [(⟨key,none,some (r.cachedRevision+1)⟩ : RecordWrite)]) =
          keys.map fun key => ⟨key,none,some (r.cachedRevision+1)⟩ := List.map_eq_flatMap.symm
      exact hwrites ▸ logs_deletes keys _
  | leaseGrant => exact ⟨_,rfl,logs_lease op.leaseID _ rfl,rfl⟩
  | leaseRevoke =>
    dsimp only [prepareLeaseRevokeBatch]
    cases getLease r.db op.leaseID with
    | error err => exact ⟨[],by rw [List.append_nil],logs_nil,rfl⟩
    | ok lease =>
      cases lease with
      | none => exact ⟨[],by rw [List.append_nil],logs_nil,rfl⟩
      | some l =>
        refine ⟨_,Prod.ext rfl (List.append_assoc _ _ _),?_,rfl⟩
        exact (logs_deletes l.keys.toList none).append (logs_lease op.leaseID _ rfl)
  | txn => exact ⟨[],by rw [List.append_nil],logs_nil,getKeyValue_txnOps env r _⟩
  | other name => exact ⟨[],by rw [List.append_nil],logs_nil,rfl⟩

theorem prepareOperations_logs (w : Waiters) (batch : Batch) (ops : List RaftOperation) :
    ∃ added, (prepareOperations env (⟨r,w⟩,batch) ops).2 = batch ++ added ∧
      Logs added ((queued env r ops).flatMap Segment.writes) ∧
      getKeyValue (prepareOperations env (⟨r,w⟩,batch) ops).1.records.db =
        replay (getKeyValue r.db) ((sent env r ops).flatMap Segment.writes) := by
  induction ops generalizing r w batch with
  | nil => exact ⟨[],(List.append_nil _).symm,logs_nil,rfl⟩
  | cons op ops ih =>
    obtain ⟨added,hprepare,hlogs,hview⟩ := prepareRecords_logs env r batch op
    rw [prepareOperations]
    dsimp only
    rw [hprepare]
    obtain ⟨added',hbatch,hlogs',hview'⟩ := ih (prepared env r op)
      (w.saveTxnResult op.seqNum (txnResponse env r op)) (batch ++ added)
    refine ⟨added ++ added',by rw [← List.append_assoc]; exact hbatch,?_,?_⟩
    · rw [queued,List.flatMap_append]
      exact hlogs.append hlogs'
    · rw [sent,List.flatMap_append,replay_append,← hview]
      exact hview'

end Views
end MetaStore.RocksDB
