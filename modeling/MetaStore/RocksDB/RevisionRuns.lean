import MetaStore.Library.Transition
import MetaStore.RocksDB.Restart

/-! The revision of the RocksDB engine over applied operations and restarts. Operations draw
revisions that grow, and no stored record has a larger one; but a restart reads the stored
revision with another decoder than the one it was written for, and starts at 0 again. -/
namespace MetaStore.RocksDB
open Std WriteBatch Transition

def Bounded (db : Database) (revision : ℤ) : Prop :=
  ∀ (x : Bytes) (kv : KeyValue), db[x]? = some (.keyValue kv) → kv.modRevision ≤ revision

/-- The revision does not decrease, and records that are new have at most the new one. -/
structure Grows (r s : Records) : Prop where
  revision : r.cachedRevision ≤ s.cachedRevision
  records : ∀ (x : Bytes) (kv : KeyValue), s.db[x]? = some (.keyValue kv) →
    r.db[x]? = some (.keyValue kv) ∨ kv.modRevision ≤ s.cachedRevision

def BatchBounded (batch : Batch) (revision : ℤ) : Prop :=
  ∀ op ∈ batch, ∀ kv, op.value = some (.keyValue kv) → kv.modRevision ≤ revision

namespace Grows
variable {r s t : Records}

lemma refl (r : Records) : Grows r r := ⟨le_rfl,fun _ _ h => .inl h⟩

lemma trans (h : Grows r s) (h' : Grows s t) : Grows r t where
  revision := h.revision.trans h'.revision
  records x kv hkv := by
    obtain hs|hle := h'.records x kv hkv
    · exact (h.records x kv hs).imp_right fun hle => hle.trans h'.revision
    · exact .inr hle

lemma bounded (h : Grows r s) (hr : Bounded r.db r.cachedRevision) :
    Bounded s.db s.cachedRevision := by
  intro x kv hkv
  obtain hold|hle := h.records x kv hkv
  · exact (hr x kv hold).trans h.revision
  · exact hle

lemma of_write (batch : Batch) (hrev : r.cachedRevision ≤ s.cachedRevision)
    (hdb : s.db = write r.db batch) (hbatch : BatchBounded batch s.cachedRevision) :
    Grows r s := by
  refine ⟨hrev,fun x kv hkv => ?_⟩
  rw [hdb,getElem?_write] at hkv
  cases hp : pending batch x with
  | none =>
    rw [hp] at hkv
    exact .inl hkv
  | some v =>
    rw [hp] at hkv
    obtain ⟨op,hop,-,hv⟩ := exists_of_pending_eq_some hp
    exact .inr (hbatch op hop kv (hv.trans hkv))

end Grows

section Batches
variable {revision : ℤ} {a b : Batch}

lemma batchBounded_nil : BatchBounded [] revision := fun _ h => absurd h List.not_mem_nil

lemma BatchBounded.append (ha : BatchBounded a revision) (hb : BatchBounded b revision) :
    BatchBounded (a ++ b) revision := fun op hop =>
  (List.mem_append.mp hop).elim (ha op) (hb op)

lemma BatchBounded.mono (ha : BatchBounded a revision) {revision' : ℤ} (h : revision ≤ revision') :
    BatchBounded a revision' := fun op hop kv hkv => (ha op hop kv hkv).trans h

lemma batchBounded_deletes (keys : List Bytes) :
    BatchBounded (keys.map .delete) revision := by
  intro op hop kv hkv
  obtain ⟨x,-,rfl⟩ := List.mem_map.mp hop
  cases hkv

lemma batchBounded_putKeyValue (revision : ℤ) (db : Database) (key value : Bytes) (leaseID : ℤ) :
    BatchBounded [putKeyValue db revision key value leaseID] revision := by
  intro op hop kv hkv
  obtain rfl := List.mem_singleton.mp hop
  cases hkv
  exact le_rfl

lemma batchBounded_attachKey (revision : ℤ) {env : Env} {db : Database} {key : Bytes}
    {leaseID : ℤ} (h : attachKey env db key leaseID = .ok a) : BatchBounded a revision := by
  unfold attachKey at h
  split_ifs at h
  · obtain rfl := Except.ok.inj h
    exact batchBounded_nil
  cases hl : getLease db leaseID with
  | error err =>
    rw [hl] at h
    cases h
  | ok lease =>
    rw [hl] at h
    cases lease with
    | none =>
      obtain rfl := Except.ok.inj h
      exact batchBounded_nil
    | some l =>
      dsimp only at h
      unfold serializeLease at h
      split_ifs at h
      obtain rfl := Except.ok.inj h
      intro op hop kv hkv
      obtain rfl := List.mem_singleton.mp hop
      cases hkv

end Batches

section Operations
variable (env : Env) (r : Records)

lemma grows_incrementRevision : Grows r (incrementRevision r) := by
  refine .of_write [.put revisionKey (.revision (r.cachedRevision+1))]
    (by simp [incrementRevision]) rfl fun op hop kv hkv => ?_
  obtain rfl := List.mem_singleton.mp hop
  cases hkv

lemma grows_putUnlocked (key value : Bytes) (leaseID : ℤ) :
    Grows r (putUnlocked env r key value leaseID).1 := by
  unfold putUnlocked
  dsimp only
  cases hattach : attachKey env (incrementRevision r).db key leaseID with
  | error err => exact grows_incrementRevision r
  | ok lease =>
    have hbatch := (batchBounded_putKeyValue (incrementRevision r).cachedRevision r.db key value leaseID).append
      (batchBounded_attachKey _ hattach)
    exact (grows_incrementRevision r).trans (.of_write _ le_rfl rfl hbatch)

lemma grows_deleteUnlocked (key rangeEnd : Bytes) : Grows r (deleteUnlocked r key rangeEnd) := by
  unfold deleteUnlocked
  dsimp only
  split_ifs
  · exact (grows_incrementRevision r).trans
      (.of_write _ le_rfl rfl (batchBounded_deletes [kvKey key]))
  · exact (grows_incrementRevision r).trans (.of_write _ le_rfl rfl (batchBounded_deletes _))

lemma grows_leaseGrantUnlocked (id ttl : ℤ) : Grows r (leaseGrantUnlocked env r id ttl) := by
  refine .of_write [.put (leaseKey id) (.lease ⟨id,ttl,env.clock r.ticks,∅⟩)] le_rfl rfl
    fun op hop kv hkv => ?_
  obtain rfl := List.mem_singleton.mp hop
  cases hkv

lemma grows_foldl_deleteUnlocked (keys : List Bytes) :
    Grows r (keys.foldl (fun r key => deleteUnlocked r key []) r) := by
  induction keys generalizing r with
  | nil => exact .refl r
  | cons key keys ih => exact (grows_deleteUnlocked r key []).trans (ih _)

lemma grows_leaseRevokeUnlocked (id : ℤ) : Grows r (leaseRevokeUnlocked r id).1 := by
  unfold leaseRevokeUnlocked
  cases getLease r.db id with
  | error err => exact .refl r
  | ok lease =>
    cases lease with
    | none => exact .refl r
    | some l =>
      refine (grows_foldl_deleteUnlocked r l.keys.toList).trans ?_
      exact .of_write _ le_rfl rfl (batchBounded_deletes [leaseKey id])

lemma grows_txnOp (op : Op) : Grows r (txnOp env r op).1 := by
  unfold txnOp
  cases op.type with
  | range => exact .refl r
  | put => exact grows_putUnlocked env r op.key op.value op.leaseID
  | delete => exact grows_deleteUnlocked r op.key op.rangeEnd
  | txn => exact .refl r

lemma grows_txnOps (ops : List Op) : Grows r (txnOps env r ops).1 := by
  induction ops generalizing r with
  | nil => exact .refl r
  | cons op ops ih =>
    rw [txnOps]
    cases (txnOp env r op).2 with
    | error err => exact grows_txnOp env r op
    | ok response => exact (grows_txnOp env r op).trans (ih _)

lemma grows_applyRecords (op : RaftOperation) : Grows r (applyRecords env r op) := by
  unfold applyRecords
  cases op.type with
  | put => exact grows_putUnlocked env r op.key op.value op.leaseID
  | delete => exact grows_deleteUnlocked r op.key op.rangeEnd
  | leaseGrant => exact grows_leaseGrantUnlocked env r op.leaseID op.ttl
  | leaseRevoke => exact grows_leaseRevokeUnlocked r op.leaseID
  | txn => exact grows_txnOps env r _
  | other name => exact .refl r

lemma grows_prepareRecords {batch : Batch} (hbatch : BatchBounded batch r.cachedRevision)
    (op : RaftOperation) :
    Grows r (prepareRecords env r batch op).1 ∧
      BatchBounded (prepareRecords env r batch op).2
        (prepareRecords env r batch op).1.cachedRevision := by
  have hi := grows_incrementRevision r
  have hgrown := hbatch.mono hi.revision
  unfold prepareRecords
  cases op.type with
  | put =>
    simp only [preparePutBatch]
    have hput := hgrown.append (batchBounded_putKeyValue (incrementRevision r).cachedRevision
      r.db op.key op.value op.leaseID)
    cases hattach : attachKey env (incrementRevision r).db op.key op.leaseID with
    | error err => exact ⟨hi,hput⟩
    | ok lease => exact ⟨hi,hput.append (batchBounded_attachKey _ hattach)⟩
  | delete =>
    simp only [prepareDeleteBatch]
    split_ifs
    · exact ⟨hi,hgrown.append (batchBounded_deletes [kvKey op.key])⟩
    · refine ⟨hi,hgrown.append fun o ho kv hkv => ?_⟩
      obtain ⟨k,-,rfl⟩ := List.mem_map.mp ho
      cases hkv
  | leaseGrant =>
    refine ⟨⟨le_rfl,fun _ _ h => .inl h⟩,hbatch.append fun o ho kv hkv => ?_⟩
    obtain rfl := List.mem_singleton.mp ho
    cases hkv
  | leaseRevoke =>
    refine ⟨.refl r,?_⟩
    dsimp only
    unfold prepareLeaseRevokeBatch
    cases getLease r.db op.leaseID with
    | error err => exact hbatch
    | ok lease =>
      cases lease with
      | none => exact hbatch
      | some l =>
        refine (hbatch.append fun o ho kv hkv => ?_).append (batchBounded_deletes [leaseKey op.leaseID])
        obtain ⟨k,-,rfl⟩ := List.mem_map.mp ho
        cases hkv
  | txn =>
    have hops := grows_txnOps env r (if compares r.db op.compares then op.thenOps else op.elseOps)
    exact ⟨hops,hbatch.mono hops.revision⟩
  | other name => exact ⟨.refl r,hbatch⟩

lemma grows_prepareOperations (w : Waiters) {batch : Batch}
    (hbatch : BatchBounded batch r.cachedRevision) (ops : List RaftOperation) :
    Grows r (prepareOperations env (⟨r,w⟩,batch) ops).1.records ∧
      BatchBounded (prepareOperations env (⟨r,w⟩,batch) ops).2
        (prepareOperations env (⟨r,w⟩,batch) ops).1.records.cachedRevision := by
  induction ops generalizing r w batch with
  | nil => exact ⟨.refl r,hbatch⟩
  | cons op ops ih =>
    obtain ⟨hgrows,hnext⟩ := grows_prepareRecords env r hbatch op
    obtain ⟨hrest,hall⟩ := ih (prepareRecords env r batch op).1
      (w.saveTxnResult op.seqNum (txnResponse env r op)) hnext
    exact ⟨hgrows.trans hrest,hall⟩

lemma grows_applyOperationsBatch (w : Waiters) (ops : List RaftOperation) :
    Grows r (applyOperationsBatch env true ⟨r,w⟩ ops).records := by
  obtain ⟨hgrows,hbatch⟩ := grows_prepareOperations env r w batchBounded_nil ops
  exact hgrows.trans (.of_write _ le_rfl rfl hbatch)

lemma grows_collect (data : List Datum) : Grows r (collect env r data).1 := by
  induction data generalizing r with
  | nil => exact .refl r
  | cons datum data ih =>
    cases datum with
    | operations ops => exact ih r
    | legacy key val => exact (grows_putUnlocked env r key val 0).trans (ih _)

lemma grows_readCommit (w : Waiters) (data : List Datum) :
    Grows r (readCommit env ⟨r,w⟩ data).records :=
  (grows_collect env r data).trans (grows_applyOperationsBatch env _ w _)

end Operations

structure Life where
  records : Records
  file : Option Database

/-- An operation or a commit is applied, at any clock readings; a snapshot file is written; the
database is closed and opened again. -/
inductive LifeEvent
  | operation (env : Env) (op : RaftOperation)
  | commit (env : Env) (data : List Datum)
  | saveSnapshot
  | restart

def Life.step (s : Life) (e : LifeEvent) : Option Life :=
  match e with
  | .operation env op => some { s with records := (applyOperation env ⟨s.records,.empty⟩ op).records }
  | .commit env data => some { s with records := (readCommit env ⟨s.records,.empty⟩ data).records }
  | .saveSnapshot => some { s with file := some (getSnapshot s.records.db) }
  | .restart => some { s with records := newRocksDB s.records.db s.file }

def Life.new : Life := ⟨⟨∅,0,0⟩,none⟩

def RevisionKept (s : Life) (e : LifeEvent) (t : Life) : Prop :=
  (e = .restart → t.records.cachedRevision = s.records.cachedRevision) ∧
    s.records.cachedRevision ≤ t.records.cachedRevision

/-- The records and those of the newest snapshot have no larger revision than the current one. -/
structure Life.Sound (s : Life) : Prop where
  records : Bounded s.records.db s.records.cachedRevision
  file : ∀ data ∈ s.file, Bounded data s.records.cachedRevision

section Runs
variable {s t : Life} {e : LifeEvent}

lemma Life.Sound.grow (hs : s.Sound) {r : Records} (h : Grows s.records r) :
    Life.Sound { s with records := r } :=
  ⟨h.bounded hs.records,fun data hdata x kv hkv => (hs.file data hdata x kv hkv).trans h.revision⟩

lemma cachedRevision_newRocksDB (db : Database) (file : Option Database) :
    (newRocksDB db file).cachedRevision = 0 := loadCurrentRevision_eq_zero _

lemma Life.grows_step (he : e ≠ .restart) (h : s.step e = some t) : Grows s.records t.records := by
  cases e with
  | operation env op => exact Option.some.inj h ▸ grows_applyRecords env s.records op
  | commit env data => exact Option.some.inj h ▸ grows_readCommit env s.records .empty data
  | saveSnapshot => exact Option.some.inj h ▸ .refl s.records
  | restart => exact absurd rfl he

lemma Life.Sound.step (hs : s.Sound) (h : s.step e = some t)
    (hrestart : e = .restart → s.records.cachedRevision = 0) : t.Sound := by
  cases e with
  | operation env op => exact Option.some.inj h ▸ hs.grow (grows_applyRecords env s.records op)
  | commit env data =>
    exact Option.some.inj h ▸ hs.grow (grows_readCommit env s.records .empty data)
  | saveSnapshot =>
    obtain rfl := Option.some.inj h
    refine ⟨hs.records,fun data hdata => ?_⟩
    obtain rfl := Option.some.inj hdata
    rw [getSnapshot_eq]
    exact hs.records
  | restart =>
    obtain rfl := Option.some.inj h
    have hzero := hrestart rfl
    refine ⟨?_,fun data hdata => ?_⟩
    · dsimp only
      rw [cachedRevision_newRocksDB,← hzero]
      unfold newRocksDB
      cases hfile : s.file with
      | none => exact hs.records
      | some data =>
        dsimp only
        rw [recoverFromSnapshot_eq]
        exact hs.file data hfile
    · dsimp only
      rw [cachedRevision_newRocksDB,← hzero]
      exact hs.file data hdata

end Runs

/-- In every sequence of applied operations, commits, snapshots and restarts, every restart
keeps the revision, the revision never decreases and no stored record has a larger one, if and
only if no revision has been drawn before any restart. -/
theorem revision_durable_iff (events : List LifeEvent) :
    (EveryStep Life.step RevisionKept .new events ∧
        EveryState Life.step (fun s => Bounded s.records.db s.records.cachedRevision) .new events) ↔
      EveryStep Life.step (fun s e _ => e = .restart → s.records.cachedRevision = 0) .new events := by
  constructor
  · rintro ⟨hkept,-⟩ p e hp s t hs ht he
    have hsame := (hkept p e hp s t hs ht).1 he
    rw [he] at ht
    obtain rfl := Option.some.inj ht
    rw [← hsame]
    exact cachedRevision_newRocksDB _ _
  · intro h
    have hnew : Life.new.Sound :=
      ⟨fun x kv hkv => absurd hkv (by simp [Life.new]),fun data hdata => absurd hdata (by simp [Life.new])⟩
    have hsound : EveryState Life.step Life.Sound .new events :=
      everyState_of_everyStep (fun s e _ t hs ht hrestart => hs.step ht hrestart) hnew h
    refine ⟨fun p e hp s t hs ht => ?_,fun p hp s hs => (hsound p hp s hs).records⟩
    by_cases he : e = .restart
    · have hzero := h p e hp s t hs ht he
      rw [he] at ht
      obtain rfl := Option.some.inj ht
      have hnewRev := cachedRevision_newRocksDB s.records.db s.file
      exact ⟨fun _ => hnewRev.trans hzero.symm,(hnewRev.trans hzero.symm).ge⟩
    · exact ⟨fun hrestart => absurd hrestart he,(Life.grows_step he ht).revision⟩

/-- A put, a restart: the revision is 0 again, and the record has a larger one. -/
theorem revision_lost_by_restart :
    let put : RaftOperation := { type := .put, key := ascii "a", value := ascii "1" }
    let env : Env := ⟨fun _ => 0,true⟩
    ([.operation env put].foldlM Life.step .new).map (fun s => s.records.cachedRevision) = some 1 ∧
    ([.operation env put,.restart].foldlM Life.step .new).map (fun s =>
        (s.records.cachedRevision,
          (getKeyValue s.records.db (ascii "a")).map KeyValue.modRevision)) = some (0,some 1) := by
  intro put env
  exact ⟨by decide,by decide⟩

end MetaStore.RocksDB
