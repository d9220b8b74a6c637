import MetaStore.Cluster.Paging
import MetaStore.Library.Transition
import MetaStore.Memory.TimeRuns

/-! One log on the two engines. Without leases the engines differ in the revisions of deletions only: the
memory engine draws one for each key it deletes, in a transaction one for all of them, and the RocksDB
engine draws one in any case. -/
namespace MetaStore.EngineAgreement
open Std Memory Transition
open RocksDB (Records Env getKeyValue)

/-- Clients are answered the same by both engines, the current revision included. -/
def SameAnswers (s : MemoryEtcd) (r : Records) : Prop :=
  ∀ key rangeEnd limit, RocksDB.range r key rangeEnd limit = s.rangeUnlocked key rangeEnd limit

structure Agrees (s : MemoryEtcd) (r : Records) : Prop where
  get : ∀ k, getKeyValue r.db k = s.kvData.get k
  revision : r.cachedRevision = s.revision

variable {s : MemoryEtcd} {r : Records}

lemma Listed.unique {get : Bytes → Option KeyValue} {covers : Bytes → Bool} {l l' : List KeyValue}
    (h : Paging.Listed get covers l) (h' : Paging.Listed get covers l') : l = l' := by
  refine List.Perm.eq_of_pairwise (fun a b _ _ hab hba => ?_) h.sorted h'.sorted ?_
  · exact absurd (List.lt_trans hab hba) (List.lt_irrefl _)
  · have hnodup : ∀ {l : List KeyValue}, l.Pairwise (fun a b => a.key < b.key) → l.Nodup :=
      fun hl => hl.imp (by rintro a _ hab rfl; exact List.lt_irrefl a.key hab)
    exact (List.perm_ext_iff_of_nodup (hnodup h.sorted) (hnodup h'.sorted)).mpr fun kv =>
      (h.mem_iff kv).trans (h'.mem_iff kv).symm

lemma sameAnswers_iff (hs : Keyed s.kvData) : SameAnswers s r ↔ Agrees s r := by
  have hrevision : ∀ key rangeEnd limit, (RocksDB.range r key rangeEnd limit).revision =
      r.cachedRevision ∧ (s.rangeUnlocked key rangeEnd limit).revision = s.revision := by
    intro key rangeEnd limit
    unfold RocksDB.range MemoryEtcd.rangeUnlocked
    constructor <;> dsimp only <;> split_ifs <;> rfl
  constructor
  · intro h
    refine ⟨fun k => ?_,?_⟩
    · have hkvs := congrArg RangeResponse.kvs (h k [] 0)
      simpa [RocksDB.range,MemoryEtcd.rangeUnlocked] using congrArg List.head? hkvs
    · rw [← (hrevision [] [] 0).1,h,(hrevision [] [] 0).2]
  · intro h key rangeEnd limit
    by_cases hend : rangeEnd = []
    · simp only [RocksDB.range,MemoryEtcd.rangeUnlocked,hend,if_true,h.get,h.revision]
    · have hget : getKeyValue r.db = s.kvData.get := funext h.get
      obtain ⟨all,hall,hcuts⟩ := Paging.memory_range_cuts hs key limit hend
      obtain ⟨all',hall',hcuts'⟩ := Paging.rocksDB_range_cuts (r := r)
        (fun k kv hkv => hs k kv (h.get k ▸ hkv)) key limit hend
      obtain rfl := Listed.unique hall (hget ▸ hall')
      have hkvs := hcuts'.kvs.trans hcuts.kvs.symm
      obtain ⟨hrev',hrev⟩ := hrevision key rangeEnd limit
      cases hm : s.rangeUnlocked key rangeEnd limit
      cases hr : RocksDB.range r key rangeEnd limit
      have hcount := hcuts.count
      have hcount' := hcuts'.count
      have hmore := hcuts.more
      have hmore' := hcuts'.more
      simp_all [h.revision]

/-! ### Single operations -/

/-- No lease is named, granted or revoked. -/
def LeaseFree (op : RaftOperation) : Prop :=
  match op.type with
  | .put => op.leaseID = 0
  | .txn => ∀ o ∈ op.thenOps ++ op.elseOps, o.leaseID = 0
  | .leaseGrant | .leaseRevoke => False
  | _ => True

/-- The deletions of a transaction find a key each. -/
def DeletesFind (clock : Clock) : MemoryEtcd → List Op → Prop
  | _,[] => True
  | s,op :: ops => (op.type = .delete → s.keysToDelete op.key op.rangeEnd ≠ []) ∧
    DeletesFind clock (s.txnOp clock op).1 ops

/-- The engines draw as many revisions for the operation. -/
def InStep (clock : Clock) (s : MemoryEtcd) (op : RaftOperation) : Prop :=
  match op.type with
  | .delete => (s.keysToDelete op.key op.rangeEnd).length = 1
  | .txn => DeletesFind clock s (if s.compares op.compares then op.thenOps else op.elseOps)
  | _ => True

lemma get_deleted (s : MemoryEtcd) (keys : List Bytes) (k : Bytes) :
    (keys.foldl MemoryEtcd.eraseKey s).kvData.get k = if k ∈ keys then none else s.kvData.get k := by
  induction keys generalizing s with
  | nil => simp
  | cons key keys ih =>
    rw [List.foldl_cons,ih,MemoryEtcd.eraseKey,ShardedMap.get_delete]
    by_cases hk : k ∈ keys <;> by_cases hkey : k = key <;> simp [hk,hkey]

namespace Agrees

lemma put (h : Agrees s r) (env : Env) (key value : Bytes) :
    Agrees (s.putDirect key value 0).1 (RocksDB.putUnlocked env r key value 0).1 := by
  refine ⟨fun k => ?_,?_⟩
  · have hrefuses : RocksDB.refuses env r.db key 0 = false := by
      simp [RocksDB.refuses,RocksDB.attachKey]
    rw [RocksDB.getKeyValue_putUnlocked,hrefuses,MemoryEtcd.putDirect,ShardedMap.get_set,← h.get,
      ← h.get,← h.revision]
    exact Function.update_apply ..
  · rw [RocksDB.cachedRevision_putUnlocked,h.revision]
    rfl

lemma get_deleteUnlocked (h : Agrees s r) (hs : Keyed s.kvData) (key rangeEnd k : Bytes) :
    getKeyValue (RocksDB.deleteUnlocked r key rangeEnd).db k =
      if k ∈ s.keysToDelete key rangeEnd then none else s.kvData.get k := by
  rw [RocksDB.getKeyValue_deleteUnlocked,h.get]
  by_cases hk : s.kvData.get k = none
  · rw [hk,ite_self,ite_self]
  · refine if_congr ?_ rfl rfl
    exact ((MemoryEtcd.mem_keysToDelete hs).trans (and_iff_right hk)).symm

lemma txnDelete_iff (h : Agrees s r) (hs : Keyed s.kvData) (key rangeEnd : Bytes) :
    Agrees (s.deleteUnlocked key rangeEnd).1 (RocksDB.deleteUnlocked r key rangeEnd) ↔
      s.keysToDelete key rangeEnd ≠ [] := by
  have hrevision : (RocksDB.deleteUnlocked r key rangeEnd).cachedRevision =
      (s.deleteUnlocked key rangeEnd).1.revision ↔ s.keysToDelete key rangeEnd ≠ [] := by
    rw [RocksDB.cachedRevision_deleteUnlocked,MemoryEtcd.revision_deleteUnlocked,h.revision]
    split_ifs with hnil <;> simp [hnil]
  refine ⟨fun h' => hrevision.mp h'.revision,fun hne => ⟨fun k => ?_,hrevision.mpr hne⟩⟩
  rw [h.get_deleteUnlocked hs,MemoryEtcd.deleteUnlocked_fst,if_neg hne,get_deleted]

lemma delete_iff (h : Agrees s r) (hs : Keyed s.kvData) (key rangeEnd : Bytes) :
    Agrees (s.deleteDirect key rangeEnd).1 (RocksDB.deleteUnlocked r key rangeEnd) ↔
      (s.keysToDelete key rangeEnd).length = 1 := by
  constructor
  · intro h'
    have hrevision := h'.revision
    rw [RocksDB.cachedRevision_deleteUnlocked,MemoryEtcd.revision_deleteDirect,h.revision] at hrevision
    omega
  · intro hone
    rw [MemoryEtcd.deleteDirect_eq_deleteUnlocked hs hone.le,h.txnDelete_iff hs]
    rintro hnil
    simp [hnil] at hone

end Agrees

/-! ### Transactions -/

section Transactions
variable (clock : Clock) (env : Env) {op : Op} {ops : List Op}

/-- Without leases both engines execute every operation, and RocksDB draws no fewer revisions. -/
lemma txnOp_leaseFree (hop : op.leaseID = 0) (s : MemoryEtcd) (r : Records) :
    (∃ a, (s.txnOp clock op).2 = .ok a) ∧ (∃ a, (RocksDB.txnOp env r op).2 = .ok a) ∧
      (s.txnOp clock op).1.revision-s.revision ≤
        (RocksDB.txnOp env r op).1.cachedRevision-r.cachedRevision := by
  unfold MemoryEtcd.txnOp RocksDB.txnOp
  cases op.type with
  | range => exact ⟨⟨_,rfl⟩,⟨_,rfl⟩,by simp⟩
  | txn => exact ⟨⟨_,rfl⟩,⟨_,rfl⟩,by simp⟩
  | put =>
    rw [hop]
    refine ⟨⟨_,rfl⟩,⟨_,rfl⟩,?_⟩
    simp only [RocksDB.cachedRevision_putUnlocked]
    simp [MemoryEtcd.putUnlocked,MemoryEtcd.putDirect]
  | delete =>
    refine ⟨⟨_,rfl⟩,⟨_,rfl⟩,?_⟩
    simp only [MemoryEtcd.revision_deleteUnlocked,RocksDB.cachedRevision_deleteUnlocked]
    split_ifs <;> omega

lemma txnOps_cons (hop : op.leaseID = 0) (ops : List Op) (s : MemoryEtcd) (r : Records) :
    (s.txnOps clock (op :: ops)).1 = ((s.txnOp clock op).1.txnOps clock ops).1 ∧
      (RocksDB.txnOps env r (op :: ops)).1 = (RocksDB.txnOps env (RocksDB.txnOp env r op).1 ops).1 := by
  obtain ⟨⟨a,ha⟩,⟨b,hb⟩,-⟩ := txnOp_leaseFree clock env hop s r
  rw [MemoryEtcd.txnOps,RocksDB.txnOps,ha,hb]
  exact ⟨rfl,rfl⟩

lemma revision_txnOps_le (hops : ∀ o ∈ ops, o.leaseID = 0) (s : MemoryEtcd) (r : Records) :
    (s.txnOps clock ops).1.revision-s.revision ≤
      (RocksDB.txnOps env r ops).1.cachedRevision-r.cachedRevision := by
  induction ops generalizing s r with
  | nil => simp [MemoryEtcd.txnOps,RocksDB.txnOps]
  | cons op ops ih =>
    rw [List.forall_mem_cons] at hops
    obtain ⟨-,-,hop⟩ := txnOp_leaseFree clock env hops.1 s r
    obtain ⟨hm,hr⟩ := txnOps_cons clock env hops.1 ops s r
    have hrest := ih hops.2 (s.txnOp clock op).1 (RocksDB.txnOp env r op).1
    rw [hm,hr]
    omega

lemma Agrees.txnOp_iff (h : Agrees s r) (hs : Keyed s.kvData) (hop : op.leaseID = 0) :
    Agrees (s.txnOp clock op).1 (RocksDB.txnOp env r op).1 ↔
      (op.type = .delete → s.keysToDelete op.key op.rangeEnd ≠ []) := by
  unfold MemoryEtcd.txnOp RocksDB.txnOp
  cases op.type with
  | range => simpa using h
  | txn => simpa using h
  | put =>
    have hput := h.put env op.key op.value
    simpa [hop,MemoryEtcd.putUnlocked] using hput
  | delete => simpa using h.txnDelete_iff hs op.key op.rangeEnd

lemma Agrees.txnOps_iff (h : Agrees s r) (hs : Keyed s.kvData) (hops : ∀ o ∈ ops, o.leaseID = 0) :
    Agrees (s.txnOps clock ops).1 (RocksDB.txnOps env r ops).1 ↔ DeletesFind clock s ops := by
  induction ops generalizing s r with
  | nil => simpa [MemoryEtcd.txnOps,RocksDB.txnOps,DeletesFind] using h
  | cons op ops ih =>
    rw [List.forall_mem_cons] at hops
    have hone := h.txnOp_iff clock env hs hops.1
    have hs' : Keyed (s.txnOp clock op).1.kvData := (Keyed.kept clock).txnOp hs trivial
    obtain ⟨hm,hr⟩ := txnOps_cons clock env hops.1 ops s r
    rw [hm,hr,DeletesFind,← hone]
    constructor
    · intro hend
      suffices hagrees : Agrees (s.txnOp clock op).1 (RocksDB.txnOp env r op).1 from
        ⟨hagrees,(ih hagrees hs' hops.2).mp hend⟩
      -- a deletion that finds nothing puts RocksDB ahead, and the memory engine never catches up
      by_contra hnot
      obtain ⟨htype,hnil⟩ := Classical.not_imp.mp (mt hone.mpr hnot)
      have hle := revision_txnOps_le clock env hops.2 (s.txnOp clock op).1
        (RocksDB.txnOp env r op).1
      have hahead : (RocksDB.txnOp env r op).1.cachedRevision = (s.txnOp clock op).1.revision+1 := by
        rw [RocksDB.txnOp,MemoryEtcd.txnOp,htype]
        simp only [RocksDB.cachedRevision_deleteUnlocked,MemoryEtcd.revision_deleteUnlocked,h.revision,
          if_pos (not_not.mp hnil),add_zero]
      have hrevision := hend.revision
      omega
    · rintro ⟨hagrees,hfind⟩
      exact (ih hagrees hs' hops.2).mpr hfind

end Transactions

/-! ### Logs -/

lemma Agrees.apply_iff {clock : Clock} {env : Env} {op : RaftOperation} (h : Agrees s r)
    (hs : Keyed s.kvData) (hop : LeaseFree op) :
    Agrees (s.apply clock op) (RocksDB.applyRecords env r op) ↔ InStep clock s op := by
  unfold LeaseFree at hop
  unfold MemoryEtcd.apply applyEffect RocksDB.applyRecords InStep
  cases htype : op.type with
  | put =>
    simp only [htype] at hop
    simpa [hop,MemoryEtcd.applyPut] using h.put env op.key op.value
  | delete => exact h.delete_iff hs op.key op.rangeEnd
  | txn =>
    simp only [htype] at hop
    have hcompares : RocksDB.compares r.db op.compares = s.compares op.compares := by
      simp only [RocksDB.compares,MemoryEtcd.compares,h.get]
    have hbranch : ∀ o ∈ if s.compares op.compares then op.thenOps else op.elseOps, o.leaseID = 0 := by
      intro o ho
      refine hop o (List.mem_append.mpr ?_)
      split_ifs at ho
      · exact .inl ho
      · exact .inr ho
    have hiff := h.txnOps_iff clock env hs hbranch
    simp only [RocksDB.txnUnlocked,hcompares]
    exact hiff
  | leaseGrant => simp [htype] at hop
  | leaseRevoke => simp [htype] at hop
  | other name => simpa using h

end MetaStore.EngineAgreement
