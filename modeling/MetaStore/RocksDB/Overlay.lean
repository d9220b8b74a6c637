import MetaStore.RocksDB.Apply

/-! The store as it stands once an open batch is written. Operations that write at once and
touch no record of the batch do the same before and after the batch is written. -/
namespace MetaStore.RocksDB
open Std WriteBatch

lemma kvKey_injective : Function.Injective kvKey := fun _ _ h => List.append_cancel_left h

lemma kvKey_ne_revisionKey (key : Bytes) : kvKey key ≠ revisionKey := fun h =>
  absurd (congrArg List.head? h) (show some (107 : UInt8) ≠ some 109 by decide)

lemma leaseKey_ne_revisionKey (id : ℤ) : leaseKey id ≠ revisionKey := fun h =>
  absurd (congrArg List.head? h) (show some (108 : UInt8) ≠ some 109 by decide)

lemma leaseKey_ne_kvKey (id : ℤ) (key : Bytes) : leaseKey id ≠ kvKey key := fun h =>
  absurd (congrArg List.head? h) (show some (108 : UInt8) ≠ some 107 by decide)

lemma kvKey_lt_kvKey (a b : Bytes) : kvKey a < kvKey b ↔ a < b :=
  Bytes.append_lt_append_iff kvPrefix a b

lemma kvKey_le_kvKey (a b : Bytes) : kvKey a ≤ kvKey b ↔ a ≤ b := by
  rw [← List.not_lt,← List.not_lt,kvKey_lt_kvKey]

lemma mem_scan {db : Database} {key rangeEnd x : Bytes} :
    x ∈ scan db key rangeEnd ↔ x ∈ db ∧ ∃ k, x = kvKey k ∧ inRange key rangeEnd k := by
  simp only [scan,List.mem_filter,ExtTreeMap.mem_keys,Bool.and_eq_true,decide_eq_true_eq]
  refine and_congr_right fun _ => ⟨?_,?_⟩
  · rintro ⟨⟨k,rfl⟩,hk⟩
    rw [List.drop_left] at hk
    exact ⟨k,rfl,hk⟩
  · rintro ⟨k,rfl,hk⟩
    refine ⟨⟨k,rfl⟩,?_⟩
    rwa [kvKey,List.drop_left]

lemma mem_scanBelow {db : Database} {key rangeEnd x : Bytes} :
    x ∈ scanBelow db key rangeEnd ↔ x ∈ db ∧ ∃ k, x = kvKey k ∧ key ≤ k ∧ k < rangeEnd := by
  simp only [scanBelow,List.mem_filter,ExtTreeMap.mem_keys,Bool.and_eq_true,decide_eq_true_eq]
  refine and_congr_right fun _ => ⟨?_,?_⟩
  · rintro ⟨hlow,hhigh⟩
    obtain ⟨k,rfl⟩ := Bytes.exists_append_of_between hlow hhigh
    exact ⟨k,rfl,(kvKey_le_kvKey key k).mp hlow,(kvKey_lt_kvKey k rangeEnd).mp hhigh⟩
  · rintro ⟨k,rfl,hlow,hhigh⟩
    exact ⟨(kvKey_le_kvKey key k).mpr hlow,(kvKey_lt_kvKey k rangeEnd).mpr hhigh⟩

def Targets (key rangeEnd k : Bytes) : Prop :=
  if rangeEnd = [] then k = key else inRange key rangeEnd k = true

lemma getElem?_incrementRevision_of_ne {r : Records} {x : Bytes} (h : x ≠ revisionKey) :
    (incrementRevision r).db[x]? = r.db[x]? := by
  simp [incrementRevision,ExtTreeMap.getElem?_insert,h.symm]

lemma cachedRevision_putUnlocked (env : Env) (r : Records) (key value : Bytes) (leaseID : ℤ) :
    (putUnlocked env r key value leaseID).1.cachedRevision = r.cachedRevision+1 := by
  unfold putUnlocked
  dsimp only
  split <;> rfl

lemma cachedRevision_deleteUnlocked (r : Records) (key rangeEnd : Bytes) :
    (deleteUnlocked r key rangeEnd).cachedRevision = r.cachedRevision+1 := by
  unfold deleteUnlocked
  dsimp only
  split_ifs <;> rfl

theorem getElem?_deleteUnlocked_of_targets {key rangeEnd k : Bytes} (r : Records)
    (h : Targets key rangeEnd k) : (deleteUnlocked r key rangeEnd).db[kvKey k]? = none := by
  by_cases hend : rangeEnd = []
  · obtain rfl : k = key := by simpa [Targets,hend] using h
    simp [deleteUnlocked,hend]
  · have hk : inRange key rangeEnd k := by simpa [Targets,hend] using h
    simp only [deleteUnlocked,hend,if_false,getElem?_write,pending_map_delete]
    by_cases hmem : kvKey k ∈ (incrementRevision r).db
    · rw [if_pos (mem_scan.mpr ⟨hmem,k,rfl,hk⟩)]
      rfl
    · rw [if_neg fun h => hmem (mem_scan.mp h).1]
      simpa using hmem

theorem getElem?_deleteUnlocked_of_not_targets {key rangeEnd x : Bytes} (r : Records)
    (h : ∀ k, x = kvKey k → ¬ Targets key rangeEnd k) :
    (deleteUnlocked r key rangeEnd).db[x]? = (incrementRevision r).db[x]? := by
  by_cases hend : rangeEnd = []
  · have hx : kvKey key ≠ x := fun hx => h key hx.symm (by simp [Targets,hend])
    simp [deleteUnlocked,hend,ExtTreeMap.getElem?_erase,hx]
  · simp only [deleteUnlocked,hend,if_false,getElem?_write,pending_map_delete]
    rw [if_neg]
    · rfl
    · intro hx
      obtain ⟨-,k,hk,hrange⟩ := mem_scan.mp hx
      exact h k hk (by simpa [Targets,hend] using hrange)

def merged (r : Records) (batch : Batch) : Records := { r with db := write r.db batch }

lemma merged_append (r : Records) (a b : Batch) :
    merged r (a ++ b) = { r with db := write (merged r a).db b } := by
  rw [merged,write_append]
  rfl

/-- A batch of operations never holds the revision, which is written at once. -/
def RevisionFree (batch : Batch) : Prop := ∀ op ∈ batch, op.key ≠ revisionKey

lemma merged_incrementRevision {batch : Batch} (h : RevisionFree batch) (r : Records) :
    incrementRevision (merged r batch) = merged (incrementRevision r) batch := by
  let revision : Batch := [.put revisionKey (.revision (r.cachedRevision+1))]
  have hcomm : write (write r.db batch) revision = write (write r.db revision) batch :=
    write_comm fun x hx y hy => by rw [List.mem_singleton.mp hy]; exact h x hx
  exact Records.ext hcomm rfl rfl

structure ClearPut (batch : Batch) (key : Bytes) (leaseID : ℤ) : Prop where
  kv : pending batch (kvKey key) = none
  lease : leaseID ≠ 0 → pending batch (leaseKey leaseID) = none

lemma attachKey_congr {env : Env} {db db' : Database} {key : Bytes} {leaseID : ℤ}
    (h : leaseID ≠ 0 → db[leaseKey leaseID]? = db'[leaseKey leaseID]?) :
    attachKey env db key leaseID = attachKey env db' key leaseID := by
  unfold attachKey
  split_ifs with hid
  · rfl
  · rw [getLease,getLease,h hid]

lemma putKeyValue_congr {db db' : Database} {key : Bytes} (h : db[kvKey key]? = db'[kvKey key]?)
    (newRevision : ℤ) (value : Bytes) (leaseID : ℤ) :
    putKeyValue db newRevision key value leaseID = putKeyValue db' newRevision key value leaseID := by
  rw [putKeyValue,putKeyValue,getKeyValue,getKeyValue,h]

lemma mem_attachKey {env : Env} {db : Database} {key : Bytes} {leaseID : ℤ} {lease : Batch}
    (h : attachKey env db key leaseID = .ok lease) {op : BatchOp Bytes Value} (hop : op ∈ lease) :
    leaseID ≠ 0 ∧ op.key = leaseKey leaseID := by
  unfold attachKey at h
  split_ifs at h with hid
  · cases h; cases hop
  · refine ⟨hid,?_⟩
    split at h
    · cases h
    · cases h; cases hop
    · split at h
      · cases h
      · cases h
        rw [List.mem_singleton.mp hop]
        rfl

lemma getElem?_merged_of_pending {batch : Batch} {x : Bytes} (h : pending batch x = none)
    (r : Records) : (merged r batch).db[x]? = r.db[x]? := by
  rw [merged,getElem?_write,h]
  rfl

lemma putUnlocked_eq {env : Env} {r : Records} {db : Database} {key value : Bytes} {leaseID : ℤ}
    (hkv : r.db[kvKey key]? = db[kvKey key]?)
    (hlease : leaseID ≠ 0 → r.db[leaseKey leaseID]? = db[leaseKey leaseID]?) :
    putUnlocked env r key value leaseID =
      match attachKey env db key leaseID with
      | .error err => (incrementRevision r,.error err)
      | .ok lease =>
        ({ incrementRevision r with
            db := write (incrementRevision r).db
              (putKeyValue db (r.cachedRevision+1) key value leaseID :: lease) },.ok ()) := by
  have hattach : attachKey env (incrementRevision r).db key leaseID =
      attachKey env db key leaseID := by
    refine attachKey_congr fun hid => ?_
    rw [getElem?_incrementRevision_of_ne (leaseKey_ne_revisionKey leaseID),hlease hid]
  simp only [putUnlocked,hattach,putKeyValue_congr hkv]
  rfl

theorem putUnlocked_merged {env : Env} {r : Records} {batch : Batch} {key value : Bytes}
    {leaseID : ℤ} (hrev : RevisionFree batch) (h : ClearPut batch key leaseID) :
    putUnlocked env (merged r batch) key value leaseID =
      (merged (putUnlocked env r key value leaseID).1 batch,
        (putUnlocked env r key value leaseID).2) := by
  have hleft : putUnlocked env (merged r batch) key value leaseID = _ :=
    putUnlocked_eq (getElem?_merged_of_pending h.kv r)
      fun hid => getElem?_merged_of_pending (h.lease hid) r
  have hright : putUnlocked env r key value leaseID = _ := putUnlocked_eq rfl fun _ => rfl
  rw [hleft,hright,merged_incrementRevision hrev]
  cases hattach : attachKey env r.db key leaseID with
  | error err => rfl
  | ok lease =>
    have hcomm : ∀ x ∈ putKeyValue r.db (r.cachedRevision+1) key value leaseID :: lease,
        ∀ y ∈ batch, x.key ≠ y.key := by
      intro x hx y hy
      rcases List.mem_cons.mp hx with rfl | hx
      · exact (pending_eq_none_iff.mp h.kv y hy).symm
      · obtain ⟨hid,hkey⟩ := mem_attachKey hattach hx
        rw [hkey]
        exact (pending_eq_none_iff.mp (h.lease hid) y hy).symm
    refine Prod.ext (Records.ext ?_ rfl rfl) rfl
    exact (write_comm hcomm).symm

def ClearDelete (batch : Batch) (key rangeEnd : Bytes) : Prop :=
  ∀ k v, Targets key rangeEnd k → pending batch (kvKey k) ≠ some (some v)

theorem deleteUnlocked_merged {r : Records} {batch : Batch} {key rangeEnd : Bytes}
    (hrev : RevisionFree batch) (h : ClearDelete batch key rangeEnd) :
    deleteUnlocked (merged r batch) key rangeEnd = merged (deleteUnlocked r key rangeEnd) batch := by
  refine Records.ext ?_ (by simp only [deleteUnlocked,merged]; split_ifs <;> rfl)
    (by simp only [deleteUnlocked,merged]; split_ifs <;> rfl)
  ext1 x
  by_cases hx : ∃ k, x = kvKey k ∧ Targets key rangeEnd k
  · obtain ⟨k,rfl,hk⟩ := hx
    rw [getElem?_deleteUnlocked_of_targets _ hk,merged,getElem?_write,
      getElem?_deleteUnlocked_of_targets _ hk]
    cases hp : pending batch (kvKey k) with
    | none => rfl
    | some w =>
      cases w with
      | none => rfl
      | some v => exact absurd hp (h k v hk)
  · have hx : ∀ k, x = kvKey k → ¬ Targets key rangeEnd k := fun k hk ht => hx ⟨k,hk,ht⟩
    rw [getElem?_deleteUnlocked_of_not_targets _ hx,merged_incrementRevision hrev,merged,merged,
      getElem?_write,getElem?_write,getElem?_deleteUnlocked_of_not_targets _ hx]

/-- An operation of a transaction that meets no record of the batch it could change. -/
def ClearOp (batch : Batch) (op : Op) : Prop :=
  match op.type with
  | .put => ClearPut batch op.key op.leaseID
  | .delete => ClearDelete batch op.key op.rangeEnd
  | _ => True

lemma txnOp_merged {env : Env} {r : Records} {batch : Batch} {op : Op}
    (hrev : RevisionFree batch) (h : ClearOp batch op) :
    (txnOp env (merged r batch) op).1 = merged (txnOp env r op).1 batch ∧
    ((txnOp env (merged r batch) op).2.isOk ↔ (txnOp env r op).2.isOk) := by
  unfold txnOp
  unfold ClearOp at h
  cases ht : op.type <;> rw [ht] at h <;> dsimp only at h ⊢
  case range => exact ⟨rfl,Iff.rfl⟩
  case txn => exact ⟨rfl,Iff.rfl⟩
  case put =>
    rw [putUnlocked_merged hrev h]
    refine ⟨rfl,?_⟩
    cases (putUnlocked env r op.key op.value op.leaseID).2 <;> exact Iff.rfl
  case delete =>
    rw [deleteUnlocked_merged hrev h]
    exact ⟨rfl,Iff.rfl⟩

lemma txnOps_merged {env : Env} {r : Records} {batch : Batch} {ops : List Op}
    (hrev : RevisionFree batch) (h : ∀ op ∈ ops, ClearOp batch op) :
    (txnOps env (merged r batch) ops).1 = merged (txnOps env r ops).1 batch := by
  induction ops generalizing r with
  | nil => rfl
  | cons op ops ih =>
    obtain ⟨hstate,hok⟩ := @txnOp_merged env r batch op hrev (h op (by simp))
    rw [txnOps,txnOps]
    cases hm : (txnOp env (merged r batch) op).2 with
    | error err =>
      cases hr : (txnOp env r op).2 with
      | error err' => exact hstate
      | ok response => rw [hm,hr] at hok; cases hok.mpr rfl
    | ok response =>
      cases hr : (txnOp env r op).2 with
      | error err' => rw [hm,hr] at hok; cases hok.mp rfl
      | ok response' =>
        simp only [hstate]
        exact ih fun o ho => h o (by simp [ho])

def branch (db : Database) (cmps : List Compare) (thenOps elseOps : List Op) : List Op :=
  if compares db cmps then thenOps else elseOps

theorem txnUnlocked_merged {env : Env} {r : Records} {batch : Batch} {cmps : List Compare}
    {thenOps elseOps : List Op} (hrev : RevisionFree batch)
    (hcmps : ∀ cmp ∈ cmps, (merged r batch).db[kvKey cmp.key]? = r.db[kvKey cmp.key]?)
    (h : ∀ op ∈ branch r.db cmps thenOps elseOps, ClearOp batch op) :
    (txnUnlocked env (merged r batch) cmps thenOps elseOps).1 =
      merged (txnUnlocked env r cmps thenOps elseOps).1 batch := by
  have hsame : compares (merged r batch).db cmps = compares r.db cmps := by
    unfold compares
    rw [Bool.eq_iff_iff,List.all_eq_true,List.all_eq_true]
    refine forall₂_congr fun cmp hcmp => ?_
    rw [getKeyValue,getKeyValue,hcmps cmp hcmp]
  simp only [txnUnlocked,hsame]
  exact txnOps_merged hrev h

end MetaStore.RocksDB
