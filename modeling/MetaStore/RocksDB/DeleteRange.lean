import MetaStore.RocksDB.Watch

/-! The client call `DeleteRange` of the store on RocksDB, while nothing else is written. It looks for
the records first and decodes those of a range by gob, which is not the format they are stored in. -/
namespace MetaStore.RocksDB

/-- `gob` on the data that `encodeKeyValue` and the other encoders of the store have written. -/
def gobDecodeKeyValue (_ : Value) : Option KeyValue := none

def recordsToDelete (db : Database) (key rangeEnd : Bytes) : List KeyValue :=
  if rangeEnd = [] then (getKeyValue db key).toList
  else (scan db key rangeEnd).filterMap fun k => db[k]?.bind gobDecodeKeyValue

/-- `DeleteRange`: the state after it, the number of deleted keys and their records. Without a record
nothing is proposed; else the committed operation is the only one of its batch. -/
def deleteRange (env : Env) (r : Records) (key rangeEnd : Bytes) : Records × ℤ × List KeyValue :=
  let prevKvs := recordsToDelete r.db key rangeEnd
  if prevKvs = [] then (r,0,[])
  else
    let op : RaftOperation := { type := .delete, key := key, rangeEnd := rangeEnd }
    ((applyOperationsBatch env true ⟨r,.empty⟩ [op]).records,prevKvs.length,prevKvs)

def Asked (key rangeEnd k : Bytes) : Prop :=
  if rangeEnd = [] then k = key else inRange key rangeEnd k = true

/-- The count and the records are those of the keys that were there and are asked for. -/
def Accounts (r : Records) (key rangeEnd : Bytes) (deleted : ℤ) (prevKvs : List KeyValue) : Prop :=
  ∃ keys : List Bytes, keys.Nodup ∧ (∀ k, k ∈ keys ↔ Asked key rangeEnd k ∧ getKeyValue r.db k ≠ none) ∧
    deleted = keys.length ∧ prevKvs = keys.filterMap (getKeyValue r.db)

structure Removes (env : Env) (r : Records) (key rangeEnd : Bytes) : Prop where
  gone : ∀ k, Asked key rangeEnd k → getKeyValue (deleteRange env r key rangeEnd).1.db k = none
  kept : ∀ k, ¬ Asked key rangeEnd k →
    getKeyValue (deleteRange env r key rangeEnd).1.db k = getKeyValue r.db k
  reports : Accounts r key rangeEnd (deleteRange env r key rangeEnd).2.1
    (deleteRange env r key rangeEnd).2.2
  txn : ∃ resp, (txnOp env r { type := .delete, key := key, rangeEnd := rangeEnd }).2 =
    .ok { type := .delete, deleteResp := some resp } ∧
    Accounts r key rangeEnd resp.deleted resp.prevKvs

section Cases
variable (env : Env) (r : Records) (key : Bytes)
variable {rangeEnd : Bytes}

lemma recordsToDelete_of_range (db : Database) (h : rangeEnd ≠ []) :
    recordsToDelete db key rangeEnd = [] := by
  rw [recordsToDelete,if_neg h,List.filterMap_eq_nil_iff]
  intro k _
  cases db[k]? <;> rfl

lemma deleteRange_of_range (h : rangeEnd ≠ []) :
    deleteRange env r key rangeEnd = (r,0,[]) := by
  rw [deleteRange,recordsToDelete_of_range key r.db h,if_pos rfl]

lemma getKeyValue_deleteRange_single (k : Bytes) :
    getKeyValue (deleteRange env r key []).1.db k = if k = key then none else getKeyValue r.db k := by
  unfold deleteRange recordsToDelete
  rw [if_pos rfl]
  cases hkey : getKeyValue r.db key with
  | none =>
    split_ifs with hk
    · rw [hk]
      exact hkey
    · rfl
  | some kv =>
    have hlogs := logs_deletes [key] none (incrementRevision r).db
    rw [getKeyValue_incrementRevision] at hlogs
    refine (congrFun hlogs k).trans ?_
    rw [replay_deletions]
    simp only [List.mem_singleton]

lemma deleteRange_single_snd : (deleteRange env r key []).2 =
    (((getKeyValue r.db key).toList.length : ℤ),(getKeyValue r.db key).toList) := by
  unfold deleteRange recordsToDelete
  cases getKeyValue r.db key <;> rfl

lemma reports_single : Accounts r key [] (getKeyValue r.db key).toList.length
    (getKeyValue r.db key).toList := by
  have hasked : ∀ k, Asked key [] k ↔ k = key := fun k => by rw [Asked,if_pos rfl]
  cases hkey : getKeyValue r.db key with
  | none =>
    refine ⟨[],List.nodup_nil,fun k => ?_,rfl,rfl⟩
    rw [hasked]
    refine iff_of_false List.not_mem_nil ?_
    rintro ⟨rfl,hne⟩
    exact hne hkey
  | some kv =>
    refine ⟨[key],List.nodup_singleton key,fun k => ?_,rfl,?_⟩
    · rw [hasked,List.mem_singleton]
      refine ⟨?_,And.left⟩
      rintro rfl
      exact ⟨rfl,by rw [hkey]; simp⟩
    · rw [List.filterMap_cons_some hkey]
      rfl

lemma reports_none (h : ∀ k, Asked key rangeEnd k → getKeyValue r.db k = none) :
    Accounts r key rangeEnd 0 [] :=
  ⟨[],List.nodup_nil,fun k => iff_of_false List.not_mem_nil fun hk => hk.2 (h k hk.1),rfl,rfl⟩

end Cases

/-- A deletion removes what it is asked for exactly if that is a single key, or a range without
keys. -/
theorem delete_range_removes_iff (env : Env) (r : Records) (key rangeEnd : Bytes) :
    Removes env r key rangeEnd ↔
      rangeEnd = [] ∨ ∀ k, inRange key rangeEnd k → getKeyValue r.db k = none := by
  by_cases hend : rangeEnd = []
  · subst hend
    refine iff_of_true ⟨fun k hk => ?_,fun k hk => ?_,?_,_,rfl,?_⟩ (.inl rfl)
    · rw [Asked,if_pos rfl] at hk
      rw [getKeyValue_deleteRange_single,if_pos hk]
    · rw [Asked,if_pos rfl] at hk
      rw [getKeyValue_deleteRange_single,if_neg hk]
    · rw [deleteRange_single_snd]
      exact reports_single r key
    · exact reports_single r key
  · have hasked : ∀ k, Asked key rangeEnd k ↔ inRange key rangeEnd k := fun k => by
      rw [Asked,if_neg hend]
    rw [or_iff_right hend]
    constructor
    · intro h k hk
      have hgone := h.gone k ((hasked k).mpr hk)
      rwa [deleteRange_of_range env r key hend] at hgone
    · intro h
      have hnone : ∀ k, Asked key rangeEnd k → getKeyValue r.db k = none := fun k hk =>
        h k ((hasked k).mp hk)
      refine ⟨?_,?_,?_,_,rfl,?_⟩
      · rw [deleteRange_of_range env r key hend]
        exact hnone
      · rw [deleteRange_of_range env r key hend]
        exact fun _ _ => rfl
      · rw [deleteRange_of_range env r key hend]
        exact reports_none r key hnone
      · dsimp only
        rw [if_neg hend]
        exact reports_none r key hnone

/-- Two keys are stored, their range is deleted, and both are still there. -/
theorem delete_range_leaves_keys :
    let env : Env := ⟨fun _ => 0,true⟩
    let r := (putUnlocked env (putUnlocked env ⟨∅,0,0⟩ [97] [1] 0).1 [98] [2] 0).1
    inRange [97] [99] [98] ∧ (deleteRange env r [97] [99]).2 = (0,[]) ∧
      getKeyValue (deleteRange env r [97] [99]).1.db [98] = some ⟨[98],[2],2,2,1,0⟩ := by
  intro env r
  rw [deleteRange_of_range env r [97] (by decide)]
  exact ⟨by decide,rfl,by decide⟩

end MetaStore.RocksDB
