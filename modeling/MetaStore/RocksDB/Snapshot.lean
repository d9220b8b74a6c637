import MetaStore.RocksDB.Store
import MetaStore.RocksDB.RaftLog

/-! Snapshots of the store (`GetSnapshot`, `recoverFromSnapshot`). The store and the raft
storage of its node share one database, and a snapshot is a copy of all of it: installing
one replaces the records of the raft storage by those of the sender. -/
namespace MetaStore.RocksDB
open Std WriteBatch

/-- `GetSnapshot`: a map of every key of the database, whose gob encoding is taken as the map. -/
def getSnapshot (db : Database) : Database := db.toList.foldl (fun m kv => m.insert kv.1 kv.2) ∅

/-- `recoverFromSnapshot`: one batch that deletes every key and puts the snapshot. -/
def recoverFromSnapshot (db snapshot : Database) : Database :=
  write db (db.keys.map .delete ++ snapshot.toList.map fun kv => .put kv.1 kv.2)

theorem getElem?_foldl_insert (l : List (Bytes × Value)) (m : Database) (k : Bytes) :
    (l.foldl (fun m kv => m.insert kv.1 kv.2) m)[k]? =
      (pending (l.map fun kv => BatchOp.put kv.1 kv.2) k).getD m[k]? := by
  rw [← getElem?_write,write,List.foldl_map]
  rfl

lemma pending_toList_put (db : Database) (k : Bytes) :
    pending (db.toList.map fun kv => BatchOp.put kv.1 kv.2) k = db[k]?.map some := by
  have hnodup : (db.toList.map Prod.fst).Nodup := by
    rw [ExtTreeMap.map_fst_toList_eq_keys]
    exact ExtTreeMap.nodup_keys
  cases hk : db[k]? with
  | some v =>
    have hmem : (k,v) ∈ db.toList := ExtTreeMap.mem_toList_iff_getElem?_eq_some.mpr hk
    exact pending_map_put hnodup hmem
  | none =>
    refine pending_eq_none fun op hop => ?_
    obtain ⟨⟨j,v⟩,hj,rfl⟩ := List.mem_map.mp hop
    rintro rfl
    have hv := ExtTreeMap.mem_toList_iff_getElem?_eq_some.mp hj
    rw [show j = BatchOp.key (BatchOp.put j v) from rfl,hk] at hv
    cases hv

@[simp] theorem getSnapshot_eq (db : Database) : getSnapshot db = db := by
  ext1 k
  rw [getSnapshot,getElem?_foldl_insert,pending_toList_put]
  cases hk : db[k]? <;> simp

theorem recoverFromSnapshot_eq (db snapshot : Database) :
    recoverFromSnapshot db snapshot = snapshot := by
  ext1 k
  rw [recoverFromSnapshot,getElem?_write,pending_append,pending_toList_put,pending_map_delete]
  cases hk : snapshot[k]? with
  | some v => rfl
  | none =>
    by_cases hmem : k ∈ db.keys
    · simp [hmem]
    · simp only [hmem,if_false,Option.map_none,Option.none_or,Option.getD_none]
      simpa using hmem

def metaPrefix : Bytes := ascii "meta:"

def AppKey (x : Bytes) : Prop := kvPrefix <+: x ∨ leasePrefix <+: x ∨ metaPrefix <+: x

/-- `fmt.Sprintf("node_%d", id)`. -/
def nodeName (id : ℤ) : Bytes := ascii "node_" ++ decimal id

inductive RaftKey (id : ℤ) : Bytes → Prop
  | entry (i : UInt64) : RaftKey id (logKey (nodeName id) i)
  | hardState : RaftKey id (hardStateKey (nodeName id))
  | confState : RaftKey id (confStateKey (nodeName id))
  | snapshot : RaftKey id (snapshotKey (nodeName id))
  | firstIndex : RaftKey id (firstIndexKey (nodeName id))
  | lastIndex : RaftKey id (lastIndexKey (nodeName id))

lemma prefixedKey_head (id : ℤ) (key : Bytes) : ∃ rest, prefixedKey (nodeName id) key = 110 :: rest :=
  ⟨ascii "ode_" ++ decimal id ++ ascii "_" ++ key,rfl⟩

lemma RaftKey.head {id : ℤ} {x : Bytes} (h : RaftKey id x) : ∃ rest, x = 110 :: rest := by
  cases h with
  | entry i =>
    obtain ⟨rest,hrest⟩ := prefixedKey_head id (ascii "raft_log_")
    exact ⟨rest ++ ascii "_" ++ bigEndian i,by rw [logKey,hrest]; rfl⟩
  | _ => exact prefixedKey_head id _

theorem RaftKey.not_appKey {id : ℤ} {x : Bytes} (h : RaftKey id x) : ¬ AppKey x := by
  obtain ⟨rest,rfl⟩ := h.head
  rintro (⟨t,ht⟩ | ⟨t,ht⟩ | ⟨t,ht⟩)
  all_goals exact absurd (List.cons.inj ht).1 (by decide)

/-- Installing a snapshot on node `id` changes keys of the store only: every key of the
node's raft storage keeps its value, and no raft key of another node appears. -/
structure KeepsRaftState (id : ℤ) (db snapshot : Database) : Prop where
  frame : ∀ x, ¬ AppKey x → (recoverFromSnapshot db snapshot)[x]? = db[x]?
  own : ∀ x, RaftKey id x → (recoverFromSnapshot db snapshot)[x]? = db[x]?
  foreign : ∀ other, other ≠ id → ∀ x, RaftKey other x → x ∉ db →
    x ∉ recoverFromSnapshot db snapshot

/-- The raft state survives exactly the snapshots of senders whose database is the same
outside the keys of the store, so no snapshot of another node. -/
theorem keepsRaftState_iff (id : ℤ) (db sender : Database) :
    KeepsRaftState id db (getSnapshot sender) ↔ ∀ x, ¬ AppKey x → sender[x]? = db[x]? := by
  rw [getSnapshot_eq]
  constructor
  · intro h x hx
    rw [← h.frame x hx,recoverFromSnapshot_eq]
  · intro h
    have hframe : ∀ x, ¬ AppKey x → (recoverFromSnapshot db sender)[x]? = db[x]? := by
      intro x hx
      rw [recoverFromSnapshot_eq,h x hx]
    refine ⟨hframe,fun x hx => hframe x hx.not_appKey,fun other _ x hx hmem => ?_⟩
    have hx' := hframe x hx.not_appKey
    rw [ExtTreeMap.mem_iff_isSome_getElem?] at hmem ⊢
    rwa [hx']

/-- A new node 2 that installs the snapshot of a new node 1: its own index bounds are gone
and those of node 1 are there. -/
theorem recoverFromSnapshot_replaces_raft_state :
    let sender := (newRocksDBStorage ∅ (nodeName 1)).db
    let db := (newRocksDBStorage ∅ (nodeName 2)).db
    let after := recoverFromSnapshot db (getSnapshot sender)
    ¬ KeepsRaftState 2 db (getSnapshot sender) ∧
    db[lastIndexKey (nodeName 2)]? = some (.index 0) ∧ after[lastIndexKey (nodeName 2)]? = none ∧
    db[lastIndexKey (nodeName 1)]? = none ∧ after[lastIndexKey (nodeName 1)]? = some (.index 0) := by
  intro sender db after
  have hbefore : db[lastIndexKey (nodeName 2)]? = some (.index 0) := by decide
  have hafter : after[lastIndexKey (nodeName 2)]? = none := by decide
  refine ⟨fun h => ?_,hbefore,hafter,by decide,by decide⟩
  have howned := h.own _ .lastIndex
  rw [hbefore] at howned
  exact absurd (hafter.symm.trans howned) (by simp)

end MetaStore.RocksDB
