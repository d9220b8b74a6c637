import MetaStore.RocksDB.RaftLogRuns

/-! The records of the raft storage under fixed keys: the stored snapshot, the hard state and
the bounds of the log. Every call leaves them alone but for those it is about, and a call whose
write succeeds leaves the stored bounds equal to those in memory. -/
namespace MetaStore.RocksDB
open Std WriteBatch

def Fixed (key : Bytes) : Prop := key.head? ≠ (ascii "r").head?

instance (key : Bytes) : Decidable (Fixed key) := inferInstanceAs (Decidable (_ ≠ _))

structure Synced (s : RocksDBStorage) : Prop where
  first : s.db[firstIndexKey s.nodeID]? = some (.index s.firstIndex)
  last : s.db[lastIndexKey s.nodeID]? = some (.index s.lastIndex)

section Batch
variable (s : RocksDBStorage) {key : Bytes}

lemma pending_deletes_fixed (hkey : Fixed key) (is : List UInt64) :
    pending (s.deletes is) (prefixedKey s.nodeID key) = none := by
  refine pending_eq_none fun op hop => ?_
  obtain ⟨_,hx,rfl⟩ := List.mem_map.mp hop
  obtain ⟨i,-,rfl⟩ := List.mem_map.mp hx
  exact logKey_ne_prefixedKey s.nodeID i hkey

lemma pending_puts_fixed (hkey : Fixed key) (entries : List Entry) :
    pending (s.puts entries) (prefixedKey s.nodeID key) = none := by
  refine pending_eq_none fun op hop => ?_
  obtain ⟨e,-,rfl⟩ := List.mem_map.mp hop
  exact logKey_ne_prefixedKey s.nodeID e.index hkey

lemma pending_put_prefixed (key' : Bytes) (v : Value) :
    pending [.put (prefixedKey s.nodeID key') v] (prefixedKey s.nodeID key) =
      if key' = key then some (some v) else none := by
  simp [pending_cons,BatchOp.key,BatchOp.value,(prefixedKey_injective s.nodeID).eq_iff]

lemma pending_putIndexIf (changed : Bool) (key' : Bytes) (i : UInt64) :
    pending (RocksDBStorage.putIndexIf changed (prefixedKey s.nodeID key') i)
      (prefixedKey s.nodeID key) = if changed ∧ key' = key then some (some (.index i)) else none := by
  cases changed with
  | false => simp [RocksDBStorage.putIndexIf]
  | true => simp [RocksDBStorage.putIndexIf,pending_put_prefixed]

end Batch

def IsBound (key : Bytes) : Prop := key = ascii "first_index" ∨ key = ascii "last_index"

instance (key : Bytes) : Decidable (IsBound key) := inferInstanceAs (Decidable (_ ∨ _))

section Calls
variable {s t : RocksDBStorage} {writeOK : Bool} {key : Bytes}
variable {snap : Snapshot} {entries : List Entry}

lemma append_write {e : Entry} {rest : List Entry}
    (h : s.append writeOK (e :: rest) = some (t,.ok ())) (hkey : Fixed key) :
    ∃ last : UInt64, t.nodeID = s.nodeID ∧
      t.lastIndex = (if s.lastIndex < last then last else s.lastIndex) ∧
      t.firstIndex = (if t.lastIndex < s.firstIndex then e.index else s.firstIndex) ∧
      t.db[prefixedKey s.nodeID key]? =
        if t.lastIndex < s.firstIndex ∧ ascii "first_index" = key then some (.index e.index)
        else if s.lastIndex < last ∧ ascii "last_index" = key then some (.index last)
        else s.db[prefixedKey s.nodeID key]? := by
  obtain ⟨old,-,h⟩ := Option.map_eq_some_iff.mp h
  cases writeOK with
  | false => exact absurd (Prod.mk.inj h).2 (by simp)
  | true =>
  obtain ⟨rfl,-⟩ := Prod.mk.inj h
  refine ⟨_,rfl,rfl,rfl,?_⟩
  dsimp only
  rw [getElem?_write]
  simp only [pending_append,firstIndexKey,lastIndexKey,pending_putIndexIf,decide_eq_true_eq,
    pending_deletes_fixed s hkey,pending_puts_fixed s hkey,Option.or_none]
  split_ifs <;> rfl

lemma append_nodeID (h : s.append writeOK entries = some (t,.ok ())) :
    t.nodeID = s.nodeID := by
  cases entries with
  | nil =>
    obtain ⟨rfl,-⟩ := Prod.mk.inj (Option.some.inj h)
    rfl
  | cons e rest =>
    obtain ⟨_,hnode,-⟩ := append_write h (by decide : Fixed (ascii "last_index"))
    exact hnode

lemma append_fixed (h : s.append writeOK entries = some (t,.ok ()))
    (hkey : Fixed key) (hbound : ¬ IsBound key) :
    t.db[prefixedKey s.nodeID key]? = s.db[prefixedKey s.nodeID key]? := by
  cases entries with
  | nil =>
    obtain ⟨rfl,-⟩ := Prod.mk.inj (Option.some.inj h)
    rfl
  | cons e rest =>
    obtain ⟨last,-,-,-,hdb⟩ := append_write h hkey
    rw [hdb,if_neg fun hc => hbound (.inl hc.2.symm),if_neg fun hc => hbound (.inr hc.2.symm)]

lemma Synced.append (hs : Synced s)
    (h : s.append writeOK entries = some (t,.ok ())) : Synced t := by
  cases entries with
  | nil =>
    obtain ⟨rfl,-⟩ := Prod.mk.inj (Option.some.inj h)
    exact hs
  | cons e rest =>
    have hne : ascii "first_index" ≠ ascii "last_index" := by decide
    obtain ⟨_,hnode,-,hfirst,hdb⟩ := append_write h (by decide : Fixed (ascii "first_index"))
    obtain ⟨last,-,hlast,-,hdb'⟩ := append_write h (by decide : Fixed (ascii "last_index"))
    simp only [and_true,hne.symm,and_false,if_false] at hdb
    simp only [hne,and_false,if_false,and_true] at hdb'
    refine ⟨?_,?_⟩
    · rw [hnode,firstIndexKey,hdb,hfirst]
      split_ifs
      · rfl
      · exact hs.first
    · rw [hnode,lastIndexKey,hdb',hlast]
      split_ifs
      · rfl
      · exact hs.last

lemma applySnapshot_fixed (h : s.applySnapshot writeOK snap = some (t,.ok ()))
    (hkey : Fixed key) :
    (snap.index = 0 ∧ t = s) ∨
    t.nodeID = s.nodeID ∧ t.firstIndex = snap.index+1 ∧
      t.lastIndex = (if s.lastIndex < snap.index then snap.index else s.lastIndex) ∧
      t.db[prefixedKey s.nodeID key]? =
        if ascii "conf_state" = key then some (.confState snap.confState)
        else if s.lastIndex < snap.index ∧ ascii "last_index" = key then some (.index snap.index)
        else if ascii "first_index" = key then some (.index (snap.index+1))
        else if ascii "snapshot_meta" = key then some (.snapshot snap)
        else s.db[prefixedKey s.nodeID key]? := by
  unfold RocksDBStorage.applySnapshot at h
  by_cases hempty : RocksDBStorage.isEmptySnap snap
  · rw [if_pos hempty] at h
    obtain ⟨rfl,-⟩ := Prod.mk.inj (Option.some.inj h)
    exact .inl ⟨by simpa [RocksDBStorage.isEmptySnap] using hempty,rfl⟩
  by_cases hold : snap.index ≤ s.firstIndex-1
  · rw [if_neg hempty,if_pos hold] at h
    exact absurd (Prod.mk.inj (Option.some.inj h)).2 (by simp)
  rw [if_neg hempty,if_neg hold] at h
  right
  obtain ⟨old,-,h⟩ := Option.map_eq_some_iff.mp h
  cases writeOK with
  | false => exact absurd (Prod.mk.inj h).2 (by simp)
  | true =>
  obtain ⟨rfl,-⟩ := Prod.mk.inj h
  refine ⟨rfl,rfl,rfl,?_⟩
  dsimp only
  rw [getElem?_write]
  simp only [pending_append,firstIndexKey,lastIndexKey,confStateKey,snapshotKey,pending_putIndexIf,
    pending_put_prefixed,decide_eq_true_eq,pending_deletes_fixed s hkey,Option.none_or]
  split_ifs <;> rfl

/-- A snapshot that is refused although the database accepts the write changes nothing. -/
lemma applySnapshot_error {err : String}
    (h : s.applySnapshot true snap = some (t,.error err)) : t = s := by
  unfold RocksDBStorage.applySnapshot at h
  by_cases hempty : RocksDBStorage.isEmptySnap snap
  · rw [if_pos hempty] at h
    exact absurd (Prod.mk.inj (Option.some.inj h)).2 (by simp)
  by_cases hold : snap.index ≤ s.firstIndex-1
  · rw [if_neg hempty,if_pos hold] at h
    exact (Prod.mk.inj (Option.some.inj h)).1.symm
  rw [if_neg hempty,if_neg hold] at h
  obtain ⟨old,-,h⟩ := Option.map_eq_some_iff.mp h
  exact absurd (Prod.mk.inj h).2 (by simp)

lemma applySnapshot_nodeID (h : s.applySnapshot writeOK snap = some (t,.ok ())) :
    t.nodeID = s.nodeID := by
  obtain ⟨-,rfl⟩|⟨hnode,-⟩ := applySnapshot_fixed h (by decide : Fixed (ascii "last_index"))
  · rfl
  · exact hnode

lemma Synced.applySnapshot (hs : Synced s)
    (h : s.applySnapshot writeOK snap = some (t,.ok ())) : Synced t := by
  obtain ⟨-,rfl⟩|⟨hnode,hfirst,-,hdb⟩ :=
    applySnapshot_fixed h (by decide : Fixed (ascii "first_index"))
  · exact hs
  obtain ⟨-,rfl⟩|⟨-,-,hlast,hdb'⟩ :=
    applySnapshot_fixed h (by decide : Fixed (ascii "last_index"))
  · exact hs
  refine ⟨?_,?_⟩
  · rw [hnode,firstIndexKey,hdb,hfirst,if_neg (by decide),if_neg fun hc => absurd hc.2 (by decide),
      if_pos rfl]
  · rw [hnode,lastIndexKey,hdb',hlast,if_neg (by decide)]
    by_cases hlt : s.lastIndex < snap.index
    · rw [if_pos ⟨hlt,rfl⟩,if_pos hlt]
    · rw [if_neg fun hc => hlt hc.1,if_neg (by decide),if_neg (by decide),if_neg hlt]
      exact hs.last

/-- A snapshot behind the first index is accepted, unless the loop over the old entries goes on
for ever. -/
lemma exists_applySnapshot_iff (hne : snap.index ≠ 0)
    (hlt : s.firstIndex-1 < snap.index) :
    (∃ t, s.applySnapshot true snap = some (t,.ok ())) ↔
      ¬ (snap.index.toNat = 2^64-1 ∧ s.lastIndex.toNat = 2^64-1) := by
  obtain ⟨hi,hhi⟩ : ∃ hi, hi = if snap.index ≤ s.lastIndex then snap.index else s.lastIndex :=
    ⟨_,rfl⟩
  have hmax : s.firstIndex ≤ hi ∧ hi.toNat = 2^64-1 ↔
      snap.index.toNat = 2^64-1 ∧ s.lastIndex.toNat = 2^64-1 := by
    have h1 := snap.index.toNat_lt
    have h2 := s.lastIndex.toNat_lt
    have h3 := s.firstIndex.toNat_lt
    rw [hhi,UInt64.le_iff_toNat_le]
    split_ifs with hle <;> rw [UInt64.le_iff_toNat_le] at hle <;> omega
  rw [RocksDBStorage.applySnapshot,if_neg (by simpa [RocksDBStorage.isEmptySnap] using hne),
    if_neg (UInt64.not_le.mpr hlt)]
  dsimp only
  rw [← hhi,indexesUpTo,← hmax]
  by_cases hend : s.firstIndex ≤ hi ∧ hi.toNat = 2^64-1
  · rw [if_pos hend]
    exact iff_of_false (by simp) (not_not.mpr hend)
  · rw [if_neg hend]
    exact iff_of_true ⟨_,rfl⟩ hend

lemma createSnapshot_eq {index : UInt64} {cs : ConfState} {data : Bytes}
    (h : s.createSnapshot writeOK index cs data = (t,.ok snap)) :
    ¬ index < s.firstIndex-1 ∧ ¬ s.lastIndex < index ∧ s.snapshotTerm index = .ok snap.term ∧
      snap.index = index ∧
      t = { s with db := s.db.insert (snapshotKey s.nodeID) (.snapshot snap) } := by
  unfold RocksDBStorage.createSnapshot at h
  split_ifs at h with hold hnew hwrite
  · exact absurd (Prod.mk.inj h).2 (by simp)
  · exact absurd (Prod.mk.inj h).2 (by simp)
  · cases hterm : s.snapshotTerm index with
    | error err =>
      rw [hterm] at h
      exact absurd (Prod.mk.inj h).2 (by simp)
    | ok term =>
      rw [hterm] at h
      obtain ⟨rfl,hsnap⟩ := Prod.mk.inj h
      obtain rfl := Except.ok.inj hsnap
      exact ⟨hold,hnew,rfl,rfl,rfl⟩
  · cases hterm : s.snapshotTerm index with
    | error err =>
      rw [hterm] at h
      exact absurd (Prod.mk.inj h).2 (by simp)
    | ok term =>
      rw [hterm] at h
      exact absurd (Prod.mk.inj h).2 (by simp)

lemma getElem?_insert_prefixed (db : Database) (nodeID : Bytes) {key key' : Bytes}
    (h : key' ≠ key) (v : Value) :
    (db.insert (prefixedKey nodeID key') v)[prefixedKey nodeID key]? =
      db[prefixedKey nodeID key]? := by
  have hne : prefixedKey nodeID key' ≠ prefixedKey nodeID key := fun he =>
    h (prefixedKey_injective nodeID he)
  simp [ExtTreeMap.getElem?_insert,hne]

lemma compact_fixed {c : UInt64} (h : s.compact writeOK c = (t,.ok ())) (hkey : Fixed key) :
    t.nodeID = s.nodeID ∧ t.firstIndex = c ∧ t.lastIndex = s.lastIndex ∧
      t.db[prefixedKey s.nodeID key]? =
        if ascii "first_index" = key then some (.index c) else s.db[prefixedKey s.nodeID key]? := by
  unfold RocksDBStorage.compact at h
  split_ifs at h with hle hlt hwrite
  · exact absurd (Prod.mk.inj h).2 (by simp)
  · exact absurd (Prod.mk.inj h).2 (by simp)
  rotate_left
  · exact absurd (Prod.mk.inj h).2 (by simp)
  obtain ⟨rfl,-⟩ := Prod.mk.inj h
  refine ⟨rfl,rfl,rfl,?_⟩
  dsimp only
  rw [getElem?_write,pending_append,firstIndexKey,pending_put_prefixed,pending_deletes_fixed s hkey]
  split_ifs <;> rfl

lemma Synced.compact {c : UInt64} (hs : Synced s) (h : s.compact writeOK c = (t,.ok ())) :
    Synced t := by
  obtain ⟨hnode,hfirst,-,hdb⟩ := compact_fixed h (by decide : Fixed (ascii "first_index"))
  obtain ⟨-,-,hlast,hdb'⟩ := compact_fixed h (by decide : Fixed (ascii "last_index"))
  refine ⟨?_,?_⟩
  · rw [hnode,firstIndexKey,hdb,hfirst,if_pos rfl]
  · rw [hnode,lastIndexKey,hdb',hlast,if_neg (by decide)]
    exact hs.last

end Calls

section Open
variable (db : Database) (nodeID : Bytes)

lemma getElem?_of_getIndex {db : Database} {key : Bytes} {i : UInt64}
    (h : getIndex db key = some i) : db[key]? = some (.index i) := by
  unfold getIndex at h
  split at h
  · rw [← Option.some.inj h]
    assumption
  · cases h

theorem synced_newRocksDBStorage : Synced (newRocksDBStorage db nodeID) := by
  have hne : ascii "last_index" ≠ ascii "first_index" := by decide
  unfold newRocksDBStorage
  cases hfirst : getIndex db (firstIndexKey nodeID) with
  | some i =>
    dsimp only
    cases hlast : getIndex db (lastIndexKey nodeID) with
    | some j => exact ⟨getElem?_of_getIndex hfirst,getElem?_of_getIndex hlast⟩
    | none =>
      refine ⟨?_,ExtTreeMap.getElem?_insert_self⟩
      dsimp only
      rw [firstIndexKey,lastIndexKey,getElem?_insert_prefixed _ _ hne]
      exact getElem?_of_getIndex hfirst
  | none =>
    dsimp only
    cases hlast : getIndex (db.insert (firstIndexKey nodeID) (.index 1)) (lastIndexKey nodeID) with
    | some j => exact ⟨ExtTreeMap.getElem?_insert_self,getElem?_of_getIndex hlast⟩
    | none =>
      refine ⟨?_,ExtTreeMap.getElem?_insert_self⟩
      dsimp only
      rw [firstIndexKey,lastIndexKey,getElem?_insert_prefixed _ _ hne]
      exact ExtTreeMap.getElem?_insert_self

@[simp] lemma newRocksDBStorage_nodeID : (newRocksDBStorage db nodeID).nodeID = nodeID := by
  unfold newRocksDBStorage
  cases getIndex db (firstIndexKey nodeID) <;> rfl

lemma newRocksDBStorage_frame {key : Bytes} (hbound : ¬ IsBound key) :
    (newRocksDBStorage db nodeID).db[prefixedKey nodeID key]? = db[prefixedKey nodeID key]? := by
  have hfirst : ∀ (db : Database) (v : Value),
      (db.insert (firstIndexKey nodeID) v)[prefixedKey nodeID key]? = db[prefixedKey nodeID key]? :=
    fun db v => getElem?_insert_prefixed db nodeID (fun he => hbound (.inl he.symm)) v
  have hlast : ∀ (db : Database) (v : Value),
      (db.insert (lastIndexKey nodeID) v)[prefixedKey nodeID key]? = db[prefixedKey nodeID key]? :=
    fun db v => getElem?_insert_prefixed db nodeID (fun he => hbound (.inr he.symm)) v
  unfold newRocksDBStorage
  cases getIndex db (firstIndexKey nodeID) with
  | some i =>
    dsimp only
    cases getIndex db (lastIndexKey nodeID) with
    | some j => rfl
    | none => exact hlast db _
  | none =>
    dsimp only
    cases getIndex (db.insert (firstIndexKey nodeID) (.index 1)) (lastIndexKey nodeID) with
    | some j => exact hfirst db _
    | none => exact (hlast _ _).trans (hfirst db _)

lemma newRocksDBStorage_logKey (i : UInt64) :
    (newRocksDBStorage db nodeID).db[logKey nodeID i]? = db[logKey nodeID i]? := by
  have hhead : (ascii "raft_log_" ++ ascii "_" ++ bigEndian i).head? = (ascii "r").head? := rfl
  rw [logKey_eq_prefixedKey]
  refine newRocksDBStorage_frame db nodeID ?_
  rintro (h | h) <;> rw [h] at hhead <;> exact absurd hhead (by decide)

lemma getIndex_insert_first (v : Value) :
    getIndex (db.insert (firstIndexKey nodeID) v) (lastIndexKey nodeID) =
      getIndex db (lastIndexKey nodeID) := by
  rw [getIndex,getIndex,firstIndexKey,lastIndexKey,
    getElem?_insert_prefixed _ _ (by decide : ascii "first_index" ≠ ascii "last_index")]

lemma newRocksDBStorage_lastIndex :
    (newRocksDBStorage db nodeID).lastIndex =
      (getIndex db (lastIndexKey nodeID)).getD ((newRocksDBStorage db nodeID).firstIndex-1) := by
  unfold newRocksDBStorage
  cases getIndex db (firstIndexKey nodeID) with
  | some i =>
    dsimp only
    cases getIndex db (lastIndexKey nodeID) <;> rfl
  | none =>
    dsimp only
    rw [getIndex_insert_first]
    cases getIndex db (lastIndexKey nodeID) <;> rfl

/-- A storage whose bounds are stored is opened as it is. -/
lemma newRocksDBStorage_of_synced {s : RocksDBStorage} (hs : Synced s) :
    newRocksDBStorage s.db s.nodeID = s := by
  have hfirst : getIndex s.db (firstIndexKey s.nodeID) = some s.firstIndex := by
    rw [getIndex,hs.first]
  have hlast : getIndex s.db (lastIndexKey s.nodeID) = some s.lastIndex := by
    rw [getIndex,hs.last]
  unfold newRocksDBStorage
  rw [hfirst]
  dsimp only
  rw [hlast]

end Open

end MetaStore.RocksDB
