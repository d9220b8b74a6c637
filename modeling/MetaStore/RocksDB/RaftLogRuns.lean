import MetaStore.RocksDB.RaftLogModel

/-! Runs of successful calls on the raft storage, and when it keeps an exact log. -/
namespace MetaStore.RocksDB
open Std

structure Represents (s : RocksDBStorage) (l : Log) : Prop where
  first : s.firstIndex.toNat = l.first
  last : s.lastIndex.toNat+1 = l.first+l.entries.length
  pos : 1 ≤ l.first
  records : ∀ i : UInt64, s.db[logKey s.nodeID i]? = (l.entryAt i.toNat).map .entry

/-- For every index of the log the record holds the entry of that index, and there are no
records outside. -/
def Contiguous (s : RocksDBStorage) : Prop :=
  ∀ i : UInt64, if s.firstIndex ≤ i ∧ i ≤ s.lastIndex then
      ∃ e, s.db[logKey s.nodeID i]? = some (.entry e) ∧ e.index = i
    else s.db[logKey s.nodeID i]? = none

def RocksDBStorage.entries (s : RocksDBStorage) : List Entry :=
  (List.range' s.firstIndex.toNat (s.lastIndex.toNat+1-s.firstIndex.toNat)).filterMap fun i =>
    s.entryAt (UInt64.ofNat i)

theorem Represents.contiguous {s : RocksDBStorage} {l : Log} (h : Represents s l) :
    Contiguous s := by
  intro i
  have hfirst := h.first
  have hlast := h.last
  rw [h.records]
  split_ifs with hi
  · rw [UInt64.le_iff_toNat_le,UInt64.le_iff_toNat_le] at hi
    obtain ⟨e,he,hidx⟩ := l.exists_entryAt (by omega : l.first ≤ i.toNat) (by omega)
    exact ⟨e,by rw [he]; rfl,UInt64.toNat_inj.mp hidx⟩
  · rw [UInt64.le_iff_toNat_le,UInt64.le_iff_toNat_le] at hi
    rw [l.entryAt_eq_none (by omega)]
    rfl

theorem Represents.entries_eq {s : RocksDBStorage} {l : Log} (h : Represents s l) :
    s.entries = l.entries := by
  have hfirst := h.first
  have hlast := h.last
  have hbound := s.lastIndex.toNat_lt
  have hat : ∀ i ∈ List.range' s.firstIndex.toNat (s.lastIndex.toNat+1-s.firstIndex.toNat),
      s.entryAt (UInt64.ofNat i) = l.entries[i-l.first]? := by
    intro i hi
    rw [List.mem_range'_1] at hi
    have hnat : (UInt64.ofNat i).toNat = i :=
      UInt64.toNat_ofNat_of_lt' (by simpa using (by omega : i < 2^64))
    rw [RocksDBStorage.entryAt,h.records,hnat,Log.entryAt,if_pos (by omega)]
    cases l.entries[i-l.first]? <;> rfl
  rw [RocksDBStorage.entries,List.filterMap_congr hat,hfirst,
    show s.lastIndex.toNat+1-l.first = l.entries.length by omega,filterMap_getElem?_range']

section Batch
variable (s : RocksDBStorage)

theorem pending_deletes (is : List UInt64) (i : UInt64) :
    WriteBatch.pending (s.deletes is) (logKey s.nodeID i) = if i ∈ is then some none else none := by
  rw [RocksDBStorage.deletes,WriteBatch.pending_map_delete]
  simp [(logKey_injective s.nodeID).eq_iff]

theorem pending_put_fixed {key : Bytes} (h : key.head? ≠ (ascii "r").head?) (v : Value)
    (i : UInt64) :
    WriteBatch.pending [.put (prefixedKey s.nodeID key) v] (logKey s.nodeID i) = none := by
  refine WriteBatch.pending_eq_none fun op hop => ?_
  rw [List.mem_singleton.mp hop]
  exact (logKey_ne_prefixedKey s.nodeID i h).symm

theorem pending_putIndexIf_first (changed : Bool) (n i : UInt64) :
    WriteBatch.pending (RocksDBStorage.putIndexIf changed (firstIndexKey s.nodeID) n)
      (logKey s.nodeID i) = none := by
  cases changed
  · rfl
  · exact pending_put_fixed s (by decide) _ i

theorem pending_putIndexIf_last (changed : Bool) (n i : UInt64) :
    WriteBatch.pending (RocksDBStorage.putIndexIf changed (lastIndexKey s.nodeID) n)
      (logKey s.nodeID i) = none := by
  cases changed
  · rfl
  · exact pending_put_fixed s (by decide) _ i

theorem pending_puts {e : Entry} {rest : List Entry} (h : Log.Consecutive (e :: rest)) (i : UInt64) :
    WriteBatch.pending (s.puts (e :: rest)) (logKey s.nodeID i) =
      if e.index.toNat ≤ i.toNat then
        (e :: rest)[i.toNat-e.index.toNat]?.map fun x => some (.entry x)
      else none := by
  have hindex : ∀ x ∈ e :: rest, ∃ j, (e :: rest)[j]? = some x ∧
      x.index.toNat = e.index.toNat+j := by
    intro x hx
    obtain ⟨j,hj⟩ := List.mem_iff_getElem?.mp hx
    exact ⟨j,hj,h.index_getElem? j x hj⟩
  -- the indexes are consecutive, so the keys are distinct
  have hnodup : ((e :: rest).map fun x => logKey s.nodeID x.index).Nodup := by
    simpa only [List.map_map,Function.comp_def] using h.nodup_index.map (logKey_injective s.nodeID)
  by_cases hi : e.index.toNat ≤ i.toNat
  · rw [if_pos hi]
    cases hx : (e :: rest)[i.toNat-e.index.toNat]? with
    | some x =>
      have hidx := h.index_getElem? _ x hx
      have hkey : x.index = i := UInt64.toNat_inj.mp (by omega)
      rw [← hkey]
      exact WriteBatch.pending_map_put hnodup (List.mem_of_getElem? hx)
    | none =>
      refine WriteBatch.pending_eq_none fun op hop hkey => ?_
      obtain ⟨x,hxmem,rfl⟩ := List.mem_map.mp hop
      obtain ⟨j,hj,hidx⟩ := hindex x hxmem
      rw [logKey_injective s.nodeID hkey] at hidx
      rw [show i.toNat-e.index.toNat = j by omega,hj] at hx
      exact absurd hx nofun
  · rw [if_neg hi]
    refine WriteBatch.pending_eq_none fun op hop hkey => hi ?_
    obtain ⟨x,hxmem,rfl⟩ := List.mem_map.mp hop
    obtain ⟨j,-,hidx⟩ := hindex x hxmem
    rw [logKey_injective s.nodeID hkey] at hidx
    omega

end Batch

section Steps
variable {s t : RocksDBStorage} {writeOK : Bool}

/-- What a successful append does: the cached last index never goes down, and the first
index moves only if the log was empty and still is. -/
theorem append_inv {e : Entry} {rest : List Entry}
    (h : s.append writeOK (e :: rest) = some (t,.ok ())) (hcons : Log.Consecutive (e :: rest)) :
    t.nodeID = s.nodeID ∧
    t.lastIndex.toNat = max s.lastIndex.toNat (e.index.toNat+rest.length) ∧
    (s.firstIndex.toNat ≤ t.lastIndex.toNat → t.firstIndex = s.firstIndex) ∧
    ∀ i : UInt64, t.db[logKey s.nodeID i]? =
      if e.index.toNat ≤ i.toNat then
        ((e :: rest)[i.toNat-e.index.toNat]?.map fun x => some (.entry x)).getD
          (if i.toNat ≤ s.lastIndex.toNat then none else s.db[logKey s.nodeID i]?)
      else s.db[logKey s.nodeID i]? := by
  have hlen := hcons.index_getLast
  obtain ⟨old,hold,h⟩ := Option.map_eq_some_iff.mp h
  have hmem : ∀ i : UInt64, i ∈ old ↔
      e.index.toNat ≤ i.toNat ∧ i.toNat ≤ s.lastIndex.toNat := by
    intro i
    simp only [RocksDBStorage.conflicting,UInt64.le_iff_toNat_le] at hold
    split_ifs at hold with hle
    · exact mem_indexesUpTo hold i
    · rw [← Option.some.inj hold]
      simp only [List.not_mem_nil,false_iff]
      omega
  cases writeOK with
  | false => exact absurd (Prod.mk.inj h).2 nofun
  | true =>
  obtain ⟨rfl,-⟩ := Prod.mk.inj h
  refine ⟨rfl,?_,?_,fun i => ?_⟩
  · dsimp only
    split_ifs with hlt <;> rw [UInt64.lt_iff_toNat_lt] at hlt <;> omega
  · dsimp only
    intro hle
    rw [if_neg]
    rw [UInt64.lt_iff_toNat_lt]
    omega
  · rw [WriteBatch.getElem?_write,WriteBatch.pending_append,WriteBatch.pending_append,
      WriteBatch.pending_append,pending_putIndexIf_first,pending_putIndexIf_last,
      pending_puts s hcons,pending_deletes,Option.none_or,Option.none_or]
    simp only [hmem]
    by_cases hi : e.index.toNat ≤ i.toNat
    · simp only [hi,if_true,true_and]
      cases (e :: rest)[i.toNat-e.index.toNat]? <;> split_ifs <;> rfl
    · simp [hi]

/-- A successful installation: an empty snapshot changes nothing, any other one is newer than
the log's beginning and removes the entries it covers. -/
theorem applySnapshot_inv {snap : Snapshot} (h : s.applySnapshot writeOK snap = some (t,.ok ()))
    (hpos : 1 ≤ s.firstIndex.toNat) :
    (snap.index = 0 ∧ t = s) ∨
    (s.firstIndex.toNat ≤ snap.index.toNat ∧ t.nodeID = s.nodeID ∧ t.firstIndex = snap.index+1 ∧
      t.lastIndex.toNat = max s.lastIndex.toNat snap.index.toNat ∧
      ∀ i : UInt64, t.db[logKey s.nodeID i]? =
        if s.firstIndex.toNat ≤ i.toNat ∧ i.toNat ≤ snap.index.toNat ∧
          i.toNat ≤ s.lastIndex.toNat then none
        else s.db[logKey s.nodeID i]?) := by
  unfold RocksDBStorage.applySnapshot at h
  by_cases hempty : RocksDBStorage.isEmptySnap snap
  · rw [if_pos hempty] at h
    obtain ⟨rfl,-⟩ := Prod.mk.inj (Option.some.inj h)
    exact .inl ⟨by simpa [RocksDBStorage.isEmptySnap] using hempty,rfl⟩
  right
  rw [if_neg hempty] at h
  by_cases hold : snap.index ≤ s.firstIndex-1
  · rw [if_pos hold] at h
    exact absurd (Prod.mk.inj (Option.some.inj h)).2 nofun
  rw [if_neg hold] at h
  obtain ⟨old,hidx,h⟩ := Option.map_eq_some_iff.mp h
  have hfirst : s.firstIndex.toNat ≤ snap.index.toNat := by
    have h1 : (1 : UInt64).toNat = 1 := rfl
    rw [UInt64.le_iff_toNat_le,UInt64.toNat_sub_of_le s.firstIndex 1
      (UInt64.le_iff_toNat_le.mpr (by omega))] at hold
    omega
  have hmem : ∀ i : UInt64, i ∈ old ↔
      s.firstIndex.toNat ≤ i.toNat ∧ i.toNat ≤ snap.index.toNat ∧
          i.toNat ≤ s.lastIndex.toNat := by
    intro i
    rw [mem_indexesUpTo hidx]
    split_ifs with hle <;> rw [UInt64.le_iff_toNat_le] at hle <;> omega
  cases writeOK with
  | false => exact absurd (Prod.mk.inj h).2 nofun
  | true =>
  obtain ⟨rfl,-⟩ := Prod.mk.inj h
  refine ⟨hfirst,rfl,rfl,?_,fun i => ?_⟩
  · dsimp only
    split_ifs with hlt <;> rw [UInt64.lt_iff_toNat_lt] at hlt <;> omega
  · rw [WriteBatch.getElem?_write]
    simp only [WriteBatch.pending_append]
    rw [pending_putIndexIf_last,firstIndexKey,confStateKey,snapshotKey,
      pending_put_fixed s (by decide),pending_put_fixed s (by decide),
      pending_put_fixed s (by decide),pending_deletes]
    simp only [hmem,Option.none_or,Option.or_none]
    split_ifs <;> rfl

theorem compact_inv {c : UInt64} (h : s.compact writeOK c = (t,.ok ())) :
    s.firstIndex.toNat < c.toNat ∧ c.toNat ≤ s.lastIndex.toNat ∧ t.nodeID = s.nodeID ∧
    t.firstIndex = c ∧ t.lastIndex = s.lastIndex ∧
    ∀ i : UInt64, t.db[logKey s.nodeID i]? =
      if s.firstIndex.toNat ≤ i.toNat ∧ i.toNat < c.toNat then none
      else s.db[logKey s.nodeID i]? := by
  unfold RocksDBStorage.compact at h
  split_ifs at h with hle hlt
  · exact absurd (Prod.mk.inj h).2 nofun
  · exact absurd (Prod.mk.inj h).2 nofun
  rotate_left
  · exact absurd (Prod.mk.inj h).2 nofun
  obtain ⟨rfl,-⟩ := Prod.mk.inj h
  rw [UInt64.le_iff_toNat_le] at hle
  rw [UInt64.lt_iff_toNat_lt] at hlt
  refine ⟨by omega,by omega,rfl,rfl,rfl,fun i => ?_⟩
  rw [WriteBatch.getElem?_write,WriteBatch.pending_append,firstIndexKey,
    pending_put_fixed s (by decide),pending_deletes,Option.none_or]
  simp only [mem_indexesBelow (UInt64.le_iff_toNat_le.mpr (by omega : s.firstIndex.toNat ≤ c.toNat))]
  split_ifs <;> rfl

theorem createSnapshot_inv {index : UInt64} {cs : ConfState} {data : Bytes} {snap : Snapshot}
    (h : s.createSnapshot writeOK index cs data = (t,.ok snap)) :
    t.nodeID = s.nodeID ∧ t.firstIndex = s.firstIndex ∧ t.lastIndex = s.lastIndex ∧
    ∀ i : UInt64, t.db[logKey s.nodeID i]? = s.db[logKey s.nodeID i]? := by
  unfold RocksDBStorage.createSnapshot at h
  split_ifs at h
  · exact absurd (Prod.mk.inj h).2 nofun
  · exact absurd (Prod.mk.inj h).2 nofun
  rotate_left
  · split at h <;> exact absurd (Prod.mk.inj h).2 nofun
  split at h
  · exact absurd (Prod.mk.inj h).2 nofun
  obtain ⟨rfl,-⟩ := Prod.mk.inj h
  refine ⟨rfl,rfl,rfl,fun i => ?_⟩
  have hne : snapshotKey s.nodeID ≠ logKey s.nodeID i :=
    (logKey_ne_prefixedKey s.nodeID i (by decide)).symm
  simp [ExtTreeMap.getElem?_insert,hne]

end Steps

end MetaStore.RocksDB
