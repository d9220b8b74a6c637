import MetaStore.Library.Commuting
import MetaStore.Memory.Apply

/-! Deletions of the memory engine. Whatever is deleted, and in whatever order, the state
reached depends only on the set of live keys that were asked for: every deleted key counts
once in the revision and leaves its lease. -/
namespace MetaStore.Memory
open Std

def MemoryEtcd.deleteOne (s : MemoryEtcd) (key : Bytes) : MemoryEtcd := (s.deleteDirect key []).1

def Keyed (m : ShardedMap) : Prop := ∀ k kv, m.get k = some kv → kv.key = k

def Selects (key rangeEnd k : Bytes) : Prop :=
  if rangeEnd = [] then k = key else inRange key rangeEnd k = true

instance (key rangeEnd k : Bytes) : Decidable (Selects key rangeEnd k) :=
  inferInstanceAs (Decidable (if rangeEnd = [] then k = key else inRange key rangeEnd k = true))

theorem detachKey_comm (leases : ExtTreeMap ℤ Lease) (i j : ℤ) (a b : Bytes) :
    detachKey (detachKey leases i a) j b = detachKey (detachKey leases j b) i a := by
  apply ExtTreeMap.ext_getElem?
  intro id
  simp only [detachKey,getElem?_updateKeys]
  split_ifs
  · have hset : ∀ t : ExtTreeSet Bytes, (t.erase a).erase b = (t.erase b).erase a := by
      intro t
      apply ExtTreeSet.ext_mem
      intro k
      simp only [ExtTreeSet.mem_erase]
      tauto
    cases leases[id]? with
    | none => rfl
    | some l => simp [hset]
  all_goals rfl

namespace ShardedMap

theorem delete_comm (m : ShardedMap) (a b : Bytes) :
    (m.delete a).delete b = (m.delete b).delete a := by
  ext1 k
  simp only [get_delete]
  by_cases ha : k = a <;> by_cases hb : k = b <;> simp [ha,hb]

theorem mem_range (m : ShardedMap) (startKey endKey : Bytes) (kv : KeyValue) :
    kv ∈ m.range startKey endKey 0 ↔ ∃ k, m.get k = some kv ∧ inRange startKey endKey k = true := by
  simp only [range,Int.lt_irrefl,false_and,if_false,List.mem_mergeSort,List.mem_map,List.mem_filter,
    Prod.exists,mem_entries]
  constructor
  · rintro ⟨k,_,⟨hk,hin⟩,rfl⟩
    exact ⟨k,hk,hin⟩
  · rintro ⟨k,hk,hin⟩
    exact ⟨k,kv,⟨hk,hin⟩,rfl⟩

theorem range_nodup_keys {m : ShardedMap} (hm : Keyed m)
    (startKey endKey : Bytes) : ((m.range startKey endKey 0).map KeyValue.key).Nodup := by
  simp only [range,Int.lt_irrefl,false_and,if_false]
  rw [((List.mergeSort_perm _ _).map KeyValue.key).nodup_iff,List.map_map]
  -- the records carry the keys they are stored under
  have hkeys : (m.entries.filter fun e => inRange startKey endKey e.1).map
      (KeyValue.key ∘ Prod.snd) = (m.entries.filter fun e => inRange startKey endKey e.1).map
      Prod.fst := by
    refine List.map_congr_left fun e he => ?_
    exact hm e.1 e.2 ((mem_entries ..).mp (List.mem_of_mem_filter he))
  rw [hkeys]
  exact m.entries_nodup_keys.sublist (List.filter_sublist.map Prod.fst)

end ShardedMap

namespace MemoryEtcd
variable {s : MemoryEtcd} {k key rangeEnd : Bytes}

theorem deleteOne_of_get {kv : KeyValue}
    (h : s.kvData.get key = some kv) : s.deleteOne key = s.removeKey key kv := by
  simp [deleteOne,deleteDirect,h]

theorem deleteOne_of_not_live (h : s.kvData.get key = none) :
    s.deleteOne key = s := by
  simp [deleteOne,deleteDirect,h]

theorem get_deleteOne (s : MemoryEtcd) (key k : Bytes) :
    (s.deleteOne key).kvData.get k = if k = key then none else s.kvData.get k := by
  cases h : s.kvData.get key with
  | none =>
    rw [deleteOne_of_not_live h]
    by_cases hk : k = key
    · simp [hk,h]
    · simp [hk]
  | some kv => rw [deleteOne_of_get h,removeKey,ShardedMap.get_delete]

theorem deleteOne_idem (s : MemoryEtcd) (key : Bytes) :
    (s.deleteOne key).deleteOne key = s.deleteOne key :=
  deleteOne_of_not_live (by simp [get_deleteOne])

theorem deleteOne_comm (s : MemoryEtcd) (a b : Bytes) :
    (s.deleteOne a).deleteOne b = (s.deleteOne b).deleteOne a := by
  by_cases hab : a = b
  · rw [hab]
  have hb := s.get_deleteOne a b
  have ha := s.get_deleteOne b a
  rw [if_neg (Ne.symm hab)] at hb
  rw [if_neg hab] at ha
  cases hsa : s.kvData.get a with
  | none =>
    rw [deleteOne_of_not_live hsa,deleteOne_of_not_live (ha.trans hsa)]
  | some kva =>
    cases hsb : s.kvData.get b with
    | none => rw [deleteOne_of_not_live hsb,deleteOne_of_not_live (hb.trans hsb)]
    | some kvb =>
      rw [deleteOne_of_get (hb.trans hsb),deleteOne_of_get (ha.trans hsa),deleteOne_of_get hsa,
        deleteOne_of_get hsb]
      simp only [removeKey,ShardedMap.delete_comm s.kvData a b,detachKey_comm s.leases kva.lease]

theorem foldl_deleteOne_congr {l m : List Bytes}
    (h : ∀ k, s.kvData.get k ≠ none → (k ∈ l ↔ k ∈ m)) :
    l.foldl deleteOne s = m.foldl deleteOne s :=
  Commuting.foldl_congr_mem deleteOne_comm deleteOne_idem fun k hk =>
    h k fun hn => hk (deleteOne_of_not_live hn)

theorem get_foldl_deleteOne (l : List Bytes) (s : MemoryEtcd) (k : Bytes) :
    (l.foldl deleteOne s).kvData.get k = if k ∈ l then none else s.kvData.get k := by
  induction l generalizing s with
  | nil => simp
  | cons a l ih =>
    rw [List.foldl_cons,ih,get_deleteOne]
    by_cases hl : k ∈ l <;> by_cases ha : k = a <;> simp [hl,ha]

def targets (s : MemoryEtcd) (key rangeEnd : Bytes) : List Bytes :=
  if rangeEnd = [] then [key] else (s.kvData.range key rangeEnd 0).map KeyValue.key

theorem mem_targets (hs : Keyed s.kvData)
    (hk : s.kvData.get k ≠ none) : k ∈ s.targets key rangeEnd ↔ Selects key rangeEnd k := by
  obtain ⟨kv,hkv⟩ := Option.ne_none_iff_exists'.mp hk
  unfold targets Selects
  by_cases he : rangeEnd = []
  · simp [he]
  · simp only [if_neg he,List.mem_map,ShardedMap.mem_range]
    constructor
    · rintro ⟨kv',⟨k',hk',hin⟩,rfl⟩
      rwa [hs k' kv' hk']
    · intro hin
      exact ⟨kv,⟨k,hkv,hin⟩,hs k kv hkv⟩

theorem foldl_removeKey {kvs : List KeyValue} (hnd : (kvs.map KeyValue.key).Nodup)
    (h : ∀ kv ∈ kvs, s.kvData.get kv.key = some kv) :
    kvs.foldl (fun t kv => t.removeKey kv.key kv) s = (kvs.map KeyValue.key).foldl deleteOne s := by
  induction kvs generalizing s with
  | nil => rfl
  | cons kv kvs ih =>
    obtain ⟨hkv,hnd⟩ := List.nodup_cons.mp hnd
    rw [List.map_cons,List.foldl_cons,List.foldl_cons,deleteOne_of_get (h kv List.mem_cons_self)]
    refine ih hnd fun kv' hkv' => ?_
    -- the keys are distinct, so the later records are still there
    have hne : kv'.key ≠ kv.key := fun he => hkv (he ▸ List.mem_map_of_mem hkv')
    rw [removeKey,ShardedMap.get_delete,if_neg hne]
    exact h kv' (List.mem_cons_of_mem kv hkv')

theorem deleteDirect_eq_foldl (hs : Keyed s.kvData) (key rangeEnd : Bytes) :
    (s.deleteDirect key rangeEnd).1 = (s.targets key rangeEnd).foldl deleteOne s := by
  unfold targets
  by_cases he : rangeEnd = []
  · simp [he,deleteOne]
  · have hget : ∀ kv ∈ s.kvData.range key rangeEnd 0, s.kvData.get kv.key = some kv := by
      intro kv hkv
      obtain ⟨k,hk,-⟩ := (ShardedMap.mem_range ..).mp hkv
      rwa [hs k kv hk]
    rw [deleteDirect,if_neg he,if_neg he]
    exact foldl_removeKey (ShardedMap.range_nodup_keys hs ..) hget

theorem foldl_applyDelete (hs : Keyed s.kvData) (ops : List RaftOperation) :
    ∃ l : List Bytes, ops.foldl applyDelete s = l.foldl deleteOne s ∧
      ∀ k, s.kvData.get k ≠ none → (k ∈ l ↔ ∃ op ∈ ops, Selects op.key op.rangeEnd k) := by
  induction ops generalizing s with
  | nil => exact ⟨[],rfl,by simp⟩
  | cons op ops ih =>
    have hop : s.applyDelete op = (s.targets op.key op.rangeEnd).foldl deleteOne s :=
      deleteDirect_eq_foldl hs op.key op.rangeEnd
    have hget := get_foldl_deleteOne (s.targets op.key op.rangeEnd) s
    rw [← hop] at hget
    have hkeyed : Keyed (s.applyDelete op).kvData := by
      intro k kv hkv
      rw [hget] at hkv
      split_ifs at hkv
      exact hs k kv hkv
    obtain ⟨l,hl,hmem⟩ := ih hkeyed
    refine ⟨s.targets op.key op.rangeEnd ++ l,?_,?_⟩
    · rw [List.foldl_cons,hl,List.foldl_append,hop]
    · intro k hk
      simp only [List.mem_append,List.mem_cons,exists_eq_or_imp]
      by_cases ht : k ∈ s.targets op.key op.rangeEnd
      · simp [ht,(mem_targets hs hk).mp ht]
      · -- the key survives the first deletion
        have hk' : (s.applyDelete op).kvData.get k ≠ none := by rwa [hget,if_neg ht]
        rw [hmem k hk',mem_targets hs hk]

theorem foldl_applyDelete_perm (hs : Keyed s.kvData) {ops ops' : List RaftOperation}
    (h : ops.Perm ops') : ops.foldl applyDelete s = ops'.foldl applyDelete s := by
  obtain ⟨l,hl,hmem⟩ := foldl_applyDelete hs ops
  obtain ⟨l',hl',hmem'⟩ := foldl_applyDelete hs ops'
  rw [hl,hl']
  refine foldl_deleteOne_congr fun k hk => ?_
  rw [hmem k hk,hmem' k hk]
  simp only [h.mem_iff]

/-- The keys that `deleteUnlocked` finds. -/
def keysToDelete (s : MemoryEtcd) (key rangeEnd : Bytes) : List Bytes :=
  if rangeEnd = [] then (s.kvData.get key).toList.map fun _ => key
  else (s.kvData.range key rangeEnd 0).map KeyValue.key

lemma deleteUnlocked_fst (s : MemoryEtcd) (key rangeEnd : Bytes) :
    (s.deleteUnlocked key rangeEnd).1 = if s.keysToDelete key rangeEnd = [] then s
      else (s.keysToDelete key rangeEnd).foldl eraseKey { s with revision := s.revision+1 } := by
  have hkeys : (if rangeEnd = [] then (if rangeEnd = [] then (s.kvData.get key).toList
      else s.kvData.range key rangeEnd 0).map fun _ => key
      else (if rangeEnd = [] then (s.kvData.get key).toList
      else s.kvData.range key rangeEnd 0).map KeyValue.key) = s.keysToDelete key rangeEnd := by
    unfold keysToDelete
    split_ifs <;> rfl
  rw [deleteUnlocked]
  simp only [hkeys]
  split_ifs <;> rfl

lemma mem_keysToDelete (hs : Keyed s.kvData) :
    k ∈ s.keysToDelete key rangeEnd ↔ s.kvData.get k ≠ none ∧ Selects key rangeEnd k := by
  unfold keysToDelete Selects
  by_cases he : rangeEnd = []
  · rw [if_pos he,if_pos he]
    cases hget : s.kvData.get key with
    | none =>
      simp only [Option.toList_none,List.map_nil,List.not_mem_nil,false_iff,not_and]
      rintro hk rfl
      exact hk hget
    | some kv =>
      simp only [Option.toList_some,List.map_cons,List.map_nil,List.mem_singleton]
      refine ⟨?_,And.right⟩
      rintro rfl
      exact ⟨by simp [hget],rfl⟩
  · simp only [if_neg he,List.mem_map,ShardedMap.mem_range]
    constructor
    · rintro ⟨kv,⟨k',hk',hin⟩,rfl⟩
      rw [hs k' kv hk']
      exact ⟨by simp [hk'],hin⟩
    · rintro ⟨hk,hin⟩
      obtain ⟨kv,hkv⟩ := Option.ne_none_iff_exists'.mp hk
      exact ⟨kv,⟨k,hkv,hin⟩,hs k kv hkv⟩

lemma revision_deleteDirect (s : MemoryEtcd) (key rangeEnd : Bytes) :
    (s.deleteDirect key rangeEnd).1.revision = s.revision+(s.keysToDelete key rangeEnd).length := by
  have hfold : ∀ (kvs : List KeyValue) (s : MemoryEtcd),
      (kvs.foldl (fun t kv => t.removeKey kv.key kv) s).revision = s.revision+kvs.length := by
    intro kvs
    induction kvs with
    | nil => simp
    | cons kv kvs ih =>
      intro s
      rw [List.foldl_cons,ih,removeKey,List.length_cons]
      push_cast
      ring
  unfold deleteDirect keysToDelete
  split_ifs
  · cases s.kvData.get key <;> simp [removeKey]
  · rw [List.length_map]
    exact hfold _ s

lemma revision_foldl_eraseKey (keys : List Bytes) (s : MemoryEtcd) :
    (keys.foldl eraseKey s).revision = s.revision ∧ (keys.foldl eraseKey s).ticks = s.ticks := by
  induction keys generalizing s with
  | nil => exact ⟨rfl,rfl⟩
  | cons key keys ih => exact ih _

lemma revision_deleteUnlocked (s : MemoryEtcd) (key rangeEnd : Bytes) :
    (s.deleteUnlocked key rangeEnd).1.revision =
      s.revision+(if s.keysToDelete key rangeEnd = [] then 0 else 1) := by
  rw [deleteUnlocked_fst]
  split_ifs
  · exact (add_zero _).symm
  · exact (revision_foldl_eraseKey _ _).1

lemma deleteDirect_eq_deleteUnlocked (hs : Keyed s.kvData)
    (h : (s.keysToDelete key rangeEnd).length ≤ 1) :
    s.deleteDirect key rangeEnd = s.deleteUnlocked key rangeEnd := by
  by_cases he : rangeEnd = []
  · cases hget : s.kvData.get key with
    | none => simp [deleteDirect,deleteUnlocked,he,hget]
    | some kv => simp [deleteDirect,deleteUnlocked,he,hget,removeKey,eraseKey]
  · rw [keysToDelete,if_neg he,List.length_map] at h
    cases hrange : s.kvData.range key rangeEnd 0 with
    | nil => simp [deleteDirect,deleteUnlocked,he,hrange]
    | cons kv kvs =>
      obtain rfl : kvs = [] := List.length_eq_zero_iff.mp (by simpa [hrange] using h)
      obtain ⟨k,hk,-⟩ := (ShardedMap.mem_range ..).mp (hrange ▸ List.mem_singleton_self kv)
      obtain rfl := hs k kv hk
      simp [deleteDirect,deleteUnlocked,he,hrange,removeKey,eraseKey,hk]

lemma nodup_keysToDelete (hs : Keyed s.kvData) (key rangeEnd : Bytes) :
    (s.keysToDelete key rangeEnd).Nodup := by
  unfold keysToDelete
  split_ifs
  · cases s.kvData.get key <;> simp
  · exact ShardedMap.range_nodup_keys hs key rangeEnd

lemma subsingleton_iff_length_le_one {l : List Bytes} (h : l.Nodup) :
    {k | k ∈ l}.Subsingleton ↔ l.length ≤ 1 := by
  cases l with
  | nil => simp
  | cons a l =>
    cases l with
    | nil => simp
    | cons b l =>
      refine iff_of_false (fun hone => ?_) (by simp)
      have hab : a = b := hone List.mem_cons_self (List.mem_cons_of_mem a List.mem_cons_self)
      exact (List.nodup_cons.mp h).1 (hab ▸ List.mem_cons_self)

/-- Two deletions return the same and leave the same records, revision and key sets of leases. -/
def DeletesAlike (r r' : MemoryEtcd × ℤ × List KeyValue × ℤ) : Prop := SameData r.1 r'.1 ∧ r.2 = r'.2

lemma DeletesAlike.refl (r : MemoryEtcd × ℤ × List KeyValue × ℤ) : DeletesAlike r r :=
  ⟨⟨rfl,rfl,fun _ => rfl⟩,rfl⟩

end MemoryEtcd
end MetaStore.Memory
