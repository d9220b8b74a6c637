import MetaStore.KVStore.Types

/-! The sharded map of the memory engine (internal/memory/sharded_map.go).
A key lives in the shard its FNV-1a hash selects, so a map with the same answers to
`get` is the same map. -/
namespace MetaStore.Memory
open Std

def numShards : ℕ := 512

/-- FNV-1a with 32 bits, as in hash/fnv. -/
def fnv32a (key : Bytes) : UInt32 :=
  key.foldl (fun h b => (h ^^^ b.toUInt32)*16777619) 2166136261

def getShard (key : Bytes) : Fin numShards :=
  ⟨(fnv32a key &&& 511).toNat,by
    rw [UInt32.toNat_and]
    exact Nat.lt_succ_of_le Nat.and_le_right⟩

structure ShardedMap where
  shards : Fin numShards → ExtTreeMap Bytes KeyValue
  placed : ∀ i k, k ∈ shards i → getShard k = i

namespace ShardedMap

/-- `NewShardedMap`. -/
def empty : ShardedMap where
  shards _ := ∅
  placed _ _ h := absurd h ExtTreeMap.not_mem_empty

def get (m : ShardedMap) (key : Bytes) : Option KeyValue := (m.shards (getShard key))[key]?

def set (m : ShardedMap) (key : Bytes) (kv : KeyValue) : ShardedMap where
  shards := Function.update m.shards (getShard key) ((m.shards (getShard key)).insert key kv)
  placed i k h := by
    by_cases hi : i = getShard key
    · subst hi
      rw [Function.update_self,ExtTreeMap.mem_insert] at h
      rcases h with h | h
      · rw [LawfulEqCmp.eq_of_compare h]
      · exact m.placed _ k h
    · rw [Function.update_of_ne hi] at h
      exact m.placed i k h

def delete (m : ShardedMap) (key : Bytes) : ShardedMap where
  shards := Function.update m.shards (getShard key) ((m.shards (getShard key)).erase key)
  placed i k h := by
    by_cases hi : i = getShard key
    · subst hi
      rw [Function.update_self] at h
      exact m.placed _ k (ExtTreeMap.mem_of_mem_erase h)
    · rw [Function.update_of_ne hi] at h
      exact m.placed i k h

def entries (m : ShardedMap) : List (Bytes × KeyValue) :=
  (List.finRange numShards).flatMap fun i => (m.shards i).toList

/-- Collect the matching records of every shard, sort them by their own key and cut the
list to the limit. -/
def range (m : ShardedMap) (startKey endKey : Bytes) (limit : ℤ) : List KeyValue :=
  let allKvs := (m.entries.filter fun e => inRange startKey endKey e.1).map Prod.snd
  let sorted := allKvs.mergeSort fun a b => decide (a.key ≤ b.key)
  if 0 < limit ∧ limit < sorted.length then sorted.take limit.toNat else sorted

@[simp] theorem get_empty (k : Bytes) : empty.get k = none := by simp [get,empty]

theorem get_set (m : ShardedMap) (key k : Bytes) (kv : KeyValue) :
    (m.set key kv).get k = if k = key then some kv else m.get k := by
  unfold get set
  by_cases hs : getShard k = getShard key
  · simp only [hs,Function.update_self,ExtTreeMap.getElem?_insert]
    by_cases hk : k = key
    · simp [hk]
    · simp [hk,Ne.symm hk]
  · have hk : k ≠ key := fun h => hs (by rw [h])
    simp [Function.update_of_ne hs,hk]

theorem get_delete (m : ShardedMap) (key k : Bytes) :
    (m.delete key).get k = if k = key then none else m.get k := by
  unfold get delete
  by_cases hs : getShard k = getShard key
  · simp only [hs,Function.update_self,ExtTreeMap.getElem?_erase]
    by_cases hk : k = key
    · simp [hk]
    · simp [hk,Ne.symm hk]
  · have hk : k ≠ key := fun h => hs (by rw [h])
    simp [Function.update_of_ne hs,hk]

@[simp] theorem get_set_self (m : ShardedMap) (key : Bytes) (kv : KeyValue) :
    (m.set key kv).get key = some kv := by simp [get_set]

theorem get_eq_none_of_shard_ne (m : ShardedMap) {i : Fin numShards} {k : Bytes}
    (h : getShard k ≠ i) : (m.shards i)[k]? = none := by
  by_contra hn
  have hm : k ∈ m.shards i := by
    rw [ExtTreeMap.mem_iff_isSome_getElem?]
    exact Option.isSome_iff_ne_none.mpr hn
  exact h (m.placed i k hm)

@[ext] theorem ext_get {m n : ShardedMap} (h : ∀ k, m.get k = n.get k) : m = n := by
  have hs : m.shards = n.shards := by
    funext i
    apply ExtTreeMap.ext_getElem?
    intro k
    by_cases hk : getShard k = i
    · subst hk; exact h k
    · rw [get_eq_none_of_shard_ne m hk,get_eq_none_of_shard_ne n hk]
  cases m; cases n
  simpa using hs

theorem mem_entries (m : ShardedMap) (k : Bytes) (kv : KeyValue) :
    (k,kv) ∈ m.entries ↔ m.get k = some kv := by
  simp only [entries,List.mem_flatMap,List.mem_finRange,true_and,
    ExtTreeMap.mem_toList_iff_getElem?_eq_some]
  constructor
  · rintro ⟨i,hi⟩
    have hm : k ∈ m.shards i := by
      rw [ExtTreeMap.mem_iff_isSome_getElem?,hi]
      rfl
    rw [get,m.placed i k hm]
    exact hi
  · intro h
    exact ⟨getShard k,h⟩

theorem entries_nodup_keys (m : ShardedMap) : (m.entries.map Prod.fst).Nodup := by
  rw [entries,List.map_flatMap]
  rw [List.nodup_flatMap]
  refine ⟨fun i _ => ?_,?_⟩
  · rw [ExtTreeMap.map_fst_toList_eq_keys]
    exact ExtTreeMap.nodup_keys
  · refine (List.nodup_finRange _).imp ?_
    intro i j hij k hi hj
    dsimp only at hi hj
    rw [ExtTreeMap.map_fst_toList_eq_keys,ExtTreeMap.mem_keys] at hi hj
    exact hij ((m.placed i k hi).symm.trans (m.placed j k hj))

end ShardedMap
end MetaStore.Memory
