import MetaStore.Cluster.Transmission

/-! The order in which the two engines list the records of a range. -/
namespace MetaStore.EngineAgreement
open Std Memory
open RocksDB (Records kvKey getKeyValue)

def found (r : Records) (key rangeEnd : Bytes) : List KeyValue :=
  (RocksDB.scan r.db key rangeEnd).filterMap fun k =>
    getKeyValue r.db (k.drop RocksDB.kvPrefix.length)

lemma pairwise_scan (db : RocksDB.Database) (key rangeEnd : Bytes) :
    (RocksDB.scan db key rangeEnd).Pairwise (· < ·) :=
  List.Pairwise.filter _ (ExtTreeMap.ordered_keys.imp fun hab =>
    (Bytes.compare_eq_lt_iff _ _).mp hab)

lemma pairwise_range (m : ShardedMap) (key rangeEnd : Bytes) :
    (m.range key rangeEnd 0).Pairwise fun a b => a.key ≤ b.key := by
  simp only [ShardedMap.range,Int.lt_irrefl,false_and,if_false]
  refine (List.pairwise_mergeSort (fun a b c hab hbc => ?_) (fun a b => ?_) _).imp of_decide_eq_true
  · exact decide_eq_true (List.le_trans (of_decide_eq_true hab) (of_decide_eq_true hbc))
  · rw [Bool.or_eq_true,decide_eq_true_eq,decide_eq_true_eq]
    exact List.le_total a.key b.key

lemma pairwise_found_of_keyed {r : Records} (hr : RocksDB.Keyed r.db) (key rangeEnd : Bytes) :
    (found r key rangeEnd).Pairwise fun a b => a.key < b.key := by
  have hscan : (RocksDB.scan r.db key rangeEnd).Pairwise fun x y => x < y ∧
      (∃ k, x = kvKey k) ∧ ∃ k, y = kvKey k := by
    refine (pairwise_scan r.db key rangeEnd).imp_of_mem fun hx hy hlt => ⟨hlt,?_,?_⟩
    · obtain ⟨-,k,hk,-⟩ := RocksDB.mem_scan.mp hx
      exact ⟨k,hk⟩
    · obtain ⟨-,k,hk,-⟩ := RocksDB.mem_scan.mp hy
      exact ⟨k,hk⟩
  refine hscan.filterMap _ ?_
  rintro _ _ ⟨hlt,⟨a,rfl⟩,b,rfl⟩ kv hkv kv' hkv'
  rw [RocksDB.drop_kvKey] at hkv hkv'
  rw [hr a kv hkv,hr b kv' hkv']
  exact (RocksDB.kvKey_lt_kvKey a b).mp hlt

lemma mergeSort_of_found {kvs : List KeyValue} (h : kvs.Pairwise fun a b => a.key < b.key) :
    kvs.mergeSort (fun a b => decide (a.key ≤ b.key)) = kvs :=
  List.mergeSort_of_pairwise (h.imp fun hlt => decide_eq_true (List.le_of_lt hlt))

end MetaStore.EngineAgreement
