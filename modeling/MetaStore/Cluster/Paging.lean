import MetaStore.Cluster.Ranges
import MetaStore.Memory.Stable

/-! Ranges with a limit, in both engines. The records are cut before they are counted, so a page looks
like the end of the range. -/
namespace MetaStore.Paging
open Memory

structure Listed (get : Bytes → Option KeyValue) (covers : Bytes → Bool) (all : List KeyValue) :
    Prop where
  sorted : all.Pairwise fun a b => a.key < b.key
  mem_iff : ∀ kv, kv ∈ all ↔ get kv.key = some kv ∧ covers kv.key

/-- The first `limit` records; all of them without a limit. -/
def cut (limit : ℤ) (all : List KeyValue) : List KeyValue :=
  if 0 < limit then all.take limit.toNat else all

lemma not_lt_length_cut (limit : ℤ) (all : List KeyValue) :
    ¬ (0 < limit ∧ limit < (cut limit all).length) := by
  rintro ⟨hpos,hlt⟩
  rw [cut,if_pos hpos,List.length_take] at hlt
  omega

structure Page (all : List KeyValue) (limit : ℤ) (resp : RangeResponse) : Prop where
  kvs : resp.kvs = cut limit all
  count : resp.count = all.length
  more : resp.more = true ↔ resp.kvs.length < resp.count

def seen (range : Bytes → RangeResponse) : ℕ → Bytes → List KeyValue
  | 0,_ => []
  | n+1,key =>
    let resp := range key
    match resp.kvs.getLast? with
    | some kv => if resp.more then resp.kvs ++ seen range n (kv.key ++ [0]) else resp.kvs
    | none => []

def Pages (range : Bytes → RangeResponse) (key : Bytes) (limit : ℤ) (all : List KeyValue) : Prop :=
  Page all limit (range key) ∧ ∃ n, ∀ m, n ≤ m → seen range m key = all

structure Cuts (all : List KeyValue) (limit : ℤ) (resp : RangeResponse) : Prop where
  kvs : resp.kvs = cut limit all
  count : resp.count = resp.kvs.length
  more : resp.more = false

lemma Cuts.pages_iff {range : Bytes → RangeResponse} {key : Bytes} {limit : ℤ} {all : List KeyValue}
    (h : Cuts all limit (range key)) :
    Pages range key limit all ↔ limit ≤ 0 ∨ all.length ≤ limit := by
  have hcut : cut limit all = all ↔ limit ≤ 0 ∨ all.length ≤ limit := by
    unfold cut
    split_ifs with hpos
    · rw [List.take_eq_self_iff]
      omega
    · exact iff_of_true rfl (.inl (not_lt.mp hpos))
  rw [← hcut]
  constructor
  · rintro ⟨hpage,-⟩
    have hlength := h.count.symm.trans hpage.count
    rw [h.kvs] at hlength
    unfold cut at hlength ⊢
    split_ifs at hlength ⊢
    · rw [List.take_eq_self_iff]
      rw [List.length_take] at hlength
      omega
    · rfl
  · intro hall
    have hkvs := h.kvs.trans hall
    refine ⟨⟨h.kvs,by rw [h.count,hkvs],?_⟩,1,fun m hm => ?_⟩
    · rw [h.more,h.count]
      simp
    · obtain ⟨n,rfl⟩ := Nat.exists_eq_add_of_le' hm
      simp only [seen,h.more,hkvs]
      cases hlast : all.getLast? with
      | none => exact (List.getLast?_eq_none_iff.mp hlast).symm
      | some kv => rfl

lemma memory_range_cuts {s : MemoryEtcd} (hs : Keyed s.kvData) (key : Bytes) {rangeEnd : Bytes}
    (limit : ℤ) (hend : rangeEnd ≠ []) :
    ∃ all, Listed s.kvData.get (inRange key rangeEnd) all ∧
      Cuts all limit (s.rangeUnlocked key rangeEnd limit) := by
  refine ⟨s.kvData.range key rangeEnd 0,⟨?_,fun kv => ?_⟩,?_⟩
  · have hnodup := ShardedMap.range_nodup_keys hs key rangeEnd
    rw [List.Nodup,List.pairwise_map] at hnodup
    refine ((EngineAgreement.pairwise_range s.kvData key rangeEnd).and hnodup).imp fun h => ?_
    by_contra hlt
    exact h.2 (List.le_antisymm h.1 (List.not_lt.mp hlt))
  · rw [ShardedMap.mem_range]
    constructor
    · rintro ⟨k,hk,hin⟩
      obtain rfl := hs k kv hk
      exact ⟨hk,hin⟩
    · rintro ⟨hk,hin⟩
      exact ⟨kv.key,hk,hin⟩
  · have hkvs : s.kvData.range key rangeEnd limit = cut limit (s.kvData.range key rangeEnd 0) := by
      simp only [ShardedMap.range,Int.lt_irrefl,false_and,if_false]
      generalize List.mergeSort _ _ = l
      unfold cut
      split_ifs with h hpos hpos
      · rfl
      · exact absurd h.1 hpos
      · rw [List.take_of_length_le (by omega)]
      · rfl
    rw [MemoryEtcd.rangeUnlocked,if_neg hend,hkvs,if_neg (not_lt_length_cut limit _)]
    exact ⟨rfl,rfl,rfl⟩

lemma rocksDB_range_cuts {r : RocksDB.Records} (hr : RocksDB.Keyed r.db) (key : Bytes)
    {rangeEnd : Bytes} (limit : ℤ) (hend : rangeEnd ≠ []) :
    ∃ all, Listed (RocksDB.getKeyValue r.db) (inRange key rangeEnd) all ∧
      Cuts all limit (RocksDB.range r key rangeEnd limit) := by
  have hsorted := EngineAgreement.pairwise_found_of_keyed hr key rangeEnd
  refine ⟨EngineAgreement.found r key rangeEnd,⟨hsorted,fun kv => ?_⟩,?_⟩
  · rw [EngineAgreement.found,List.mem_filterMap]
    constructor
    · rintro ⟨x,hx,hkv⟩
      obtain ⟨-,k,rfl,hk⟩ := RocksDB.mem_scan.mp hx
      rw [RocksDB.drop_kvKey] at hkv
      obtain rfl := hr k kv hkv
      exact ⟨hkv,hk⟩
    · rintro ⟨hkv,hk⟩
      refine ⟨RocksDB.kvKey kv.key,RocksDB.mem_scan.mpr ⟨?_,kv.key,rfl,hk⟩,?_⟩
      · by_contra hnot
        rw [RocksDB.getKeyValue_of_not_mem hnot] at hkv
        cases hkv
      · rw [RocksDB.drop_kvKey,hkv]
  · have hsort : (cut limit (EngineAgreement.found r key rangeEnd)).mergeSort
        (fun a b => decide (a.key ≤ b.key)) = cut limit (EngineAgreement.found r key rangeEnd) := by
      refine EngineAgreement.mergeSort_of_found ?_
      unfold cut
      split_ifs
      · exact hsorted.sublist (List.take_sublist _ _)
      · exact hsorted
    have hlen := not_lt_length_cut limit (EngineAgreement.found r key rangeEnd)
    unfold cut EngineAgreement.found at hsort hlen
    simp only [RocksDB.range,if_neg hend,hsort]
    rw [if_neg hlen]
    exact ⟨rfl,rfl,rfl⟩

end MetaStore.Paging
