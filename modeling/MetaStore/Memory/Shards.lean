import MetaStore.Memory.ShardedMap

/-! The sharded map under an arbitrary hash function. Go iterates a map in any order and sort.Slice
is not stable, so the visited lists and the sorting are parameters; the calls are those of
internal/memory/sharded_map.go. -/
namespace MetaStore.Memory
open Std

abbrev Shards (n : ℕ) : Type := Fin n → ExtTreeMap Bytes KeyValue

structure KeySort where
  slice : List KeyValue → List KeyValue
  perm : ∀ kvs, (slice kvs).Perm kvs
  sorted : ∀ kvs, (slice kvs).Pairwise fun a b => ¬ b.key < a.key

def KeySort.merge : KeySort where
  slice kvs := kvs.mergeSort fun a b => decide (a.key ≤ b.key)
  perm kvs := kvs.mergeSort_perm _
  sorted kvs := by
    refine (List.pairwise_mergeSort ?_ ?_ kvs).imp fun hab => of_decide_eq_true hab
    · intro a b c hab hbc
      exact decide_eq_true (List.le_trans (of_decide_eq_true hab) (of_decide_eq_true hbc))
    · intro a b
      rw [Bool.or_eq_true,decide_eq_true_iff,decide_eq_true_iff]
      exact List.le_total a.key b.key

namespace Shards
variable {n : ℕ}

/-- `NewShardedMap`. -/
def empty : Shards n := fun _ => ∅

def get (hash : Bytes → Fin n) (sm : Shards n) (key : Bytes) : Option KeyValue :=
  (sm (hash key))[key]?

def set (hash : Bytes → Fin n) (sm : Shards n) (key : Bytes) (kv : KeyValue) : Shards n :=
  Function.update sm (hash key) ((sm (hash key)).insert key kv)

def delete (hash : Bytes → Fin n) (sm : Shards n) (key : Bytes) : Shards n :=
  Function.update sm (hash key) ((sm (hash key)).erase key)

def len (sm : Shards n) : ℕ := ((List.finRange n).map fun i => (sm i).size).sum

def clear (_ : Shards n) : Shards n := empty

/-- `SetAll` for data that is iterated as the list shows. -/
def setAll (hash : Bytes → Fin n) (sm : Shards n) (data : List (Bytes × KeyValue)) : Shards n :=
  data.foldl (fun sm e => sm.set hash e.1 e.2) sm.clear

def entries (visit : Fin n → List (Bytes × KeyValue)) : List (Bytes × KeyValue) :=
  (List.finRange n).flatMap visit

def getAll (visit : Fin n → List (Bytes × KeyValue)) : ExtTreeMap Bytes KeyValue :=
  .ofList (entries visit)

/-- The loop with which `Range` and `RangeFunc` begin. -/
def allKvs (visit : Fin n → List (Bytes × KeyValue)) (startKey endKey : Bytes) : List KeyValue :=
  ((entries visit).filter fun e => inRange startKey endKey e.1).map Prod.snd

def cut (limit : ℤ) (kvs : List KeyValue) : List KeyValue :=
  if 0 < limit ∧ limit < kvs.length then kvs.take limit.toNat else kvs

def range (sort : KeySort) (visit : Fin n → List (Bytes × KeyValue)) (startKey endKey : Bytes)
    (limit : ℤ) : List KeyValue :=
  cut limit (sort.slice (allKvs visit startKey endKey))

section RangeFunc
variable {σ : Type} (fn : σ → KeyValue → σ × Bool)

/-- The calling loop of `RangeFunc`; the callback may keep a state of its own. -/
def callLoop (limit : ℤ) : ℤ → List KeyValue → σ → σ
  | _, [], s => s
  | count, kv :: kvs, s =>
    if 0 < limit ∧ limit ≤ count then s
    else if (fn s kv).2 then callLoop limit (count+1) kvs (fn s kv).1 else (fn s kv).1

def rangeFunc (sort : KeySort) (visit : Fin n → List (Bytes × KeyValue)) (startKey endKey : Bytes)
    (limit : ℤ) (s : σ) : σ :=
  callLoop fn limit 0 (sort.slice (allKvs visit startKey endKey)) s

def callUntil : List KeyValue → σ → σ
  | [], s => s
  | kv :: kvs, s => if (fn s kv).2 then callUntil kvs (fn s kv).1 else (fn s kv).1

lemma callLoop_eq {limit count : ℤ} (hcount : 0 ≤ count) (kvs : List KeyValue) (s : σ) :
    callLoop fn limit count kvs s =
      callUntil fn (if 0 < limit then kvs.take (limit-count).toNat else kvs) s := by
  induction kvs generalizing count s with
  | nil => simp [callLoop,callUntil]
  | cons kv kvs ih =>
    rw [callLoop]
    by_cases hstop : 0 < limit ∧ limit ≤ count
    · have htake : (limit-count).toNat = 0 := by omega
      rw [if_pos hstop,if_pos hstop.1,htake,List.take_zero,callUntil]
    · rw [if_neg hstop,ih (by omega)]
      by_cases hl : 0 < limit
      · have htake : (limit-count).toNat = (limit-(count+1)).toNat+1 := by omega
        rw [if_pos hl,if_pos hl,htake,List.take_succ_cons,callUntil]
      · rw [if_neg hl,if_neg hl,callUntil]

lemma rangeFunc_eq (sort : KeySort) (visit : Fin n → List (Bytes × KeyValue))
    (startKey endKey : Bytes) (limit : ℤ) (s : σ) :
    rangeFunc fn sort visit startKey endKey limit s =
      callUntil fn (range sort visit startKey endKey limit) s := by
  rw [rangeFunc,callLoop_eq fn le_rfl,range,cut,sub_zero]
  congr 1
  by_cases hl : 0 < limit
  · rw [if_pos hl]
    split_ifs with hcut
    · rfl
    · exact List.take_of_length_le (by omega)
  · rw [if_neg hl,if_neg fun h => hl h.1]

end RangeFunc

def Holds (hash : Bytes → Fin n) (sm : Shards n) (m : ExtTreeMap Bytes KeyValue) : Prop :=
  ∀ i k, (sm i)[k]? = if hash k = i then m[k]? else none

def Visits (sm : Shards n) (visit : Fin n → List (Bytes × KeyValue)) : Prop :=
  ∀ i, (visit i).Perm (sm i).toList

def select (m : ExtTreeMap Bytes KeyValue) (startKey endKey : Bytes) : List KeyValue :=
  (m.toList.filter fun e => inRange startKey endKey e.1).map Prod.snd

def Keyed (m : ExtTreeMap Bytes KeyValue) : Prop :=
  ∀ (k : Bytes) (kv : KeyValue), m[k]? = some kv → kv.key = k

namespace Holds
variable {hash : Bytes → Fin n} {sm : Shards n} {m : ExtTreeMap Bytes KeyValue}

lemma empty : Holds hash Shards.empty ∅ := by
  intro i k
  simp [Shards.empty]

lemma update (h : Holds hash sm m) {key : Bytes} {shard m' : ExtTreeMap Bytes KeyValue}
    (hkey : shard[key]? = m'[key]?) (hother : ∀ k, k ≠ key → m'[k]? = m[k]?)
    (hshard : ∀ k, k ≠ key → shard[k]? = (sm (hash key))[k]?) :
    Holds hash (Function.update sm (hash key) shard) m' := by
  intro i k
  by_cases hi : i = hash key
  · subst hi
    rw [Function.update_self]
    by_cases hk : k = key
    · rw [hk,if_pos rfl,hkey]
    · rw [hshard k hk,h,hother k hk]
  · rw [Function.update_of_ne hi,h]
    by_cases hk : k = key
    · have hne : hash k ≠ i := hk ▸ Ne.symm hi
      rw [if_neg hne,if_neg hne]
    · rw [hother k hk]

lemma set (h : Holds hash sm m) (key : Bytes) (kv : KeyValue) :
    Holds hash (sm.set hash key kv) (m.insert key kv) := by
  refine h.update (by simp) ?_ ?_
  · intro k hk
    simp [ExtTreeMap.getElem?_insert,hk.symm]
  · intro k hk
    simp [ExtTreeMap.getElem?_insert,hk.symm]

lemma delete (h : Holds hash sm m) (key : Bytes) :
    Holds hash (sm.delete hash key) (m.erase key) := by
  refine h.update (by simp) ?_ ?_
  · intro k hk
    simp [ExtTreeMap.getElem?_erase,hk.symm]
  · intro k hk
    simp [ExtTreeMap.getElem?_erase,hk.symm]

lemma foldl_set (h : Holds hash sm m) (data : List (Bytes × KeyValue)) :
    Holds hash (data.foldl (fun sm e => sm.set hash e.1 e.2) sm) (m.insertMany data) := by
  induction data generalizing sm m with
  | nil => simpa using h
  | cons e data ih =>
    rw [List.foldl_cons,ExtTreeMap.insertMany_cons]
    exact ih (h.set e.1 e.2)

lemma entries_perm (h : Holds hash sm m) {visit : Fin n → List (Bytes × KeyValue)}
    (hvisit : sm.Visits visit) : (entries visit).Perm m.toList := by
  have hnodup : ∀ t : ExtTreeMap Bytes KeyValue, t.toList.Nodup := fun t =>
    ExtTreeMap.distinct_keys_toList.imp fun hne heq => hne (by rw [heq]; exact compare_self)
  refine (List.Perm.flatMap_left _ fun i _ => hvisit i).trans ?_
  refine (List.perm_ext_iff_of_nodup ?_ (hnodup m)).mpr ?_
  · rw [List.nodup_flatMap]
    refine ⟨fun i _ => hnodup _,(List.nodup_finRange n).imp ?_⟩
    -- a key that two shards list hashes to both
    rintro i j hij ⟨k,kv⟩ hi hj
    rw [ExtTreeMap.mem_toList_iff_getElem?_eq_some,h] at hi hj
    split_ifs at hi hj with hki hkj
    exact hij (hki.symm.trans hkj)
  · rintro ⟨k,kv⟩
    simp only [List.mem_flatMap,List.mem_finRange,true_and,
      ExtTreeMap.mem_toList_iff_getElem?_eq_some,h _ k]
    constructor
    · rintro ⟨i,hi⟩
      split_ifs at hi
      exact hi
    · exact fun hk => ⟨hash k,by rwa [if_pos rfl]⟩

lemma len_eq (h : Holds hash sm m) : sm.len = m.size := by
  have hperm := (h.entries_perm (fun i => List.Perm.refl (sm i).toList)).length_eq
  rw [entries,List.length_flatMap,ExtTreeMap.length_toList] at hperm
  simpa only [len,ExtTreeMap.length_toList] using hperm

end Holds

lemma ofList_eq {data : List (Bytes × KeyValue)} {m : ExtTreeMap Bytes KeyValue}
    (h : data.Perm m.toList) : ExtTreeMap.ofList data = m := by
  have hdistinct : data.Pairwise fun a b => ¬ compare a.1 b.1 = .eq :=
    (h.pairwise_iff fun hab hba => hab (OrientedCmp.eq_symm hba)).mpr
      ExtTreeMap.distinct_keys_toList
  apply ExtTreeMap.ext_getElem?
  intro k
  cases hget : m[k]? with
  | none =>
    apply ExtTreeMap.getElem?_ofList_of_contains_eq_false
    rw [← Bool.not_eq_true,List.contains_iff_mem]
    intro hmem
    obtain ⟨⟨k',kv⟩,hentry,rfl⟩ := List.mem_map.mp hmem
    cases hget.symm.trans (ExtTreeMap.mem_toList_iff_getElem?_eq_some.mp (h.mem_iff.mp hentry))
  | some kv =>
    exact ExtTreeMap.getElem?_ofList_of_mem compare_self hdistinct
      (h.mem_iff.mpr (ExtTreeMap.mem_toList_iff_getElem?_eq_some.mpr hget))

namespace Keyed
variable {m : ExtTreeMap Bytes KeyValue}

lemma of_mem_select (hm : Keyed m) {startKey endKey : Bytes} {kv : KeyValue}
    (h : kv ∈ select m startKey endKey) : m[kv.key]? = some kv := by
  obtain ⟨⟨k,kv⟩,he,rfl⟩ := List.mem_map.mp h
  have hget := ExtTreeMap.mem_toList_iff_getElem?_eq_some.mp (List.mem_of_mem_filter he)
  rw [hm k kv hget,hget]

lemma select_pairwise (hm : Keyed m) (startKey endKey : Bytes) :
    (select m startKey endKey).Pairwise fun a b => a.key < b.key := by
  rw [select,List.pairwise_map]
  refine ((ExtTreeMap.ordered_keys_toList (t := m)).filter _).imp_of_mem ?_
  intro a b ha hb hab
  have hkey : ∀ e ∈ m.toList, e.2.key = e.1 := fun e he =>
    hm e.1 e.2 (ExtTreeMap.mem_toList_iff_getElem?_eq_some.mp he)
  rw [hkey a (List.mem_of_mem_filter ha),hkey b (List.mem_of_mem_filter hb)]
  exact (Bytes.compare_eq_lt_iff _ _).mp hab

/-- Different keys leave sort.Slice no choice. -/
lemma slice_eq (hm : Keyed m) (sort : KeySort) {startKey endKey : Bytes} {kvs : List KeyValue}
    (h : kvs.Perm (select m startKey endKey)) : sort.slice kvs = select m startKey endKey := by
  have hperm := (sort.perm kvs).trans h
  refine hperm.eq_of_pairwise ?_ (sort.sorted kvs)
    ((hm.select_pairwise startKey endKey).imp fun hab => List.lt_asymm hab)
  intro a b ha hb hab hba
  have hkey : a.key = b.key := List.le_antisymm hab hba
  have hget := hm.of_mem_select (hperm.mem_iff.mp ha)
  rw [hkey,hm.of_mem_select hb] at hget
  exact (Option.some.inj hget).symm

end Keyed

/-- A call that changes the map; `SetAll` comes with the order in which Go iterates its data. -/
inductive Call where
  | set (key : Bytes) (kv : KeyValue)
  | delete (key : Bytes)
  | setAll (data : ExtTreeMap Bytes KeyValue) (order : List (Bytes × KeyValue))
      (iterates : order.Perm data.toList)
  | clear

namespace Call

def run (hash : Bytes → Fin n) (sm : Shards n) : Call → Shards n
  | .set key kv => sm.set hash key kv
  | .delete key => sm.delete hash key
  | .setAll _ order _ => sm.setAll hash order
  | .clear => sm.clear

def plain (m : ExtTreeMap Bytes KeyValue) : Call → ExtTreeMap Bytes KeyValue
  | .set key kv => m.insert key kv
  | .delete key => m.erase key
  | .setAll data _ _ => data
  | .clear => ∅

def Keyed : Call → Prop
  | .set key kv => kv.key = key
  | .setAll data _ _ => Shards.Keyed data
  | .delete _ | .clear => True

lemma holds_run {hash : Bytes → Fin n} {sm : Shards n} {m : ExtTreeMap Bytes KeyValue}
    (h : Holds hash sm m) (call : Call) : Holds hash (call.run hash sm) (call.plain m) := by
  cases call with
  | set key kv => exact h.set key kv
  | delete key => exact h.delete key
  | setAll data order iterates =>
    have hall : Holds hash (sm.setAll hash order) (ExtTreeMap.insertMany ∅ order) :=
      Holds.empty.foldl_set order
    rwa [← ExtTreeMap.ofList_eq_insertMany_empty,ofList_eq iterates] at hall
  | clear => exact .empty

lemma keyed_plain {m : ExtTreeMap Bytes KeyValue} (hm : Shards.Keyed m) {call : Call}
    (hcall : call.Keyed) : Shards.Keyed (call.plain m) := by
  cases call with
  | set key kv =>
    intro k kv' hk
    rw [plain,ExtTreeMap.getElem?_insert] at hk
    split_ifs at hk with heq
    · rw [← LawfulEqCmp.eq_of_compare heq,← Option.some.inj hk]
      exact hcall
    · exact hm k kv' hk
  | delete key =>
    intro k kv hk
    rw [plain,ExtTreeMap.getElem?_erase] at hk
    split_ifs at hk
    exact hm k kv hk
  | setAll data order iterates => exact hcall
  | clear => simp [plain,Shards.Keyed]

end Call

lemma holds_foldl {hash : Bytes → Fin n} (calls : List Call) {sm : Shards n}
    {m : ExtTreeMap Bytes KeyValue} (h : Holds hash sm m) :
    Holds hash (calls.foldl (Call.run hash) sm) (calls.foldl Call.plain m) := by
  induction calls generalizing sm m with
  | nil => exact h
  | cons call calls ih => exact ih (call.holds_run h)

lemma keyed_foldl {calls : List Call} (hcalls : ∀ call ∈ calls, call.Keyed)
    {m : ExtTreeMap Bytes KeyValue} (h : Keyed m) : Keyed (calls.foldl Call.plain m) := by
  induction calls generalizing m with
  | nil => exact h
  | cons call calls ih =>
    rw [List.forall_mem_cons] at hcalls
    exact ih hcalls.2 (Call.keyed_plain h hcalls.1)

/-- The shards answer as one map does, whatever the hash and the iteration orders. `Range` needs
every record to be stored under its own key, since it sorts by the key of the record. -/
theorem sharded_map_refines_map (hash : Bytes → Fin n) (calls : List Call) :
    let sm := calls.foldl (Call.run hash) empty
    let m := calls.foldl Call.plain ∅
    (∀ key, sm.get hash key = m[key]?) ∧ sm.len = m.size ∧
      ∀ visit, sm.Visits visit → getAll visit = m ∧
        ∀ sort startKey endKey limit,
          (∀ (σ : Type) (fn : σ → KeyValue → σ × Bool) (s : σ),
            rangeFunc fn sort visit startKey endKey limit s =
              callUntil fn (range sort visit startKey endKey limit) s) ∧
          ((∀ call ∈ calls, call.Keyed) →
            range sort visit startKey endKey limit = cut limit (select m startKey endKey) ∧
              (range sort visit startKey endKey limit).Pairwise fun a b => a.key < b.key) := by
  intro sm m
  have hholds : Holds hash sm m := holds_foldl calls .empty
  refine ⟨fun key => ?_,hholds.len_eq,fun visit hvisit => ?_⟩
  · rw [get,hholds,if_pos rfl]
  have hperm := hholds.entries_perm hvisit
  refine ⟨ofList_eq hperm,fun sort startKey endKey limit => ⟨fun σ fn s => ?_,fun hcalls => ?_⟩⟩
  · exact rangeFunc_eq fn sort visit startKey endKey limit s
  have hm : Keyed m := keyed_foldl hcalls (by simp [Keyed])
  have hrange : range sort visit startKey endKey limit = cut limit (select m startKey endKey) := by
    have hall : (allKvs visit startKey endKey).Perm (select m startKey endKey) :=
      (hperm.filter _).map _
    rw [range,hm.slice_eq sort hall]
  refine ⟨hrange,?_⟩
  rw [hrange,cut]
  split_ifs
  · exact (hm.select_pairwise startKey endKey).take
  · exact hm.select_pairwise startKey endKey

theorem shardedMap_eq (m : ShardedMap) (key : Bytes) (kv : KeyValue) :
    m.get key = get getShard m.shards key ∧
      (m.set key kv).shards = set getShard m.shards key kv ∧
      (m.delete key).shards = delete getShard m.shards key :=
  ⟨rfl,rfl,rfl⟩

theorem shardedMap_range (m : ShardedMap) (startKey endKey : Bytes) (limit : ℤ) :
    m.range startKey endKey limit =
      range .merge (fun i => (m.shards i).toList) startKey endKey limit := rfl

end Shards
end MetaStore.Memory
