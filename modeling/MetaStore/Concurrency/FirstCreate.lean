import MetaStore.Cluster.Ranges
import MetaStore.Memory.Stable

/-! The request with which a lock or an election looks for earlier keys (pkg/concurrency), as
the KV service answers it (api/etcd/kv.go). The request asks for the oldest key under the prefix
with a create revision below that of the own key. The service passes on the range and the limit
only, so it answers with the first key in the order of keys, which may be the own one. -/
namespace MetaStore.Concurrency
open Std Memory
variable {key rangeEnd : Bytes}

inductive SortTarget
  | key | version | create | mod | value
  deriving DecidableEq, Repr

inductive SortOrder
  | none | ascend | descend
  deriving DecidableEq, Repr

structure RangeRequest where
  key : Bytes
  rangeEnd : Bytes := []
  limit : ℤ := 0
  revision : ℤ := 0
  sortOrder : SortOrder := .none
  sortTarget : SortTarget := .key
  maxCreateRevision : ℤ := 0
  deriving DecidableEq, Repr

/-- The end of the range of all keys with the prefix, as the client computes it. -/
def prefixEnd (pfx : Bytes) : Bytes :=
  match pfx.reverse.dropWhile (· = 0xFF) with
  | [] => noUpperBound
  | b :: bs => ((b+1) :: bs).reverse

/-- The request of `waitDeletes` and `waitLeader`: `WithFirstCreate` and `WithMaxCreateRev`. -/
def firstCreate (pfx : Bytes) (myRev : ℤ) : RangeRequest where
  key := pfx
  rangeEnd := prefixEnd pfx
  limit := 1
  sortOrder := .ascend
  sortTarget := .create
  maxCreateRevision := myRev-1

structure IsFirst (get : Bytes → Option KeyValue) (key rangeEnd k : Bytes) (kv : KeyValue) :
    Prop where
  stored : get k = some kv
  within : inRange key rangeEnd k = true
  least : ∀ k', inRange key rangeEnd k' = true → (get k').isSome → k ≤ k'

/-- An engine behind the KV service. A range with limit one has the record of the first key. -/
structure Store (S : Type*) where
  get : S → Bytes → Option KeyValue
  range : S → (key rangeEnd : Bytes) → (limit revision : ℤ) → RangeResponse
  range_one : ∀ s key rangeEnd revision, rangeEnd ≠ [] →
    (range s key rangeEnd 1 revision).kvs = [] ∧
        (∀ k, inRange key rangeEnd k = true → get s k = none) ∨
      ∃ k kv, (range s key rangeEnd 1 revision).kvs = [kv] ∧ IsFirst (get s) key rangeEnd k kv

/-- `KVServer.Range`: neither the order nor the bound on create revisions is looked at. -/
def Store.serverRange {S : Type*} (E : Store S) (s : S) (req : RangeRequest) : RangeResponse :=
  E.range s req.key req.rangeEnd req.limit req.revision

lemma memory_range_one (s : MemoryEtcd) (hend : rangeEnd ≠ []) :
    (s.rangeUnlocked key rangeEnd 1).kvs = (s.kvData.range key rangeEnd 0).take 1 := by
  have hkvs : s.kvData.range key rangeEnd 1 = (s.kvData.range key rangeEnd 0).take 1 := by
    simp only [ShardedMap.range,Int.lt_irrefl,false_and,if_false]
    generalize List.mergeSort _ _ = l
    split_ifs with h
    · rfl
    · rw [List.take_of_length_le]
      simp only [Int.zero_lt_one,true_and,Int.not_lt] at h
      omega
  have hlen : ¬ (1 : ℤ) < ((s.kvData.range key rangeEnd 0).take 1).length := by
    rw [List.length_take]
    omega
  rw [MemoryEtcd.rangeUnlocked,if_neg hend,hkvs,if_neg fun h => hlen h.2]

lemma memory_isFirst {s : MemoryEtcd} (hs : Keyed s.kvData)
    {kv : KeyValue} {kvs : List KeyValue} (h : s.kvData.range key rangeEnd 0 = kv :: kvs) :
    IsFirst s.kvData.get key rangeEnd kv.key kv := by
  have hmem := s.kvData.mem_range key rangeEnd
  have hsorted := EngineAgreement.pairwise_range s.kvData key rangeEnd
  rw [h] at hmem hsorted
  obtain ⟨k,hk,hin⟩ := (hmem kv).mp List.mem_cons_self
  have hkey := hs k kv hk
  refine ⟨hkey ▸ hk,hkey ▸ hin,?_⟩
  intro k' hin' hsome
  obtain ⟨kv',hk'⟩ := Option.isSome_iff_exists.mp hsome
  have hkey' := hs k' kv' hk'
  rcases List.mem_cons.mp ((hmem kv').mpr ⟨k',hk',hin'⟩) with rfl | hin
  · exact hkey' ▸ List.le_refl _
  · exact hkey' ▸ (List.pairwise_cons.mp hsorted).1 kv' hin

lemma memory_first {s : MemoryEtcd} (hs : Keyed s.kvData)
    (hend : rangeEnd ≠ []) :
    (s.rangeUnlocked key rangeEnd 1).kvs = [] ∧
        (∀ k, inRange key rangeEnd k = true → s.kvData.get k = none) ∨
      ∃ k kv, (s.rangeUnlocked key rangeEnd 1).kvs = [kv] ∧
        IsFirst s.kvData.get key rangeEnd k kv := by
  rw [memory_range_one s hend]
  cases h : s.kvData.range key rangeEnd 0 with
  | nil =>
    refine .inl ⟨rfl,fun k hk => ?_⟩
    by_contra hne
    obtain ⟨kv,hkv⟩ := Option.ne_none_iff_exists'.mp hne
    have := (s.kvData.mem_range key rangeEnd kv).mpr ⟨k,hkv,hk⟩
    rw [h] at this
    cases this
  | cons kv kvs => exact .inr ⟨kv.key,kv,rfl,memory_isFirst hs h⟩

/-- The memory engine, whose records are stored under their own keys. Its `Range` does the same
as its `rangeUnlocked` and looks at no revision. -/
def memoryStore : Store { s : MemoryEtcd // Keyed s.kvData } where
  get s := s.1.kvData.get
  range s key rangeEnd limit _ := s.1.rangeUnlocked key rangeEnd limit
  range_one s _ _ _ hend := memory_first s.2 hend

lemma filterMap_take_one {l : List Bytes} (hl : l.Pairwise (· < ·)) (f : Bytes → Option KeyValue) :
    ((l.filterMap f).take 1 = [] ∧ ∀ x ∈ l, f x = none) ∨
      ∃ x kv, (l.filterMap f).take 1 = [kv] ∧ x ∈ l ∧ f x = some kv ∧
        ∀ y ∈ l, (f y).isSome → x ≤ y := by
  induction l with
  | nil => exact .inl ⟨rfl,by simp⟩
  | cons a l ih =>
    obtain ⟨hlt,hl⟩ := List.pairwise_cons.mp hl
    cases ha : f a with
    | some kv =>
      refine .inr ⟨a,kv,by simp [ha],List.mem_cons_self,ha,?_⟩
      intro y hy _
      rcases List.mem_cons.mp hy with rfl | hy
      · exact List.le_refl _
      · exact List.le_of_lt (hlt y hy)
    | none =>
      rw [List.filterMap_cons_none ha]
      rcases ih hl with ⟨hnil,hnone⟩ | ⟨x,kv,htake,hx,hkv,hleast⟩
      · exact .inl ⟨hnil,by simpa [ha] using hnone⟩
      · refine .inr ⟨x,kv,htake,List.mem_cons_of_mem a hx,hkv,?_⟩
        intro y hy hsome
        rcases List.mem_cons.mp hy with rfl | hy
        · rw [ha] at hsome
          cases hsome
        · exact hleast y hy hsome

lemma rocksDB_range_one (r : RocksDB.Records) (hend : rangeEnd ≠ []) :
    (RocksDB.range r key rangeEnd 1).kvs = (EngineAgreement.found r key rangeEnd).take 1 := by
  have hsort : ∀ l : List KeyValue, (l.take 1).mergeSort (fun a b => decide (a.key ≤ b.key)) =
      l.take 1 := by
    intro l
    cases l with
    | nil => simp
    | cons a l => simp
  have hlen : ¬ (1 : ℤ) < ((EngineAgreement.found r key rangeEnd).take 1).length := by
    rw [List.length_take]
    omega
  simp only [RocksDB.range,if_neg hend,Int.zero_lt_one,if_true,Int.toNat_one]
  rw [hsort,if_neg fun h => hlen h.2]
  rfl

lemma rocksDB_first (r : RocksDB.Records) (hend : rangeEnd ≠ []) :
    (RocksDB.range r key rangeEnd 1).kvs = [] ∧
        (∀ k, inRange key rangeEnd k = true → RocksDB.getKeyValue r.db k = none) ∨
      ∃ k kv, (RocksDB.range r key rangeEnd 1).kvs = [kv] ∧
        IsFirst (RocksDB.getKeyValue r.db) key rangeEnd k kv := by
  rw [rocksDB_range_one r hend]
  have hscan : ∀ k, inRange key rangeEnd k = true → (RocksDB.getKeyValue r.db k).isSome →
      RocksDB.kvKey k ∈ RocksDB.scan r.db key rangeEnd := by
    intro k hk hsome
    refine RocksDB.mem_scan.mpr ⟨?_,k,rfl,hk⟩
    by_contra hnot
    rw [RocksDB.getKeyValue_of_not_mem hnot] at hsome
    cases hsome
  rcases filterMap_take_one (EngineAgreement.pairwise_scan r.db key rangeEnd) (fun x =>
    RocksDB.getKeyValue r.db (x.drop RocksDB.kvPrefix.length)) with
    ⟨hnil,hnone⟩ | ⟨x,kv,htake,hx,hkv,hleast⟩
  · refine .inl ⟨hnil,fun k hk => ?_⟩
    by_contra hne
    have hsome := Option.isSome_iff_ne_none.mpr hne
    have := hnone _ (hscan k hk hsome)
    rw [RocksDB.drop_kvKey] at this
    exact hne this
  · obtain ⟨-,k,rfl,hk⟩ := RocksDB.mem_scan.mp hx
    rw [RocksDB.drop_kvKey] at hkv
    refine .inr ⟨k,kv,htake,hkv,hk,?_⟩
    intro k' hk' hsome
    have hle := hleast _ (hscan k' hk' hsome) (by rwa [RocksDB.drop_kvKey])
    rw [← List.not_lt] at hle ⊢
    rwa [RocksDB.kvKey_lt_kvKey] at hle

def rocksDBStore : Store RocksDB.Records where
  get r := RocksDB.getKeyValue r.db
  range r key rangeEnd limit _ := RocksDB.range r key rangeEnd limit
  range_one r _ _ _ hend := rocksDB_first r hend

lemma inRange_prefixEnd_iff (pfx k : Bytes) :
    inRange (pfx ++ [47]) (prefixEnd (pfx ++ [47])) k = true ↔ pfx ++ [47] <+: k := by
  have hend : prefixEnd (pfx ++ [47]) = pfx ++ [48] := by
    simp [prefixEnd]
  have hbound : pfx ++ [48] ≠ noUpperBound := by
    intro h
    have := congrArg List.getLast? h
    simp [noUpperBound] at this
  simp only [inRange,hend,hbound,decide_false,Bool.false_or,Bool.and_eq_true,decide_eq_true_eq]
  exact Bytes.between_iff_isPrefix pfx (by decide) k

/-- A key of another session under the prefix, created before `myRev`. -/
structure IsEarlier {S : Type*} (E : Store S) (s : S) (pfx myKey : Bytes) (myRev : ℤ) (k : Bytes)
    (kv : KeyValue) : Prop where
  other : k ≠ myKey
  under : pfx <+: k
  stored : E.get s k = some kv
  earlier : kv.createRevision < myRev

/-- What the lock protocol expects of the answer: it has a key exactly if there is an earlier
one, and then the one that was created first. -/
structure Answered {S : Type*} (E : Store S) (s : S) (pfx myKey : Bytes) (myRev : ℤ) :
    Prop where
  nonempty_iff : (E.serverRange s (firstCreate pfx myRev)).kvs ≠ [] ↔
    ∃ k kv, IsEarlier E s pfx myKey myRev k kv
  oldest : ∀ kv ∈ (E.serverRange s (firstCreate pfx myRev)).kvs,
    (∃ k, IsEarlier E s pfx myKey myRev k kv) ∧
      ∀ k' kv', IsEarlier E s pfx myKey myRev k' kv' → kv.createRevision ≤ kv'.createRevision

/-- The first key under the prefix, in the order of keys, is the oldest one and older than
`myRev`. -/
def FirstIsOldest {S : Type*} (E : Store S) (s : S) (pfx : Bytes) (myRev : ℤ) : Prop :=
  ∃ k kv, pfx <+: k ∧ E.get s k = some kv ∧ kv.createRevision < myRev ∧
    ∀ k' kv', pfx <+: k' → E.get s k' = some kv' →
      k ≤ k' ∧ kv.createRevision ≤ kv'.createRevision

lemma serverRange_firstCreate {S : Type*} (E : Store S) (s : S) (pfx : Bytes) (myRev : ℤ)
    {myKey : Bytes} {own : KeyValue} (hmine : pfx ++ [47] <+: myKey)
    (hown : E.get s myKey = some own) :
    ∃ k kv, (E.serverRange s (firstCreate (pfx ++ [47]) myRev)).kvs = [kv] ∧
      pfx ++ [47] <+: k ∧ E.get s k = some kv ∧
      ∀ k', pfx ++ [47] <+: k' → (E.get s k').isSome → k ≤ k' := by
  have hne : prefixEnd (pfx ++ [47]) ≠ [] := by simp [prefixEnd]
  rcases E.range_one s (pfx ++ [47]) (prefixEnd (pfx ++ [47])) 0 hne with
    ⟨-,hnone⟩ | ⟨k,kv,hkvs,hfirst⟩
  · have := hnone myKey ((inRange_prefixEnd_iff pfx myKey).mpr hmine)
    rw [hown] at this
    cases this
  · refine ⟨k,kv,hkvs,(inRange_prefixEnd_iff pfx k).mp hfirst.within,hfirst.stored,?_⟩
    intro k' hk' hsome
    exact hfirst.least k' ((inRange_prefixEnd_iff pfx k').mpr hk') hsome

theorem uncontended_answered_own {S : Type*} (E : Store S) (s : S) (pfx : Bytes) (myRev : ℤ)
    {myKey : Bytes} {own : KeyValue} (hmine : pfx ++ [47] <+: myKey)
    (hown : E.get s myKey = some own)
    (halone : ∀ k, pfx ++ [47] <+: k → (E.get s k).isSome → k = myKey) :
    (E.serverRange s (firstCreate (pfx ++ [47]) myRev)).kvs = [own] := by
  obtain ⟨k,kv,hkvs,hk,hkv,-⟩ := serverRange_firstCreate E s pfx myRev hmine hown
  obtain rfl := halone k hk (by rw [hkv]; rfl)
  rw [hkvs,Option.some.inj (hkv.symm.trans hown)]

/-- On every engine behind the KV service the request of a lock that has created its key at
`myRev` is answered as the protocol expects exactly if the first key under the prefix, in the
order of keys, is the oldest one and not the own key. -/
theorem firstCreate_answered_iff {S : Type*} (E : Store S) (s : S) (pfx : Bytes) {myRev : ℤ}
    {myKey : Bytes} {own : KeyValue} (hmine : pfx ++ [47] <+: myKey)
    (hown : E.get s myKey = some own) (hrev : own.createRevision = myRev) :
    Answered E s (pfx ++ [47]) myKey myRev ↔ FirstIsOldest E s (pfx ++ [47]) myRev := by
  obtain ⟨k,kv,hkvs,hk,hkv,hleast⟩ := serverRange_firstCreate E s pfx myRev hmine hown
  constructor
  · intro h
    obtain ⟨⟨k₁,hearlier⟩,hold⟩ := h.oldest kv (hkvs ▸ List.mem_singleton_self kv)
    refine ⟨k,kv,hk,hkv,hearlier.earlier,fun k' kv' hk' hkv' => ⟨?_,?_⟩⟩
    · exact hleast k' hk' (by rw [hkv']; rfl)
    · by_cases hlt : kv'.createRevision < myRev
      · refine hold k' kv' ⟨?_,hk',hkv',hlt⟩
        -- the own key was created at `myRev` and not before
        rintro rfl
        rw [← Option.some.inj (hown.symm.trans hkv'),hrev] at hlt
        omega
      · have := hearlier.earlier
        omega
  · rintro ⟨k₀,kv₀,hk₀,hkv₀,hlt,hold⟩
    have hsame : k₀ = k := List.le_antisymm (hold k kv hk hkv).1
      (hleast k₀ hk₀ (by rw [hkv₀]; rfl))
    subst hsame
    obtain rfl := Option.some.inj (hkv₀.symm.trans hkv)
    have hearlier : IsEarlier E s (pfx ++ [47]) myKey myRev k₀ kv₀ := by
      refine ⟨?_,hk,hkv,hlt⟩
      rintro rfl
      rw [← Option.some.inj (hown.symm.trans hkv),hrev] at hlt
      omega
    refine ⟨?_,?_⟩
    · rw [hkvs]
      exact iff_of_true (by simp) ⟨k₀,kv₀,hearlier⟩
    · intro x hx
      rw [hkvs,List.mem_singleton] at hx
      subst hx
      exact ⟨⟨k₀,hearlier⟩,fun k' kv' h' => (hold k' kv' h'.under h'.stored).2⟩

/-- The record of the key `p/` with the name of a session, created at `rev`. -/
def lockRecord (session : UInt8) (rev : ℤ) : KeyValue where
  key := [112,47,session]
  value := []
  createRevision := rev
  modRevision := rev
  version := 1
  lease := 1

def loneMap : ShardedMap := ShardedMap.empty.set [112,47,49] (lockRecord 49 1)

def lockMap : ShardedMap := loneMap.set [112,47,50] (lockRecord 50 2)

lemma keyed_loneMap : Keyed loneMap := by
  unfold loneMap
  exact Keyed.empty.set rfl

lemma keyed_lockMap : Keyed lockMap := by
  unfold lockMap
  exact keyed_loneMap.set rfl

lemma get_loneMap (k : Bytes) :
    loneMap.get k = if k = [112,47,49] then some (lockRecord 49 1) else none := by
  rw [loneMap,ShardedMap.get_set,ShardedMap.get_empty]

lemma get_lockMap (k : Bytes) : lockMap.get k =
    if k = [112,47,50] then some (lockRecord 50 2) else loneMap.get k := by
  rw [lockMap,ShardedMap.get_set]

def storeOf (m : ShardedMap) (h : Keyed m) : { s : MemoryEtcd // Keyed s.kvData } :=
  ⟨⟨m,0,∅,0⟩,h⟩

lemma get_storeOf (m : ShardedMap) (h : Keyed m) (k : Bytes) :
    memoryStore.get (storeOf m h) k = m.get k := rfl

/-- The second session is answered with the key of the first. -/
theorem firstCreate_answered_second :
    Answered memoryStore (storeOf lockMap keyed_lockMap) [112,47] [112,47,50] 2 := by
  have hown : memoryStore.get (storeOf lockMap keyed_lockMap) [112,47,50] =
      some (lockRecord 50 2) := by
    rw [get_storeOf,get_lockMap,if_pos rfl]
  have hfirst : memoryStore.get (storeOf lockMap keyed_lockMap) [112,47,49] =
      some (lockRecord 49 1) := by
    rw [get_storeOf,get_lockMap,if_neg (by decide),get_loneMap,if_pos rfl]
  refine (firstCreate_answered_iff memoryStore (storeOf lockMap keyed_lockMap) [112] (by decide)
    hown rfl).mpr ⟨[112,47,49],lockRecord 49 1,by decide,hfirst,by decide,?_⟩
  intro k kv _ h
  rw [get_storeOf,get_lockMap,get_loneMap] at h
  split_ifs at h with h₂ h₁
  · rw [h₂,← Option.some.inj h]
    decide
  · rw [h₁,← Option.some.inj h]
    decide

/-- A session that is alone is answered with its own key. -/
theorem firstCreate_answered_own :
    (memoryStore.serverRange (storeOf loneMap keyed_loneMap) (firstCreate [112,47] 1)).kvs =
        [lockRecord 49 1] ∧
      ¬ Answered memoryStore (storeOf loneMap keyed_loneMap) [112,47] [112,47,49] 1 := by
  have hown : memoryStore.get (storeOf loneMap keyed_loneMap) [112,47,49] =
      some (lockRecord 49 1) := by
    rw [get_storeOf,get_loneMap,if_pos rfl]
  have halone : ∀ k, [112] ++ [47] <+: k →
      (memoryStore.get (storeOf loneMap keyed_loneMap) k).isSome → k = [112,47,49] := by
    intro k _ hsome
    by_contra hne
    rw [get_storeOf,get_loneMap,if_neg hne] at hsome
    cases hsome
  have hanswer := uncontended_answered_own memoryStore (storeOf loneMap keyed_loneMap) [112] 1
    (by decide) hown halone
  refine ⟨hanswer,fun h => ?_⟩
  obtain ⟨⟨k,hk⟩,-⟩ := h.oldest _ (hanswer ▸ List.mem_singleton_self _)
  exact absurd hk.earlier (by decide)

end MetaStore.Concurrency
