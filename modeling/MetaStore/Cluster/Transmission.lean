import MetaStore.KVStore.OperationCodec
import MetaStore.Library.Trials
import MetaStore.Memory.Transactions
import MetaStore.RocksDB.WatchComplete

/-! The effect of an operation that has been encoded and read back, compared with that of the
operation itself. Both engines execute transactions in the same way, on states of their own. -/
namespace MetaStore

/-- How an engine executes the operations of a transaction. A range is the only operation that looks
at its limit, and a limit takes effect when there are more keys. -/
structure TxnEngine (S : Type*) where
  txnOp : S → Op → S × Except String OpResponse
  range : S → (key rangeEnd : Bytes) → (limit : ℤ) → RangeResponse
  get : S → Bytes → Option KeyValue
  revision : S → ℤ
  txnOp_range : ∀ s op, op.type = .range →
    txnOp s op = (s,.ok { rangeResp := some (range s op.key op.rangeEnd op.limit) })
  txnOp_unlimited : ∀ s op, op.type ≠ .range → txnOp s op.unlimited = txnOp s op
  range_eq_iff : ∀ s key rangeEnd limit, range s key rangeEnd 0 = range s key rangeEnd limit ↔
    (0 < limit → (range s key rangeEnd 0).count ≤ limit)

namespace TxnEngine
variable {S : Type*} (E : TxnEngine S)

def Fits (s : S) (op : Op) : Prop :=
  op.type = .range → 0 < op.limit → (E.range s op.key op.rangeEnd 0).count ≤ op.limit

def AllFit : S → List Op → Prop
  | _,[] => True
  | s,op :: ops => E.Fits s op ∧ AllFit (E.txnOp s op).1 ops

def compares (s : S) (cmps : List Compare) : Bool :=
  cmps.all fun cmp => evaluateCompare (E.get s cmp.key) cmp

def executed (s : S) (op : RaftOperation) : List Op :=
  if E.compares s op.compares then op.thenOps else op.elseOps

def txn (s : S) (op : RaftOperation) : S × Except String TxnResponse :=
  let r := Trials.run E.txnOp s (E.executed s op)
  (r.1,r.2.map fun responses => ⟨E.compares s op.compares,responses,E.revision r.1⟩)

lemma imitates_unlimited : Trials.Imitates E.txnOp Op.unlimited := by
  refine ⟨fun s op => ?_,fun s op e he => ?_,fun s op response hok => ?_⟩
  all_goals by_cases h : op.type = .range
  · rw [E.txnOp_range s op h,E.txnOp_range s op.unlimited h]
  · rw [E.txnOp_unlimited s op h]
  · rw [E.txnOp_range s op h] at he
    cases he
  · rw [E.txnOp_unlimited s op h,he]
  · exact ⟨_,congrArg Prod.snd (E.txnOp_range s op.unlimited h)⟩
  · exact ⟨response,by rw [E.txnOp_unlimited s op h,hok]⟩

lemma answer_unlimited_iff (s : S) (op : Op) :
    (E.txnOp s op.unlimited).2 = (E.txnOp s op).2 ↔ E.Fits s op := by
  by_cases h : op.type = .range
  · have hfits : E.Fits s op ↔
        E.range s op.key op.rangeEnd 0 = E.range s op.key op.rangeEnd op.limit := by
      rw [E.range_eq_iff]
      exact ⟨fun hfits => hfits h,fun hfits _ => hfits⟩
    rw [E.txnOp_range s op h,E.txnOp_range s op.unlimited h,Except.ok.injEq,hfits]
    exact ⟨fun heq => Option.some.inj (congrArg OpResponse.rangeResp heq),
      fun heq => congrArg (fun r => OpResponse.mk .range (some r) none none) heq⟩
  · rw [E.txnOp_unlimited s op h]
    exact ⟨fun _ hrange => absurd hrange h,fun _ => rfl⟩

lemma agrees_unlimited_iff (s : S) (ops : List Op) :
    Trials.Agrees E.txnOp Op.unlimited s ops ↔ E.AllFit s ops := by
  induction ops generalizing s with
  | nil => exact Iff.rfl
  | cons op ops ih => exact and_congr (E.answer_unlimited_iff s op) (ih _)

lemma compares_received (s : S) (op : RaftOperation) :
    E.compares s op.received.compares = E.compares s op.compares := by
  rw [compares,compares,RaftOperation.received,List.all_map]
  exact congrArg op.compares.all
    (funext fun cmp => evaluateCompare_select (E.get s cmp.key) cmp)

lemma executed_received (s : S) (op : RaftOperation) :
    E.executed s op.received = (E.executed s op).map Op.unlimited := by
  rw [executed,executed,E.compares_received]
  split_ifs <;> rfl

lemma state_received (s : S) (op : RaftOperation) :
    (E.txn s op.received).1 = (E.txn s op).1 := by
  rw [txn,txn,executed_received]
  exact Trials.run_map_fst E.imitates_unlimited s _

/-- The response is the same if and only if the transaction fails or all its ranges fit. -/
theorem response_received_iff (s : S) (op : RaftOperation) :
    (E.txn s op.received).2.toOption = (E.txn s op).2.toOption ↔
      Trials.Fails E.txnOp s (E.executed s op) ∨ E.AllFit s (E.executed s op) := by
  rw [← agrees_unlimited_iff,txn,txn,executed_received,compares_received,
    Trials.run_map_fst E.imitates_unlimited]
  refine Trials.toOption_run_map_eq_iff E.imitates_unlimited (fun a b h => ?_) s _
  exact congrArg TxnResponse.responses h

end TxnEngine

namespace Memory
namespace MemoryEtcd
variable {s : MemoryEtcd}

lemma rangeUnlocked_zero_count (s : MemoryEtcd) (key rangeEnd : Bytes) :
    (s.rangeUnlocked key rangeEnd 0).count = (s.rangeUnlocked key rangeEnd 0).kvs.length := by
  simp only [rangeUnlocked,lt_irrefl,false_and,if_false]

lemma rangeUnlocked_of_lt {key rangeEnd : Bytes} {limit : ℤ} (hlimit : 0 < limit)
    (h : limit < (s.rangeUnlocked key rangeEnd 0).kvs.length) :
    (s.rangeUnlocked key rangeEnd limit).count = limit := by
  by_cases hend : rangeEnd = []
  · exfalso
    have hone : (s.kvData.get key).toList.length ≤ 1 := by cases s.kvData.get key <;> simp
    simp only [rangeUnlocked,hend,lt_irrefl,false_and,if_true,if_false] at h
    omega
  · simp only [rangeUnlocked,hend,ShardedMap.range,lt_irrefl,false_and,if_false] at h ⊢
    generalize (((s.kvData.entries.filter fun e => inRange key rangeEnd e.1).map
      Prod.snd).mergeSort fun a b => decide (a.key ≤ b.key)) = sorted at h ⊢
    have hlength : (sorted.take limit.toNat).length = limit.toNat := by
      rw [List.length_take]
      omega
    rw [if_pos (show 0 < limit ∧ limit < sorted.length from ⟨hlimit,h⟩),hlength,if_neg (by omega)]
    exact Int.toNat_of_nonneg hlimit.le

lemma rangeUnlocked_of_le {key rangeEnd : Bytes} {limit : ℤ}
    (h : 0 < limit → (s.rangeUnlocked key rangeEnd 0).kvs.length ≤ limit) :
    s.rangeUnlocked key rangeEnd limit = s.rangeUnlocked key rangeEnd 0 := by
  simp only [rangeUnlocked,ShardedMap.range,lt_irrefl,false_and,if_false] at h ⊢
  split_ifs at h ⊢ <;> first | rfl | (exfalso; omega)

lemma txnOp_of_range (clock : Clock) (s : MemoryEtcd) (op : Op) (h : op.type = .range) :
    s.txnOp clock op =
      (s,.ok { rangeResp := some (s.rangeUnlocked op.key op.rangeEnd op.limit) }) := by
  simp only [txnOp,h]

lemma txnOp_unlimited (clock : Clock) (s : MemoryEtcd) (op : Op) (h : op.type ≠ .range) :
    s.txnOp clock op.unlimited = s.txnOp clock op := by
  obtain ⟨type,key,rangeEnd,value,limit,leaseID⟩ := op
  cases type with
  | range => exact absurd rfl h
  | _ => rfl

lemma rangeUnlocked_eq_iff (s : MemoryEtcd) (key rangeEnd : Bytes) (limit : ℤ) :
    s.rangeUnlocked key rangeEnd 0 = s.rangeUnlocked key rangeEnd limit ↔
      (0 < limit → (s.rangeUnlocked key rangeEnd 0).count ≤ limit) := by
  rw [s.rangeUnlocked_zero_count]
  refine ⟨fun heq hlimit => ?_,fun h => (rangeUnlocked_of_le h).symm⟩
  by_contra hlt
  have hcut := rangeUnlocked_of_lt hlimit (Int.not_le.mp hlt)
  rw [← heq,s.rangeUnlocked_zero_count] at hcut
  omega

end MemoryEtcd

def txnEngine (clock : Clock) : TxnEngine MemoryEtcd where
  txnOp := MemoryEtcd.txnOp clock
  range := MemoryEtcd.rangeUnlocked
  get s key := s.kvData.get key
  revision := MemoryEtcd.revision
  txnOp_range := MemoryEtcd.txnOp_of_range clock
  txnOp_unlimited := MemoryEtcd.txnOp_unlimited clock
  range_eq_iff := MemoryEtcd.rangeUnlocked_eq_iff

lemma txnOps_eq_run (clock : Clock) (s : MemoryEtcd) (ops : List Op) :
    s.txnOps clock ops = Trials.run (txnEngine clock).txnOp s ops := by
  induction ops generalizing s with
  | nil => rfl
  | cons op ops ih =>
    rw [MemoryEtcd.txnOps]
    cases h : (s.txnOp clock op).2 with
    | error e => exact (Trials.run_cons_of_error h).symm
    | ok response =>
      refine Eq.trans ?_ (Trials.run_cons_of_ok h).symm
      rw [ih]
      rfl

lemma txnUnlocked_eq_txn (clock : Clock) (s : MemoryEtcd) (op : RaftOperation) :
    s.txnUnlocked clock op.compares op.thenOps op.elseOps = (txnEngine clock).txn s op := by
  rw [MemoryEtcd.txnUnlocked,TxnEngine.txn,← txnOps_eq_run]
  rfl

def txnResponse (clock : Clock) (s : MemoryEtcd) (op : RaftOperation) : Option TxnResponse :=
  match op.type with
  | .txn => (s.applyTxnWithShardLocks clock op.compares op.thenOps op.elseOps).2.toOption
  | _ => none

def SameMeaning (clock : Clock) (m : Memory) (op op' : RaftOperation) : Prop :=
  m.applyOperation clock op = m.applyOperation clock op' ∧
    txnResponse clock m.etcd op = txnResponse clock m.etcd op'

/-- A transaction fails for the lease of a put, or none of the ranges it executes is cut off. -/
def KeepsRanges (clock : Clock) (s : MemoryEtcd) (op : RaftOperation) : Prop :=
  op.type = .txn →
    ¬ MemoryEtcd.AllAccepted clock s.leases s.ticks ((txnEngine clock).executed s op) ∨
      (txnEngine clock).AllFit s ((txnEngine clock).executed s op)

theorem sameMeaning_received_iff (clock : Clock) (m : Memory) (op : RaftOperation) :
    SameMeaning clock m op.received op ↔ KeepsRanges clock m.etcd op := by
  by_cases htype : op.type = .txn
  · have hresponse := (txnEngine clock).response_received_iff m.etcd op
    have hstate := (txnEngine clock).state_received m.etcd op
    have htype' : op.received.type = .txn := htype
    rw [← Trials.run_error_iff,← txnOps_eq_run,MemoryEtcd.txnOps_error_iff] at hresponse
    simp only [SameMeaning,KeepsRanges,applyOperation,applyEffect,txnResponse,htype,htype',
      true_implies,applyTxn,MemoryEtcd.applyTxnWithShardLocks,txnUnlocked_eq_txn]
    rw [hstate,← hresponse]
    refine ⟨fun h => h.2,fun h => ⟨?_,h⟩⟩
    rw [h]
    rfl
  · refine ⟨fun _ h => absurd h htype,fun _ => ?_⟩
    obtain ⟨type,key,value,leaseID,rangeEnd,seqNum,ttl,compares,thenOps,elseOps⟩ := op
    cases type with
    | txn => exact absurd rfl htype
    | _ => exact ⟨rfl,rfl⟩

end Memory

namespace RocksDB
variable {env : Env} {r : Records}

lemma range_zero_count (r : Records) (key rangeEnd : Bytes) :
    (range r key rangeEnd 0).count = (range r key rangeEnd 0).kvs.length := by
  simp only [range,lt_irrefl,false_and,if_false]

lemma range_of_lt {key rangeEnd : Bytes} {limit : ℤ} (hlimit : 0 < limit)
    (h : limit < (range r key rangeEnd 0).kvs.length) : (range r key rangeEnd limit).count = limit := by
  by_cases hend : rangeEnd = []
  · exfalso
    have hone : (getKeyValue r.db key).toList.length ≤ 1 := by cases getKeyValue r.db key <;> simp
    simp only [range,hend,lt_irrefl,false_and,if_true,if_false] at h
    omega
  · simp only [range,hend,lt_irrefl,false_and,if_false,if_pos hlimit,List.length_mergeSort] at h ⊢
    generalize ((scan r.db key rangeEnd).filterMap fun k =>
      getKeyValue r.db (k.drop kvPrefix.length)) = found at h ⊢
    have hlength : (found.take limit.toNat).length = limit.toNat := by
      rw [List.length_take]
      omega
    rw [hlength,if_neg (by omega)]
    exact Int.toNat_of_nonneg hlimit.le

lemma range_of_le {key rangeEnd : Bytes} {limit : ℤ}
    (h : 0 < limit → (range r key rangeEnd 0).kvs.length ≤ limit) :
    range r key rangeEnd limit = range r key rangeEnd 0 := by
  by_cases hlimit : 0 < limit
  · have hlength := h hlimit
    by_cases hend : rangeEnd = []
    · simp only [range,hend,lt_irrefl,false_and,if_true,if_false] at hlength ⊢
      rw [if_neg (by omega)]
    · simp only [range,hend,lt_irrefl,false_and,if_false,if_pos hlimit,
        List.length_mergeSort] at hlength ⊢
      rw [List.take_of_length_le (by omega),if_neg (by omega)]
  · simp only [range,lt_irrefl,false_and,if_false,hlimit]

lemma txnOp_of_range (env : Env) (r : Records) (op : Op) (h : op.type = .range) :
    txnOp env r op = (r,.ok { rangeResp := some (range r op.key op.rangeEnd op.limit) }) := by
  simp only [txnOp,h]

lemma txnOp_unlimited (env : Env) (r : Records) (op : Op) (h : op.type ≠ .range) :
    txnOp env r op.unlimited = txnOp env r op := by
  obtain ⟨type,key,rangeEnd,value,limit,leaseID⟩ := op
  cases type with
  | range => exact absurd rfl h
  | _ => rfl

lemma range_eq_iff (r : Records) (key rangeEnd : Bytes) (limit : ℤ) :
    range r key rangeEnd 0 = range r key rangeEnd limit ↔
      (0 < limit → (range r key rangeEnd 0).count ≤ limit) := by
  rw [range_zero_count]
  refine ⟨fun heq hlimit => ?_,fun h => (range_of_le h).symm⟩
  by_contra hlt
  have hcut := range_of_lt hlimit (Int.not_le.mp hlt)
  rw [← heq,range_zero_count] at hcut
  omega

def txnEngine (env : Env) : TxnEngine Records where
  txnOp := txnOp env
  range := range
  get r key := getKeyValue r.db key
  revision := Records.cachedRevision
  txnOp_range := txnOp_of_range env
  txnOp_unlimited := txnOp_unlimited env
  range_eq_iff := range_eq_iff

lemma txnOps_eq_run (env : Env) (r : Records) (ops : List Op) :
    txnOps env r ops = Trials.run (txnEngine env).txnOp r ops := by
  induction ops generalizing r with
  | nil => rfl
  | cons op ops ih =>
    rw [txnOps]
    cases h : (txnOp env r op).2 with
    | error e => exact (Trials.run_cons_of_error h).symm
    | ok response =>
      refine Eq.trans ?_ (Trials.run_cons_of_ok h).symm
      rw [ih]
      rfl

lemma txnUnlocked_eq_txn (env : Env) (r : Records) (op : RaftOperation) :
    txnUnlocked env r op.compares op.thenOps op.elseOps = (txnEngine env).txn r op := by
  rw [txnUnlocked,TxnEngine.txn,← txnOps_eq_run]
  rfl

def Stops (env : Env) : Records → List Op → Prop
  | _,[] => False
  | r,op :: ops => stops env r op = true ∨ Stops env (txnOp env r op).1 ops

lemma txnOp_error_iff (op : Op) : (∃ e, (txnOp env r op).2 = .error e) ↔ stops env r op = true := by
  unfold txnOp stops
  cases htype : op.type with
  | put =>
    have hput : (putUnlocked env r op.key op.value op.leaseID).2 =
        (attachKey env r.db op.key op.leaseID).map fun _ => () := by
      rw [putUnlocked,attachKey_incrementRevision]
      cases attachKey env r.db op.key op.leaseID <;> rfl
    simp only [decide_true,Bool.true_and,refuses_eq_true_iff,hput]
    cases attachKey env r.db op.key op.leaseID <;> simp [Except.map]
  | _ => simp

lemma fails_iff_stops (env : Env) (r : Records) (ops : List Op) :
    Trials.Fails (txnEngine env).txnOp r ops ↔ Stops env r ops := by
  induction ops generalizing r with
  | nil => exact Iff.rfl
  | cons op ops ih => exact or_congr (txnOp_error_iff op) (ih _)

def SameMeaning (env : Env) (e : Engine) (op op' : RaftOperation) : Prop :=
  applyOperation env e op = applyOperation env e op' ∧
    txnResponse env e.records op = txnResponse env e.records op'

/-- A transaction fails for the lease of a put, or none of the ranges it executes is cut off. -/
def KeepsRanges (env : Env) (r : Records) (op : RaftOperation) : Prop :=
  op.type = .txn → Stops env r ((txnEngine env).executed r op) ∨
    (txnEngine env).AllFit r ((txnEngine env).executed r op)

theorem sameMeaning_received_iff (env : Env) (e : Engine) (op : RaftOperation) :
    SameMeaning env e op.received op ↔ KeepsRanges env e.records op := by
  by_cases htype : op.type = .txn
  · have hresponse := (txnEngine env).response_received_iff e.records op
    have hstate := (txnEngine env).state_received e.records op
    have htype' : op.received.type = .txn := htype
    rw [fails_iff_stops] at hresponse
    simp only [SameMeaning,KeepsRanges,applyOperation,applyRecords,txnResponse,htype,htype',
      true_implies,txnUnlocked_eq_txn]
    rw [hstate,← hresponse]
    refine ⟨fun h => h.2,fun h => ⟨?_,h⟩⟩
    rw [h]
    rfl
  · refine ⟨fun _ h => absurd h htype,fun _ => ?_⟩
    obtain ⟨type,key,value,leaseID,rangeEnd,seqNum,ttl,compares,thenOps,elseOps⟩ := op
    cases type with
    | txn => exact absurd rfl htype
    | _ => exact ⟨rfl,rfl⟩

end RocksDB

def limitedRange : RaftOperation where
  type := .txn
  seqNum := ascii "seq-1"
  thenOps := [{ type := .range, key := ascii "a", rangeEnd := ascii "c", limit := 1 }]

lemma limitedRange_built : limitedRange.Built :=
  ⟨trivial,fun _ h => absurd h List.not_mem_nil,fun _ h => absurd h List.not_mem_nil⟩

lemma limitedRange_utf8Keys : limitedRange.Utf8Keys :=
  ⟨by decide,by decide,by decide,fun _ h => absurd h List.not_mem_nil,by decide⟩

end MetaStore
