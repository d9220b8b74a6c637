import MetaStore.Memory.Time
import MetaStore.Memory.Transactions

/-! Runs of the apply loop under different clocks. -/
namespace MetaStore.Memory
open Std

namespace MemoryEtcd

def apply (clock : Clock) (s : MemoryEtcd) (op : RaftOperation) : MemoryEtcd :=
  (applyEffect clock ⟨s,.empty⟩ op).etcd

end MemoryEtcd

theorem etcd_applyOperation (clock : Clock) (m : Memory) (op : RaftOperation) :
    (m.applyOperation clock op).etcd = m.etcd.apply clock op := by
  unfold applyOperation MemoryEtcd.apply applyEffect
  split <;> rfl

theorem etcd_foldl_applyOperation (clock : Clock) (ops : List RaftOperation) (m : Memory) :
    (ops.foldl (applyOperation clock) m).etcd = ops.foldl (MemoryEtcd.apply clock) m.etcd :=
  (List.foldl_hom Memory.etcd fun m op => (etcd_applyOperation clock m op).symm).symm

def txnResult (clock : Clock) (s : MemoryEtcd) (op : RaftOperation) :
    List (Except String TxnResponse) :=
  if op.type = .txn then [(s.applyTxnWithShardLocks clock op.compares op.thenOps op.elseOps).2]
  else []

def txnResults (clock : Clock) : Memory → List RaftOperation → List (Except String TxnResponse)
  | _,[] => []
  | m,op :: ops =>
    txnResult clock m.etcd op ++ txnResults clock (m.applyOperation clock op) ops

theorem txnResults_append (clock : Clock) (m : Memory) (ops ops' : List RaftOperation) :
    txnResults clock m (ops ++ ops') =
      txnResults clock m ops ++ txnResults clock (ops.foldl (applyOperation clock) m) ops' := by
  induction ops generalizing m with
  | nil => rfl
  | cons op ops ih => simp only [List.cons_append,txnResults,ih,List.foldl_cons,List.append_assoc]

section Forget

theorem forgetTimes_insert (leases : ExtTreeMap ℤ Lease) (id : ℤ) (l : Lease) :
    forgetTimes (leases.insert id l) = (forgetTimes leases).insert id { l with grantTime := 0 } := by
  apply ExtTreeMap.ext_getElem?
  intro j
  simp only [getElem?_forgetTimes,ExtTreeMap.getElem?_insert]
  split_ifs <;> rfl

theorem forgetTimes_erase (leases : ExtTreeMap ℤ Lease) (id : ℤ) :
    forgetTimes (leases.erase id) = (forgetTimes leases).erase id := by
  apply ExtTreeMap.ext_getElem?
  intro j
  simp only [getElem?_forgetTimes,ExtTreeMap.getElem?_erase]
  split_ifs <;> rfl

theorem timedTxn_forget (s : MemoryEtcd) (op : RaftOperation) : timedTxn s.forget op = timedTxn s op := by
  refine timedLease_congr (fun id => ?_) _
  rw [MemoryEtcd.forget,getElem?_forgetTimes]
  cases s.leases[id]? <;> rfl

namespace MemoryEtcd

theorem forget_empty : empty.forget = empty := by
  have h : forgetTimes ∅ = ∅ := by
    apply ExtTreeMap.ext_getElem?
    intro id
    simp [getElem?_forgetTimes]
  simp only [forget,empty,h]

theorem forget_applyLeaseOperationDirect (clock : Clock) (s : MemoryEtcd) (opType : RaftOpType)
    (leaseID ttl : ℤ) : s.forget.applyLeaseOperationDirect stopped opType leaseID ttl =
      (s.applyLeaseOperationDirect clock opType leaseID ttl).forget := by
  cases opType with
  | leaseGrant => simp only [applyLeaseOperationDirect,forget,forgetTimes_insert,stopped]
  | leaseRevoke =>
    simp only [applyLeaseOperationDirect,forget,getElem?_forgetTimes]
    cases s.leases[leaseID]? with
    | none => rfl
    | some l =>
      have hfold : l.keys.toList.foldl (fun t key => (t.deleteDirect key []).1)
          { s with leases := s.leases.erase leaseID }.forget = _ :=
        List.foldl_hom forget fun t key => forget_deleteDirect t key []
      simpa only [Option.map_some,forget,forgetTimes_erase] using hfold
  | _ => rfl

theorem forget_apply (clock : Clock) {s : MemoryEtcd} {op : RaftOperation}
    (h : op.type = .txn → timedTxn s op = none) :
    s.forget.apply stopped op = (s.apply clock op).forget := by
  unfold apply applyEffect
  cases ht : op.type with
  | put => exact congrArg (fun r => r.1) (forget_putDirect s op.key op.value op.leaseID)
  | delete => exact forget_deleteDirect s op.key op.rangeEnd
  | leaseGrant => exact forget_applyLeaseOperationDirect clock s op.type op.leaseID op.ttl
  | leaseRevoke => exact forget_applyLeaseOperationDirect clock s op.type op.leaseID 0
  | txn => exact congrArg (fun r => r.1) (forget_txnUnlocked clock (h ht))
  | other name => rfl

theorem forget_txnResult (clock : Clock) {s : MemoryEtcd} {op : RaftOperation}
    (h : op.type = .txn → timedTxn s op = none) :
    txnResult stopped s.forget op = txnResult clock s op := by
  unfold txnResult
  split_ifs with ht
  · rw [applyTxnWithShardLocks,forget_txnUnlocked clock (h ht)]
  · rfl

end MemoryEtcd
end Forget

section Divergence

def Granted (clock : Clock) (s : MemoryEtcd) : Prop :=
  ∀ (id : ℤ) (l : Lease), s.leases[id]? = some l → ∃ i < s.ticks, l.grantTime = clock i

/-- A clock that jumps by more than a duration can hold between two readings, forwards for a
positive TTL and backwards otherwise. -/
def alarm (ttl : ℤ) : Clock := fun i => if 0 < ttl then i*2^63 else -(i*2^63)

theorem Granted.of_sameStamps {clock : Clock} {s t : MemoryEtcd} (hs : Granted clock s)
    (h : SameStamps t.leases s.leases) (hticks : s.ticks ≤ t.ticks) : Granted clock t := by
  intro id l hl
  have hst := h id
  rw [hl,Option.map_some] at hst
  obtain ⟨l',hl',hstamp⟩ := Option.map_eq_some_iff.mp hst.symm
  obtain ⟨i,hi,hg⟩ := hs id l' hl'
  refine ⟨i,hi.trans_le hticks,?_⟩
  rw [← hg]
  exact (congrArg Prod.snd hstamp).symm

theorem isExpired_alarm_ne {l : Lease} {i n : ℕ} (hi : i < n) (hg : l.grantTime = alarm l.ttl i)
    (h : expiry l.ttl = none) (m : ℕ) :
    l.isExpired (alarm l.ttl n) ≠ { l with grantTime := 0 }.isExpired (stopped m) := by
  have hgap : (i : ℤ)+1 ≤ n := by exact_mod_cast hi
  have hs0 : since (stopped m) 0 = 0 := by
    unfold since stopped minDuration maxDuration
    omega
  unfold expiry minDuration maxDuration at h
  dsimp only [Lease.isExpired]
  rw [hg,hs0]
  unfold alarm since minDuration maxDuration
  split_ifs at h ⊢ with h1 h2 h3
  all_goals
    intro heq
    have hiff := decide_eq_decide.mp heq
    omega

namespace MemoryEtcd

theorem ticks_deleteDirect (s : MemoryEtcd) (key rangeEnd : Bytes) :
    (s.deleteDirect key rangeEnd).1.ticks = s.ticks := by
  have hfold : ∀ (kvs : List KeyValue) (s : MemoryEtcd),
      (kvs.foldl (fun t kv => t.removeKey kv.key kv) s).ticks = s.ticks := by
    intro kvs
    induction kvs with
    | nil => exact fun _ => rfl
    | cons kv kvs ih => exact fun s => ih (s.removeKey kv.key kv)
  unfold deleteDirect
  split_ifs
  · split <;> rfl
  · exact hfold _ s

theorem revision_txnOps_ne {s : MemoryEtcd} {ops : List Op} {ttl : ℤ}
    (h : timedLease s.leases ops = some ttl) (hs : Granted (alarm ttl) s) :
    (txnOps (alarm ttl) s ops).1.revision ≠ (txnOps stopped s.forget ops).1.revision := by
  induction ops generalizing s with
  | nil => cases h
  | cons op ops ih =>
    rcases timedLease_cons s op ops with ⟨l,ht,h0,hl,hopen,hhead⟩ | ⟨-,hnone,-⟩ | ⟨hun,htail,hok⟩
    · obtain rfl : l.ttl = ttl := Option.some.inj (hhead.symm.trans h)
      have hf : s.forget.leases[op.leaseID]? = some { l with grantTime := 0 } := by
        rw [forget,getElem?_forgetTimes,hl]
        rfl
      have hfrev : s.forget.revision = s.revision := rfl
      obtain ⟨i,hi,hg⟩ := hs op.leaseID l hl
      have hdiff := isExpired_alarm_ne hi hg hopen s.ticks
      -- one clock stops here, the other goes on with a new revision
      rcases txnOp_put_leased (alarm l.ttl) ht h0 hl with ⟨hx,hrev,herr⟩ | ⟨hx,hrev,r,hr⟩ <;>
      rcases txnOp_put_leased stopped ht h0 hf with ⟨hx',hrev',herr'⟩ | ⟨hx',hrev',r',hr'⟩
      · exact absurd (hx.trans hx'.symm) hdiff
      · have hle := (le_txnOps stopped (s.forget.txnOp stopped op).1 ops).1
        rw [txnOps_of_error herr,txnOps_of_ok hr']
        dsimp only
        omega
      · have hle := (le_txnOps (alarm l.ttl) (s.txnOp (alarm l.ttl) op).1 ops).1
        rw [txnOps_of_ok hr,txnOps_of_error herr']
        dsimp only
        omega
      · exact absurd (hx.trans hx'.symm) hdiff
    · cases hnone.symm.trans h
    · obtain ⟨r,hr⟩ := hok (alarm ttl)
      have hop := forget_txnOp (alarm ttl) hun
      have htail' := (timedLease_txnOp (alarm ttl) s op ops).trans (htail.symm.trans h)
      have hs' := hs.of_sameStamps (stamps_txnOp (alarm ttl) s op) (le_txnOp (alarm ttl) s op).2
      rw [txnOps_of_ok hr,txnOps_of_ok (by rw [hop]; exact hr),hop]
      exact ih htail' hs'

theorem granted_apply {clock : Clock} {s : MemoryEtcd} (hs : Granted clock s) (op : RaftOperation) :
    Granted clock (s.apply clock op) := by
  unfold apply applyEffect
  cases ht : op.type with
  | put => exact hs.of_sameStamps (sameStamps_updateKeys _ _ _) le_rfl
  | delete => exact hs.of_sameStamps (stamps_deleteDirect s _ _) (ticks_deleteDirect s _ _).ge
  | leaseGrant =>
    intro id l hl
    simp only [applyLease,ht,applyLeaseOperationDirect,ExtTreeMap.getElem?_insert] at hl ⊢
    split_ifs at hl
    · exact ⟨s.ticks,Nat.lt_succ_self _,by rw [← Option.some.inj hl]⟩
    · obtain ⟨i,hi,hg⟩ := hs id l hl
      exact ⟨i,Nat.lt_succ_of_lt hi,hg⟩
  | leaseRevoke =>
    simp only [applyLease,ht,applyLeaseOperationDirect]
    split
    · exact hs
    · next lease _ =>
      have herase : Granted clock { s with leases := s.leases.erase op.leaseID } := by
        intro id l hl
        simp only [ExtTreeMap.getElem?_erase] at hl
        split_ifs at hl
        exact hs id l hl
      have hticks : ∀ (keys : List Bytes) (t : MemoryEtcd),
          (keys.foldl (fun t key => (t.deleteDirect key []).1) t).ticks = t.ticks := by
        intro keys
        induction keys with
        | nil => exact fun _ => rfl
        | cons key keys ih => exact fun t => (ih _).trans (ticks_deleteDirect t key [])
      exact herase.of_sameStamps
        (sameStamps_foldl (fun t key => stamps_deleteDirect t key []) _ _) (hticks _ _).ge
  | txn => exact hs.of_sameStamps (stamps_txnOps clock s _) (le_txnOps clock s _).2
  | other name => exact hs

theorem granted_foldl_apply (clock : Clock) (ops : List RaftOperation) :
    Granted clock (ops.foldl (apply clock) empty) := by
  have hfold : ∀ s, Granted clock s → Granted clock (ops.foldl (apply clock) s) := by
    induction ops with
    | nil => exact fun _ hs => hs
    | cons op ops ih => exact fun s hs => ih _ (granted_apply hs op)
  refine hfold empty fun id l hl => ?_
  simp [empty] at hl

end MemoryEtcd
end Divergence

section Runs
variable {w : Waiters} {ops : List RaftOperation}

/-- No transaction of the log reaches an open lease check; the checks are looked up in the
run of the stopped clock. -/
def ClockFree (w : Waiters) (ops : List RaftOperation) : Prop :=
  ∀ p op, p ++ [op] <+: ops → op.type = .txn →
    timedTxn (p.foldl (applyOperation stopped) ⟨.empty,w⟩).etcd op = none

theorem clockFree_append_singleton {op : RaftOperation} :
    ClockFree w (ops ++ [op]) ↔ ClockFree w ops ∧ (op.type = .txn →
      timedTxn (ops.foldl (applyOperation stopped) ⟨.empty,w⟩).etcd op = none) := by
  constructor
  · intro h
    exact ⟨fun p o hp => h p o (hp.trans (List.prefix_append ops [op])),
      h ops op List.prefix_rfl⟩
  · rintro ⟨h,hop⟩ p o hp
    rcases List.prefix_concat_iff.mp hp with heq | hp
    · obtain ⟨rfl,hcons⟩ := List.append_inj' heq rfl
      obtain rfl := List.head_eq_of_cons_eq hcons
      exact hop
    · exact h p o hp

theorem ClockFree.forget_run (h : ClockFree w ops)
    (clock : Clock) : (ops.foldl (applyOperation clock) ⟨.empty,w⟩).etcd.forget =
      (ops.foldl (applyOperation stopped) ⟨.empty,w⟩).etcd := by
  induction ops using List.reverseRecOn with
  | nil => exact MemoryEtcd.forget_empty
  | append_singleton ops op ih =>
    obtain ⟨hops,hop⟩ := clockFree_append_singleton.mp h
    have hrun := ih hops
    simp only [List.foldl_append,List.foldl_cons,List.foldl_nil,etcd_applyOperation]
    rw [← hrun] at hop ⊢
    exact (MemoryEtcd.forget_apply clock fun ht => (timedTxn_forget _ op).symm.trans (hop ht)).symm

theorem ClockFree.txnResults_eq (h : ClockFree w ops)
    (clock : Clock) : txnResults clock ⟨.empty,w⟩ ops = txnResults stopped ⟨.empty,w⟩ ops := by
  induction ops using List.reverseRecOn with
  | nil => rfl
  | append_singleton ops op ih =>
    obtain ⟨hops,hop⟩ := clockFree_append_singleton.mp h
    simp only [txnResults_append,ih hops,txnResults,List.append_nil]
    rw [← hops.forget_run clock] at hop ⊢
    rw [MemoryEtcd.forget_txnResult clock fun ht => (timedTxn_forget _ op).symm.trans (hop ht)]

theorem sameData_forget (s : MemoryEtcd) : SameData s.forget s := by
  refine ⟨rfl,rfl,fun id => ?_⟩
  rw [MemoryEtcd.forget,getElem?_forgetTimes]
  cases s.leases[id]? <;> rfl

theorem SameData.symm {s t : MemoryEtcd} (h : SameData s t) : SameData t s :=
  ⟨h.1.symm,h.2.1.symm,fun id => (h.2.2 id).symm⟩

theorem SameData.trans {s t u : MemoryEtcd} (h : SameData s t) (k : SameData t u) : SameData s u :=
  ⟨h.1.trans k.1,h.2.1.trans k.2.1,fun id => (h.2.2 id).trans (k.2.2 id)⟩

end Runs

/-- The data and the outcomes of the transactions of a log, cut anywhere, are the same under
every two clocks exactly when no transaction reaches a put on an existing lease whose expiry
depends on the time. -/
theorem applyOperation_clock_irrelevant_iff (w : Waiters) (ops : List RaftOperation) :
    (∀ p, p <+: ops → ∀ clock clock' : Clock,
      SameData (p.foldl (applyOperation clock) ⟨.empty,w⟩).etcd
        (p.foldl (applyOperation clock') ⟨.empty,w⟩).etcd ∧
      txnResults clock ⟨.empty,w⟩ p = txnResults clock' ⟨.empty,w⟩ p) ↔ ClockFree w ops := by
  constructor
  · intro h
    induction ops using List.reverseRecOn with
    | nil => exact fun p op hp => by simp at hp
    | append_singleton ops op ih =>
      have hops := ih fun p hp => h p (hp.trans (List.prefix_append ops [op]))
      refine clockFree_append_singleton.mpr ⟨hops,fun ht => ?_⟩
      by_contra htimed
      obtain ⟨ttl,httl⟩ := Option.ne_none_iff_exists'.mp htimed
      have hrun := hops.forget_run (alarm ttl)
      rw [← hrun,timedTxn_forget] at httl
      have hrev := (h _ List.prefix_rfl (alarm ttl) stopped).1.2.1
      simp only [List.foldl_append,List.foldl_cons,List.foldl_nil,etcd_applyOperation,← hrun] at hrev
      simp only [MemoryEtcd.apply,applyEffect,ht] at hrev
      refine MemoryEtcd.revision_txnOps_ne httl ?_ hrev
      rw [etcd_foldl_applyOperation]
      exact MemoryEtcd.granted_foldl_apply (alarm ttl) ops
  · intro h p hp clock clock'
    have hfree : ClockFree w p := fun q op hq => h q op (hq.trans hp)
    have hsame : ∀ c : Clock, SameData (p.foldl (applyOperation c) ⟨.empty,w⟩).etcd
        (p.foldl (applyOperation stopped) ⟨.empty,w⟩).etcd := by
      intro c
      rw [← hfree.forget_run c]
      exact (sameData_forget _).symm
    exact ⟨(hsame clock).trans (hsame clock').symm,
      (hfree.txnResults_eq clock).trans (hfree.txnResults_eq clock').symm⟩

/-- A lease of 10 seconds and a transaction that puts a key on it: a replica that applies the
transaction 20 seconds after the grant rejects what another one accepts. -/
theorem applyOperation_slow_replica_differs :
    let log : List RaftOperation := [{ type := .leaseGrant, leaseID := 1, ttl := 10 },
      { type := .txn, thenOps := [{ type := .put, key := ascii "k", value := ascii "v", leaseID := 1 }] }]
    let slow : Clock := fun i => i*20*10^9
    let revision (clock : Clock) :=
      (log.foldl (applyOperation clock) ⟨.empty,.empty⟩).etcd.revision
    let outcomes (clock : Clock) := (txnResults clock ⟨.empty,.empty⟩ log).map Except.isOk
    revision stopped = 1 ∧ outcomes stopped = [true] ∧ revision slow = 0 ∧
      outcomes slow = [false] := by
  decide

end MetaStore.Memory
