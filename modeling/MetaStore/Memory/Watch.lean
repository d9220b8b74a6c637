import MetaStore.KVStore.Watch
import MetaStore.Memory.Deletes
import MetaStore.Memory.Transactions

/-! The watches of the memory engine. Every write that `applyOperation` makes is logged with the
record that `notifyWatchers` is called with after it. The events that it sends have neither a
revision nor a previous record, it does not look at the filters, and transactions do not call
it. -/
namespace MetaStore.Memory
open Std ChangeLog

structure Logged where
  write : RecordWrite
  notified : Option KeyValue

/-- What `notifyWatchers` sends to a subscription. -/
def notifyWatchers (sub : WatchSubscription) (key : Bytes) (kv : KeyValue) (eventType : EventType) :
    List WatchEvent :=
  if matchWatch key sub.key sub.rangeEnd then [{ type := eventType, kv := some kv }] else []

def Logged.events (sub : WatchSubscription) (l : Logged) : List WatchEvent :=
  match l.notified with
  | some kv => notifyWatchers sub l.write.key kv (eventType l.write.value)
  | none => []

namespace MemoryEtcd

def putWrite (s : MemoryEtcd) (key value : Bytes) (leaseID : ℤ) : RecordWrite :=
  ⟨key,some (putRecord (s.kvData.get key) (s.revision+1) key value leaseID),some (s.revision+1)⟩

def removeLog : ℤ → List KeyValue → List Logged
  | _,[] => []
  | revision,kv :: kvs => ⟨⟨kv.key,none,some (revision+1)⟩,some kv⟩ :: removeLog (revision+1) kvs

def deleteDirectLog (s : MemoryEtcd) (key rangeEnd : Bytes) : List Logged :=
  if rangeEnd = [] then
    (s.kvData.get key).toList.map fun kv => ⟨⟨key,none,some (s.revision+1)⟩,some kv⟩
  else removeLog s.revision (s.kvData.range key rangeEnd 0)

def revokeLog : MemoryEtcd → List Bytes → List Logged
  | _,[] => []
  | s,key :: keys => s.deleteDirectLog key [] ++ revokeLog (s.deleteOne key) keys

def txnOpLog (clock : Clock) (s : MemoryEtcd) (op : Op) : List Logged :=
  match op.type with
  | .put =>
    if refuses clock s.leases s.ticks op then []
    else [⟨s.putWrite op.key op.value op.leaseID,none⟩]
  | .delete => (s.keysToDelete op.key op.rangeEnd).map fun key =>
      ⟨⟨key,none,some (s.revision+1)⟩,none⟩
  | .range => []
  | .txn => []

def txnLog (clock : Clock) : MemoryEtcd → List Op → List Logged
  | _,[] => []
  | s,op :: ops => s.txnOpLog clock op ++
    match (s.txnOp clock op).2 with
    | .error _ => []
    | .ok _ => txnLog clock (s.txnOp clock op).1 ops

def log (clock : Clock) (s : MemoryEtcd) (op : RaftOperation) : List Logged :=
  match op.type with
  | .put =>
    let w := s.putWrite op.key op.value op.leaseID
    [⟨w,w.value⟩]
  | .delete => s.deleteDirectLog op.key op.rangeEnd
  | .leaseGrant => []
  | .leaseRevoke =>
    match s.leases[op.leaseID]? with
    | none => []
    | some lease => revokeLog { s with leases := s.leases.erase op.leaseID } lease.keys.toList
  | .txn => txnLog clock s (if s.compares op.compares then op.thenOps else op.elseOps)
  | .other _ => []

end MemoryEtcd

def logs (clock : Clock) : Memory → List RaftOperation → List Logged
  | _,[] => []
  | m,op :: ops => m.etcd.log clock op ++ logs clock (m.applyOperation clock op) ops

structure Traces (s : MemoryEtcd) (log : List Logged) (t : MemoryEtcd) : Prop where
  records : replay s.kvData.get (log.map Logged.write) = t.kvData.get
  revision : s.revision ≤ t.revision
  drawn : ∀ l ∈ log, ∃ n, l.write.revision = some n ∧ s.revision < n

namespace Traces
variable {s t u : MemoryEtcd} {log log' : List Logged}

lemma of_same (hdata : s.kvData = t.kvData) (hrev : s.revision = t.revision) : Traces s [] t :=
  ⟨by rw [List.map_nil,replay_nil,hdata],hrev.le,fun _ h => absurd h List.not_mem_nil⟩

lemma append (h : Traces s log t) (h' : Traces t log' u) : Traces s (log ++ log') u where
  records := by rw [List.map_append,replay_append,h.records,h'.records]
  revision := h.revision.trans h'.revision
  drawn l hl := by
    rcases List.mem_append.mp hl with hl|hl
    · exact h.drawn l hl
    · obtain ⟨n,hn,hlt⟩ := h'.drawn l hl
      exact ⟨n,hn,h.revision.trans_lt hlt⟩

end Traces

namespace MemoryEtcd
variable (s : MemoryEtcd)

lemma get_delete_eq_update (m : ShardedMap) (key : Bytes) :
    (m.delete key).get = Function.update m.get key none := by
  funext k
  rw [ShardedMap.get_delete,Function.update_apply]

lemma traces_put (key value : Bytes) (leaseID : ℤ) (notified : Option KeyValue) :
    Traces s [⟨s.putWrite key value leaseID,notified⟩] (s.putDirect key value leaseID).1 where
  records := by
    funext k
    change Function.update s.kvData.get key _ k = (s.kvData.set key _).get k
    rw [ShardedMap.get_set,Function.update_apply]
    rfl
  revision := (Int.lt_succ _).le
  drawn l hl := by
    obtain rfl := List.mem_singleton.mp hl
    exact ⟨_,rfl,Int.lt_succ _⟩

lemma traces_removeKey (key : Bytes) (kv : KeyValue) (notified : Option KeyValue) :
    Traces s [⟨⟨key,none,some (s.revision+1)⟩,notified⟩] (s.removeKey key kv) where
  records := (get_delete_eq_update s.kvData key).symm
  revision := (Int.lt_succ _).le
  drawn l hl := by
    obtain rfl := List.mem_singleton.mp hl
    exact ⟨_,rfl,Int.lt_succ _⟩

lemma traces_removeLog (kvs : List KeyValue) :
    Traces s (removeLog s.revision kvs) (kvs.foldl (fun t kv => t.removeKey kv.key kv) s) := by
  induction kvs generalizing s with
  | nil => exact .of_same rfl rfl
  | cons kv kvs ih => exact (s.traces_removeKey kv.key kv (some kv)).append (ih (s.removeKey kv.key kv))

lemma traces_deleteDirect (key rangeEnd : Bytes) :
    Traces s (s.deleteDirectLog key rangeEnd) (s.deleteDirect key rangeEnd).1 := by
  unfold deleteDirectLog deleteDirect
  by_cases hend : rangeEnd = []
  · rw [if_pos hend,if_pos hend]
    cases s.kvData.get key with
    | none => exact .of_same rfl rfl
    | some kv => exact s.traces_removeKey key kv (some kv)
  · rw [if_neg hend,if_neg hend]
    exact s.traces_removeLog _

lemma traces_revoke (keys : List Bytes) :
    Traces s (s.revokeLog keys) (keys.foldl (fun t key => (t.deleteDirect key []).1) s) := by
  induction keys generalizing s with
  | nil => exact .of_same rfl rfl
  | cons key keys ih => exact (s.traces_deleteDirect key []).append (ih (s.deleteOne key))

lemma traces_eraseKeys (keys : List Bytes) (revision : ℤ) (hrev : s.revision < revision) :
    Traces s (keys.map fun key => ⟨⟨key,none,some revision⟩,none⟩)
      (keys.foldl eraseKey { s with revision := revision }) where
  records := by
    have hall : ∀ t : MemoryEtcd, replay t.kvData.get
        ((keys.map fun key => (⟨⟨key,none,some revision⟩,none⟩ : Logged)).map Logged.write) =
          (keys.foldl eraseKey t).kvData.get := by
      induction keys with
      | nil => exact fun _ => rfl
      | cons key keys ih =>
        intro t
        rw [List.foldl_cons,← ih (t.eraseKey key),List.map_cons,List.map_cons,replay_cons]
        exact congrArg (replay · _) (get_delete_eq_update t.kvData key).symm
    exact hall { s with revision := revision }
  revision := by
    rw [(revision_foldl_eraseKey keys _).1]
    exact hrev.le
  drawn l hl := by
    obtain ⟨key,-,rfl⟩ := List.mem_map.mp hl
    exact ⟨revision,rfl,hrev⟩

lemma traces_deleteUnlocked (key rangeEnd : Bytes) :
    Traces s ((s.keysToDelete key rangeEnd).map fun key => ⟨⟨key,none,some (s.revision+1)⟩,none⟩)
      (s.deleteUnlocked key rangeEnd).1 := by
  rw [deleteUnlocked_fst]
  by_cases hnone : s.keysToDelete key rangeEnd = []
  · rw [if_pos hnone,hnone]
    exact .of_same rfl rfl
  · rw [if_neg hnone]
    exact s.traces_eraseKeys _ _ (Int.lt_succ _)

variable (clock : Clock)

lemma traces_txnOp (op : Op) : Traces s (s.txnOpLog clock op) (s.txnOp clock op).1 := by
  unfold txnOpLog
  cases htype : op.type with
  | range =>
    rw [txnOp,htype]
    exact .of_same rfl rfl
  | txn =>
    rw [txnOp,htype]
    exact .of_same rfl rfl
  | delete =>
    rw [txnOp,htype]
    exact s.traces_deleteUnlocked op.key op.rangeEnd
  | put =>
    dsimp only
    obtain ⟨hrefused,-⟩ | ⟨hrefused,hput⟩ := putUnlocked_cases clock s htype
    · obtain ⟨-,hdata,hrev,-⟩ := txnOp_of_refuses hrefused
      rw [hrefused]
      exact .of_same hdata hrev
    · rw [txnOp,htype,hrefused]
      simp only [hput]
      have h := traces_put { s with ticks := s.ticks+readings op } op.key op.value op.leaseID none
      exact ⟨h.records,h.revision,h.drawn⟩

lemma traces_txnOps (ops : List Op) : Traces s (s.txnLog clock ops) (txnOps clock s ops).1 := by
  induction ops generalizing s with
  | nil => exact .of_same rfl rfl
  | cons op ops ih =>
    have hop := s.traces_txnOp clock op
    rw [txnLog,txnOps]
    cases (s.txnOp clock op).2 with
    | error e =>
      rw [List.append_nil]
      exact hop
    | ok response => exact hop.append (ih _)

lemma traces_log (m : Memory) (op : RaftOperation) :
    Traces m.etcd (m.etcd.log clock op) (m.applyOperation clock op).etcd := by
  change Traces m.etcd (m.etcd.log clock op) (m.applyEffect clock op).etcd
  unfold log applyEffect
  cases htype : op.type with
  | put => exact m.etcd.traces_put op.key op.value op.leaseID _
  | delete => exact m.etcd.traces_deleteDirect op.key op.rangeEnd
  | leaseGrant =>
    simp only [applyLease,htype,applyLeaseOperationDirect]
    exact .of_same rfl rfl
  | leaseRevoke =>
    simp only [applyLease,htype,applyLeaseOperationDirect]
    cases m.etcd.leases[op.leaseID]? with
    | none => exact .of_same rfl rfl
    | some lease =>
      have h := traces_revoke { m.etcd with leases := m.etcd.leases.erase op.leaseID }
        lease.keys.toList
      exact ⟨h.records,h.revision,h.drawn⟩
  | txn => exact m.etcd.traces_txnOps clock _
  | other name => exact .of_same rfl rfl

end MemoryEtcd

theorem traces_logs (clock : Clock) (m : Memory) (ops : List RaftOperation) :
    Traces m.etcd (logs clock m ops) (ops.foldl (applyOperation clock) m).etcd := by
  induction ops generalizing m with
  | nil => exact .of_same rfl rfl
  | cons op ops ih => exact (MemoryEtcd.traces_log clock m op).append (ih _)

section Quiet
variable (sub : WatchSubscription)

/-- The transaction puts no key and deletes no stored key that the watch is there for. -/
def QuietOps (clock : Clock) : MemoryEtcd → List Op → Prop
  | _,[] => True
  | s,op :: ops => MemoryEtcd.refuses clock s.leases s.ticks op = true ∨
      (op.type = .put → sub.sees .put op.key = false) ∧
      (op.type = .delete → ∀ key ∈ s.keysToDelete op.key op.rangeEnd, (s.kvData.get key).isSome →
        sub.sees .delete key = false) ∧ QuietOps clock (s.txnOp clock op).1 ops

/-- The operation changes no key in the range of the watch; a transaction may change those whose
events are filtered out. -/
def Quiet (clock : Clock) (s : MemoryEtcd) (op : RaftOperation) : Prop :=
  match op.type with
  | .put => matchWatch op.key sub.key sub.rangeEnd = false
  | .delete => ∀ key ∈ s.keysToDelete op.key op.rangeEnd, matchWatch key sub.key sub.rangeEnd = false
  | .leaseRevoke => ∀ lease : Lease, s.leases[op.leaseID]? = some lease → ∀ key ∈ lease.keys,
      (s.kvData.get key).isSome → matchWatch key sub.key sub.rangeEnd = false
  | .txn => QuietOps sub clock s (if s.compares op.compares then op.thenOps else op.elseOps)
  | .leaseGrant => True
  | .other _ => True

def QuietRun (clock : Clock) : Memory → List RaftOperation → Prop
  | _,[] => True
  | m,op :: ops => Quiet sub clock m.etcd op ∧ QuietRun clock (m.applyOperation clock op) ops

def received (log : List Logged) : List WatchEvent := log.flatMap (Logged.events sub)

def admitted (view : Bytes → Option KeyValue) (log : List Logged) : List RecordChange :=
  (changes view (log.map Logged.write)).filter sub.admits

def Silent (view : Bytes → Option KeyValue) (log : List Logged) : Prop :=
  received sub log = [] ∧ admitted sub view log = []

variable {sub} {view : Bytes → Option KeyValue}

lemma silent_nil : Silent sub view [] := ⟨rfl,rfl⟩

lemma silent_append {log log' : List Logged} :
    Silent sub view (log ++ log') ↔
      Silent sub view log ∧ Silent sub (replay view (log.map Logged.write)) log' := by
  simp only [Silent,received,admitted,List.flatMap_append,List.append_eq_nil_iff,List.map_append,
    changes_append,List.filter_append]
  tauto

lemma silent_iff_of_notified {log : List Logged} (h : ∀ l ∈ log, l.notified.isSome) :
    Silent sub view log ↔ ∀ l ∈ log, matchWatch l.write.key sub.key sub.rangeEnd = false := by
  constructor
  · rintro ⟨hreceived,-⟩ l hl
    obtain ⟨kv,hkv⟩ := Option.isSome_iff_exists.mp (h l hl)
    have hnone := List.flatMap_eq_nil_iff.mp hreceived l hl
    rw [Logged.events,hkv] at hnone
    by_contra hmatch
    rw [Bool.not_eq_false] at hmatch
    simp [notifyWatchers,hmatch] at hnone
  · intro hquiet
    refine ⟨List.flatMap_eq_nil_iff.mpr fun l hl => ?_,List.filter_eq_nil_iff.mpr fun c hc => ?_⟩
    · obtain ⟨kv,hkv⟩ := Option.isSome_iff_exists.mp (h l hl)
      simp [Logged.events,hkv,notifyWatchers,hquiet l hl]
    · obtain ⟨l,hl,hlc⟩ := List.mem_map.mp (mem_changes view hc)
      have hmatch := hquiet l hl
      rw [hlc] at hmatch
      simp [WatchSubscription.admits,WatchSubscription.sees,hmatch]

lemma silent_iff_of_unnotified {log : List Logged} (h : ∀ l ∈ log, l.notified = none) :
    Silent sub view log ↔ admitted sub view log = [] := by
  refine and_iff_right (List.flatMap_eq_nil_iff.mpr fun l hl => ?_)
  rw [Logged.events,h l hl]

lemma admitted_deletions (keys : List Bytes) (revision : Option ℤ) :
    admitted sub view (keys.map fun key => ⟨⟨key,none,revision⟩,none⟩) = [] ↔
      ∀ key ∈ keys, (view key).isSome → sub.sees .delete key = false := by
  rw [admitted,List.map_map]
  exact WatchSubscription.filter_admits_deletions keys revision

lemma silent_removeLog (revision : ℤ) (kvs : List KeyValue) :
    Silent sub view (MemoryEtcd.removeLog revision kvs) ↔
      ∀ kv ∈ kvs, matchWatch kv.key sub.key sub.rangeEnd = false := by
  have hall : (∀ l ∈ MemoryEtcd.removeLog revision kvs, l.notified.isSome) ∧
      ((∀ l ∈ MemoryEtcd.removeLog revision kvs, matchWatch l.write.key sub.key sub.rangeEnd = false) ↔
        ∀ kv ∈ kvs, matchWatch kv.key sub.key sub.rangeEnd = false) := by
    induction kvs generalizing revision with
    | nil => simp [MemoryEtcd.removeLog]
    | cons kv kvs ih =>
      obtain ⟨hnotified,hiff⟩ := ih (revision+1)
      simp only [MemoryEtcd.removeLog,List.forall_mem_cons]
      exact ⟨⟨rfl,hnotified⟩,and_congr_right fun _ => hiff⟩
  rw [silent_iff_of_notified hall.1,hall.2]

lemma silent_deleteDirectLog (s : MemoryEtcd) (key rangeEnd : Bytes) :
    Silent sub view (s.deleteDirectLog key rangeEnd) ↔
      ∀ k ∈ s.keysToDelete key rangeEnd, matchWatch k sub.key sub.rangeEnd = false := by
  unfold MemoryEtcd.deleteDirectLog MemoryEtcd.keysToDelete
  by_cases hend : rangeEnd = []
  · rw [if_pos hend,if_pos hend,silent_iff_of_notified (by simp)]
    cases s.kvData.get key <;> simp
  · rw [if_neg hend,if_neg hend,silent_removeLog,List.forall_mem_map]

lemma silent_revokeLog (s : MemoryEtcd) (keys : List Bytes) :
    Silent sub s.kvData.get (s.revokeLog keys) ↔ ∀ key ∈ keys, (s.kvData.get key).isSome →
      matchWatch key sub.key sub.rangeEnd = false := by
  induction keys generalizing s with
  | nil => simp [MemoryEtcd.revokeLog,silent_nil]
  | cons key keys ih =>
    have hfirst : (∀ k ∈ s.keysToDelete key [], matchWatch k sub.key sub.rangeEnd = false) ↔
        ((s.kvData.get key).isSome → matchWatch key sub.key sub.rangeEnd = false) := by
      cases hget : s.kvData.get key <;> simp [MemoryEtcd.keysToDelete,hget]
    rw [MemoryEtcd.revokeLog,silent_append,silent_deleteDirectLog,hfirst,
      (s.traces_deleteDirect key []).records,List.forall_mem_cons]
    refine and_congr_right fun hkey => (ih (s.deleteOne key)).trans (forall₂_congr fun k _ => ?_)
    rw [s.get_deleteOne key k]
    by_cases hk : k = key
    · subst hk
      rw [if_pos rfl]
      exact iff_of_true (fun h => absurd h (by simp)) hkey
    · rw [if_neg hk]

lemma silent_txnOpLog (clock : Clock) (s : MemoryEtcd) (op : Op) :
    Silent sub s.kvData.get (s.txnOpLog clock op) ↔
      MemoryEtcd.refuses clock s.leases s.ticks op = true ∨
        (op.type = .put → sub.sees .put op.key = false) ∧
        (op.type = .delete → ∀ key ∈ s.keysToDelete op.key op.rangeEnd, (s.kvData.get key).isSome →
          sub.sees .delete key = false) := by
  unfold MemoryEtcd.txnOpLog
  cases htype : op.type with
  | range => simp [silent_nil]
  | txn => simp [silent_nil]
  | delete =>
    have hrefused : MemoryEtcd.refuses clock s.leases s.ticks op = false := by
      simp [MemoryEtcd.refuses,htype]
    rw [silent_iff_of_unnotified (by simp),admitted_deletions]
    simp [hrefused]
  | put =>
    cases hrefused : MemoryEtcd.refuses clock s.leases s.ticks op with
    | true => simp [silent_nil]
    | false =>
      rw [silent_iff_of_unnotified (by simp)]
      simp [admitted,MemoryEtcd.putWrite,changes,Write.change,WatchSubscription.admits,eventType]

lemma silent_txnLog (clock : Clock) (s : MemoryEtcd) (ops : List Op) :
    Silent sub s.kvData.get (s.txnLog clock ops) ↔ QuietOps sub clock s ops := by
  induction ops generalizing s with
  | nil => exact iff_of_true silent_nil trivial
  | cons op ops ih =>
    rw [MemoryEtcd.txnLog,silent_append,silent_txnOpLog,(s.traces_txnOp clock op).records,QuietOps]
    cases hrefused : MemoryEtcd.refuses clock s.leases s.ticks op with
    | true =>
      obtain ⟨⟨e,he⟩,-⟩ := MemoryEtcd.txnOp_of_refuses hrefused
      rw [he]
      simp [silent_nil]
    | false =>
      have hok : ∃ r, (s.txnOp clock op).2 = .ok r := by
        cases hidle : s.idle op with
        | true => exact (MemoryEtcd.txnOp_of_idle clock hidle).1
        | false => exact (MemoryEtcd.txnOp_of_effective hidle hrefused).1
      obtain ⟨r,hr⟩ := hok
      rw [hr]
      simp only [Bool.false_eq_true,false_or]
      rw [ih,and_assoc]

theorem silent_log_iff (clock : Clock) (s : MemoryEtcd) (op : RaftOperation) :
    Silent sub s.kvData.get (s.log clock op) ↔ Quiet sub clock s op := by
  unfold MemoryEtcd.log Quiet
  cases op.type with
  | put =>
    rw [silent_iff_of_notified]
    · simp [MemoryEtcd.putWrite]
    · simp [MemoryEtcd.putWrite]
  | delete => exact silent_deleteDirectLog s op.key op.rangeEnd
  | leaseGrant => exact iff_of_true silent_nil trivial
  | leaseRevoke =>
    dsimp only
    cases hlease : s.leases[op.leaseID]? with
    | none => simp [silent_nil]
    | some lease =>
      have h := @silent_revokeLog sub { s with leases := s.leases.erase op.leaseID }
        lease.keys.toList
      simpa using h
  | txn => exact silent_txnLog clock s _
  | other name => exact iff_of_true silent_nil trivial

lemma silent_logs_iff (clock : Clock) (m : Memory) (ops : List RaftOperation) :
    Silent sub m.etcd.kvData.get (logs clock m ops) ↔ QuietRun sub clock m ops := by
  induction ops generalizing m with
  | nil => exact iff_of_true silent_nil trivial
  | cons op ops ih =>
    rw [logs,silent_append,silent_log_iff,(MemoryEtcd.traces_log clock m op).records,QuietRun,ih]

end Quiet

lemma revision_of_mem_received {sub : WatchSubscription} {log : List Logged} {e : WatchEvent}
    (h : e ∈ received sub log) : e.revision = 0 := by
  obtain ⟨l,-,he⟩ := List.mem_flatMap.mp h
  unfold Logged.events notifyWatchers at he
  split at he
  · split_ifs at he
    · rw [List.mem_singleton.mp he]
    · exact absurd he List.not_mem_nil
  · exact absurd he List.not_mem_nil

/-- A watch that is open during a sequence of operations receives what it should if and only if
there is nothing to receive: no operation changes a key in its range, except for transactions
that change keys whose events the watch has filtered out. -/
theorem watch_complete_iff_quiet (sub : WatchSubscription) (clock : Clock) (m : Memory)
    (hrev : 0 ≤ m.etcd.revision) (ops : List RaftOperation) :
    sub.Complete (received sub (logs clock m ops))
        (changes m.etcd.kvData.get ((logs clock m ops).map Logged.write)) ↔
      QuietRun sub clock m ops := by
  rw [← silent_logs_iff]
  constructor
  · rintro ⟨hreports,-⟩
    cases hreceived : received sub (logs clock m ops) with
    | nil =>
      rw [hreceived] at hreports
      exact ⟨hreceived,List.forall₂_nil_left_iff.mp hreports⟩
    | cons e es =>
      rw [hreceived] at hreports
      obtain ⟨c,cs,hec,-,hadmitted⟩ := List.forall₂_cons_left_iff.mp hreports
      have hzero := revision_of_mem_received (hreceived ▸ List.mem_cons_self : e ∈ received sub _)
      have hc : c ∈ changes m.etcd.kvData.get ((logs clock m ops).map Logged.write) :=
        List.mem_of_mem_filter (hadmitted ▸ List.mem_cons_self)
      obtain ⟨l,hl,hlc⟩ := List.mem_map.mp (mem_changes _ hc)
      obtain ⟨n,hn,hlt⟩ := (traces_logs clock m ops).drawn l hl
      rw [hlc,hec.revision,hzero] at hn
      have := Option.some.inj hn
      omega
  · rintro ⟨hreceived,hadmitted⟩
    rw [hreceived]
    refine ⟨?_,.nil⟩
    rw [show (changes _ _).filter sub.admits = [] from hadmitted]
    exact .nil

/-- A watch without puts is not told of the put of its key in a transaction. -/
theorem watch_complete_without_puts :
    let clock : Clock := fun _ => 0
    let sub : WatchSubscription := { key := ascii "a", filters := [.noPut] }
    let put : Op := { type := .put, key := ascii "a", value := ascii "1" }
    let ops : List RaftOperation := [{ type := .txn, thenOps := [put] },
      { type := .put, key := ascii "b" }]
    let log := logs clock ⟨.empty,.empty⟩ ops
    log.length = 2 ∧
    sub.Complete (received sub log) (changes MemoryEtcd.empty.kvData.get (log.map Logged.write)) := by
  intro clock sub put ops log
  refine ⟨by decide,(watch_complete_iff_quiet sub clock ⟨.empty,.empty⟩ le_rfl ops).mpr ?_⟩
  refine ⟨.inr ⟨fun _ => by decide,fun h => absurd h (by decide),trivial⟩,?_,trivial⟩
  change matchWatch (ascii "b") (ascii "a") [] = false
  decide

/-- The event of a put has no revision and no previous record; a put in a transaction has no
event. -/
theorem watch_misses_revision_and_txn :
    let clock : Clock := fun _ => 0
    let sub : WatchSubscription := { key := ascii "a", prevKV := true }
    let put (value : Bytes) : RaftOperation := { type := .put, key := ascii "a", value := value }
    let txn : RaftOperation :=
      { type := .txn, thenOps := [{ type := .put, key := ascii "a", value := ascii "3" }] }
    let history (ops : List RaftOperation) := changes MemoryEtcd.empty.kvData.get
      ((logs clock ⟨.empty,.empty⟩ ops).map Logged.write)
    let events (ops : List RaftOperation) := received sub (logs clock ⟨.empty,.empty⟩ ops)
    let puts := [put (ascii "1"),put (ascii "2")]
    events puts = [{ type := .put, kv := some ⟨ascii "a",ascii "1",1,1,1,0⟩ },
        { type := .put, kv := some ⟨ascii "a",ascii "2",1,2,2,0⟩ }] ∧
      (history puts).map (fun c => (c.revision,c.before.map KeyValue.value)) =
        [(some 1,none),(some 2,some (ascii "1"))] ∧
      ¬ sub.Complete (events puts) (history puts) ∧
      events [txn] = [] ∧ (history [txn]).length = 1 := by
  intro clock sub put txn history events puts
  have hevents : events puts = [{ type := .put, kv := some ⟨ascii "a",ascii "1",1,1,1,0⟩ },
      { type := .put, kv := some ⟨ascii "a",ascii "2",1,2,2,0⟩ }] := by decide
  have hrevisions : (history puts).map (fun c => c.revision) = [some 1,some 2] := by decide
  refine ⟨hevents,by decide,fun h => ?_,by decide,by decide⟩
  have hreports := h.reports
  rw [hevents] at hreports
  obtain ⟨c,cs,hec,-,hadmitted⟩ := List.forall₂_cons_left_iff.mp hreports
  have hc : c ∈ history puts := List.mem_of_mem_filter (hadmitted ▸ List.mem_cons_self)
  have hrev := List.mem_map_of_mem (f := fun c : RecordChange => c.revision) hc
  rw [hrevisions,hec.revision] at hrev
  exact absurd hrev (by decide)

end MetaStore.Memory
