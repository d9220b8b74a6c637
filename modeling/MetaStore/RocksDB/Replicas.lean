import MetaStore.Library.Transition
import MetaStore.RocksDB.LeaseKeys
import MetaStore.RocksDB.Restart

/-! Nodes that apply the same log while their clients call `Range`, `LeaseTimeToLive`,
`LeaseRenew` and `Compact`. The calls are not serialised with the log: a renewal writes back the
lease it has read some operations ago, and a compaction deletes leases that have run out by the
clock of its own node. -/
namespace MetaStore.RocksDB
open Std Transition

/-- What the log makes a node do: an operation on its own, a legacy put, an operation of a batch
that is still open, or the write of the batch. -/
inductive Committed
  | operation (op : RaftOperation)
  | legacy (key val : Bytes)
  | prepare (op : RaftOperation)
  | flush

def Committed.apply (env : Env) (p : Records × Batch) : Committed → Records × Batch
  | operation op => (applyRecords env p.1 op,p.2)
  | legacy key val => ((putUnlocked env p.1 key val 0).1,p.2)
  | prepare op => prepareRecords env p.1 p.2 op
  | flush => ({ p.1 with db := WriteBatch.write p.1.db p.2 },[])

def Datum.puts : Datum → List Committed
  | operations _ => []
  | legacy key val => [.legacy key val]

def Datum.prepares : Datum → List Committed
  | operations ops => ops.map .prepare
  | legacy _ _ => []

/-- The legacy puts of a commit come first, then its operations as one batch. -/
def commitSteps (data : List Datum) : List Committed :=
  data.flatMap Datum.puts ++ data.flatMap Datum.prepares ++ [.flush]

/-- A call of `LeaseRenew` between its reading and its write. -/
structure Renewal where
  id : ℤ
  lease : Lease

/-- A call of `Compact` that has stored the revision, and one that has visited the leases and
has some of them left to delete. -/
inductive Compaction
  | merging
  | cleaning (keys : List Bytes)

/-- A node with its open batch, its clients' unfinished calls, and the compaction that holds
the lock. -/
structure Replica where
  records : Records
  batch : Batch
  renewals : List Renewal
  compaction : Option Compaction

def Replica.new : Replica := ⟨⟨∅,0,0⟩,[],[],none⟩

inductive ReplicaEvent
  | committed (c : Committed)
  | range (key rangeEnd : Bytes) (limit : ℤ)
  | leaseTimeToLive (id : ℤ)
  | leaseRenew (id : ℤ)
  | storeRenewal (i : ℕ)
  | compact (revision : ℤ)
  | findExpired
  | deleteExpired

def ReplicaEvent.log : ReplicaEvent → Option Committed
  | committed c => some c
  | _ => none

namespace Replica

/-- `LeaseRenew` up to its write. -/
def renew (env : Env) (n : Replica) (id : ℤ) : Replica :=
  match getLease n.records.db id with
  | .ok (some l) =>
    let l' := { l with grantTime := env.clock n.records.ticks }
    let records := { n.records with ticks := n.records.ticks+1 }
    match serializeLease env l' with
    | .ok _ => { n with records := records, renewals := n.renewals ++ [⟨id,l'⟩] }
    | .error _ => { n with records := records }
  | _ => n

/-- `none`: the event is not possible, because no such call has come that far or another
compaction holds the lock. -/
def step (env : Env) (n : Replica) : ReplicaEvent → Option Replica
  | .committed c =>
    let p := c.apply env (n.records,n.batch)
    some { n with records := p.1, batch := p.2 }
  | .range _ _ _ => some n
  | .leaseTimeToLive _ => some n
  | .leaseRenew id => some (n.renew env id)
  | .storeRenewal i =>
    match n.renewals[i]? with
    | some w => some { n with
        records := { n.records with db := n.records.db.insert (leaseKey w.id) (.lease w.lease) }
        renewals := n.renewals.eraseIdx i }
    | none => none
  | .compact revision =>
    match n.compaction with
    | some _ => none
    | none =>
      if compacts n.records revision then some { n with
        records := { n.records with
          db := setCompactedRevisionUnlocked n.records.db revision
          ticks := n.records.ticks+1 }
        compaction := some .merging }
      else some n
  | .findExpired =>
    match n.compaction with
    | some .merging => some { n with
        records := { n.records with ticks := n.records.ticks+1 }
        compaction := some (.cleaning (expiredLeases n.records.db (env.clock n.records.ticks))) }
    | _ => none
  | .deleteExpired =>
    match n.compaction with
    | some (.cleaning (k :: keys)) => some { n with
        records := { n.records with db := n.records.db.erase k }
        compaction := some (.cleaning keys) }
    | some (.cleaning []) => some { n with
        records := { n.records with ticks := n.records.ticks+1 }
        compaction := none }
    | _ => none

/-- A renewal finds the lease as it has read it, but for its grant time, and a compaction finds
no lease that has run out by the clock of the node. -/
def Allowed (env : Env) (n : Replica) : ReplicaEvent → Prop
  | .storeRenewal i => ∀ w, n.renewals[i]? = some w → ∃ l, getLease n.records.db w.id = .ok (some l) ∧
      l.id = w.lease.id ∧ l.ttl = w.lease.ttl ∧ l.keys = w.lease.keys
  | .findExpired => expiredLeases n.records.db (env.clock n.records.ticks) = []
  | _ => True

end Replica

def leaseKeys (db : Database) (id : ℤ) : Except String (Option (ExtTreeSet Bytes)) :=
  (getLease db id).map (Option.map Lease.keys)

structure SameReplica (db db' : Database) : Prop where
  records : ∀ key, getKeyValue db key = getKeyValue db' key
  leases : ∀ id, leaseKeys db id = leaseKeys db' id

section Calls
variable (env : Env)

lemma foldl_puts (r : Records) (batch : Batch) (data : List Datum) :
    (data.flatMap Datum.puts).foldl (Committed.apply env) (r,batch) =
      ((collect env r data).1,batch) := by
  induction data generalizing r with
  | nil => rfl
  | cons d data ih =>
    cases d with
    | operations ops => exact ih r
    | legacy key val => exact ih (putUnlocked env r key val 0).1

lemma flatMap_prepares (r : Records) (data : List Datum) :
    data.flatMap Datum.prepares = (collect env r data).2.map .prepare := by
  induction data generalizing r with
  | nil => rfl
  | cons d data ih =>
    cases d with
    | operations ops => rw [List.flatMap_cons,ih r,Datum.prepares,← List.map_append]; rfl
    | legacy key val => exact ih (putUnlocked env r key val 0).1

lemma foldl_prepares (e : Engine) (batch : Batch) (ops : List RaftOperation) :
    (ops.map Committed.prepare).foldl (Committed.apply env) (e.records,batch) =
      ((prepareOperations env (e,batch) ops).1.records,(prepareOperations env (e,batch) ops).2) := by
  induction ops generalizing e batch with
  | nil => rfl
  | cons op ops ih =>
    exact ih ⟨(prepareRecords env e.records batch op).1,
      e.waiters.saveTxnResult op.seqNum (txnResponse env e.records op)⟩ _

theorem readCommit_eq_steps (r : Records) (w : Waiters) (data : List Datum) :
    (commitSteps data).foldl (Committed.apply env) (r,[]) =
      ((readCommit env ⟨r,w⟩ data).records,[]) := by
  rw [commitSteps,flatMap_prepares env r,List.foldl_append,List.foldl_append,foldl_puts,
    foldl_prepares env ⟨(collect env r data).1,w⟩]
  rfl

lemma serializeLease_eq {l : Lease} {data : Value} (h : serializeLease env l = .ok data) :
    data = .lease l := by
  unfold serializeLease at h
  split_ifs at h
  exact (Except.ok.inj h).symm

lemma renew_cases (n : Replica) (id : ℤ) :
    (∃ t, n.renew env id = { n with records := { n.records with ticks := t } } ∧
      (leaseRenew env n.records id).1 = { n.records with ticks := t }) ∨
    ∃ l, n.renew env id = { n with
        records := { n.records with ticks := n.records.ticks+1 }
        renewals := n.renewals ++ [⟨id,l⟩] } ∧
      (leaseRenew env n.records id).1 = { n.records with
        db := n.records.db.insert (leaseKey id) (.lease l)
        ticks := n.records.ticks+1 } := by
  unfold Replica.renew RocksDB.leaseRenew
  cases getLease n.records.db id with
  | error err => exact .inl ⟨n.records.ticks,rfl,rfl⟩
  | ok lease =>
    cases lease with
    | none => exact .inl ⟨n.records.ticks,rfl,rfl⟩
    | some l =>
      dsimp only
      cases hdata : serializeLease env { l with grantTime := env.clock n.records.ticks } with
      | error err => exact .inl ⟨n.records.ticks+1,rfl,rfl⟩
      | ok data =>
        obtain rfl := serializeLease_eq env hdata
        exact .inr ⟨_,rfl,rfl⟩

theorem leaseRenew_eq_steps (n : Replica) (id : ℤ) :
    ∃ rest : List ReplicaEvent, (∀ e ∈ rest, e = .storeRenewal n.renewals.length) ∧
      (.leaseRenew id :: rest).foldlM (Replica.step env) n =
        some { n with records := (leaseRenew env n.records id).1 } := by
  rcases renew_cases env n id with ⟨t,hn,hr⟩|⟨l,hn,hr⟩
  · refine ⟨[],by simp,?_⟩
    rw [List.foldlM_cons,Replica.step,hn,hr]
    rfl
  · refine ⟨[.storeRenewal n.renewals.length],by simp,?_⟩
    rw [List.foldlM_cons,Replica.step,hn,hr,Option.bind_eq_bind,Option.bind_some,List.foldlM_cons,
      Replica.step]
    simp [List.eraseIdx_append_of_length_le]

lemma compact_of_compacts {r : Records} {revision : ℤ} (h : compacts r revision = true) :
    (compact env r revision).1 = { r with
      db := cleanupExpiredLeasesUnlocked (setCompactedRevisionUnlocked r.db revision)
        (env.clock (r.ticks+1))
      ticks := r.ticks+3 } := by
  obtain ⟨hfuture,hpos,hdone⟩ := of_decide_eq_true h
  rw [RocksDB.compact,if_neg (by omega),if_neg (by omega)]
  dsimp only
  rw [if_neg (by omega)]

lemma compact_of_not_compacts {r : Records} {revision : ℤ} (h : ¬ compacts r revision = true) :
    (compact env r revision).1 = r := by
  have hsome : r.cachedRevision < revision ∨ revision ≤ 0 ∨
      revision ≤ getCompactedRevisionUnlocked r.db := by
    simp only [compacts,decide_eq_true_eq] at h
    omega
  rw [RocksDB.compact]
  dsimp only
  split_ifs
  · rfl
  · rfl
  · rfl
  · omega

lemma foldlM_deleteExpired (n : Replica) (keys : List Bytes)
    (hn : n.compaction = some (.cleaning keys)) :
    (List.replicate (keys.length+1) ReplicaEvent.deleteExpired).foldlM (Replica.step env) n =
      some { n with
        records := { n.records with
          db := WriteBatch.write n.records.db (keys.map .delete)
          ticks := n.records.ticks+1 }
        compaction := none } := by
  induction keys generalizing n with
  | nil =>
    rw [List.length_nil,List.replicate_succ,List.foldlM_cons,Replica.step,hn]
    rfl
  | cons k keys ih =>
    rw [List.length_cons,List.replicate_succ,List.foldlM_cons,Replica.step,hn]
    exact ih _ rfl

theorem compact_eq_steps (n : Replica) (revision : ℤ) (hfree : n.compaction = none) :
    ∃ rest : List ReplicaEvent, (∀ e ∈ rest, e = .findExpired ∨ e = .deleteExpired) ∧
      (.compact revision :: rest).foldlM (Replica.step env) n =
        some { n with records := (compact env n.records revision).1 } := by
  obtain ⟨r,batch,renewals,_⟩ := n
  obtain rfl := hfree
  by_cases hc : compacts r revision
  · obtain ⟨keys,hkeys⟩ : ∃ keys, keys = expiredLeases
        (setCompactedRevisionUnlocked r.db revision) (env.clock (r.ticks+1)) := ⟨_,rfl⟩
    refine ⟨.findExpired :: List.replicate (keys.length+1) .deleteExpired,?_,?_⟩
    · intro e he
      rcases List.mem_cons.mp he with rfl|he
      · exact .inl rfl
      · exact .inr (List.eq_of_mem_replicate he)
    · rw [List.foldlM_cons,Replica.step]
      dsimp only
      rw [if_pos hc,Option.bind_eq_bind,Option.bind_some,List.foldlM_cons,Replica.step]
      dsimp only
      rw [Option.bind_eq_bind,Option.bind_some,foldlM_deleteExpired env _ keys (by rw [hkeys]),
        compact_of_compacts env hc,cleanupExpiredLeasesUnlocked,← hkeys]
  · refine ⟨[],by simp,?_⟩
    rw [List.foldlM_cons,Replica.step]
    dsimp only
    rw [if_neg hc,compact_of_not_compacts env hc]
    rfl

end Calls

section Follows
variable {env env' : Env} {r r' s : Records}

lemma ValueAlike.trans {u v w : Value} (huv : ValueAlike (fun _ _ => True) u v)
    (hvw : ValueAlike (fun _ _ => True) v w) : ValueAlike (fun _ _ => True) u w := by
  cases huv with
  | same => exact hvw
  | lease l =>
    cases hvw with
    | same => exact .lease l trivial
    | lease => exact .lease l trivial

def AlikeButTimes (env env' : Env) (r s : Records) : Prop :=
  ∃ d, Alike (fun _ _ => True) env env' d r s

lemma AlikeButTimes.change (h : AlikeButTimes env env' r s)
    (hdb : ∀ x, StoreKey x → Option.Rel (ValueAlike fun _ _ => True) r'.db[x]? r.db[x]?)
    (hrevision : r'.cachedRevision = r.cachedRevision) : AlikeButTimes env env' r' s := by
  obtain ⟨d,h⟩ := h
  refine ⟨s.ticks-r'.ticks,fun x hx => ?_,hrevision.trans h.revision,by omega,
    fun _ => trivial,h.format⟩
  have h₁ := hdb x hx
  have h₂ := h.db x hx
  generalize r'.db[x]? = u at h₁ ⊢
  generalize r.db[x]? = v at h₁ h₂
  generalize s.db[x]? = w at h₂ ⊢
  cases h₁ with
  | none => exact h₂
  | some huv =>
    cases h₂ with
    | some hvw => exact .some (huv.trans hvw)

/-- A change of one of the stores that leaves records and leases as they are. -/
lemma AlikeButTimes.congr (h : AlikeButTimes env env' r s)
    (hdb : ∀ x, StoreKey x → r'.db[x]? = r.db[x]?) (hrevision : r'.cachedRevision = r.cachedRevision) :
    AlikeButTimes env env' r' s := by
  refine h.change (fun x hx => ?_) hrevision
  rw [hdb x hx]
  cases r.db[x]? with
  | none => exact .none
  | some v => exact .some (.same v)

/-- The node has what its log alone would have given it, and no lease waits to be deleted. -/
structure Follows (env env' : Env) (n : Replica) (p : Records × Batch) : Prop where
  records : AlikeButTimes env env' n.records p.1
  batch : List.Forall₂ (OpAlike fun _ _ => True) n.batch p.2
  cleaning : ∀ keys, n.compaction = some (.cleaning keys) → keys = []

variable {n m : Replica} {p : Records × Batch}

lemma Follows.committed (h : Follows env env' n p) (c : Committed) :
    AlikeButTimes env env' (c.apply env (n.records,n.batch)).1 (c.apply env' p).1 ∧
      List.Forall₂ (OpAlike fun _ _ => True) (c.apply env (n.records,n.batch)).2
        (c.apply env' p).2 := by
  obtain ⟨d,halike⟩ := h.records
  cases c with
  | operation op => exact ⟨⟨d,halike.applyRecords op⟩,h.batch⟩
  | legacy key val => exact ⟨⟨d,(halike.putUnlocked key val 0).1⟩,h.batch⟩
  | prepare op =>
    obtain ⟨hrecords,hbatch⟩ := halike.prepareRecords h.batch op
    exact ⟨⟨d,hrecords⟩,hbatch⟩
  | flush => exact ⟨⟨d,halike.write h.batch⟩,.nil⟩

lemma rel_insert_renewal {db : Database} {w : Renewal} {l : Lease}
    (hl : getLease db w.id = .ok (some l)) (hid : l.id = w.lease.id) (httl : l.ttl = w.lease.ttl)
    (hkeys : l.keys = w.lease.keys) (x : Bytes) :
    Option.Rel (ValueAlike fun _ _ => True) (db.insert (leaseKey w.id) (.lease w.lease))[x]?
      db[x]? := by
  rw [ExtTreeMap.getElem?_insert]
  by_cases hx : compare (leaseKey w.id) x = .eq
  · rw [if_pos hx,← LawfulEqCmp.compare_eq_iff_eq.mp hx,getLease_eq_some_iff.mp hl]
    obtain ⟨id,ttl,t,keys⟩ := l
    dsimp only at hid httl hkeys
    subst hid httl hkeys
    exact .some (.lease w.lease trivial)
  · rw [if_neg hx]
    cases db[x]? with
    | none => exact .none
    | some v => exact .some (.same v)

theorem Follows.step (h : Follows env env' n p) {e : ReplicaEvent} (hallowed : n.Allowed env e)
    (hm : n.step env e = some m) :
    Follows env env' m (e.log.toList.foldl (Committed.apply env') p) := by
  cases e with
  | committed c =>
    obtain rfl := Option.some.inj hm
    obtain ⟨hrecords,hbatch⟩ := h.committed c
    exact ⟨hrecords,hbatch,h.cleaning⟩
  | range key rangeEnd limit => exact Option.some.inj hm ▸ h
  | leaseTimeToLive id => exact Option.some.inj hm ▸ h
  | leaseRenew id =>
    obtain rfl := Option.some.inj hm
    rcases renew_cases env n id with ⟨t,hn,-⟩|⟨l,hn,-⟩
    all_goals
      rw [hn]
      exact ⟨h.records.congr (fun _ _ => rfl) rfl,h.batch,h.cleaning⟩
  | storeRenewal i =>
    cases hw : n.renewals[i]? with
    | none =>
      rw [Replica.step,hw] at hm
      cases hm
    | some w =>
      rw [Replica.step,hw] at hm
      obtain rfl := Option.some.inj hm
      obtain ⟨l,hl,hid,httl,hkeys⟩ := hallowed w hw
      exact ⟨h.records.change (fun x _ => rel_insert_renewal hl hid httl hkeys x) rfl,h.batch,
        h.cleaning⟩
  | compact revision =>
    rw [Replica.step] at hm
    split at hm
    · cases hm
    · rename_i hfree
      split_ifs at hm
      · obtain rfl := Option.some.inj hm
        refine ⟨h.records.congr (fun x hx => ?_) rfl,h.batch,fun keys hkeys => ?_⟩
        · exact getElem?_setCompactedRevision n.records.db revision hx
        · cases hkeys
      · exact Option.some.inj hm ▸ h
  | findExpired =>
    rw [Replica.step] at hm
    split at hm
    · obtain rfl := Option.some.inj hm
      refine ⟨h.records.congr (fun _ _ => rfl) rfl,h.batch,fun keys hkeys => ?_⟩
      rw [show expiredLeases n.records.db (env.clock n.records.ticks) = [] from hallowed] at hkeys
      cases hkeys
      rfl
    · cases hm
  | deleteExpired =>
    rw [Replica.step] at hm
    split at hm
    · rename_i k keys hcleaning
      exact absurd (h.cleaning _ hcleaning) (by simp)
    · obtain rfl := Option.some.inj hm
      refine ⟨h.records.congr (fun _ _ => rfl) rfl,h.batch,fun keys hkeys => ?_⟩
      cases hkeys
    · cases hm

theorem Follows.run {events : List ReplicaEvent} (h : Follows env env' n p)
    (hallowed : EveryStep (Replica.step env) (fun n e _ => n.Allowed env e) n events)
    (hm : events.foldlM (Replica.step env) n = some m) :
    Follows env env' m ((events.filterMap ReplicaEvent.log).foldl (Committed.apply env') p) := by
  induction events generalizing n p with
  | nil => exact Option.some.inj hm ▸ h
  | cons e events ih =>
    rw [List.foldlM_cons] at hm
    obtain ⟨n',hn',hm⟩ := Option.bind_eq_some_iff.mp hm
    obtain ⟨hfirst,hrest⟩ := everyStep_cons.mp hallowed n' hn'
    have hlast := ih (h.step hfirst hn') hrest hm
    rw [List.filterMap_cons]
    cases he : e.log with
    | none => rwa [he] at hlast
    | some c => rwa [he] at hlast

lemma follows_new (hformat : env.enableLeaseProtobuf = env'.enableLeaseProtobuf) :
    Follows env env' .new (Replica.new.records,[]) := by
  refine ⟨⟨0,fun x _ => ?_,rfl,by simp,fun _ => trivial,hformat⟩,.nil,fun keys hkeys => ?_⟩
  · rw [show Replica.new.records.db[x]? = none from ExtTreeMap.getElem?_empty]
    exact .none
  · cases hkeys

lemma AlikeButTimes.leaseKeys (h : AlikeButTimes env env' r s) (id : ℤ) :
    leaseKeys r.db id = RocksDB.leaseKeys s.db id := by
  obtain ⟨d,h⟩ := h
  have hlookup := h.getLease id
  unfold RocksDB.leaseKeys
  generalize getLease r.db id = u at hlookup ⊢
  generalize getLease s.db id = v at hlookup ⊢
  cases hlookup with
  | error err => rfl
  | none => rfl
  | some hlm =>
    obtain ⟨-,-,hkeys⟩ := hlm.fields
    simp only [Except.map,Option.map_some,hkeys]

end Follows

/-- Two nodes with the same format of leases that have taken the same steps of the log hold the
same records and the same leases with the same keys, whatever their clients have called and
their clocks have read in between, as long as no renewal writes back a lease that has changed
and no compaction finds a lease that has run out. -/
theorem replicas_agree {env env' : Env} (hformat : env.enableLeaseProtobuf = env'.enableLeaseProtobuf)
    {events events' : List ReplicaEvent}
    (hlog : events.filterMap ReplicaEvent.log = events'.filterMap ReplicaEvent.log)
    (hallowed : EveryStep (Replica.step env) (fun n e _ => n.Allowed env e) .new events)
    (hallowed' : EveryStep (Replica.step env') (fun n e _ => n.Allowed env' e) .new events')
    {n n' : Replica} (hn : events.foldlM (Replica.step env) .new = some n)
    (hn' : events'.foldlM (Replica.step env') .new = some n') :
    SameReplica n.records.db n'.records.db := by
  have h := ((follows_new rfl).run hallowed hn).records
  have h' := ((follows_new hformat.symm).run hallowed' hn').records
  rw [← hlog] at h'
  refine ⟨fun key => ?_,fun id => (h.leaseKeys id).trans (h'.leaseKeys id).symm⟩
  obtain ⟨d,h⟩ := h
  obtain ⟨d',h'⟩ := h'
  exact (h.getKeyValue key).trans (h'.getKeyValue key).symm

/-- One of the nodes renews the lease of a key and compacts before it has run out. -/
theorem replicas_agree_after_renewal :
    let env : Env := ⟨fun n => n*10^9,true⟩
    let grant : RaftOperation := { type := .leaseGrant, leaseID := 7, ttl := 60 }
    let put : RaftOperation := { type := .put, key := ascii "a", value := ascii "1", leaseID := 7 }
    let quiet : List ReplicaEvent := [.committed (.operation grant),.committed (.operation put)]
    let busy : List ReplicaEvent := [.committed (.operation grant),.leaseRenew 7,.storeRenewal 0,
      .committed (.operation put),.compact 1,.findExpired,.deleteExpired]
    (quiet.foldlM (Replica.step env) .new).isSome ∧ (busy.foldlM (Replica.step env) .new).isSome ∧
    ∀ n n', quiet.foldlM (Replica.step env) .new = some n →
      busy.foldlM (Replica.step env) .new = some n' → SameReplica n.records.db n'.records.db := by
  intro env grant put quiet busy
  have hlog : quiet.filterMap ReplicaEvent.log = busy.filterMap ReplicaEvent.log := rfl
  refine ⟨by decide,by decide,fun n n' hn hn' => replicas_agree rfl hlog ?_ ?_ hn hn'⟩
  · exact everyStep_cons.mpr fun _ _ => ⟨trivial,everyStep_cons.mpr fun _ _ => ⟨trivial,everyStep_nil _⟩⟩
  · refine everyStep_cons.mpr fun _ h₁ => ⟨trivial,everyStep_cons.mpr fun _ h₂ => ⟨trivial,
      everyStep_cons.mpr fun _ h₃ => ⟨?_,everyStep_cons.mpr fun _ h₄ => ⟨trivial,
      everyStep_cons.mpr fun _ h₅ => ⟨trivial,everyStep_cons.mpr fun _ h₆ => ⟨?_,
      everyStep_cons.mpr fun _ h₇ => ⟨trivial,everyStep_nil _⟩⟩⟩⟩⟩⟩⟩
    · obtain rfl := Option.some.inj h₁
      obtain rfl := Option.some.inj h₂
      intro w hw
      obtain rfl := Option.some.inj hw
      exact ⟨⟨7,60,0,∅⟩,by decide,rfl,rfl,rfl⟩
    · obtain rfl := Option.some.inj h₁
      obtain rfl := Option.some.inj h₂
      obtain rfl := Option.some.inj h₃
      obtain rfl := Option.some.inj h₄
      obtain rfl := Option.some.inj h₅
      rw [Replica.Allowed]
      decide

/-- A compaction on one of the nodes drops the lease that has run out there. The revoke then
deletes its key on the other node only. In the same way a renewal that is overtaken by the revoke
leaves the lease on its node. -/
theorem compaction_splits_replicas :
    let env : Env := ⟨fun n => n*10^10,true⟩
    let start : List ReplicaEvent :=
      [.committed (.operation { type := .leaseGrant, leaseID := 7, ttl := 1 }),
        .committed (.operation { type := .put, key := ascii "a", value := ascii "1", leaseID := 7 })]
    let revoke : ReplicaEvent := .committed (.operation { type := .leaseRevoke, leaseID := 7 })
    let view := fun n : Replica => ((getKeyValue n.records.db (ascii "a")).map KeyValue.value,
      (getLease n.records.db 7).toOption.map Option.isSome)
    ((start ++ [revoke]).foldlM (Replica.step env) .new).map view = some (none,some false) ∧
    ((start ++ [.compact 1,.findExpired,.deleteExpired,.deleteExpired,revoke]).foldlM
      (Replica.step env) .new).map view = some (some (ascii "1"),some false) ∧
    ((start ++ [.leaseRenew 7,revoke,.storeRenewal 0]).foldlM (Replica.step env) .new).map view =
      some (none,some true) := by
  intro env start revoke view
  refine ⟨by decide,by decide,by decide⟩

end MetaStore.RocksDB
