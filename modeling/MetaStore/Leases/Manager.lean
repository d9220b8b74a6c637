import MetaStore.Library.Transition
import MetaStore.KVStore.Types

/-! The lease manager of the server (api/etcd/lease_manager.go). It keeps a map of its own beside
the leases of the replicated store. A call of the store may fail, and then its operation is lost
or still to be applied. The map is empty after a restart. Maps are gone through in key order. -/
namespace MetaStore.Leases
open Std Transition

inductive Fate
  | applied | lost | pending
  deriving DecidableEq, Repr

inductive Failure
  | leaseNotFound | tooManyLeases | store
  deriving DecidableEq, Repr

inductive Operation
  | grant (lease : Lease)
  | revoke (id : ℤ)

/-- The leases of the replicated store, and the operations whose calls have given up on them. -/
structure Store where
  leases : ExtTreeMap ℤ Lease
  pending : List Operation

namespace Store

def apply (s : Store) : Operation → Store
  | .grant lease => { s with leases := s.leases.insert lease.id lease }
  | .revoke id => { s with leases := s.leases.erase id }

def propose (s : Store) (fate : Fate) (op : Operation) : Except Failure Unit × Store :=
  match fate with
  | .applied => (.ok (),s.apply op)
  | .lost => (.error .store,s)
  | .pending => (.error .store,{ s with pending := s.pending ++ [op] })

def leaseGrant (s : Store) (fate : Fate) (now id ttl : ℤ) : Except Failure Lease × Store :=
  let lease : Lease := ⟨id,ttl,now,∅⟩
  match s.propose fate (.grant lease) with
  | (.error err,s) => (.error err,s)
  | (.ok _,s) => (.ok lease,s)

def leaseRevoke (s : Store) (fate : Fate) (id : ℤ) : Except Failure Unit × Store :=
  s.propose fate (.revoke id)

/-- Renewals do not go through the log. -/
def leaseRenew (s : Store) (ok : Bool) (now id : ℤ) : Except Failure Lease × Store :=
  match s.leases[id]? with
  | none => (.error .store,s)
  | some lease =>
    let lease := { lease with grantTime := now }
    if ok then (.ok lease,{ s with leases := s.leases.insert id lease }) else (.error .store,s)

end Store

structure LeaseManager where
  store : Store
  leases : ExtTreeMap ℤ Lease
  stopped : Bool
  maxLeaseCount : ℤ

namespace LeaseManager

/-- `NewLeaseManager`. -/
def new (store : Store) (maxLeaseCount : ℤ) : LeaseManager := ⟨store,∅,false,maxLeaseCount⟩

def stop (lm : LeaseManager) : LeaseManager := { lm with stopped := true }

def grant (lm : LeaseManager) (fate : Fate) (now id ttl : ℤ) :
    Except Failure Lease × LeaseManager :=
  if lm.stopped then (.error .leaseNotFound,lm)
  else if 0 < lm.maxLeaseCount ∧ lm.maxLeaseCount ≤ lm.leases.size then (.error .tooManyLeases,lm)
  else
    match lm.store.leaseGrant fate now id ttl with
    | (.error err,store) => (.error err,{ lm with store })
    | (.ok lease,store) => (.ok lease,{ lm with store, leases := lm.leases.insert id lease })

/-- The lease is out of the map before the store is asked. -/
def revoke (lm : LeaseManager) (fate : Fate) (id : ℤ) : Except Failure Unit × LeaseManager :=
  if id ∉ lm.leases then (.error .leaseNotFound,lm)
  else
    let (result,store) := lm.store.leaseRevoke fate id
    (result,{ lm with store, leases := lm.leases.erase id })

def renew (lm : LeaseManager) (ok : Bool) (now id : ℤ) : Except Failure Lease × LeaseManager :=
  if id ∉ lm.leases then (.error .leaseNotFound,lm)
  else
    match lm.store.leaseRenew ok now id with
    | (.error err,store) => (.error err,{ lm with store })
    | (.ok lease,store) => (.ok lease,{ lm with store, leases := lm.leases.insert id lease })

def timeToLive (lm : LeaseManager) (id : ℤ) : Except Failure Lease :=
  if id ∉ lm.leases then .error .leaseNotFound
  else
    match lm.store.leases[id]? with
    | none => .error .store
    | some lease => .ok lease

def expiredIDs (lm : LeaseManager) (now : ℤ) : List ℤ :=
  (lm.leases.toList.filter fun item => item.2.isExpired now).map Prod.fst

/-- The errors of the revocations are logged only. -/
def checkExpiredLeases (lm : LeaseManager) (now : ℤ) (fates : ℤ → Fate) : LeaseManager :=
  (lm.expiredIDs now).foldl (fun lm id => (lm.revoke (fates id) id).2) lm

end LeaseManager

/-! ### Runs -/

inductive Event
  | grant (fate : Fate) (now id ttl : ℤ)
  | revoke (fate : Fate) (id : ℤ)
  | renew (ok : Bool) (now id : ℤ)
  | checkExpiredLeases (now : ℤ) (fates : ℤ → Fate)
  | apply (i : ℕ)
  | stop
  | restart

def step (lm : LeaseManager) : Event → Option LeaseManager
  | .grant fate now id ttl => some (lm.grant fate now id ttl).2
  | .revoke fate id => some (lm.revoke fate id).2
  | .renew ok now id => some (lm.renew ok now id).2
  | .checkExpiredLeases now fates => some (lm.checkExpiredLeases now fates)
  | .apply i => lm.store.pending[i]?.map fun op =>
      { lm with store := { lm.store.apply op with pending := lm.store.pending.eraseIdx i } }
  | .stop => some lm.stop
  | .restart => some (.new lm.store lm.maxLeaseCount)

def Watched (lm : LeaseManager) : Prop := ∀ id, id ∈ lm.leases ↔ id ∈ lm.store.leases

def Operation.Done (lm : LeaseManager) : Operation → Prop
  | .grant lease => lease.id ∈ lm.leases
  | .revoke id => id ∉ lm.leases

/-- A revocation of a tracked lease goes through at once, an operation that is applied late finds
what it does already done, and nobody restarts the server over a store with leases. -/
def Event.Safe (lm : LeaseManager) : Event → Prop
  | .revoke fate id => id ∈ lm.leases → fate = .applied
  | .checkExpiredLeases now fates => ∀ id ∈ lm.expiredIDs now, fates id = .applied
  | .apply i => ∀ op, lm.store.pending[i]? = some op → op.Done lm
  | .restart => ∀ id, id ∉ lm.store.leases
  | _ => True

/-! ### The calls -/

section Calls
variable {lm : LeaseManager}
variable {id : ℤ}

lemma watched_grant (h : Watched lm) (fate : Fate) (now id ttl : ℤ) :
    Watched (lm.grant fate now id ttl).2 := by
  rw [LeaseManager.grant]
  split_ifs
  · exact h
  · exact h
  cases fate with
  | applied =>
    intro k
    change k ∈ lm.leases.insert id _ ↔ k ∈ lm.store.leases.insert id _
    rw [ExtTreeMap.mem_insert,ExtTreeMap.mem_insert,h k]
  | lost => exact h
  | pending => exact h

lemma watched_renew (h : Watched lm) (ok : Bool) (now id : ℤ) :
    Watched (lm.renew ok now id).2 := by
  by_cases hid : id ∈ lm.leases
  swap
  · rw [LeaseManager.renew,if_pos hid]
    exact h
  rw [LeaseManager.renew,if_neg (not_not.mpr hid),Store.leaseRenew]
  cases lm.store.leases[id]? with
  | none => exact h
  | some lease =>
    cases ok with
    | false => exact h
    | true =>
      intro k
      change k ∈ lm.leases.insert id _ ↔ k ∈ lm.store.leases.insert id _
      rw [ExtTreeMap.mem_insert,ExtTreeMap.mem_insert,h k]

lemma mem_leases_revoke (fate : Fate) (id k : ℤ) :
    k ∈ (lm.revoke fate id).2.leases ↔ k ≠ id ∧ k ∈ lm.leases := by
  rw [LeaseManager.revoke]
  by_cases hid : id ∈ lm.leases
  · rw [if_neg (not_not.mpr hid)]
    change k ∈ lm.leases.erase id ↔ _
    rw [ExtTreeMap.mem_erase,ne_eq,Std.compare_eq_iff_eq,eq_comm]
  · rw [if_pos hid]
    exact ⟨fun hk => ⟨fun heq => hid (heq ▸ hk),hk⟩,And.right⟩

def Unwatched (id : ℤ) (lm : LeaseManager) : Prop := id ∉ lm.leases ∧ id ∈ lm.store.leases

lemma unwatched_of_failed (h : Watched lm) (hid : id ∈ lm.leases) {fate : Fate}
    (hfate : fate ≠ .applied) : Unwatched id (lm.revoke fate id).2 := by
  refine ⟨fun hmem => ((mem_leases_revoke fate id id).mp hmem).1 rfl,?_⟩
  rw [LeaseManager.revoke,if_neg (not_not.mpr hid)]
  have hstore := (h id).mp hid
  cases fate with
  | applied => exact absurd rfl hfate
  | lost => exact hstore
  | pending => exact hstore

lemma watched_revoke_iff (h : Watched lm) (fate : Fate) (id : ℤ) :
    Watched (lm.revoke fate id).2 ↔ (id ∈ lm.leases → fate = .applied) := by
  by_cases hid : id ∈ lm.leases
  swap
  · rw [LeaseManager.revoke,if_pos hid]
    exact iff_of_true h fun hmem => absurd hmem hid
  by_cases hfate : fate = .applied
  · subst hfate
    refine iff_of_true (fun k => ?_) fun _ => rfl
    rw [LeaseManager.revoke,if_neg (not_not.mpr hid)]
    change k ∈ lm.leases.erase id ↔ k ∈ lm.store.leases.erase id
    rw [ExtTreeMap.mem_erase,ExtTreeMap.mem_erase,h k]
  · have hlost := unwatched_of_failed h hid hfate
    exact iff_of_false (fun hwatched => hlost.1 ((hwatched id).mpr hlost.2))
      fun hall => hfate (hall hid)

lemma Unwatched.revoke (h : Unwatched id lm) {k : ℤ} (hk : k ≠ id) (fate : Fate) :
    Unwatched id (lm.revoke fate k).2 := by
  obtain ⟨hnot,hstore⟩ := h
  refine ⟨fun hmem => hnot ((mem_leases_revoke fate k id).mp hmem).2,?_⟩
  rw [LeaseManager.revoke]
  by_cases hid : k ∈ lm.leases
  · rw [if_neg (not_not.mpr hid)]
    cases fate with
    | applied =>
      change id ∈ lm.store.leases.erase k
      rw [ExtTreeMap.mem_erase,ne_eq,Std.compare_eq_iff_eq]
      exact ⟨hk,hstore⟩
    | lost => exact hstore
    | pending => exact hstore
  · rw [if_pos hid]
    exact hstore

lemma Unwatched.revokes (h : Unwatched id lm) (fates : ℤ → Fate) {ids : List ℤ}
    (hids : id ∉ ids) :
    Unwatched id (ids.foldl (fun lm id => (lm.revoke (fates id) id).2) lm) := by
  induction ids generalizing lm with
  | nil => exact h
  | cons k ids ih =>
    exact ih (h.revoke (fun heq => hids (heq ▸ List.mem_cons_self)) (fates k))
      fun hmem => hids (List.mem_cons_of_mem k hmem)

lemma watched_revokes_iff (h : Watched lm) (fates : ℤ → Fate) {ids : List ℤ} (hnodup : ids.Nodup)
    (hids : ∀ id ∈ ids, id ∈ lm.leases) :
    Watched (ids.foldl (fun lm id => (lm.revoke (fates id) id).2) lm) ↔
      ∀ id ∈ ids, fates id = .applied := by
  induction ids generalizing lm with
  | nil => exact iff_of_true h fun id hid => absurd hid List.not_mem_nil
  | cons id ids ih =>
    obtain ⟨hnew,hnodup⟩ := List.nodup_cons.mp hnodup
    have hid := hids id List.mem_cons_self
    have hrest : ∀ k ∈ ids, k ∈ (lm.revoke (fates id) id).2.leases := fun k hk =>
      (mem_leases_revoke _ id k).mpr
        ⟨fun heq => hnew (heq ▸ hk),hids k (List.mem_cons_of_mem id hk)⟩
    rw [List.foldl_cons,List.forall_mem_cons]
    by_cases hfate : fates id = .applied
    · rw [ih ((watched_revoke_iff h _ id).mpr fun _ => hfate) hnodup hrest]
      exact ⟨fun hids => ⟨hfate,hids⟩,And.right⟩
    · refine iff_of_false (fun hwatched => ?_) fun hall => hfate hall.1
      have hlost := (unwatched_of_failed h hid hfate).revokes fates hnew
      exact hlost.1 ((hwatched id).mpr hlost.2)

lemma nodup_expiredIDs (lm : LeaseManager) (now : ℤ) : (lm.expiredIDs now).Nodup := by
  rw [LeaseManager.expiredIDs,List.Nodup,List.pairwise_map]
  refine (ExtTreeMap.distinct_keys_toList.filter _).imp ?_
  intro a b hne heq
  exact hne (by rw [heq]; exact ReflCmp.compare_self)

lemma mem_leases_of_expired {now : ℤ} (h : id ∈ lm.expiredIDs now) : id ∈ lm.leases := by
  obtain ⟨item,hitem,rfl⟩ := List.mem_map.mp h
  have hmem := (List.mem_filter.mp hitem).1
  rw [ExtTreeMap.mem_iff_isSome_getElem?,ExtTreeMap.mem_toList_iff_getElem?_eq_some.mp hmem]
  rfl

lemma watched_apply_iff (h : Watched lm) {op : Operation} (pending : List Operation) :
    Watched { lm with store := { lm.store.apply op with pending } } ↔ op.Done lm := by
  cases op with
  | grant lease =>
    change (∀ k, k ∈ lm.leases ↔ k ∈ lm.store.leases.insert lease.id lease) ↔ lease.id ∈ lm.leases
    simp only [ExtTreeMap.mem_insert,← h _,Std.compare_eq_iff_eq]
    exact ⟨fun hall => (hall lease.id).mpr (Or.inl rfl),
      fun hid k => ⟨Or.inr,fun hk => hk.elim (fun heq => heq ▸ hid) id⟩⟩
  | revoke id =>
    change (∀ k, k ∈ lm.leases ↔ k ∈ lm.store.leases.erase id) ↔ id ∉ lm.leases
    simp only [ExtTreeMap.mem_erase,← h _,ne_eq,Std.compare_eq_iff_eq]
    exact ⟨fun hall hid => ((hall id).mp hid).1 rfl,
      fun hid k => ⟨fun hk => ⟨fun heq => hid (heq ▸ hk),hk⟩,And.right⟩⟩

end Calls

/-- The tracked leases are those of the store after an event exactly when it is a safe one. -/
lemma watched_step_iff {lm lm' : LeaseManager} {event : Event} (h : Watched lm)
    (hstep : step lm event = some lm') : Watched lm' ↔ event.Safe lm := by
  cases event with
  | grant fate now id ttl =>
    obtain rfl := Option.some.inj hstep
    exact iff_of_true (watched_grant h fate now id ttl) trivial
  | revoke fate id =>
    obtain rfl := Option.some.inj hstep
    exact watched_revoke_iff h fate id
  | renew ok now id =>
    obtain rfl := Option.some.inj hstep
    exact iff_of_true (watched_renew h ok now id) trivial
  | checkExpiredLeases now fates =>
    obtain rfl := Option.some.inj hstep
    exact watched_revokes_iff h fates (nodup_expiredIDs lm now) fun id => mem_leases_of_expired
  | apply i =>
    obtain ⟨op,hop,rfl⟩ := Option.map_eq_some_iff.mp hstep
    rw [watched_apply_iff h]
    refine ⟨fun hop' op' hop'' => ?_,fun hall => hall op hop⟩
    obtain rfl := Option.some.inj (hop.symm.trans hop'')
    exact hop'
  | stop =>
    obtain rfl := Option.some.inj hstep
    exact iff_of_true h trivial
  | restart =>
    obtain rfl := Option.some.inj hstep
    change (∀ id, id ∈ (∅ : ExtTreeMap ℤ Lease) ↔ id ∈ lm.store.leases) ↔ _
    simp [Event.Safe]

/-- The manager tracks exactly the leases of the store in all of a run, if and only if every
event of the run is safe. -/
theorem leases_watched_iff (maxLeaseCount : ℤ) (events : List Event) :
    EveryState step Watched (.new ⟨∅,[]⟩ maxLeaseCount) events ↔
      EveryStep step (fun lm event _ => event.Safe lm) (.new ⟨∅,[]⟩ maxLeaseCount) events :=
  always_iff (fun _ _ _ h hstep => watched_step_iff h hstep) (fun id => by simp [LeaseManager.new])
    events

/-- A lease in the store without a manager: after a restart, after a revocation that failed, and
after a grant that was applied too late for its call. -/
theorem leases_unwatched :
    let after (events : List Event) := events.foldlM step (.new ⟨∅,[]⟩ 0)
    let unwatched (lm : LeaseManager) := decide (1 ∉ lm.leases ∧ 1 ∈ lm.store.leases)
    (after [.grant .applied 0 1 60,.restart]).map unwatched = some true ∧
    (after [.grant .applied 0 1 60,.revoke .lost 1]).map unwatched = some true ∧
    (after [.grant .pending 0 1 60,.apply 0]).map unwatched = some true := by
  refine ⟨?_,?_,?_⟩ <;> decide +kernel

end MetaStore.Leases
