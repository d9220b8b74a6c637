import MetaStore.Library.Transition
import MetaStore.Memory.Time
import MetaStore.Memory.Apply

/-! Lease ids chosen by the server (api/etcd/lease.go, over the memory engine). A `LeaseGrant`
without an id takes the revision of its node plus one when it is requested, and the operation is
committed and applied later, on every node. -/
namespace MetaStore.Leases.AutoIds
open Std Transition Memory

/-- An operation, and whether the server has chosen the id in it. -/
structure Entry where
  op : RaftOperation
  automatic : Bool

/-- The requests, with the operations of all other kinds (puts, deletions, transactions). -/
inductive Request
  | leaseGrant (id ttl : ℤ)
  | leaseRevoke (id : ℤ)
  | write (op : RaftOperation) (hgrant : op.type ≠ .leaseGrant) (hrevoke : op.type ≠ .leaseRevoke)

def Request.entry (revision : ℤ) : Request → Entry
  | leaseGrant id ttl =>
    let leaseID := if id = 0 then revision+1 else id
    ⟨{ type := .leaseGrant, leaseID := leaseID, ttl := ttl },decide (id = 0)⟩
  | leaseRevoke id => ⟨{ type := .leaseRevoke, leaseID := id },false⟩
  | write op _ _ => ⟨op,false⟩

structure Cluster where
  log : List Entry
  pending : List Entry
  applied : ℕ → ℕ
  nodes : ℕ → Memory

def Cluster.init : Cluster := ⟨[],[],fun _ => 0,fun _ => ⟨.empty,.empty⟩⟩

inductive Event
  | request (node : ℕ) (r : Request)
  | commit (i : ℕ)
  | lose (i : ℕ)
  | apply (node : ℕ)

section Steps
variable (clocks : ℕ → Clock)

def step (c : Cluster) : Event → Option Cluster
  | .request node r =>
    some { c with pending := c.pending ++ [r.entry (c.nodes node).etcd.revision] }
  | .commit i => c.pending[i]?.map fun e =>
      { c with log := c.log ++ [e], pending := c.pending.eraseIdx i }
  | .lose i => some { c with pending := c.pending.eraseIdx i }
  | .apply node => c.log[c.applied node]?.map fun e =>
      { c with
        applied := Function.update c.applied node (c.applied node+1)
        nodes := Function.update c.nodes node ((c.nodes node).applyOperation (clocks node) e.op) }

/-- An id that the server has chosen belongs to no lease when the grant is applied, and the
leases that are there stay as they are. -/
def Fresh (c : Cluster) (event : Event) (c' : Cluster) : Prop :=
  ∀ node e, event = .apply node → c.log[c.applied node]? = some e → e.automatic = true →
    e.op.leaseID ∉ (c.nodes node).etcd.leases ∧
      ∀ (id : ℤ) lease, (c.nodes node).etcd.leases[id]? = some lease →
        (c'.nodes node).etcd.leases[id]? = some lease

end Steps

def liveAfter (live : Set ℤ) (e : Entry) : Set ℤ :=
  match e.op.type with
  | .leaseGrant => insert e.op.leaseID live
  | .leaseRevoke => live \ {e.op.leaseID}
  | _ => live

def live (log : List Entry) : Set ℤ := log.foldl liveAfter ∅

def Entry.Grants (e : Entry) (id : ℤ) : Prop := e.op.type = .leaseGrant ∧ e.op.leaseID = id

def Apart (e e' : Entry) : Prop :=
  e.automatic = true ∨ e'.automatic = true → ∀ id, e.Grants id → ¬ e'.Grants id

/-- The id that the server chooses belongs to no lease of the log, and no grant asks for an id
that an outstanding grant asks for, if the server has chosen it for one of them. -/
def Event.Safe (c : Cluster) : Event → Prop
  | .request node r =>
    let e := r.entry (c.nodes node).etcd.revision
    (e.automatic = true → e.op.leaseID ∉ live c.log) ∧ ∀ e' ∈ c.pending, Apart e' e
  | _ => True

lemma SameStamps.mem_iff {leases leases' : ExtTreeMap ℤ Lease} (h : SameStamps leases leases')
    (id : ℤ) : id ∈ leases ↔ id ∈ leases' := by
  have hid := congrArg Option.isSome (h id)
  rw [Option.isSome_map,Option.isSome_map] at hid
  rw [ExtTreeMap.mem_iff_isSome_getElem?,ExtTreeMap.mem_iff_isSome_getElem?,hid]

lemma mem_leases_revoke_direct (clock : Clock) (s : MemoryEtcd) (leaseID id : ℤ) :
    id ∈ (s.applyLeaseOperationDirect clock .leaseRevoke leaseID 0).leases ↔
      id ∈ s.leases ∧ id ≠ leaseID := by
  rw [MemoryEtcd.applyLeaseOperationDirect]
  cases hlease : s.leases[leaseID]? with
  | none =>
    refine ⟨fun hid => ⟨hid,?_⟩,And.left⟩
    rintro rfl
    rw [ExtTreeMap.mem_iff_isSome_getElem?,hlease] at hid
    cases hid
  | some lease =>
    -- the keys of the lease are deleted from the others only
    have hkept := SameStamps.mem_iff (sameStamps_foldl (fun t key => t.stamps_deleteDirect key [])
      lease.keys.toList { s with leases := s.leases.erase leaseID }) id
    refine hkept.trans ?_
    rw [ExtTreeMap.mem_erase,Ne,Std.compare_eq_iff_eq,and_comm,eq_comm]

lemma mem_leases_applyOperation (clock : Clock) {m : Memory} {ids : Set ℤ}
    (h : ∀ id, id ∈ m.etcd.leases ↔ id ∈ ids) (e : Entry) (id : ℤ) :
    id ∈ (m.applyOperation clock e.op).etcd.leases ↔ id ∈ liveAfter ids e := by
  rw [applyOperation,notify,applyEffect,liveAfter]
  cases htype : e.op.type with
  | put => exact (SameStamps.mem_iff (sameStamps_updateKeys _ _ _) id).trans (h id)
  | delete => exact (SameStamps.mem_iff (m.etcd.stamps_deleteDirect _ _) id).trans (h id)
  | txn => exact (SameStamps.mem_iff (MemoryEtcd.stamps_txnOps clock m.etcd _) id).trans (h id)
  | other name => exact h id
  | leaseGrant =>
    dsimp only [applyLease]
    rw [htype,MemoryEtcd.applyLeaseOperationDirect,ExtTreeMap.mem_insert,h id,
      Std.compare_eq_iff_eq,eq_comm]
    exact Set.mem_insert_iff.symm
  | leaseRevoke =>
    dsimp only [applyLease]
    rw [htype,mem_leases_revoke_direct,h id]
    exact Set.mem_sdiff_singleton.symm

lemma getElem?_leases_grant (clock : Clock) {m : Memory} {op : RaftOperation}
    (hop : op.type = .leaseGrant) (hnew : op.leaseID ∉ m.etcd.leases) {id : ℤ} {lease : Lease}
    (hid : m.etcd.leases[id]? = some lease) :
    (m.applyOperation clock op).etcd.leases[id]? = some lease := by
  have hne : op.leaseID ≠ id := by
    rintro rfl
    exact hnew (ExtTreeMap.mem_iff_isSome_getElem?.mpr (hid ▸ rfl))
  rw [applyOperation,notify,applyEffect,hop]
  dsimp only [applyLease]
  rw [hop,MemoryEtcd.applyLeaseOperationDirect,ExtTreeMap.getElem?_insert,
    if_neg fun heq => hne (Std.compare_eq_iff_eq.mp heq)]
  exact hid

lemma Apart.symm {e e' : Entry} (h : Apart e e') : Apart e' e :=
  fun hauto id he he' => h hauto.symm id he' he

lemma live_append (log : List Entry) (e : Entry) : live (log ++ [e]) = liveAfter (live log) e :=
  List.foldl_append

lemma mem_of_mem_liveAfter {ids : Set ℤ} {e : Entry} {id : ℤ} (h : id ∈ liveAfter ids e)
    (he : ¬ e.Grants id) : id ∈ ids := by
  rw [liveAfter] at h
  split at h
  · next htype => exact (Set.mem_insert_iff.mp h).resolve_left fun hid => he ⟨htype,hid.symm⟩
  · exact h.1
  · exact h

lemma Request.grants_of_automatic {revision : ℤ} {r : Request}
    (h : (r.entry revision).automatic = true) :
    (r.entry revision).Grants (r.entry revision).op.leaseID := by
  cases r with
  | leaseGrant id ttl => exact ⟨rfl,rfl⟩
  | leaseRevoke id => cases h
  | write op hgrant hrevoke => cases h

/-- The nodes have the leases of the log they have applied. The ids that the server has chosen were
not live when they were committed, and those that are outstanding are not live yet. -/
structure Sound (c : Cluster) : Prop where
  replicas : ∀ node id, id ∈ (c.nodes node).etcd.leases ↔ id ∈ live (c.log.take (c.applied node))
  committed : ∀ i e, c.log[i]? = some e → e.automatic = true →
    e.Grants e.op.leaseID ∧ e.op.leaseID ∉ live (c.log.take i)
  outstanding : ∀ e ∈ c.pending, e.automatic = true →
    e.Grants e.op.leaseID ∧ e.op.leaseID ∉ live c.log
  apart : c.pending.Pairwise Apart
  within : ∀ node, c.applied node ≤ c.log.length

lemma sound_init : Sound .init where
  replicas node id := by simp [Cluster.init,live,MemoryEtcd.empty]
  committed i e h := by simp [Cluster.init] at h
  outstanding e h := by simp [Cluster.init] at h
  apart := .nil
  within node := le_rfl

namespace Sound
variable {c : Cluster}
variable {clocks : ℕ → Clock}

lemma request (h : Sound c) {node : ℕ} {r : Request} (hsafe : (Event.request node r).Safe c) :
    Sound { c with pending := c.pending ++ [r.entry (c.nodes node).etcd.revision] } := by
  obtain ⟨hnew,hapart⟩ := hsafe
  refine ⟨h.replicas,h.committed,?_,?_,h.within⟩
  · intro e he hauto
    obtain he | he := List.mem_append.mp he
    · exact h.outstanding e he hauto
    · obtain rfl := List.mem_singleton.mp he
      exact ⟨Request.grants_of_automatic hauto,hnew hauto⟩
  · refine List.pairwise_append.mpr ⟨h.apart,List.pairwise_singleton _ _,?_⟩
    intro e' he' e he
    obtain rfl := List.mem_singleton.mp he
    exact hapart e' he'

lemma commit (h : Sound c) {i : ℕ} {e : Entry} (he : c.pending[i]? = some e) :
    Sound { c with log := c.log ++ [e], pending := c.pending.eraseIdx i } := by
  obtain ⟨hi,rfl⟩ := List.getElem?_eq_some_iff.mp he
  -- the committed operation against those that stay outstanding
  have hperm : (c.pending[i] :: c.pending.eraseIdx i).Pairwise Apart :=
    (List.getElem_cons_eraseIdx_perm hi).pairwise_iff (fun h => h.symm) |>.mpr h.apart
  obtain ⟨hothers,hrest⟩ := List.pairwise_cons.mp hperm
  have htake : ∀ n ≤ c.log.length, (c.log ++ [c.pending[i]]).take n = c.log.take n :=
    fun n hn => List.take_append_of_le_length hn
  refine ⟨?_,?_,?_,hrest,?_⟩
  · intro node id
    dsimp only
    rw [htake _ (h.within node)]
    exact h.replicas node id
  · intro j e' he' hauto
    obtain hj | hj := Nat.lt_or_ge j c.log.length
    · dsimp only at he' ⊢
      rw [List.getElem?_append_left hj] at he'
      rw [htake _ hj.le]
      exact h.committed j e' he' hauto
    · dsimp only at he' ⊢
      rw [List.getElem?_append_right hj] at he'
      obtain ⟨hlen,rfl⟩ := List.getElem?_eq_some_iff.mp he'
      have hj' : j = c.log.length := by
        have : j-c.log.length < 1 := hlen
        omega
      subst hj'
      rw [htake _ le_rfl,List.take_length]
      have hmem : c.pending[i] ∈ c.pending := List.getElem_mem hi
      simp only [Nat.sub_self,List.getElem_singleton] at hauto ⊢
      exact h.outstanding _ hmem hauto
  · intro e' he' hauto
    obtain ⟨hgrants,hlive⟩ := h.outstanding e' (List.mem_of_mem_eraseIdx he') hauto
    refine ⟨hgrants,fun hmem => hlive ?_⟩
    dsimp only at hmem
    rw [live_append] at hmem
    exact mem_of_mem_liveAfter hmem fun hother =>
      hothers e' he' (Or.inr hauto) _ hother hgrants
  · intro node
    have := h.within node
    dsimp only
    rw [List.length_append]
    omega

lemma lose (h : Sound c) (i : ℕ) : Sound { c with pending := c.pending.eraseIdx i } :=
  ⟨h.replicas,h.committed,fun e he => h.outstanding e (List.mem_of_mem_eraseIdx he),
    h.apart.sublist (List.eraseIdx_sublist _ _),h.within⟩

lemma apply (h : Sound c) (clock : Clock) {node : ℕ} {e : Entry}
    (he : c.log[c.applied node]? = some e) :
    Sound { c with
      applied := Function.update c.applied node (c.applied node+1)
      nodes := Function.update c.nodes node ((c.nodes node).applyOperation clock e.op) } := by
  obtain ⟨hlen,rfl⟩ := List.getElem?_eq_some_iff.mp he
  refine ⟨?_,h.committed,h.outstanding,h.apart,?_⟩
  · intro n id
    dsimp only
    by_cases hn : n = node
    · subst hn
      rw [Function.update_self,Function.update_self,List.take_succ_eq_append_getElem hlen,live_append]
      exact mem_leases_applyOperation clock (h.replicas n) _ id
    · rw [Function.update_of_ne hn,Function.update_of_ne hn]
      exact h.replicas n id
  · intro n
    dsimp only
    by_cases hn : n = node
    · rw [hn,Function.update_self]
      exact hlen
    · rw [Function.update_of_ne hn]
      exact h.within n

lemma step (h : Sound c) {event : Event} (hsafe : event.Safe c) {c' : Cluster}
    (hstep : step clocks c event = some c') : Sound c' := by
  cases event with
  | request node r =>
    obtain rfl := Option.some.inj hstep
    exact h.request hsafe
  | commit i =>
    obtain ⟨e,he,rfl⟩ := Option.map_eq_some_iff.mp hstep
    exact h.commit he
  | lose i =>
    obtain rfl := Option.some.inj hstep
    exact h.lose i
  | apply node =>
    obtain ⟨e,he,rfl⟩ := Option.map_eq_some_iff.mp hstep
    exact h.apply (clocks node) he

lemma fresh (h : Sound c) {event : Event} {c' : Cluster}
    (hstep : AutoIds.step clocks c event = some c') : Fresh c event c' := by
  rintro node e rfl he hauto
  obtain ⟨hgrants,hlive⟩ := h.committed _ e he hauto
  have hnew : e.op.leaseID ∉ (c.nodes node).etcd.leases :=
    fun hmem => hlive ((h.replicas node _).mp hmem)
  refine ⟨hnew,fun id lease hid => ?_⟩
  obtain ⟨e',he',rfl⟩ := Option.map_eq_some_iff.mp hstep
  obtain rfl := Option.some.inj (he.symm.trans he')
  dsimp only
  rw [Function.update_self]
  exact getElem?_leases_grant _ hgrants.1 hnew hid

end Sound

/-- If all requests of a run are safe, the ids that the server has chosen are unused when their
grants are applied, on every node. -/
theorem automatic_ids_fresh (clocks : ℕ → Clock) (events : List Event)
    (h : EveryStep (step clocks) (fun c event _ => event.Safe c) .init events) :
    EveryStep (step clocks) Fresh .init events := by
  have hsound : EveryState (step clocks) Sound .init events :=
    everyState_of_everyStep (fun c event _ c' hc hstep hsafe => hc.step hsafe hstep) sound_init h
  intro p event hp c c' hc hstep
  exact (hsound p ((List.prefix_append p _).trans hp) c hc).fresh hstep

/-- A grant without an id and then one with an id of its own. -/
theorem automatic_ids_fresh_two :
    let events : List Event := [.request 0 (.leaseGrant 0 60),.commit 0,.apply 0,
      .request 0 (.leaseGrant 7 60),.commit 0,.apply 0,.apply 1]
    EveryStep (step fun _ _ => 0) Fresh .init events ∧
      (events.foldlM (step fun _ _ => 0) .init).map (fun c => ((c.nodes 0).etcd.leases.keys,
        (c.nodes 1).etcd.leases.keys)) = some ([1,7],[1]) := by
  refine ⟨automatic_ids_fresh _ _ ?_,by decide +kernel⟩
  refine everyStep_of_some rfl ⟨fun _ h => h,fun e he => absurd he List.not_mem_nil⟩ ?_
  refine everyStep_of_some rfl trivial ?_
  refine everyStep_of_some rfl trivial ?_
  refine everyStep_of_some rfl ⟨fun h => absurd h (by decide),
    fun e he => absurd he List.not_mem_nil⟩ ?_
  refine everyStep_of_some rfl trivial ?_
  refine everyStep_of_some rfl trivial ?_
  exact everyStep_cons.mpr fun v hv => ⟨trivial,everyStep_nil v⟩

/-- Two grants without an id and no write applied in between get the same id. The second takes the
lease over and the key that was put under it is attached to no lease. -/
theorem automatic_id_taken :
    let put : RaftOperation := { type := .put, key := [107], value := [118], leaseID := 1 }
    let before := [.request 0 (.leaseGrant 0 60),.commit 0,.apply 0,
      .request 0 (.write put (by decide) (by decide)),.request 0 (.leaseGrant 0 5),.commit 0,
      .apply 0,.commit 0].foldlM (step fun _ _ => 0) .init
    let after := before.bind fun c => step (fun _ _ => 0) c (.apply 0)
    let lease (c : Cluster) := (c.nodes 0).etcd.leases[(1 : ℤ)]?.map fun l => (l.ttl,l.keys.toList)
    before.map (fun c => (c.log[2]?.map fun e => (e.automatic,e.op.leaseID),lease c)) =
      some (some (true,1),some (60,[[107]])) ∧
    after.map lease = some (some (5,[])) := by
  decide +kernel

end MetaStore.Leases.AutoIds
