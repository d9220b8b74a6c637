import MetaStore.Library.Association
import MetaStore.Library.Transition
import MetaStore.Memory.BatchRefinement
import MetaStore.Memory.Transactions

/-! Which keys belong to a lease of the memory engine is stored twice: a record names its
lease, a lease lists its keys. Deletions and revokes keep the two sides together. A put tells
the lease it names and not the one the record named before, and a grant starts with an empty
list whatever the records say. -/
namespace MetaStore.Memory
open Std Association Transition
variable {leases : ExtTreeMap ℤ Lease}

def Lists (leases : ExtTreeMap ℤ Lease) (id : ℤ) (key : Bytes) : Prop :=
  ∃ l, leases[id]? = some l ∧ key ∈ l.keys

lemma lists_congr {leases' : ExtTreeMap ℤ Lease} {id : ℤ} (h : leases'[id]? = leases[id]?)
    (key : Bytes) : Lists leases' id key ↔ Lists leases id key := by
  unfold Lists
  rw [h]

lemma lists_attachKey {leaseID : ℤ} (h : leaseID = 0 ∨ leaseID ∈ leases)
    (key : Bytes) (id : ℤ) (k : Bytes) : Lists (attachKey leases leaseID key) id k ↔
      Lists leases id k ∨ id ≠ 0 ∧ id = leaseID ∧ k = key := by
  by_cases hid : leaseID ≠ 0 ∧ id = leaseID
  · obtain ⟨h0,rfl⟩ := hid
    obtain ⟨l,hl⟩ : ∃ l, leases[id]? = some l :=
      ⟨_,ExtTreeMap.getElem?_eq_some_getElem (h.resolve_left h0)⟩
    simp only [Lists,attachKey,getElem?_updateKeys,hl,h0,ne_eq,not_false_eq_true,and_self,if_true,
      Option.map_some,Option.some.injEq,exists_eq_left',ExtTreeSet.mem_insert,
      LawfulEqCmp.compare_eq_iff_eq,true_and]
    rw [or_comm,eq_comm]
  · have hne : ¬ (id ≠ 0 ∧ id = leaseID ∧ k = key) := fun hk => hid ⟨hk.2.1 ▸ hk.1,hk.2.1⟩
    simp only [hne,or_false]
    exact lists_congr (by rw [attachKey,getElem?_updateKeys,if_neg hid]) k

lemma lists_detachKey (leases : ExtTreeMap ℤ Lease) (leaseID : ℤ) (key : Bytes) (id : ℤ)
    (k : Bytes) : Lists (detachKey leases leaseID key) id k ↔
      Lists leases id k ∧ ¬ (id ≠ 0 ∧ leaseID = id ∧ k = key) := by
  by_cases hid : leaseID ≠ 0 ∧ id = leaseID
  · obtain ⟨h0,rfl⟩ := hid
    cases hl : leases[id]? with
    | none => simp [Lists,detachKey,getElem?_updateKeys,hl,h0]
    | some l => simp [Lists,detachKey,getElem?_updateKeys,hl,h0,eq_comm (a := key),and_comm]
  · have hne : ¬ (id ≠ 0 ∧ leaseID = id ∧ k = key) := fun hk => hid ⟨hk.2.1 ▸ hk.1,hk.2.1.symm⟩
    simp only [hne,not_false_eq_true,and_true]
    exact lists_congr (by rw [detachKey,getElem?_updateKeys,if_neg hid]) k

lemma detachKey_of_not_lists {leaseID : ℤ} {key : Bytes}
    (h : leaseID ≠ 0 → ¬ Lists leases leaseID key) : detachKey leases leaseID key = leases := by
  apply ExtTreeMap.ext_getElem?
  intro id
  rw [detachKey,getElem?_updateKeys]
  split_ifs with hid
  · obtain ⟨h0,rfl⟩ := hid
    cases hl : leases[id]? with
    | none => rfl
    | some l =>
      have hkeys : l.keys.erase key = l.keys := ExtTreeSet.ext_mem fun k => by
        rw [ExtTreeSet.mem_erase]
        refine and_iff_right_of_imp fun hk heq => ?_
        exact h h0 ⟨l,hl,LawfulEqCmp.eq_of_compare heq ▸ hk⟩
      rw [Option.map_some,hkeys]
  · rfl

namespace MemoryEtcd

def leaseOf (s : MemoryEtcd) (key : Bytes) : Option ℤ := (s.kvData.get key).map KeyValue.lease

def LeasesAgree (s : MemoryEtcd) : Prop := Agree (· ≠ 0) s.leaseOf (Lists s.leases)

variable {s : MemoryEtcd}

lemma leasesAgree_empty : LeasesAgree .empty := by
  intro id k
  simp [Lists,leaseOf,empty]

lemma LeasesAgree.drop (h : s.LeasesAgree) {t : MemoryEtcd} {key : Bytes}
    (hkv : t.kvData = s.kvData.delete key)
    (hleases : ∀ kv, s.kvData.get key = some kv → t.leases = detachKey s.leases kv.lease key)
    (hnone : s.kvData.get key = none → t.leases = s.leases) : t.LeasesAgree := by
  refine Agree.leave (k := key) h ?_ ?_
  · intro k
    simp only [leaseOf,hkv,ShardedMap.get_delete]
    split_ifs <;> rfl
  · intro id k
    cases hget : s.kvData.get key with
    | none => simp [hnone hget,leaseOf,hget]
    | some kv => simp only [hleases kv hget,leaseOf,hget,lists_detachKey,Option.map_some,Option.some.injEq]

lemma LeasesAgree.deleteOne (h : s.LeasesAgree) (key : Bytes) : (s.deleteOne key).LeasesAgree := by
  cases hget : s.kvData.get key with
  | none => rwa [deleteOne_of_not_live hget]
  | some kv =>
    rw [deleteOne_of_get hget]
    refine h.drop rfl (fun kv' hkv' => ?_) fun hnone => ?_
    · rw [Option.some.inj (hkv'.symm.trans hget),removeKey]
    · cases hnone.symm.trans hget

lemma LeasesAgree.foldl_deleteOne (h : s.LeasesAgree) (keys : List Bytes) :
    (keys.foldl MemoryEtcd.deleteOne s).LeasesAgree := by
  induction keys generalizing s with
  | nil => exact h
  | cons key keys ih => exact ih (h.deleteOne key)

lemma LeasesAgree.eraseKey (h : s.LeasesAgree) (key : Bytes) : (s.eraseKey key).LeasesAgree := by
  refine h.drop rfl (fun kv hkv => ?_) fun hnone => ?_
  · simp only [MemoryEtcd.eraseKey,hkv]
  · simp only [MemoryEtcd.eraseKey,hnone]

lemma LeasesAgree.foldl_eraseKey (h : s.LeasesAgree) (keys : List Bytes) :
    (keys.foldl MemoryEtcd.eraseKey s).LeasesAgree := by
  induction keys generalizing s with
  | nil => exact h
  | cons key keys ih => exact ih (h.eraseKey key)

lemma LeasesAgree.deleteUnlocked (h : s.LeasesAgree) (key rangeEnd : Bytes) :
    (s.deleteUnlocked key rangeEnd).1.LeasesAgree := by
  unfold MemoryEtcd.deleteUnlocked
  dsimp only
  generalize (if rangeEnd = [] then _ else _ : List Bytes) = keysToDelete
  split
  · exact h
  · exact LeasesAgree.foldl_eraseKey (s := { s with revision := s.revision+1 }) h keysToDelete

/-- A put under the lease takes the key from no other lease, and the lease is there. -/
def Attachable (s : MemoryEtcd) (key : Bytes) (leaseID : ℤ) : Prop :=
  (∀ kv, s.kvData.get key = some kv → kv.lease = 0 ∨ kv.lease = leaseID) ∧
    (leaseID = 0 ∨ leaseID ∈ s.leases)

lemma LeasesAgree.putDirect (h : s.LeasesAgree) {key : Bytes} {leaseID : ℤ}
    (hput : s.Attachable key leaseID) (value : Bytes) :
    (s.putDirect key value leaseID).1.LeasesAgree := by
  refine Agree.join (i := leaseID) (k := key) h ?_ ?_ ?_
  · intro id hid hkey
    obtain ⟨kv,hkv,rfl⟩ := Option.map_eq_some_iff.mp hkey
    exact (hput.1 kv hkv).resolve_left hid
  · intro k
    simp only [leaseOf,MemoryEtcd.putDirect,ShardedMap.get_set]
    split_ifs <;> rfl
  · exact lists_attachKey hput.2 key

lemma leases_foldl_deleteOne (keys : List Bytes) {s : MemoryEtcd}
    (hkeys : ∀ k ∈ keys, ∀ kv, s.kvData.get k = some kv → kv.lease ≠ 0 → ¬ Lists s.leases kv.lease k) :
    (keys.foldl deleteOne s).leases = s.leases := by
  induction keys generalizing s with
  | nil => rfl
  | cons key keys ih =>
    have hone : (s.deleteOne key).leases = s.leases := by
      cases hget : s.kvData.get key with
      | none => rw [deleteOne_of_not_live hget]
      | some kv =>
        rw [deleteOne_of_get hget]
        exact detachKey_of_not_lists (hkeys key List.mem_cons_self kv hget)
    rw [List.foldl_cons,ih,hone]
    intro k hk kv hkv
    rw [get_deleteOne] at hkv
    rw [hone]
    split_ifs at hkv
    exact hkeys k (List.mem_cons_of_mem key hk) kv hkv

lemma get_revoke (clock : Clock) (s : MemoryEtcd) (leaseID ttl : ℤ) (k : Bytes) :
    (Lists s.leases leaseID k →
      (s.applyLeaseOperationDirect clock .leaseRevoke leaseID ttl).kvData.get k = none) ∧
    (¬ Lists s.leases leaseID k →
      (s.applyLeaseOperationDirect clock .leaseRevoke leaseID ttl).kvData.get k = s.kvData.get k) := by
  unfold applyLeaseOperationDirect Lists
  cases hl : s.leases[leaseID]? with
  | none => simp
  | some l =>
    have hget := get_foldl_deleteOne l.keys.toList { s with leases := s.leases.erase leaseID } k
    simp only [ExtTreeSet.mem_toList] at hget
    simp only [Option.some.injEq,exists_eq_left']
    exact ⟨fun hk => hget.trans (if_pos hk),fun hk => hget.trans (if_neg hk)⟩

lemma LeasesAgree.revoke (h : s.LeasesAgree) (clock : Clock) (leaseID ttl : ℤ) :
    (s.applyLeaseOperationDirect clock .leaseRevoke leaseID ttl).LeasesAgree := by
  refine Agree.dissolve (i := leaseID) h ?_ ?_
  · intro k
    obtain ⟨hlisted,hother⟩ := get_revoke clock s leaseID ttl k
    refine ⟨fun hk => ?_,fun hk => ?_⟩
    · rw [leaseOf,hlisted hk,Option.map_none]
    · rw [leaseOf,hother hk,leaseOf]
  · intro id k
    cases hl : s.leases[leaseID]? with
    | none =>
      simp only [applyLeaseOperationDirect,hl]
      refine ⟨fun hk => ⟨hk,?_⟩,And.left⟩
      rintro rfl
      obtain ⟨l,hl',-⟩ := hk
      cases hl.symm.trans hl'
    | some l =>
      have hleases : (s.applyLeaseOperationDirect clock .leaseRevoke leaseID ttl).leases =
          s.leases.erase leaseID := by
        simp only [applyLeaseOperationDirect,hl]
        refine leases_foldl_deleteOne (s := { s with leases := s.leases.erase leaseID })
          l.keys.toList fun k hk kv hkv _ => ?_
        -- the listed keys name the lease that is gone
        have hkey := ((h leaseID k).mp ⟨l,hl,ExtTreeSet.mem_toList.mp hk⟩).2
        rw [leaseOf,show s.kvData.get k = some kv from hkv] at hkey
        rintro ⟨l',hl',-⟩
        rw [show kv.lease = leaseID from Option.some.inj hkey,ExtTreeMap.getElem?_erase_self] at hl'
        cases hl'
      rw [hleases]
      unfold Lists
      rw [ExtTreeMap.getElem?_erase]
      by_cases hid : id = leaseID
      · simp [hid]
      · simp [hid,Ne.symm hid]

def Unnamed (s : MemoryEtcd) (leaseID : ℤ) : Prop :=
  leaseID = 0 ∨ ∀ k kv, s.kvData.get k = some kv → kv.lease ≠ leaseID

lemma LeasesAgree.grant (h : s.LeasesAgree) (clock : Clock) {leaseID : ℤ}
    (hgrant : s.Unnamed leaseID) (ttl : ℤ) :
    (s.applyLeaseOperationDirect clock .leaseGrant leaseID ttl).LeasesAgree := by
  refine Agree.clear (· = leaseID) h ?_ (fun _ => rfl) ?_
  · rintro id k hid rfl hkey
    obtain ⟨kv,hkv,hlease⟩ := Option.map_eq_some_iff.mp hkey
    exact hgrant.resolve_left hid k kv hkv hlease
  · intro id k
    simp only [applyLeaseOperationDirect,Lists,ExtTreeMap.getElem?_insert]
    by_cases hid : id = leaseID
    · simp [hid]
    · simp [hid,Ne.symm hid]

/-- Every put of the operations that is not refused finds its key attachable at its turn. -/
def AttachableOps (clock : Clock) : MemoryEtcd → List Op → Prop
  | _,[] => True
  | s,op :: ops =>
    refuses clock s.leases s.ticks op = true ∨
      (op.type = .put → s.Attachable op.key op.leaseID) ∧
        AttachableOps clock (s.txnOp clock op).1 ops

lemma LeasesAgree.txnOp (h : s.LeasesAgree) (clock : Clock) (op : Op)
    (hop : refuses clock s.leases s.ticks op = true ∨
      (op.type = .put → s.Attachable op.key op.leaseID)) : (s.txnOp clock op).1.LeasesAgree := by
  unfold MemoryEtcd.txnOp
  cases htype : op.type with
  | range => exact h
  | txn => exact h
  | delete => exact h.deleteUnlocked op.key op.rangeEnd
  | put =>
    dsimp only
    obtain ⟨-,n,-,hn⟩|⟨hrefused,hn⟩ := putUnlocked_cases clock s htype
    · rw [hn]
      exact h
    · rw [hn]
      refine LeasesAgree.putDirect (s := { s with ticks := s.ticks+readings op }) h ?_ op.value
      refine (hop.resolve_left ?_) htype
      rw [hrefused]
      exact Bool.false_ne_true

lemma LeasesAgree.txnOps (clock : Clock) (ops : List Op) (h : s.LeasesAgree)
    (hops : AttachableOps clock s ops) : (txnOps clock s ops).1.LeasesAgree := by
  induction ops generalizing s with
  | nil => exact h
  | cons op ops ih =>
    have hop := h.txnOp clock op (hops.imp id And.left)
    rw [MemoryEtcd.txnOps]
    cases hresult : (s.txnOp clock op).2 with
    | error e => exact hop
    | ok response =>
      obtain hrefused|hops := hops
      · obtain ⟨⟨e,he⟩,-⟩ := txnOp_of_refuses hrefused
        cases he.symm.trans hresult
      · exact ih hop hops.2

end MemoryEtcd

def KeepsLeases (clock : Clock) (s : MemoryEtcd) (op : RaftOperation) : Prop :=
  match op.type with
  | .put => s.Attachable op.key op.leaseID
  | .leaseGrant => s.Unnamed op.leaseID
  | .txn => s.AttachableOps clock (if s.compares op.compares then op.thenOps else op.elseOps)
  | .delete => True
  | .leaseRevoke => True
  | .other _ => True

lemma leasesAgree_applyOperation {clock : Clock} {m : Memory} {op : RaftOperation}
    (hkeyed : Keyed m.etcd.kvData) (h : m.etcd.LeasesAgree) (hop : KeepsLeases clock m.etcd op) :
    (m.applyOperation clock op).etcd.LeasesAgree := by
  change (m.applyEffect clock op).etcd.LeasesAgree
  unfold KeepsLeases at hop
  unfold applyEffect
  cases htype : op.type with
  | put =>
    rw [htype] at hop
    exact h.putDirect hop op.value
  | delete =>
    change (m.etcd.deleteDirect op.key op.rangeEnd).1.LeasesAgree
    rw [MemoryEtcd.deleteDirect_eq_foldl hkeyed]
    exact h.foldl_deleteOne _
  | leaseGrant =>
    rw [htype] at hop
    simp only [applyLease,htype]
    exact h.grant clock hop op.ttl
  | leaseRevoke =>
    simp only [applyLease,htype]
    exact h.revoke clock op.leaseID 0
  | txn =>
    rw [htype] at hop
    exact MemoryEtcd.LeasesAgree.txnOps clock _ h hop
  | other t => exact h

abbrev LeaseRun (clock : Clock) : List RaftOperation → Memory → Prop :=
  Run (fun m op m' => m' = m.applyOperation clock op) (fun m op => KeepsLeases clock m.etcd op)
    ⟨.empty,.empty⟩

lemma LeaseRun.invariant {clock : Clock} {ops : List RaftOperation} {m : Memory}
    (h : LeaseRun clock ops m) : Keyed m.etcd.kvData ∧ m.etcd.LeasesAgree := by
  have hstep : ∀ (m : Memory) op m', Keyed m.etcd.kvData ∧ m.etcd.LeasesAgree →
      KeepsLeases clock m.etcd op → m' = m.applyOperation clock op →
      Keyed m'.etcd.kvData ∧ m'.etcd.LeasesAgree := by
    rintro m op _ ⟨hkeyed,hagree⟩ hop rfl
    exact ⟨keyed_applyEffect hkeyed clock op,leasesAgree_applyOperation hkeyed hagree hop⟩
  exact Run.invariant hstep h ⟨.empty,MemoryEtcd.leasesAgree_empty⟩

/-- While every put and grant finds what it needs, a lease lists exactly the keys whose
records name it, and a revoke deletes exactly these. -/
theorem leases_agree_of_run {clock : Clock} {ops : List RaftOperation} {m : Memory}
    (hrun : LeaseRun clock ops m) :
    (∀ (k : Bytes) (id : ℤ), id ≠ 0 → ((∃ l, m.etcd.leases[id]? = some l ∧ k ∈ l.keys) ↔
      ∃ kv, m.etcd.kvData.get k = some kv ∧ kv.lease = id)) ∧
    ∀ revoke : RaftOperation, revoke.type = .leaseRevoke → revoke.leaseID ≠ 0 → ∀ k,
      (m.applyOperation clock revoke).etcd.kvData.get k =
        (m.etcd.kvData.get k).filter fun kv => decide (kv.lease ≠ revoke.leaseID) := by
  have hagree := hrun.invariant.2
  refine ⟨fun k id hid => ?_,fun revoke htype hid k => ?_⟩
  · have hk := hagree id k
    rw [MemoryEtcd.leaseOf,Option.map_eq_some_iff] at hk
    exact hk.trans (and_iff_right hid)
  · obtain ⟨hlisted,hother⟩ := MemoryEtcd.get_revoke clock m.etcd revoke.leaseID 0 k
    have hk := hagree revoke.leaseID k
    have hstate : (m.applyOperation clock revoke).etcd =
        m.etcd.applyLeaseOperationDirect clock .leaseRevoke revoke.leaseID 0 := by
      simp only [applyOperation,notify,applyEffect,applyLease,htype]
    rw [hstate]
    rw [MemoryEtcd.leaseOf] at hk
    cases hget : m.etcd.kvData.get k with
    | none =>
      rw [hget] at hk hother
      exact hother fun hl => absurd (hk.mp hl).2 (by simp)
    | some kv =>
      rw [hget,Option.map_some,Option.some.injEq] at hk
      rw [hget] at hother
      by_cases hlease : kv.lease = revoke.leaseID
      · rw [hlisted (hk.mpr ⟨hid,hlease⟩)]
        simp [Option.filter_some,hlease]
      · rw [hother fun hl => hlease (hk.mp hl).2]
        simp [Option.filter_some,hlease]

/-- A key under a lease, in a run as above. -/
theorem leases_agree_of_run_single :
    let ops : List RaftOperation := [{ type := .leaseGrant, leaseID := 1, ttl := 60 },
      { type := .put, key := [97], value := [1], leaseID := 1 }]
    let m := ops.foldl (applyOperation fun _ => 0) ⟨.empty,.empty⟩
    LeaseRun (fun _ => 0) ops m ∧ m.etcd.kvData.get [97] = some ⟨[97],[1],1,1,1,1⟩ ∧
      (∃ l, m.etcd.leases[(1 : ℤ)]? = some l ∧ [97] ∈ l.keys) ∧
      (m.applyOperation (fun _ => 0) { type := .leaseRevoke, leaseID := 1 }).etcd.kvData.get [97] =
        none := by
  intro ops m
  have hrun : LeaseRun (fun _ => 0) ops m := by
    refine .cons (.inr fun k kv hkv => ?_) rfl (.cons ⟨fun kv hkv => ?_,.inr ?_⟩ rfl (.nil _))
    · simp [MemoryEtcd.empty] at hkv
    · cases hkv
    · decide
  have hget : m.etcd.kvData.get [97] = some ⟨[97],[1],1,1,1,1⟩ := by decide
  obtain ⟨hlists,hrevoke⟩ := leases_agree_of_run hrun
  refine ⟨hrun,hget,(hlists [97] 1 (by decide)).mpr ⟨_,hget,rfl⟩,?_⟩
  rw [hrevoke { type := .leaseRevoke, leaseID := 1 } rfl (by decide),hget]
  rfl

/-- A key that moved to the second lease is still listed by the first one and is deleted with
it. -/
theorem revoke_deletes_moved_key :
    let ops : List RaftOperation := [{ type := .leaseGrant, leaseID := 1, ttl := 60 },
      { type := .leaseGrant, leaseID := 2, ttl := 60 },
      { type := .put, key := [97], value := [1], leaseID := 1 },
      { type := .put, key := [97], value := [2], leaseID := 2 }]
    let m := ops.foldl (applyOperation fun _ => 0) ⟨.empty,.empty⟩
    m.etcd.kvData.get [97] = some ⟨[97],[2],1,2,2,2⟩ ∧
      m.etcd.leases[(1 : ℤ)]?.map (fun l => l.keys.toList) = some [[97]] ∧
      (m.applyOperation (fun _ => 0) { type := .leaseRevoke, leaseID := 1 }).etcd.kvData.get [97] =
        none := by
  refine ⟨?_,?_,?_⟩ <;> decide

end MetaStore.Memory
