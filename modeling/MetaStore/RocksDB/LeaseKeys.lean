import MetaStore.Library.Association
import MetaStore.Library.Transition
import MetaStore.RocksDB.SameRecords

/-! Which keys belong to a lease of the RocksDB engine is stored twice, in the records and in
the leases. Only puts and revokes write to both sides: a deletion leaves its keys in the list
of their lease, a put that moves a key leaves it in the old one, a grant forgets the list it
replaces, and the cleanup of a compaction drops leases whose keys stay. -/
namespace MetaStore.RocksDB
open Std Association Transition WriteBatch

lemma leaseKey_injective : Function.Injective leaseKey := fun _ _ h =>
  Bytes.decimal_injective (List.append_cancel_left h)

def Lists (db : Database) (id : ℤ) (key : Bytes) : Prop :=
  ∃ l, getLease db id = .ok (some l) ∧ key ∈ l.keys

def leaseOf (db : Database) (key : Bytes) : Option ℤ := (getKeyValue db key).map KeyValue.lease

def LeasesAgree (db : Database) : Prop := Agree (· ≠ 0) (leaseOf db) (Lists db)

lemma leasesAgree_empty : LeasesAgree ∅ := by
  intro id k
  simp [Lists,leaseOf,getLease,getKeyValue]

section Lookup
variable {db db' : Database}
variable {id : ℤ}

lemma lists_congr (h : db'[leaseKey id]? = db[leaseKey id]?) (key : Bytes) :
    Lists db' id key ↔ Lists db id key := by
  rw [Lists,Lists,getLease,getLease,h]

lemma leaseOf_congr {key : Bytes} (h : db'[kvKey key]? = db[kvKey key]?) :
    leaseOf db' key = leaseOf db key := by
  rw [leaseOf,leaseOf,getKeyValue,getKeyValue,h]

lemma leaseOf_of_none {key : Bytes} (h : db[kvKey key]? = none) : leaseOf db key = none := by
  rw [leaseOf,getKeyValue,h]
  rfl

lemma not_lists_of_none (h : db[leaseKey id]? = none) (key : Bytes) :
    ¬ Lists db id key := by
  rintro ⟨l,hl,-⟩
  simp [getLease,h] at hl

lemma lists_of_lease {l : Lease} (h : db[leaseKey id]? = some (.lease l)) (key : Bytes) :
    Lists db id key ↔ key ∈ l.keys := by
  simp [Lists,getLease,h]

lemma LeasesAgree.congr (h : LeasesAgree db) (hdb : ∀ x, StoreKey x → db'[x]? = db[x]?) :
    LeasesAgree db' :=
  Agree.congr h (fun k => leaseOf_congr (hdb _ (storeKey_kvKey k))) fun id k =>
    lists_congr (hdb _ (storeKey_leaseKey id)) k

lemma getLease_eq_some_iff {l : Lease} :
    getLease db id = .ok (some l) ↔ db[leaseKey id]? = some (.lease l) := by
  unfold getLease
  split <;> simp_all

end Lookup

variable {env : Env} {r : Records}

lemma LeasesAgree.incrementRevision (h : LeasesAgree r.db) :
    LeasesAgree (incrementRevision r).db :=
  h.congr fun _ hx => getElem?_incrementRevision_of_ne hx.ne_revisionKey

/-- A put under the lease takes the key from no other lease, and the lease is stored. -/
def Attachable (db : Database) (key : Bytes) (leaseID : ℤ) : Prop :=
  (∀ kv, getKeyValue db key = some kv → kv.lease = 0 ∨ kv.lease = leaseID) ∧
    (leaseID = 0 ∨ ∃ l, getLease db leaseID = .ok (some l))

def refuses (env : Env) (db : Database) (key : Bytes) (leaseID : ℤ) : Bool :=
  match attachKey env db key leaseID with
  | .error _ => true
  | .ok _ => false

lemma attachKey_of_attachable {db : Database} {key : Bytes} {leaseID : ℤ}
    (hlease : leaseID = 0 ∨ ∃ l, getLease db leaseID = .ok (some l)) {batch : Batch}
    (h : attachKey env db key leaseID = .ok batch) :
    leaseID = 0 ∧ batch = [] ∨ leaseID ≠ 0 ∧ ∃ l, getLease db leaseID = .ok (some l) ∧
      batch = [.put (leaseKey leaseID) (.lease { l with keys := l.keys.insert key })] := by
  unfold attachKey at h
  by_cases h0 : leaseID = 0
  · rw [if_pos h0] at h
    exact .inl ⟨h0,(Except.ok.inj h).symm⟩
  · obtain ⟨l,hl⟩ := hlease.resolve_left h0
    simp only [if_neg h0,hl,serializeLease] at h
    refine .inr ⟨h0,l,hl,?_⟩
    split_ifs at h
    exact (Except.ok.inj h).symm

lemma getElem?_putUnlocked {key : Bytes} {leaseID : ℤ} {batch : Batch}
    (h : attachKey env r.db key leaseID = .ok batch) (value : Bytes) {x : Bytes} (hx : StoreKey x) :
    (putUnlocked env r key value leaseID).1.db[x]? = (pending batch x).getD
      (if kvKey key = x then
        some (.keyValue (putRecord (getKeyValue r.db key) (r.cachedRevision+1) key value leaseID))
      else r.db[x]?) := by
  have hattach : attachKey env (incrementRevision r).db key leaseID = .ok batch := by
    rw [← h]
    exact attachKey_congr fun _ =>
      getElem?_incrementRevision_of_ne (storeKey_leaseKey leaseID).ne_revisionKey
  simp only [putUnlocked,hattach,getElem?_write,pending_cons,
    getElem?_incrementRevision_of_ne hx.ne_revisionKey]
  cases pending batch x with
  | some v => rfl
  | none => by_cases hkey : kvKey key = x <;> simp [hkey,putKeyValue,BatchOp.key,BatchOp.value,
      incrementRevision]

lemma getElem?_putUnlocked_kvKey {key : Bytes} {leaseID : ℤ} {batch : Batch}
    (h : attachKey env r.db key leaseID = .ok batch) (value k : Bytes) :
    (putUnlocked env r key value leaseID).1.db[kvKey k]? = if k = key then
      some (.keyValue (putRecord (getKeyValue r.db key) (r.cachedRevision+1) key value leaseID))
    else r.db[kvKey k]? := by
  have hnone : pending batch (kvKey k) = none := pending_eq_none fun op hop => by
    rw [(mem_attachKey h hop).2]
    exact leaseKey_ne_kvKey leaseID k
  rw [getElem?_putUnlocked h value (storeKey_kvKey k),hnone,Option.getD_none]
  by_cases hk : k = key
  · rw [if_pos hk,if_pos (by rw [hk])]
  · rw [if_neg hk,if_neg fun he => hk (kvKey_injective he).symm]

lemma LeasesAgree.putUnlocked (h : LeasesAgree r.db) {key : Bytes} {leaseID : ℤ}
    (hput : refuses env r.db key leaseID = true ∨ Attachable r.db key leaseID) (value : Bytes) :
    LeasesAgree (putUnlocked env r key value leaseID).1.db := by
  unfold refuses at hput
  cases hbatch : attachKey env r.db key leaseID with
  | error err =>
    have hattach : attachKey env (RocksDB.incrementRevision r).db key leaseID = .error err := by
      rw [← hbatch]
      exact attachKey_congr fun _ =>
        getElem?_incrementRevision_of_ne (storeKey_leaseKey leaseID).ne_revisionKey
    simp only [RocksDB.putUnlocked,hattach]
    exact h.incrementRevision
  | ok batch =>
    rw [hbatch] at hput
    obtain ⟨hfrom,hlease⟩ := hput.resolve_left Bool.false_ne_true
    have hdb := fun x hx => getElem?_putUnlocked (x := x) hbatch value hx
    have hshape := attachKey_of_attachable hlease hbatch
    refine Agree.join (i := leaseID) (k := key) h ?_ ?_ ?_
    · intro id hid hkey
      obtain ⟨kv,hkv,rfl⟩ := Option.map_eq_some_iff.mp hkey
      exact (hfrom kv hkv).resolve_left hid
    · intro k
      have hk := getElem?_putUnlocked_kvKey hbatch value k
      by_cases hkey : k = key
      · rw [if_pos hkey] at hk
        rw [if_pos hkey,leaseOf,getKeyValue,hk]
        rfl
      · rw [if_neg hkey] at hk
        rw [if_neg hkey,leaseOf_congr hk]
    · intro id k
      have hid := hdb _ (storeKey_leaseKey id)
      rw [if_neg (leaseKey_ne_kvKey id key).symm] at hid
      obtain ⟨rfl,rfl⟩|⟨h0,l,hl,rfl⟩ := hshape
      · rw [lists_congr hid]
        exact (or_iff_left fun hzero => hzero.1 hzero.2.1).symm
      · by_cases hne : id = leaseID
        · subst hne
          have hnew : (RocksDB.putUnlocked env r key value id).1.db[leaseKey id]? =
              some (.lease { l with keys := l.keys.insert key }) := by
            rw [hid]
            simp [pending_cons,BatchOp.key,BatchOp.value]
          rw [lists_of_lease hnew,lists_of_lease (getLease_eq_some_iff.mp hl)]
          simp only [ExtTreeSet.mem_insert,LawfulEqCmp.compare_eq_iff_eq,ne_eq,h0,
            not_false_eq_true,true_and]
          rw [or_comm,eq_comm]
        · have hother : pending [BatchOp.put (leaseKey leaseID)
              (Value.lease { l with keys := l.keys.insert key })] (leaseKey id) = none := by
            have hx : leaseKey leaseID ≠ leaseKey id := fun he => hne (leaseKey_injective he).symm
            simp [pending_cons,BatchOp.key,hx]
          rw [hother,Option.getD_none] at hid
          rw [lists_congr hid]
          simp [hne]

def Unattached (db : Database) (key rangeEnd : Bytes) : Prop :=
  ∀ k kv, Targets key rangeEnd k → getKeyValue db k = some kv → kv.lease = 0

lemma getElem?_deleteUnlocked_leaseKey (r : Records) (key rangeEnd : Bytes) (id : ℤ) :
    (deleteUnlocked r key rangeEnd).db[leaseKey id]? = r.db[leaseKey id]? := by
  rw [getElem?_deleteUnlocked_of_not_targets r fun k hk => absurd hk (leaseKey_ne_kvKey id k)]
  exact getElem?_incrementRevision_of_ne (storeKey_leaseKey id).ne_revisionKey

lemma LeasesAgree.deleteUnlocked (h : LeasesAgree r.db) {key rangeEnd : Bytes}
    (hdelete : Unattached r.db key rangeEnd) : LeasesAgree (deleteUnlocked r key rangeEnd).db := by
  refine Agree.lose h (fun k => ?_) fun id k =>
    lists_congr (getElem?_deleteUnlocked_leaseKey r key rangeEnd id) k
  by_cases hk : Targets key rangeEnd k
  · refine .inr ⟨leaseOf_of_none (getElem?_deleteUnlocked_of_targets r hk),fun id hid hkey => ?_⟩
    obtain ⟨kv,hkv,rfl⟩ := Option.map_eq_some_iff.mp hkey
    exact hid (hdelete k kv hk hkv)
  · refine .inl (leaseOf_congr ?_)
    rw [getElem?_deleteUnlocked_of_not_targets r fun k' hk' => kvKey_injective hk' ▸ hk]
    exact getElem?_incrementRevision_of_ne (storeKey_kvKey k).ne_revisionKey

lemma getElem?_foldl_deleteUnlocked (keys : List Bytes) (r : Records) :
    (∀ id, (keys.foldl (fun r key => deleteUnlocked r key []) r).db[leaseKey id]? =
      r.db[leaseKey id]?) ∧
    ∀ k, (keys.foldl (fun r key => deleteUnlocked r key []) r).db[kvKey k]? =
      if k ∈ keys then none else r.db[kvKey k]? := by
  induction keys generalizing r with
  | nil => simp
  | cons key keys ih =>
    obtain ⟨hleases,hkeys⟩ := ih (deleteUnlocked r key [])
    refine ⟨fun id => ?_,fun k => ?_⟩
    · rw [List.foldl_cons,hleases,getElem?_deleteUnlocked_leaseKey]
    · rw [List.foldl_cons,hkeys]
      by_cases hk : k = key
      · rw [getElem?_deleteUnlocked_of_targets r (by simp [Targets,hk])]
        simp [hk]
      · have hnot : ∀ k', kvKey k = kvKey k' → ¬ Targets key [] k' := by
          intro k' hk'
          simpa [Targets,kvKey_injective hk'.symm] using hk
        rw [getElem?_deleteUnlocked_of_not_targets r hnot,
          getElem?_incrementRevision_of_ne (storeKey_kvKey k).ne_revisionKey]
        simp [hk]

lemma getElem?_leaseRevokeUnlocked (r : Records) (id : ℤ) :
    (∀ k, (Lists r.db id k → (leaseRevokeUnlocked r id).1.db[kvKey k]? = none) ∧
      (¬ Lists r.db id k → (leaseRevokeUnlocked r id).1.db[kvKey k]? = r.db[kvKey k]?)) ∧
    ∀ j k, Lists (leaseRevokeUnlocked r id).1.db j k ↔ Lists r.db j k ∧ j ≠ id := by
  have hidle : (∀ k, ¬ Lists r.db id k) → (∀ k, (Lists r.db id k → r.db[kvKey k]? = none) ∧
      (¬ Lists r.db id k → r.db[kvKey k]? = r.db[kvKey k]?)) ∧
      ∀ j k, Lists r.db j k ↔ Lists r.db j k ∧ j ≠ id := by
    refine fun hnone => ⟨fun k => ⟨fun hk => absurd hk (hnone k),fun _ => rfl⟩,
      fun j k => ⟨fun hk => ⟨hk,?_⟩,And.left⟩⟩
    rintro rfl
    exact hnone k hk
  unfold leaseRevokeUnlocked
  cases hl : getLease r.db id with
  | error err => exact hidle fun k ⟨l,hl',_⟩ => nomatch hl.symm.trans hl'
  | ok lease =>
    cases lease with
    | none => exact hidle fun k ⟨l,hl',_⟩ => nomatch hl.symm.trans hl'
    | some l =>
      obtain ⟨hleases,hkeys⟩ := getElem?_foldl_deleteUnlocked l.keys.toList r
      have hlists : ∀ k, Lists r.db id k ↔ k ∈ l.keys.toList := fun k => by
        rw [lists_of_lease (getLease_eq_some_iff.mp hl),ExtTreeSet.mem_toList]
      refine ⟨fun k => ?_,fun j k => ?_⟩
      · simp only [ExtTreeMap.getElem?_erase,LawfulEqCmp.compare_eq_iff_eq,leaseKey_ne_kvKey,
          if_false,hkeys,hlists]
        exact ⟨fun hk => if_pos hk,fun hk => if_neg hk⟩
      · by_cases hj : j = id
        · subst hj
          simp [not_lists_of_none]
        · refine (lists_congr ?_ k).trans (and_iff_left hj).symm
          simp only [ExtTreeMap.getElem?_erase,LawfulEqCmp.compare_eq_iff_eq]
          rw [if_neg fun he => hj (leaseKey_injective he).symm,hleases]

lemma LeasesAgree.leaseRevokeUnlocked (h : LeasesAgree r.db) (id : ℤ) :
    LeasesAgree (leaseRevokeUnlocked r id).1.db := by
  obtain ⟨hkeys,hlists⟩ := getElem?_leaseRevokeUnlocked r id
  exact Agree.dissolve (i := id) h (fun k => ⟨fun hk => leaseOf_of_none ((hkeys k).1 hk),
    fun hk => leaseOf_congr ((hkeys k).2 hk)⟩) hlists

def Unnamed (db : Database) (leaseID : ℤ) : Prop :=
  leaseID = 0 ∨ ∀ k kv, getKeyValue db k = some kv → kv.lease ≠ leaseID

lemma leaseOf_ne_of_unnamed {db : Database} {id : ℤ} (h : Unnamed db id) (hid : id ≠ 0)
    (k : Bytes) : leaseOf db k ≠ some id := by
  intro hkey
  obtain ⟨kv,hkv,hlease⟩ := Option.map_eq_some_iff.mp hkey
  exact h.resolve_left hid k kv hkv hlease

lemma LeasesAgree.leaseGrantUnlocked (h : LeasesAgree r.db) {id : ℤ} (hgrant : Unnamed r.db id)
    (env : Env) (ttl : ℤ) : LeasesAgree (leaseGrantUnlocked env r id ttl).db := by
  refine Agree.clear (· = id) h ?_ ?_ ?_
  · rintro j k hj rfl
    exact leaseOf_ne_of_unnamed hgrant hj k
  · intro k
    apply leaseOf_congr
    simp [RocksDB.leaseGrantUnlocked,ExtTreeMap.getElem?_insert,leaseKey_ne_kvKey]
  · intro j k
    by_cases hj : j = id
    · subst hj
      have hnew : (RocksDB.leaseGrantUnlocked env r j ttl).db[leaseKey j]? =
          some (.lease ⟨j,ttl,env.clock r.ticks,∅⟩) := by simp [RocksDB.leaseGrantUnlocked]
      rw [lists_of_lease hnew]
      simp
    · refine (lists_congr ?_ k).trans (and_iff_left hj).symm
      simp only [RocksDB.leaseGrantUnlocked,ExtTreeMap.getElem?_insert,
        LawfulEqCmp.compare_eq_iff_eq]
      rw [if_neg fun he => hj (leaseKey_injective he).symm]

/-- Puts that are not refused find their keys attachable, deletions name no attached key, each
operation at its turn. A refused put ends the transaction. -/
def KeepsLeasesOps (env : Env) : Records → List Op → Prop
  | _,[] => True
  | r,op :: ops =>
    match op.type with
    | .put =>
      refuses env r.db op.key op.leaseID = true ∨
        Attachable r.db op.key op.leaseID ∧ KeepsLeasesOps env (txnOp env r op).1 ops
    | .delete =>
      Unattached r.db op.key op.rangeEnd ∧ KeepsLeasesOps env (txnOp env r op).1 ops
    | .range => KeepsLeasesOps env (txnOp env r op).1 ops
    | .txn => KeepsLeasesOps env (txnOp env r op).1 ops

lemma putUnlocked_of_refuses {key : Bytes} {leaseID : ℤ}
    (h : refuses env r.db key leaseID = true) (value : Bytes) :
    ∃ err, (putUnlocked env r key value leaseID).2 = .error err := by
  have hattach : attachKey env (incrementRevision r).db key leaseID =
      attachKey env r.db key leaseID := attachKey_congr fun _ =>
    getElem?_incrementRevision_of_ne (storeKey_leaseKey leaseID).ne_revisionKey
  simp only [putUnlocked,hattach]
  unfold refuses at h
  cases hbatch : attachKey env r.db key leaseID with
  | error err => exact ⟨err,rfl⟩
  | ok batch => simp [hbatch] at h

lemma LeasesAgree.txnOps (env : Env) (ops : List Op) (h : LeasesAgree r.db)
    (hops : KeepsLeasesOps env r ops) : LeasesAgree (txnOps env r ops).1.db := by
  induction ops generalizing r with
  | nil => exact h
  | cons op ops ih =>
    obtain ⟨hop,hrest⟩ : LeasesAgree (txnOp env r op).1.db ∧
        ((∃ err, (txnOp env r op).2 = .error err) ∨ KeepsLeasesOps env (txnOp env r op).1 ops) := by
      unfold KeepsLeasesOps at hops
      cases htype : op.type with
      | range =>
        rw [htype] at hops
        exact ⟨by simpa only [txnOp,htype] using h,.inr hops⟩
      | txn =>
        rw [htype] at hops
        exact ⟨by simpa only [txnOp,htype] using h,.inr hops⟩
      | delete =>
        rw [htype] at hops
        exact ⟨by simpa only [txnOp,htype] using h.deleteUnlocked hops.1,.inr hops.2⟩
      | put =>
        rw [htype] at hops
        have hput := h.putUnlocked (hops.imp id And.left) op.value
        refine ⟨by simpa only [txnOp,htype] using hput,hops.imp (fun hrefused => ?_) And.right⟩
        obtain ⟨err,herr⟩ := putUnlocked_of_refuses hrefused op.value
        exact ⟨err,by simp only [txnOp,htype,herr,Except.map]⟩
    rw [RocksDB.txnOps]
    cases hresult : (txnOp env r op).2 with
    | error err => exact hop
    | ok response =>
      refine ih hop (hrest.resolve_left ?_)
      rintro ⟨err,herr⟩
      cases hresult.symm.trans herr

def CleanupUnnamed (db : Database) (now : ℤ) : Prop :=
  ∀ id l, getLease db id = .ok (some l) → outlived now l = true → Unnamed db id

lemma mem_expiredLeases {db : Database} {now : ℤ} {x : Bytes} :
    x ∈ expiredLeases db now ↔
      leasePrefix <+: x ∧ ∃ l, db[x]? = some (.lease l) ∧ outlived now l = true := by
  simp only [expiredLeases,List.mem_filter,ExtTreeMap.mem_keys,Bool.and_eq_true,decide_eq_true_eq]
  constructor
  · rintro ⟨-,hx,hl⟩
    split at hl
    · exact ⟨hx,_,by assumption,hl⟩
    · cases hl
  · rintro ⟨hx,l,hl,hout⟩
    refine ⟨?_,hx,by rw [hl]; exact hout⟩
    exact ExtTreeMap.mem_iff_isSome_getElem?.mpr (by rw [hl]; rfl)

lemma getElem?_cleanup (db : Database) (now : ℤ) (x : Bytes) :
    (cleanupExpiredLeasesUnlocked db now)[x]? =
      if x ∈ expiredLeases db now then none else db[x]? := by
  rw [cleanupExpiredLeasesUnlocked,getElem?_write,pending_map_delete]
  split_ifs <;> rfl

lemma LeasesAgree.cleanup {db : Database} (h : LeasesAgree db) {now : ℤ}
    (hcleanup : CleanupUnnamed db now) : LeasesAgree (cleanupExpiredLeasesUnlocked db now) := by
  refine Agree.clear (fun id => leaseKey id ∈ expiredLeases db now) h ?_ ?_ ?_
  · intro id k hid hgone
    obtain ⟨-,l,hl,hout⟩ := mem_expiredLeases.mp hgone
    exact leaseOf_ne_of_unnamed (hcleanup id l (getLease_eq_some_iff.mpr hl) hout) hid k
  · intro k
    apply leaseOf_congr
    rw [getElem?_cleanup,if_neg]
    intro hk
    have hkv : kvKey k = 107 :: 118 :: 58 :: k := rfl
    obtain ⟨t,ht⟩ := (mem_expiredLeases.mp hk).1
    rw [hkv] at ht
    exact absurd (List.cons.inj ht).1 (by decide)
  · intro id k
    by_cases hgone : leaseKey id ∈ expiredLeases db now
    · have hnone : (cleanupExpiredLeasesUnlocked db now)[leaseKey id]? = none := by
        rw [getElem?_cleanup,if_pos hgone]
      simp [hgone,not_lists_of_none hnone]
    · refine (lists_congr ?_ k).trans (and_iff_left hgone).symm
      rw [getElem?_cleanup,if_neg hgone]

lemma compactedRevisionKey_ne {x : Bytes} (hx : StoreKey x) : compactedRevisionKey ≠ x := by
  rintro rfl
  have hkey : compactedRevisionKey = 109 :: ascii "eta:compacted_revision" := by decide
  rcases hx with ⟨t,ht⟩ | ⟨t,ht⟩
  all_goals
    rw [hkey] at ht
    exact absurd (List.cons.inj ht).1 (by decide)

lemma getElem?_setCompactedRevision (db : Database) (revision : ℤ) {x : Bytes} (hx : StoreKey x) :
    (setCompactedRevisionUnlocked db revision)[x]? = db[x]? := by
  simp [setCompactedRevisionUnlocked,ExtTreeMap.getElem?_insert,compactedRevisionKey_ne hx]

def compacts (r : Records) (revision : ℤ) : Bool :=
  decide (revision ≤ r.cachedRevision ∧ 0 < revision ∧ getCompactedRevisionUnlocked r.db < revision)

lemma LeasesAgree.compact (h : LeasesAgree r.db) {revision : ℤ}
    (hcompact : compacts r revision = true → CleanupUnnamed r.db (env.clock (r.ticks+1))) :
    LeasesAgree (compact env r revision).1.db := by
  unfold RocksDB.compact
  dsimp only
  split_ifs with hfuture hinvalid hdone
  · exact h
  · exact h
  · exact h
  · have hset : ∀ x, StoreKey x → (setCompactedRevisionUnlocked r.db revision)[x]? = r.db[x]? :=
      fun x hx => getElem?_setCompactedRevision r.db revision hx
    have hclean := hcompact (by simp only [compacts,decide_eq_true_eq]; omega)
    refine (h.congr hset).cleanup fun id l hl hout => ?_
    rw [getLease,hset _ (storeKey_leaseKey id)] at hl
    refine (hclean id l hl hout).imp_right fun hnone k kv hkv => ?_
    rw [getKeyValue,hset _ (storeKey_kvKey k)] at hkv
    exact hnone k kv hkv

lemma LeasesAgree.leaseRenew (h : LeasesAgree r.db) (env : Env) (id : ℤ) :
    LeasesAgree (leaseRenew env r id).1.db := by
  unfold RocksDB.leaseRenew
  cases hl : getLease r.db id with
  | error err => exact h
  | ok lease =>
    cases lease with
    | none => exact h
    | some l =>
      dsimp only
      unfold serializeLease
      split_ifs
      · exact h
      · refine Agree.congr h (fun k => leaseOf_congr ?_) fun j k => ?_
        · simp [ExtTreeMap.getElem?_insert,leaseKey_ne_kvKey]
        · by_cases hj : j = id
          · subst hj
            rw [lists_of_lease ExtTreeMap.getElem?_insert_self,
              lists_of_lease (getLease_eq_some_iff.mp hl)]
          · apply lists_congr
            simp only [ExtTreeMap.getElem?_insert,LawfulEqCmp.compare_eq_iff_eq]
            rw [if_neg fun he => hj (leaseKey_injective he).symm]

inductive LeaseEvent
  | apply (op : RaftOperation)
  | compact (revision : ℤ)
  | leaseRenew (id : ℤ)

def leaseStep (env : Env) (e : Engine) : LeaseEvent → Engine
  | .apply op => applyOperation env e op
  | .compact revision => { e with records := (compact env e.records revision).1 }
  | .leaseRenew id => { e with records := (leaseRenew env e.records id).1 }

/-- Puts find their keys attachable, deletions name no attached key, grants take ids that no
record names, and a compaction finds no expired lease that a record names. -/
def KeepsLeases (env : Env) (r : Records) : LeaseEvent → Prop
  | .apply op =>
    match op.type with
    | .put => refuses env r.db op.key op.leaseID = true ∨ Attachable r.db op.key op.leaseID
    | .delete => Unattached r.db op.key op.rangeEnd
    | .leaseGrant => Unnamed r.db op.leaseID
    | .txn => KeepsLeasesOps env r (if compares r.db op.compares then op.thenOps else op.elseOps)
    | .leaseRevoke => True
    | .other _ => True
  | .compact revision => compacts r revision = true → CleanupUnnamed r.db (env.clock (r.ticks+1))
  | .leaseRenew _ => True

lemma leasesAgree_leaseStep {e : Engine} (h : LeasesAgree e.records.db) {event : LeaseEvent}
    (hevent : KeepsLeases env e.records event) : LeasesAgree (leaseStep env e event).records.db := by
  cases event with
  | compact revision => exact h.compact hevent
  | leaseRenew id => exact h.leaseRenew env id
  | apply op =>
    change LeasesAgree (applyRecords env e.records op).db
    unfold KeepsLeases at hevent
    unfold applyRecords
    cases htype : op.type with
    | put =>
      simp only [htype] at hevent
      exact h.putUnlocked hevent op.value
    | delete =>
      simp only [htype] at hevent
      exact h.deleteUnlocked hevent
    | leaseGrant =>
      simp only [htype] at hevent
      exact h.leaseGrantUnlocked hevent env op.ttl
    | leaseRevoke => exact h.leaseRevokeUnlocked op.leaseID
    | txn =>
      simp only [htype] at hevent
      exact LeasesAgree.txnOps env _ h hevent
    | other t => exact h

abbrev LeaseRun (env : Env) : List LeaseEvent → Engine → Prop :=
  Run (fun e event e' => e' = leaseStep env e event) (fun e event => KeepsLeases env e.records event)
    Engine.new

lemma LeaseRun.leasesAgree {events : List LeaseEvent} {e : Engine} (h : LeaseRun env events e) :
    LeasesAgree e.records.db := by
  have hstep : ∀ (e : Engine) event e', LeasesAgree e.records.db →
      KeepsLeases env e.records event → e' = leaseStep env e event → LeasesAgree e'.records.db := by
    rintro e event _ he hevent rfl
    exact leasesAgree_leaseStep he hevent
  exact Run.invariant hstep h leasesAgree_empty

/-- While every step finds what it needs, a stored lease lists exactly the keys whose records
name it, a revoke deletes exactly these, and no record names a lease that is not stored. -/
theorem leases_match_records {events : List LeaseEvent} {e : Engine}
    (hrun : LeaseRun env events e) :
    (∀ (k : Bytes) (id : ℤ), id ≠ 0 →
      ((∃ l, getLease e.records.db id = .ok (some l) ∧ k ∈ l.keys) ↔
        ∃ kv, getKeyValue e.records.db k = some kv ∧ kv.lease = id)) ∧
    (∀ revoke : RaftOperation, revoke.type = .leaseRevoke → revoke.leaseID ≠ 0 → ∀ k,
      getKeyValue (applyOperation env e revoke).records.db k =
        (getKeyValue e.records.db k).filter fun kv => decide (kv.lease ≠ revoke.leaseID)) ∧
    ∀ k kv, getKeyValue e.records.db k = some kv → kv.lease ≠ 0 →
      ∃ l, getLease e.records.db kv.lease = .ok (some l) := by
  have hagree := hrun.leasesAgree
  have hiff : ∀ (k : Bytes) (id : ℤ), id ≠ 0 →
      (Lists e.records.db id k ↔ ∃ kv, getKeyValue e.records.db k = some kv ∧ kv.lease = id) := by
    intro k id hid
    have hk := hagree id k
    rw [leaseOf,Option.map_eq_some_iff] at hk
    exact hk.trans (and_iff_right hid)
  refine ⟨hiff,fun revoke htype hid k => ?_,fun k kv hkv hid => ?_⟩
  · obtain ⟨hlisted,hother⟩ := (getElem?_leaseRevokeUnlocked e.records revoke.leaseID).1 k
    have hstate : (applyOperation env e revoke).records =
        (leaseRevokeUnlocked e.records revoke.leaseID).1 := by
      simp only [applyOperation,applyRecords,htype]
    rw [hstate]
    by_cases hl : Lists e.records.db revoke.leaseID k
    · obtain ⟨kv,hkv,hlease⟩ := (hiff k revoke.leaseID hid).mp hl
      rw [hkv,getKeyValue,hlisted hl]
      simp [Option.filter_some,hlease]
    · rw [getKeyValue,hother hl,← getKeyValue]
      cases hkv : getKeyValue e.records.db k with
      | none => rfl
      | some kv =>
        have hlease : kv.lease ≠ revoke.leaseID := fun hlease =>
          hl ((hiff k revoke.leaseID hid).mpr ⟨kv,hkv,hlease⟩)
        simp [Option.filter_some,hlease]
  · obtain ⟨l,hl,-⟩ := (hiff k kv.lease hid).mpr ⟨kv,hkv,rfl⟩
    exact ⟨l,hl⟩

/-- A key under a lease that is renewed and survives a compaction. -/
theorem leases_match_records_single :
    let env : Env := ⟨fun _ => 0,true⟩
    let events : List LeaseEvent := [.apply { type := .leaseGrant, leaseID := 1, ttl := 60 },
      .apply { type := .put, key := [97], value := [1], leaseID := 1 },.compact 1,.leaseRenew 1]
    let e := events.foldl (leaseStep env) .new
    LeaseRun env events e ∧ getKeyValue e.records.db [97] = some ⟨[97],[1],1,1,1,1⟩ ∧
      (∃ l, getLease e.records.db 1 = .ok (some l) ∧ [97] ∈ l.keys) ∧
      getKeyValue (applyOperation env e { type := .leaseRevoke, leaseID := 1 }).records.db [97] =
        none := by
  intro env events e
  have hrun : LeaseRun env events e := by
    refine .cons (.inr fun k kv hkv => ?_) rfl (.cons (.inr ⟨fun kv hkv => ?_,.inr ⟨⟨1,60,0,∅⟩,?_⟩⟩)
      rfl (.cons (fun _ id l hl hout => ?_) rfl (.cons trivial rfl (.nil _))))
    · simp [Engine.new,getKeyValue] at hkv
    · cases hkv
    · decide
    · -- no lease has run out
      have hmem := mem_expiredLeases.mpr ⟨⟨decimal id,rfl⟩,l,getLease_eq_some_iff.mp hl,hout⟩
      revert hmem
      rw [show expiredLeases _ _ = [] by decide]
      exact fun hmem => absurd hmem List.not_mem_nil
  have hget : getKeyValue e.records.db [97] = some ⟨[97],[1],1,1,1,1⟩ := by decide
  obtain ⟨hlists,hrevoke,-⟩ := leases_match_records hrun
  refine ⟨hrun,hget,(hlists [97] 1 (by decide)).mpr ⟨_,hget,rfl⟩,?_⟩
  rw [hrevoke { type := .leaseRevoke, leaseID := 1 } rfl (by decide),hget]
  rfl

/-- A deleted key stays in the list of its lease, and the revoke takes it away from its next
owner; a compaction drops an expired lease and leaves its key. -/
theorem deletions_and_cleanup_break_leases :
    let env : Env := ⟨fun n => n*10^9,true⟩
    let start : List LeaseEvent := [.apply { type := .leaseGrant, leaseID := 1, ttl := 1 },
      .apply { type := .put, key := [97], value := [1], leaseID := 1 }]
    let run : Engine → List LeaseEvent → Engine := List.foldl (leaseStep env)
    let e := run (run .new start) [.apply { type := .delete, key := [97] }]
    let e' := run e [.apply { type := .put, key := [97], value := [2] },
      .apply { type := .leaseRevoke, leaseID := 1 }]
    let c := run (run .new start) [.compact 1]
    (getKeyValue e.records.db [97] = none ∧
        (getLease e.records.db 1).map (·.map fun l => l.keys.toList) = .ok (some [[97]])) ∧
      getKeyValue e'.records.db [97] = none ∧
      getKeyValue c.records.db [97] = some ⟨[97],[1],1,1,1,1⟩ ∧
      (getLease c.records.db 1).map (·.isNone) = .ok true := by
  refine ⟨⟨?_,?_⟩,?_,?_,?_⟩ <;> decide

end MetaStore.RocksDB
