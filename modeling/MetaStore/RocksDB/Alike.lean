import MetaStore.RocksDB.Overlay

/-! Two stores with the same records, and with the same leases but for their grant times. They
remain so under the same operation, whatever else their databases hold: operations read grant
times nowhere, and the clock only to write them. -/
namespace MetaStore.RocksDB
open Std WriteBatch

def StoreKey (x : Bytes) : Prop := kvPrefix <+: x ∨ leasePrefix <+: x

lemma storeKey_kvKey (key : Bytes) : StoreKey (kvKey key) := .inl ⟨key,rfl⟩

lemma storeKey_leaseKey (id : ℤ) : StoreKey (leaseKey id) := .inr ⟨decimal id,rfl⟩

lemma StoreKey.ne_revisionKey {x : Bytes} (h : StoreKey x) : x ≠ revisionKey := by
  rintro rfl
  rcases h with ⟨t,ht⟩ | ⟨t,ht⟩
  all_goals
    have hrev : revisionKey = 109 :: ascii "eta:revision" := by decide
    rw [hrev] at ht
    exact absurd (List.cons.inj ht).1 (by decide)

section Values
variable (T : ℤ → ℤ → Prop)

inductive ValueAlike : Value → Value → Prop
  | same (v : Value) : ValueAlike v v
  | lease (l : Lease) {t : ℤ} (h : T l.grantTime t) :
      ValueAlike (.lease l) (.lease { l with grantTime := t })

inductive OpAlike : BatchOp Bytes Value → BatchOp Bytes Value → Prop
  | put (k : Bytes) {v w : Value} (h : ValueAlike T v w) : OpAlike (.put k v) (.put k w)
  | delete (k : Bytes) : OpAlike (.delete k) (.delete k)

inductive LookupAlike : Except String (Option Lease) → Except String (Option Lease) → Prop
  | error (err : String) : LookupAlike (.error err) (.error err)
  | none : LookupAlike (.ok none) (.ok none)
  | some {l m : Lease} (h : ValueAlike T (.lease l) (.lease m)) :
      LookupAlike (.ok (some l)) (.ok (some m))

end Values

section Batches
variable {T : ℤ → ℤ → Prop} {a b : Batch}
variable {op op' : BatchOp Bytes Value}

lemma ValueAlike.fields {l m : Lease} (h : ValueAlike T (.lease l) (.lease m)) :
    l.id = m.id ∧ l.ttl = m.ttl ∧ l.keys = m.keys := by
  cases h <;> exact ⟨rfl,rfl,rfl⟩

lemma ValueAlike.insert {l m : Lease} (h : ValueAlike T (.lease l) (.lease m)) (key : Bytes) :
    ValueAlike T (.lease { l with keys := l.keys.insert key })
      (.lease { m with keys := m.keys.insert key }) := by
  cases h with
  | same => exact .same _
  | lease _ ht => exact .lease { l with keys := l.keys.insert key } ht

lemma OpAlike.key_eq (h : OpAlike T op op') : op.key = op'.key := by
  cases h <;> rfl

lemma OpAlike.value_alike (h : OpAlike T op op') :
    Option.Rel (ValueAlike T) op.value op'.value := by
  cases h with
  | put k hv => exact .some hv
  | delete k => exact .none

lemma opAlike_refl (op : BatchOp Bytes Value) : OpAlike T op op := by
  cases op with
  | put k v => exact .put k (.same v)
  | delete k => exact .delete k

lemma batchAlike_refl (a : Batch) : List.Forall₂ (OpAlike T) a a :=
  List.forall₂_same.mpr fun op _ => opAlike_refl op

lemma pending_alike (h : List.Forall₂ (OpAlike T) a b) (x : Bytes) :
    Option.Rel (Option.Rel (ValueAlike T)) (pending a x) (pending b x) := by
  induction h with
  | nil => exact .none
  | @cons op op' a b hop _ ih =>
    rw [pending_cons,pending_cons]
    generalize pending a x = v at ih ⊢
    generalize pending b x = w at ih ⊢
    cases ih with
    | some h => exact .some h
    | none =>
      rw [Option.none_or,Option.none_or,hop.key_eq]
      by_cases hk : op'.key = x
      · rw [if_pos hk,if_pos hk]
        exact .some hop.value_alike
      · rw [if_neg hk,if_neg hk]
        exact .none

end Batches

/-- The same records and revision, the same leases but for their grant times, which are related
as all further readings of the clocks are, and the same format of leases. The positions in the
clock readings differ by `d`. -/
structure Alike (T : ℤ → ℤ → Prop) (env env' : Env) (d : ℤ) (r s : Records) : Prop where
  db : ∀ x, StoreKey x → Option.Rel (ValueAlike T) r.db[x]? s.db[x]?
  revision : r.cachedRevision = s.cachedRevision
  ticks : (s.ticks : ℤ) = r.ticks+d
  clock : ∀ n, T (env.clock (r.ticks+n)) (env'.clock (s.ticks+n))
  format : env.enableLeaseProtobuf = env'.enableLeaseProtobuf

namespace Alike
variable {T : ℤ → ℤ → Prop} {env env' : Env} {d : ℤ} {r s : Records}
variable {a b : Batch}

lemma getKeyValue (h : Alike T env env' d r s) (key : Bytes) :
    getKeyValue r.db key = RocksDB.getKeyValue s.db key := by
  have hdb := h.db _ (storeKey_kvKey key)
  unfold RocksDB.getKeyValue
  generalize r.db[kvKey key]? = v at hdb ⊢
  generalize s.db[kvKey key]? = w at hdb ⊢
  cases hdb with
  | none => rfl
  | some hv => cases hv <;> rfl

lemma getLease (h : Alike T env env' d r s) (id : ℤ) :
    LookupAlike T (getLease r.db id) (RocksDB.getLease s.db id) := by
  have hdb := h.db _ (storeKey_leaseKey id)
  unfold RocksDB.getLease
  generalize r.db[leaseKey id]? = v at hdb ⊢
  generalize s.db[leaseKey id]? = w at hdb ⊢
  cases hdb with
  | none => exact .none
  | some hv =>
    cases hv with
    | lease l ht => exact .some (.lease l ht)
    | same =>
      rename_i v
      cases v
      case lease l => exact .some (.same _)
      all_goals exact .error _

lemma write (h : Alike T env env' d r s) (hab : List.Forall₂ (OpAlike T) a b) :
    Alike T env env' d { r with db := WriteBatch.write r.db a }
      { s with db := WriteBatch.write s.db b } where
  db x hx := by
    have hp := pending_alike hab x
    dsimp only
    rw [getElem?_write,getElem?_write]
    generalize pending a x = v at hp ⊢
    generalize pending b x = w at hp ⊢
    cases hp with
    | none => exact h.db x hx
    | some hv => exact hv
  revision := h.revision
  ticks := h.ticks
  clock := h.clock
  format := h.format

lemma incrementRevision (h : Alike T env env' d r s) :
    Alike T env env' d (incrementRevision r) (RocksDB.incrementRevision s) where
  db x hx := by
    rw [getElem?_incrementRevision_of_ne hx.ne_revisionKey,
      getElem?_incrementRevision_of_ne hx.ne_revisionKey]
    exact h.db x hx
  revision := congrArg (·+1) h.revision
  ticks := h.ticks
  clock := h.clock
  format := h.format

lemma attachKey (h : Alike T env env' d r s) (key : Bytes) (leaseID : ℤ) :
    (∃ err, attachKey env r.db key leaseID = .error err ∧
      RocksDB.attachKey env' s.db key leaseID = .error err) ∨
    ∃ a b, RocksDB.attachKey env r.db key leaseID = .ok a ∧
      RocksDB.attachKey env' s.db key leaseID = .ok b ∧ List.Forall₂ (OpAlike T) a b := by
  unfold RocksDB.attachKey
  by_cases h0 : leaseID = 0
  · rw [if_pos h0,if_pos h0]
    exact .inr ⟨[],[],rfl,rfl,.nil⟩
  rw [if_neg h0,if_neg h0]
  have hlookup := h.getLease leaseID
  generalize RocksDB.getLease r.db leaseID = v at hlookup ⊢
  generalize RocksDB.getLease s.db leaseID = w at hlookup ⊢
  cases hlookup with
  | error err => exact .inl ⟨_,rfl,rfl⟩
  | none => exact .inr ⟨[],[],rfl,rfl,.nil⟩
  | @some l m hlm =>
    obtain ⟨-,-,hkeys⟩ := hlm.fields
    simp only [serializeLease,← h.format,← hkeys]
    split_ifs
    · exact .inl ⟨_,rfl,rfl⟩
    · refine .inr ⟨_,_,rfl,rfl,.cons (.put _ ?_) .nil⟩
      have hins := hlm.insert key
      rwa [← hkeys] at hins

lemma putKeyValue (h : Alike T env env' d r s) (newRevision : ℤ) (key value : Bytes)
    (leaseID : ℤ) :
    putKeyValue r.db newRevision key value leaseID =
      RocksDB.putKeyValue s.db newRevision key value leaseID := by
  rw [RocksDB.putKeyValue,RocksDB.putKeyValue,h.getKeyValue]

theorem putUnlocked (h : Alike T env env' d r s) (key value : Bytes) (leaseID : ℤ) :
    Alike T env env' d (putUnlocked env r key value leaseID).1
        (RocksDB.putUnlocked env' s key value leaseID).1 ∧
      (RocksDB.putUnlocked env r key value leaseID).2 =
        (RocksDB.putUnlocked env' s key value leaseID).2 := by
  have hi := h.incrementRevision
  have hkv : RocksDB.putKeyValue r.db (RocksDB.incrementRevision r).cachedRevision key value leaseID =
      RocksDB.putKeyValue s.db (RocksDB.incrementRevision s).cachedRevision key value leaseID := by
    rw [h.putKeyValue,hi.revision]
  simp only [RocksDB.putUnlocked]
  obtain ⟨err,hr,hs⟩|⟨a,b,hr,hs,hab⟩ := hi.attachKey key leaseID
  · rw [hr,hs]
    exact ⟨hi,rfl⟩
  · rw [hr,hs,hkv]
    exact ⟨hi.write (.cons (opAlike_refl _) hab),rfl⟩

theorem deleteUnlocked (h : Alike T env env' d r s) (key rangeEnd : Bytes) :
    Alike T env env' d (deleteUnlocked r key rangeEnd) (RocksDB.deleteUnlocked s key rangeEnd) := by
  have hi := h.incrementRevision
  have hfields : ∀ r : Records, (RocksDB.deleteUnlocked r key rangeEnd).cachedRevision =
      (RocksDB.incrementRevision r).cachedRevision ∧
      (RocksDB.deleteUnlocked r key rangeEnd).ticks = (RocksDB.incrementRevision r).ticks := by
    intro r
    simp only [RocksDB.deleteUnlocked]
    split_ifs <;> exact ⟨rfl,rfl⟩
  refine ⟨fun x hx => ?_,?_,?_,?_,h.format⟩
  · by_cases ht : ∃ k, x = kvKey k ∧ Targets key rangeEnd k
    · obtain ⟨k,rfl,hk⟩ := ht
      rw [getElem?_deleteUnlocked_of_targets r hk,getElem?_deleteUnlocked_of_targets s hk]
      exact .none
    · have ht : ∀ k, x = kvKey k → ¬ Targets key rangeEnd k := fun k hk htk => ht ⟨k,hk,htk⟩
      rw [getElem?_deleteUnlocked_of_not_targets r ht,getElem?_deleteUnlocked_of_not_targets s ht]
      exact hi.db x hx
  · rw [(hfields r).1,(hfields s).1,hi.revision]
  · rw [(hfields r).2,(hfields s).2]
    exact hi.ticks
  · rw [(hfields r).2,(hfields s).2]
    exact hi.clock

lemma tick (h : Alike T env env' d r s) :
    Alike T env env' d { r with ticks := r.ticks+1 } { s with ticks := s.ticks+1 } where
  db := h.db
  revision := h.revision
  ticks := by
    have := h.ticks
    push_cast
    omega
  clock n := by
    have := h.clock (1+n)
    rwa [← Nat.add_assoc,← Nat.add_assoc] at this
  format := h.format

lemma granted (h : Alike T env env' d r s) (id ttl : ℤ) :
    List.Forall₂ (OpAlike T) [.put (leaseKey id) (.lease ⟨id,ttl,env.clock r.ticks,∅⟩)]
      [.put (leaseKey id) (.lease ⟨id,ttl,env'.clock s.ticks,∅⟩)] :=
  .cons (.put _ (.lease ⟨id,ttl,env.clock r.ticks,∅⟩ (h.clock 0))) .nil

theorem leaseGrantUnlocked (h : Alike T env env' d r s) (id ttl : ℤ) :
    Alike T env env' d (leaseGrantUnlocked env r id ttl)
      (RocksDB.leaseGrantUnlocked env' s id ttl) :=
  h.tick.write (h.granted id ttl)

lemma foldl_deleteUnlocked (h : Alike T env env' d r s) (keys : List Bytes) :
    Alike T env env' d (keys.foldl (fun r key => RocksDB.deleteUnlocked r key []) r)
      (keys.foldl (fun r key => RocksDB.deleteUnlocked r key []) s) := by
  induction keys generalizing r s with
  | nil => exact h
  | cons key keys ih => exact ih (h.deleteUnlocked key [])

theorem leaseRevokeUnlocked (h : Alike T env env' d r s) (id : ℤ) :
    Alike T env env' d (leaseRevokeUnlocked r id).1 (RocksDB.leaseRevokeUnlocked s id).1 := by
  have hlookup := h.getLease id
  unfold RocksDB.leaseRevokeUnlocked
  generalize RocksDB.getLease r.db id = v at hlookup ⊢
  generalize RocksDB.getLease s.db id = w at hlookup ⊢
  cases hlookup with
  | error err => exact h
  | none => exact h
  | @some l m hlm =>
    obtain ⟨-,-,hkeys⟩ := hlm.fields
    dsimp only
    rw [← hkeys]
    exact (h.foldl_deleteUnlocked l.keys.toList).write (batchAlike_refl [.delete (leaseKey id)])

lemma txnOp (h : Alike T env env' d r s) (op : Op) :
    Alike T env env' d (txnOp env r op).1 (RocksDB.txnOp env' s op).1 ∧
      ((RocksDB.txnOp env r op).2.isOk ↔ (RocksDB.txnOp env' s op).2.isOk) := by
  unfold RocksDB.txnOp
  cases op.type with
  | range => exact ⟨h,Iff.rfl⟩
  | put =>
    obtain ⟨hp,hresult⟩ := h.putUnlocked op.key op.value op.leaseID
    refine ⟨hp,?_⟩
    dsimp only
    rw [hresult]
    cases (RocksDB.putUnlocked env' s op.key op.value op.leaseID).2 <;> exact Iff.rfl
  | delete => exact ⟨h.deleteUnlocked op.key op.rangeEnd,Iff.rfl⟩
  | txn => exact ⟨h,Iff.rfl⟩

lemma txnOps (h : Alike T env env' d r s) (ops : List Op) :
    Alike T env env' d (txnOps env r ops).1 (RocksDB.txnOps env' s ops).1 := by
  induction ops generalizing r s with
  | nil => exact h
  | cons op ops ih =>
    obtain ⟨hop,hok⟩ := h.txnOp op
    rw [RocksDB.txnOps,RocksDB.txnOps]
    cases hr : (RocksDB.txnOp env r op).2 with
    | error err =>
      cases hs : (RocksDB.txnOp env' s op).2 with
      | error err' => exact hop
      | ok response => rw [hr,hs] at hok; cases hok.mpr rfl
    | ok response =>
      cases hs : (RocksDB.txnOp env' s op).2 with
      | error err => rw [hr,hs] at hok; cases hok.mp rfl
      | ok response' => exact ih hop

lemma compares (h : Alike T env env' d r s) (cmps : List Compare) :
    compares r.db cmps = RocksDB.compares s.db cmps := by
  unfold RocksDB.compares
  exact congrArg _ (funext fun cmp => by rw [h.getKeyValue])

theorem txnUnlocked (h : Alike T env env' d r s) (cmps : List Compare) (thenOps elseOps : List Op) :
    Alike T env env' d (txnUnlocked env r cmps thenOps elseOps).1
      (RocksDB.txnUnlocked env' s cmps thenOps elseOps).1 := by
  simp only [RocksDB.txnUnlocked,h.compares cmps]
  exact h.txnOps _

theorem applyRecords (h : Alike T env env' d r s) (op : RaftOperation) :
    Alike T env env' d (applyRecords env r op) (RocksDB.applyRecords env' s op) := by
  unfold RocksDB.applyRecords
  cases op.type with
  | put => exact (h.putUnlocked op.key op.value op.leaseID).1
  | delete => exact h.deleteUnlocked op.key op.rangeEnd
  | leaseGrant => exact h.leaseGrantUnlocked op.leaseID op.ttl
  | leaseRevoke => exact h.leaseRevokeUnlocked op.leaseID
  | txn => exact h.txnUnlocked op.compares op.thenOps op.elseOps
  | other name => exact h

lemma mem_iff (h : Alike T env env' d r s) {x : Bytes} (hx : StoreKey x) : x ∈ r.db ↔ x ∈ s.db := by
  have hdb := h.db x hx
  rw [ExtTreeMap.mem_iff_isSome_getElem?,ExtTreeMap.mem_iff_isSome_getElem?]
  generalize r.db[x]? = v at hdb ⊢
  generalize s.db[x]? = w at hdb ⊢
  cases hdb <;> exact Iff.rfl

lemma filter_keys (h : Alike T env env' d r s) {p : Bytes → Bool} (hp : ∀ x, p x → StoreKey x) :
    r.db.keys.filter p = s.db.keys.filter p := by
  have hsorted : ∀ db : Database, (db.keys.filter p).Pairwise (· < ·) := by
    intro db
    refine List.Pairwise.filter _ (ExtTreeMap.ordered_keys.imp fun hab => ?_)
    exact (Bytes.compare_eq_lt_iff _ _).mp hab
  refine List.Pairwise.eq_of_mem_iff (hsorted r.db) (hsorted s.db) fun x => ?_
  simp only [List.mem_filter,ExtTreeMap.mem_keys]
  exact and_congr_left fun hx => h.mem_iff (hp x hx)

lemma scanBelow (h : Alike T env env' d r s) (key rangeEnd : Bytes) :
    scanBelow r.db key rangeEnd = RocksDB.scanBelow s.db key rangeEnd :=
  h.filter_keys fun x hx => by
    simp only [Bool.and_eq_true,decide_eq_true_eq] at hx
    obtain ⟨k,rfl⟩ := Bytes.exists_append_of_between hx.1 hx.2
    exact storeKey_kvKey k

theorem prepareRecords (h : Alike T env env' d r s)
    (hab : List.Forall₂ (OpAlike T) a b) (op : RaftOperation) :
    Alike T env env' d (prepareRecords env r a op).1 (RocksDB.prepareRecords env' s b op).1 ∧
      List.Forall₂ (OpAlike T) (RocksDB.prepareRecords env r a op).2
        (RocksDB.prepareRecords env' s b op).2 := by
  have hi := h.incrementRevision
  unfold RocksDB.prepareRecords
  cases op.type with
  | put =>
    have hkv : RocksDB.putKeyValue r.db (RocksDB.incrementRevision r).cachedRevision op.key op.value
        op.leaseID = RocksDB.putKeyValue s.db (RocksDB.incrementRevision s).cachedRevision op.key
        op.value op.leaseID := by
      rw [h.putKeyValue,hi.revision]
    have hput := List.rel_append hab (batchAlike_refl (T := T) [RocksDB.putKeyValue s.db
      (RocksDB.incrementRevision s).cachedRevision op.key op.value op.leaseID])
    simp only [preparePutBatch,hkv]
    obtain ⟨err,hr,hs⟩|⟨a',b',hr,hs,hab'⟩ := hi.attachKey op.key op.leaseID
    · rw [hr,hs]
      exact ⟨hi,hput⟩
    · rw [hr,hs]
      exact ⟨hi,List.rel_append hput hab'⟩
  | delete =>
    simp only [prepareDeleteBatch,hi.scanBelow]
    split_ifs
    · exact ⟨hi,List.rel_append hab (batchAlike_refl _)⟩
    · exact ⟨hi,List.rel_append hab (batchAlike_refl _)⟩
  | leaseGrant => exact ⟨h.tick,List.rel_append hab (h.granted op.leaseID op.ttl)⟩
  | leaseRevoke =>
    refine ⟨h,?_⟩
    have hlookup := h.getLease op.leaseID
    dsimp only [prepareLeaseRevokeBatch]
    generalize RocksDB.getLease r.db op.leaseID = v at hlookup ⊢
    generalize RocksDB.getLease s.db op.leaseID = w at hlookup ⊢
    cases hlookup with
    | error err => exact hab
    | none => exact hab
    | @some l m hlm =>
      obtain ⟨-,-,hkeys⟩ := hlm.fields
      dsimp only
      rw [← hkeys]
      exact List.rel_append (List.rel_append hab (batchAlike_refl _)) (batchAlike_refl _)
  | txn => exact ⟨h.txnUnlocked op.compares op.thenOps op.elseOps,hab⟩
  | other name => exact ⟨h,hab⟩

lemma prepareOperations (h : Alike T env env' d r s) (w w' : Waiters)
    (hab : List.Forall₂ (OpAlike T) a b) (ops : List RaftOperation) :
    Alike T env env' d (prepareOperations env (⟨r,w⟩,a) ops).1.records
        (RocksDB.prepareOperations env' (⟨s,w'⟩,b) ops).1.records ∧
      List.Forall₂ (OpAlike T) (RocksDB.prepareOperations env (⟨r,w⟩,a) ops).2
        (RocksDB.prepareOperations env' (⟨s,w'⟩,b) ops).2 := by
  induction ops generalizing r s w w' a b with
  | nil => exact ⟨h,hab⟩
  | cons op ops ih =>
    obtain ⟨hrecords,hbatch⟩ := h.prepareRecords hab op
    rw [RocksDB.prepareOperations,RocksDB.prepareOperations]
    exact ih hrecords _ _ hbatch

theorem applyOperationsBatch (h : Alike T env env' d r s) (w w' : Waiters)
    (ops : List RaftOperation) :
    Alike T env env' d (applyOperationsBatch env true ⟨r,w⟩ ops).records
      (RocksDB.applyOperationsBatch env' true ⟨s,w'⟩ ops).records := by
  obtain ⟨hrecords,hbatch⟩ := h.prepareOperations w w' .nil ops
  exact hrecords.write hbatch

end Alike
end MetaStore.RocksDB
