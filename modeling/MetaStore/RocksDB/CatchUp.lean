import MetaStore.RocksDB.Restart

/-! A node that catches up by a snapshot. The nil commit puts the sender's database in place of
the receiver's, but the revision is kept in memory, too, and nothing reads it again. -/
namespace MetaStore.RocksDB
open Std

/-- `Leases`: every lease that can be decoded, in the order of the iterator. -/
def leases (db : Database) : List Lease :=
  (db.keys.filter fun k => decide (leasePrefix <+: k)).filterMap fun k : Bytes =>
    match db[k]? with
    | some (.lease l) => some l
    | _ => none

/-- What `readCommits` does with a nil commit, on the records. -/
def reloadSnapshot (r : Records) (snapshot : Database) : Records :=
  { r with db := recoverFromSnapshot r.db snapshot }

inductive Item
  | operation (op : RaftOperation)
  | commit (data : List Datum)

def Item.apply (env : Env) (r : Records) : Item → Records
  | operation op => (applyOperation env ⟨r,.empty⟩ op).records
  | commit data => (readCommit env ⟨r,.empty⟩ data).records

structure SameView (r s : Records) : Prop where
  revision : r.cachedRevision = s.cachedRevision
  range : ∀ key rangeEnd limit, range r key rangeEnd limit = RocksDB.range s key rangeEnd limit
  lease : ∀ id, getLease r.db id = getLease s.db id
  leases : leases r.db = RocksDB.leases s.db

/-- The receiver, with the snapshot of the sender, looks like the sender, and so it does after
the same further items on both. -/
def CatchesUp (env env' : Env) (sender receiver : Records) : Prop :=
  ∀ items : List Item, SameView
    (items.foldl (Item.apply env') (reloadSnapshot receiver (getSnapshot sender.db)))
    (items.foldl (Item.apply env) sender)

section Views
variable {T : ℤ → ℤ → Prop} {env env' : Env} {d : ℤ} {r s : Records}

lemma Alike.item (h : Alike T env env' d r s) (item : Item) :
    Alike T env env' d (item.apply env r) (item.apply env' s) := by
  cases item with
  | operation op => exact h.applyRecords op
  | commit data => exact h.readCommit .empty .empty data

lemma Alike.items (h : Alike T env env' d r s) (items : List Item) :
    Alike T env env' d (items.foldl (Item.apply env) r) (items.foldl (Item.apply env') s) := by
  induction items generalizing r s with
  | nil => exact h
  | cons item items ih => exact ih (h.item item)

lemma Alike.range (h : Alike T env env' d r s) (key rangeEnd : Bytes) (limit : ℤ) :
    range r key rangeEnd limit = RocksDB.range s key rangeEnd limit := by
  have hscan : scan r.db key rangeEnd = scan s.db key rangeEnd := h.filter_keys fun x hx => by
    simp only [Bool.and_eq_true,decide_eq_true_eq] at hx
    exact .inl hx.1
  simp only [RocksDB.range,h.getKeyValue,hscan,h.revision]

lemma Alike.sameView (h : Alike (· = ·) env env' d r s) : SameView r s := by
  have hdb : ∀ x, StoreKey x → r.db[x]? = s.db[x]? := fun x hx => rel_valueAlike_eq (h.db x hx)
  refine ⟨h.revision,h.range,fun id => ?_,?_⟩
  · rw [RocksDB.getLease,RocksDB.getLease,hdb _ (storeKey_leaseKey id)]
  · have hkeys : (r.db.keys.filter fun k => decide (leasePrefix <+: k)) =
        s.db.keys.filter fun k => decide (leasePrefix <+: k) :=
      h.filter_keys fun x hx => .inr (of_decide_eq_true hx)
    unfold RocksDB.leases
    rw [hkeys]
    refine List.filterMap_congr fun x hx => ?_
    rw [hdb x (.inr (of_decide_eq_true (List.mem_filter.mp hx).2))]

end Views

section Items
variable (env : Env) (r : Records)

def grantItem : Item := .operation { type := .leaseGrant, leaseID := 7 }

def oddPutItem : Item := .operation { type := .put, key := [255], leaseID := 7 }

lemma grantItem_apply : grantItem.apply env r = leaseGrantUnlocked env r 7 0 := rfl

lemma ticks_grants (n : ℕ) :
    ((List.replicate n grantItem).foldl (Item.apply env) r).ticks = r.ticks+n := by
  induction n generalizing r with
  | zero => rfl
  | succ n ih =>
    rw [List.replicate_succ,List.foldl_cons,ih,grantItem_apply,leaseGrantUnlocked]
    dsimp only
    omega

/-- The grant time of a lease that is granted again and again shows every reading of the clock. -/
lemma getLease_grants (n : ℕ) :
    getLease ((List.replicate (n+1) grantItem).foldl (Item.apply env) r).db 7 =
      .ok (some ⟨7,0,env.clock (r.ticks+n),∅⟩) := by
  rw [List.replicate_succ',List.foldl_append,List.foldl_cons,List.foldl_nil,grantItem_apply,
    leaseGrantUnlocked,ticks_grants,getLease,ExtTreeMap.getElem?_insert_self]

/-- Whether the odd key is attached shows the format of leases. -/
lemma getLease_oddPut :
    getLease ([grantItem,oddPutItem].foldl (Item.apply env) r).db 7 =
      .ok (some ⟨7,0,env.clock r.ticks,
        if env.enableLeaseProtobuf then ∅ else (∅ : ExtTreeSet Bytes).insert [255]⟩) := by
  obtain ⟨s,hs⟩ : ∃ s, s = incrementRevision (leaseGrantUnlocked env r 7 0) := ⟨_,rfl⟩
  have hlease : getLease s.db 7 = .ok (some ⟨7,0,env.clock r.ticks,∅⟩) := by
    rw [hs,getLease,getElem?_incrementRevision_of_ne (leaseKey_ne_revisionKey 7),leaseGrantUnlocked,
      ExtTreeMap.getElem?_insert_self]
  have hodd : ∃ key ∈ ((∅ : ExtTreeSet Bytes).insert [255]).toList, ¬ Utf8.Valid key := by
    exact ⟨[255],by simp,by decide⟩
  change getLease (putUnlocked env (leaseGrantUnlocked env r 7 0) [255] [] 7).1.db 7 = _
  rw [putUnlocked,← hs,attachKey,if_neg (by decide),hlease]
  dsimp only
  rw [serializeLease]
  cases env.enableLeaseProtobuf with
  | true =>
    rw [if_pos ⟨rfl,hodd⟩]
    exact hlease
  | false =>
    rw [if_neg fun h => absurd h.1 (by decide)]
    dsimp only
    rw [getLease,WriteBatch.getElem?_write]
    simp [WriteBatch.pending_cons,BatchOp.key,BatchOp.value]

end Items

/-- For every sender, every receiver and all their clocks, the receiver catches up with the
sender by its snapshot if and only if its revision in memory is the sender's already and, from
then on, both read the same times and store leases in the same format. -/
theorem catchesUp_iff (env env' : Env) (sender receiver : Records) :
    CatchesUp env env' sender receiver ↔
      receiver.cachedRevision = sender.cachedRevision ∧
      (∀ n, env'.clock (receiver.ticks+n) = env.clock (sender.ticks+n)) ∧
      env'.enableLeaseProtobuf = env.enableLeaseProtobuf := by
  have hdb : (reloadSnapshot receiver (getSnapshot sender.db)).db = sender.db := by
    rw [reloadSnapshot,recoverFromSnapshot_eq,getSnapshot_eq]
  constructor
  · intro h
    refine ⟨(h []).revision,fun n => ?_,?_⟩
    · have hlease := (h (List.replicate (n+1) grantItem)).lease 7
      rw [getLease_grants,getLease_grants] at hlease
      exact congrArg Lease.grantTime (Option.some.inj (Except.ok.inj hlease))
    · have hlease := (h [grantItem,oddPutItem]).lease 7
      rw [getLease_oddPut,getLease_oddPut] at hlease
      have hkeys := congrArg Lease.keys (Option.some.inj (Except.ok.inj hlease))
      have hne : (∅ : ExtTreeSet Bytes).insert [255] ≠ ∅ := by simp
      cases hr : env'.enableLeaseProtobuf <;> cases hs : env.enableLeaseProtobuf
      · rfl
      · rw [hr,hs] at hkeys
        exact absurd hkeys hne
      · rw [hr,hs] at hkeys
        exact absurd hkeys.symm hne
      · rfl
  · rintro ⟨hrev,hclock,hformat⟩ items
    have halike : Alike (· = ·) env' env (sender.ticks-receiver.ticks)
        (reloadSnapshot receiver (getSnapshot sender.db)) sender := by
      refine ⟨fun x _ => ?_,hrev,?_,hclock,hformat⟩
      · rw [hdb]
        cases sender.db[x]? with
        | none => exact .none
        | some v => exact .some (.same v)
      · dsimp only [reloadSnapshot]
        omega
    exact (halike.items items).sameView

/-- The sender has applied a put; the receiver is new. After the nil commit the receiver has the
record of revision 1 and is at revision 0, and the next put gets the revision 1 again. -/
theorem catchUp_keeps_old_revision :
    let put : RaftOperation := { type := .put, key := ascii "a", value := ascii "1" }
    let env : Env := ⟨fun _ => 0,true⟩
    let sender := (applyOperation env .new put).records
    let receiver := reloadSnapshot Engine.new.records (getSnapshot sender.db)
    sender.cachedRevision = 1 ∧ receiver.cachedRevision = 0 ∧
    (getKeyValue (applyRecords env sender put).db (ascii "a")).map KeyValue.modRevision = some 2 ∧
    (getKeyValue (applyRecords env receiver put).db (ascii "a")).map KeyValue.modRevision = some 1 ∧
    ¬ CatchesUp env env sender Engine.new.records := by
  intro put env sender receiver
  refine ⟨by decide,by decide,by decide,by decide,fun h => ?_⟩
  exact absurd (h []).revision (by decide)

end MetaStore.RocksDB
