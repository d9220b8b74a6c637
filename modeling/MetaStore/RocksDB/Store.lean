import MetaStore.Library.Utf8
import MetaStore.RocksDB.Database

/-! The key-value store on RocksDB (internal/rocksdb/kvstore.go): records under `kv:`, leases
under `lease:`, the revision both in memory and in the database. Each operation has a form
that writes at once and one that adds to a write batch and reads the database below it.
Watch events are left out: sending them changes none of these fields. -/
namespace MetaStore.RocksDB
open Std

def kvPrefix : Bytes := ascii "kv:"
def leasePrefix : Bytes := ascii "lease:"
def revisionKey : Bytes := ascii "meta:revision"

def kvKey (key : Bytes) : Bytes := kvPrefix ++ key
def leaseKey (id : ℤ) : Bytes := leasePrefix ++ decimal id

/-- What the operations take from their surroundings: the readings of the local clock, in
order, and the format switch for leases. -/
structure Env where
  clock : ℕ → ℤ
  enableLeaseProtobuf : Bool := true

/-- The fields of the store that operations change. `ticks` counts the clock readings. -/
@[ext] structure Records where
  db : Database
  cachedRevision : ℤ
  ticks : ℕ

abbrev Batch := List (BatchOp Bytes Value)

/-! ### Reading -/

/-- `getKeyValue`; a record that cannot be decoded is taken for a missing one by every caller. -/
def getKeyValue (db : Database) (key : Bytes) : Option KeyValue :=
  match db[kvKey key]? with
  | some (.keyValue kv) => some kv
  | _ => none

def getLease (db : Database) (id : ℤ) : Except String (Option Lease) :=
  match db[leaseKey id]? with
  | none => .ok none
  | some (.lease l) => .ok (some l)
  | some _ => .error "gob decode lease failed"

/-- The keys under `kv:` whose rest lies in the range, as the iterator visits them. -/
def scan (db : Database) (key rangeEnd : Bytes) : List Bytes :=
  db.keys.filter fun k => decide (kvPrefix <+: k) && inRange key rangeEnd (k.drop kvPrefix.length)

/-- `Range`. The loop stops as soon as it has `limit` records. -/
def range (r : Records) (key rangeEnd : Bytes) (limit : ℤ) : RangeResponse :=
  let kvs :=
    if rangeEnd = [] then (getKeyValue r.db key).toList
    else
      let found := (scan r.db key rangeEnd).filterMap fun k =>
        getKeyValue r.db (k.drop kvPrefix.length)
      (if 0 < limit then found.take limit.toNat else found).mergeSort fun a b => decide (a.key ≤ b.key)
  if 0 < limit ∧ limit < kvs.length then
    ⟨kvs.take limit.toNat,true,kvs.length,r.cachedRevision⟩
  else ⟨kvs,false,kvs.length,r.cachedRevision⟩

/-! ### Operations that write at once -/

/-- `SerializeLease`: the protobuf format has the keys as strings. -/
def serializeLease (env : Env) (l : Lease) : Except String Value :=
  if env.enableLeaseProtobuf ∧ ∃ key ∈ l.keys.toList, ¬ Utf8.Valid key then
    .error "protobuf marshal lease failed: string field contains invalid UTF-8"
  else .ok (.lease l)

def incrementRevision (r : Records) : Records :=
  { r with
    db := r.db.insert revisionKey (.revision (r.cachedRevision+1))
    cachedRevision := r.cachedRevision+1 }

def putKeyValue (db : Database) (newRevision : ℤ) (key value : Bytes) (leaseID : ℤ) :
    BatchOp Bytes Value :=
  .put (kvKey key) (.keyValue (putRecord (getKeyValue db key) newRevision key value leaseID))

def attachKey (env : Env) (db : Database) (key : Bytes) (leaseID : ℤ) : Except String Batch :=
  if leaseID = 0 then .ok []
  else
    match getLease db leaseID with
    | .error err => .error s!"failed to get lease {leaseID}: {err}"
    | .ok none => .ok []
    | .ok (some l) =>
      match serializeLease env { l with keys := l.keys.insert key } with
      | .error err => .error s!"failed to encode lease: {err}"
      | .ok data => .ok [.put (leaseKey leaseID) data]

def putUnlocked (env : Env) (r : Records) (key value : Bytes) (leaseID : ℤ) :
    Records × Except String Unit :=
  let r1 := incrementRevision r
  match attachKey env r1.db key leaseID with
  | .error err => (r1,.error err)
  | .ok lease =>
    ({ r1 with
        db := WriteBatch.write r1.db (putKeyValue r.db r1.cachedRevision key value leaseID :: lease) },
      .ok ())

/-- A range with the end `"\x00"` has no upper bound. -/
def deleteUnlocked (r : Records) (key rangeEnd : Bytes) : Records :=
  let r1 := incrementRevision r
  if rangeEnd = [] then { r1 with db := r1.db.erase (kvKey key) }
  else { r1 with db := WriteBatch.write r1.db ((scan r1.db key rangeEnd).map .delete) }

def leaseGrantUnlocked (env : Env) (r : Records) (id ttl : ℤ) : Records :=
  { r with
    db := r.db.insert (leaseKey id) (.lease ⟨id,ttl,env.clock r.ticks,∅⟩)
    ticks := r.ticks+1 }

/-- Every attached key is deleted with a revision of its own, in any order. -/
def leaseRevokeUnlocked (r : Records) (id : ℤ) : Records × Except String Unit :=
  match getLease r.db id with
  | .error err => (r,.error err)
  | .ok none => (r,.ok ())
  | .ok (some l) =>
    let r1 := l.keys.toList.foldl (fun r key => deleteUnlocked r key []) r
    ({ r1 with db := r1.db.erase (leaseKey id) },.ok ())

/-- One operation of the executed branch of a transaction. The deletion loop decodes the
records of a range by gob, which never succeeds on them, so a range reports no records. -/
def txnOp (env : Env) (r : Records) (op : Op) : Records × Except String OpResponse :=
  match op.type with
  | .range => (r,.ok { type := .range, rangeResp := some (range r op.key op.rangeEnd op.limit) })
  | .put =>
    let prevKv := getKeyValue r.db op.key
    let p := putUnlocked env r op.key op.value op.leaseID
    (p.1,p.2.map fun _ => { type := .put, putResp := some ⟨prevKv,p.1.cachedRevision⟩ })
  | .delete =>
    let prevKvs := if op.rangeEnd = [] then (getKeyValue r.db op.key).toList else []
    let r1 := deleteUnlocked r op.key op.rangeEnd
    (r1,.ok { type := .delete, deleteResp := some ⟨prevKvs.length,prevKvs,r1.cachedRevision⟩ })
  | .txn => (r,.ok {})

def txnOps (env : Env) : Records → List Op → Records × Except String (List OpResponse)
  | r,[] => (r,.ok [])
  | r,op :: ops =>
    let p := txnOp env r op
    match p.2 with
    | .error err => (p.1,.error err)
    | .ok response =>
      let rest := txnOps env p.1 ops
      (rest.1,rest.2.map (response :: ·))

def compares (db : Database) (cmps : List Compare) : Bool :=
  cmps.all fun cmp => evaluateCompare (getKeyValue db cmp.key) cmp

def txnUnlocked (env : Env) (r : Records) (cmps : List Compare) (thenOps elseOps : List Op) :
    Records × Except String TxnResponse :=
  let succeeded := compares r.db cmps
  let p := txnOps env r (if succeeded then thenOps else elseOps)
  (p.1,p.2.map fun responses => ⟨succeeded,responses,p.1.cachedRevision⟩)

/-! ### Operations that add to a write batch -/

/-- The record stays in the batch when the lease cannot be updated. -/
def preparePutBatch (env : Env) (r : Records) (batch : Batch) (key value : Bytes) (leaseID : ℤ) :
    Records × Batch :=
  let r1 := incrementRevision r
  let batch := batch ++ [putKeyValue r.db r1.cachedRevision key value leaseID]
  match attachKey env r1.db key leaseID with
  | .error _ => (r1,batch)
  | .ok lease => (r1,batch ++ lease)

/-- The database keys from `kv:key` up to `kv:rangeEnd`, whatever the end is. -/
def scanBelow (db : Database) (key rangeEnd : Bytes) : List Bytes :=
  db.keys.filter fun k => decide (kvKey key ≤ k) && decide (k < kvKey rangeEnd)

def prepareDeleteBatch (r : Records) (batch : Batch) (key rangeEnd : Bytes) : Records × Batch :=
  let r1 := incrementRevision r
  if rangeEnd = [] then (r1,batch ++ [.delete (kvKey key)])
  else
    let toDelete := (scanBelow r1.db key rangeEnd).map fun k => k.drop kvPrefix.length
    (r1,batch ++ toDelete.map fun actualKey => .delete (kvKey actualKey))

def prepareLeaseGrantBatch (env : Env) (r : Records) (batch : Batch) (leaseID ttl : ℤ) :
    Records × Batch :=
  ({ r with ticks := r.ticks+1 },
    batch ++ [.put (leaseKey leaseID) (.lease ⟨leaseID,ttl,env.clock r.ticks,∅⟩)])

/-- Draws no revision for the deleted keys. -/
def prepareLeaseRevokeBatch (r : Records) (batch : Batch) (leaseID : ℤ) : Batch :=
  match getLease r.db leaseID with
  | .error _ => batch
  | .ok none => batch
  | .ok (some l) =>
    batch ++ l.keys.toList.map (fun key => .delete (kvKey key)) ++ [.delete (leaseKey leaseID)]

/-! ### Calls outside the log -/

def compactedRevisionKey : Bytes := ascii "meta:compacted_revision"

def getCompactedRevisionUnlocked (db : Database) : ℤ :=
  match db[compactedRevisionKey]? with
  | some (.index i) => i.toInt64.toInt
  | _ => 0

def setCompactedRevisionUnlocked (db : Database) (revision : ℤ) : Database :=
  db.insert compactedRevisionKey (.index (UInt64.ofInt revision))

/-- `elapsed > time.Duration(lease.TTL)*time.Second`, where the product wraps around. -/
def outlived (now : ℤ) (l : Lease) : Bool := decide ((l.ttl*10^9).bmod (2^64) < since now l.grantTime)

/-- The database keys of the leases that have run out, as the iterator visits them. -/
def expiredLeases (db : Database) (now : ℤ) : List Bytes :=
  db.keys.filter fun k => decide (leasePrefix <+: k) &&
    match db[k]? with
    | some (.lease l) => outlived now l
    | _ => false

/-- Deletes the lease records only. -/
def cleanupExpiredLeasesUnlocked (db : Database) (now : ℤ) : Database :=
  WriteBatch.write db ((expiredLeases db now).map .delete)

/-- `Compact`. The merge of the files changes no record. Of the three readings of the clock
the first and the last are for the log message. -/
def compact (env : Env) (r : Records) (revision : ℤ) : Records × Except String Unit :=
  let currentRev := r.cachedRevision
  if currentRev < revision then
    (r,.error s!"cannot compact to future revision {revision} (current: {currentRev})")
  else if revision ≤ 0 then (r,.error s!"invalid compact revision: {revision}")
  else
    let compactedRev := getCompactedRevisionUnlocked r.db
    if revision ≤ compactedRev then
      (r,.error s!"already compacted to revision {compactedRev} (requested: {revision})")
    else
      ({ r with
          db := cleanupExpiredLeasesUnlocked (setCompactedRevisionUnlocked r.db revision)
            (env.clock (r.ticks+1))
          ticks := r.ticks+3 },.ok ())

/-- `LeaseRenew` changes the lease of this node only. -/
def leaseRenew (env : Env) (r : Records) (id : ℤ) : Records × Except String Lease :=
  match getLease r.db id with
  | .error err => (r,.error err)
  | .ok none => (r,.error s!"lease not found: {id}")
  | .ok (some l) =>
    let l' := { l with grantTime := env.clock r.ticks }
    let r1 := { r with ticks := r.ticks+1 }
    match serializeLease env l' with
    | .error err => (r1,.error err)
    | .ok data => ({ r1 with db := r1.db.insert (leaseKey id) data },.ok l')

end MetaStore.RocksDB
