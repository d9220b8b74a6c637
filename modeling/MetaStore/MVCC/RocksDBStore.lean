import MetaStore.Library.WriteBatch
import MetaStore.MVCC.MemoryStore

/-! The MVCC store over RocksDB (internal/mvcc/rocksdb_store.go). The index and the revisions are
kept in memory beside the database, which takes each call as one write batch. A storage key stands
for the bytes that `makeStorageKey` gives it, and a stored record for its encoding. Reads of the
database never fail; whether it takes a batch is the argument `ok`. -/
namespace MetaStore.MVCC
open Std

structure StorageKey where
  key : Bytes
  rev : Revision
  deriving DecidableEq, Repr

namespace StorageKey

/-- The storage keys of one user key are in the order of their revisions. -/
instance instOrdStorageKey : Ord StorageKey := ⟨compareLex (compareOn key) (compareOn rev)⟩

instance instTransOrdStorageKey : TransOrd StorageKey :=
  inferInstanceAs (TransCmp (compareLex (compareOn key) (compareOn rev)))

instance instLawfulEqOrdStorageKey : LawfulEqOrd StorageKey where
  eq_of_compare {a b} h := by
    have hthen : (Ord.compare a.key b.key).then (Ord.compare a.rev b.rev) = .eq := h
    obtain ⟨hkey,hrev⟩ := Ordering.then_eq_eq.mp hthen
    cases a
    cases b
    simp_all

end StorageKey

structure Storage where
  records : ExtTreeMap StorageKey KeyValue
  currentRevision : Option Revision
  compactedRevision : Option Revision

structure Batch where
  records : List (BatchOp StorageKey KeyValue) := []
  currentRevision : Option Revision := none
  compactedRevision : Option Revision := none

def Storage.write (db : Storage) (batch : Batch) : Storage where
  records := WriteBatch.write db.records batch.records
  currentRevision := batch.currentRevision.or db.currentRevision
  compactedRevision := batch.compactedRevision.or db.compactedRevision

inductive Failure
  | store (err : Error)
  | database
  deriving DecidableEq, Repr

structure RocksDBStore where
  db : Storage
  keyIndex : KeyIndex
  currentRev : Revision
  compactedRev : Revision
  closed : Bool

/-- The loop over the stored records: those before the compacted revision are passed over, and a
tombstone marks its key as deleted. -/
def rebuildKeyIndex (compactedRev : Revision) (records : List (StorageKey × KeyValue)) : KeyIndex :=
  records.foldl (fun idx item =>
    if item.1.rev.lessThan compactedRev then idx
    else if item.2.version = 0 then idx.delete item.1.key item.1.rev
    else idx.put item.1.key item.1.rev) ∅

namespace RocksDBStore

/-- `NewRocksDBStore`, on a database as it is found. -/
def new (db : Storage) : RocksDBStore where
  db := db
  keyIndex := rebuildKeyIndex (db.compactedRevision.getD .zero) db.records.toList
  currentRev := db.currentRevision.getD .zero
  compactedRev := db.compactedRevision.getD .zero
  closed := false

def empty : RocksDBStore := new ⟨∅,none,none⟩

def next (s : RocksDBStore) : RocksDBStore := { s with currentRev := ⟨s.currentRev.main+1,0⟩ }

def currentRevision (s : RocksDBStore) : ℤ := s.currentRev.main
def compactedRevision (s : RocksDBStore) : ℤ := s.compactedRev.main

/-! ### Reading -/

def record (s : RocksDBStore) (key : Bytes) (rev : Revision) : Option KeyValue :=
  s.db.records[(⟨key,rev⟩ : StorageKey)]?

def liveItem (s : RocksDBStore) (key : Bytes) : Option KeyItem :=
  match s.keyIndex[key]? with
  | none => none
  | some ki => if ki.isDeleted then none else some ki

def lastRecord (s : RocksDBStore) (key : Bytes) (ki : KeyItem) : Option KeyValue :=
  if ki.lastRevision.isZero then none else s.record key ki.lastRevision

def liveRecord (s : RocksDBStore) (key : Bytes) : Option KeyValue :=
  (s.liveItem key).bind (s.lastRecord key)

def get (s : RocksDBStore) (key : Bytes) (rev : ℤ) : Except Failure KeyValue :=
  if key = [] then .error (.store .emptyKey)
  else if s.closed then .error (.store .closed)
  else
    let atRev : Revision := if rev = 0 then s.currentRev else ⟨rev,0⟩
    if atRev.lessThan s.compactedRev then .error (.store .compacted)
    else if atRev.greaterThan s.currentRev then .error (.store .futureRevision)
    else
      let keyRev := s.keyIndex.getRevision key atRev
      if keyRev.isZero then .error (.store .keyNotFound)
      else
        match s.record key keyRev with
        | none => .error (.store .keyNotFound)
        | some kv => if kv.version = 0 then .error (.store .keyNotFound) else .ok kv

/-- The callback of `Range`. -/
def collect (s : RocksDBStore) (limit : ℤ) : ℤ → List (Bytes × Revision) → List KeyValue
  | _,[] => []
  | count,item :: items =>
    if 0 < limit ∧ limit ≤ count then []
    else
      match s.record item.1 item.2 with
      | none => s.collect limit count items
      | some kv =>
        if kv.version = 0 then s.collect limit count items
        else kv :: s.collect limit (count+1) items

/-- `Range`, with the number of records it returns. -/
def range (s : RocksDBStore) (start : Bytes) (stop : Option Bytes) (rev limit : ℤ) :
    Except Failure (List KeyValue × ℤ) :=
  if start = [] then .error (.store .emptyKey)
  else if s.closed then .error (.store .closed)
  else
    let atRev : Revision := if rev = 0 then s.currentRev else ⟨rev,0⟩
    if atRev.lessThan s.compactedRev then .error (.store .compacted)
    else if atRev.greaterThan s.currentRev then .error (.store .futureRevision)
    else
      let result := s.collect limit 0 (s.keyIndex.range start stop atRev)
      .ok (result,result.length)

/-! ### Writing -/

def following : Option KeyValue → ℤ × ℤ
  | none => (0,1)
  | some prevKv => (prevKv.createRevision,prevKv.version+1)

/-- The previous version info of `Put`, which is looked up at the new revision. -/
def foundInfo (s : RocksDBStore) (rev : Revision) (key : Bytes) : ℤ × ℤ :=
  let prevKeyRev := s.keyIndex.getRevision key rev
  if prevKeyRev.isZero then (rev.main,1) else following (s.record key prevKeyRev)

/-- The previous version info of `executePut`, which asks whether the key is live. -/
def liveInfo (s : RocksDBStore) (rev : Revision) (key : Bytes) : ℤ × ℤ :=
  match s.liveItem key with
  | none => (rev.main,1)
  | some ki => following (s.lastRecord key ki)

def tombstone (s : RocksDBStore) (rev : Revision) (key : Bytes) (ki : KeyItem) : KeyValue :=
  ⟨key,[],((s.lastRecord key ki).map KeyValue.createRevision).getD 0,rev.main,0,0⟩

def keysToDelete (s : RocksDBStore) (start : Bytes) (stop : Option Bytes) : List Bytes :=
  (s.keyIndex.range start stop .zero).map Prod.fst

/-- The index is written at the end, after the database. -/
def put (s : RocksDBStore) (ok : Bool) (key value : Bytes) (lease : ℤ) :
    Except Failure ℤ × RocksDBStore :=
  if key = [] then (.error (.store .emptyKey),s)
  else if s.closed then (.error (.store .closed),s)
  else
    let s := s.next
    let rev := s.currentRev
    let info := s.foundInfo rev key
    let kv : KeyValue := ⟨key,value,info.1,rev.main,info.2,lease⟩
    if ok then
      (.ok rev.main,{ s with
        db := s.db.write { records := [.put ⟨key,rev⟩ kv], currentRevision := some rev }
        keyIndex := s.keyIndex.put key rev })
    else (.error .database,s)

def delete (s : RocksDBStore) (ok : Bool) (key : Bytes) : Except Failure (ℤ × ℤ) × RocksDBStore :=
  if key = [] then (.error (.store .emptyKey),s)
  else if s.closed then (.error (.store .closed),s)
  else
    match s.liveItem key with
    | none => (.ok (s.currentRev.main,0),s)
    | some ki =>
      let s := s.next
      let rev := s.currentRev
      if ok then
        (.ok (rev.main,1),{ s with
          db := s.db.write
            { records := [.put ⟨key,rev⟩ (s.tombstone rev key ki)], currentRevision := some rev }
          keyIndex := s.keyIndex.delete key rev })
      else (.error .database,s)

structure Filling where
  store : RocksDBStore
  records : List (BatchOp StorageKey KeyValue)

/-- A record goes into the batch and its revision into the index, before the batch is written. -/
def Filling.delete (f : Filling) (rev : Revision) (key : Bytes) (ki : KeyItem) : Filling where
  store := { f.store with keyIndex := f.store.keyIndex.delete key rev }
  records := f.records ++ [.put ⟨key,rev⟩ (f.store.tombstone rev key ki)]

/-- The loop of the range deletions, from position `i` on, with the number of deleted keys. -/
def deleteKeys (base : Revision) : ℤ → List Bytes → Filling × ℤ → Filling × ℤ
  | _,[],acc => acc
  | i,key :: keys,(f,deleted) =>
    match f.store.liveItem key with
    | none => deleteKeys base (i+1) keys (f,deleted)
    | some ki => deleteKeys base (i+1) keys (f.delete ⟨base.main,base.sub+i⟩ key ki,deleted+1)

/-- The end of the calls that fill a batch: the sub-revision is set, and the batch is written
together with the current revision. -/
def Filling.finish (f : Filling) (ok : Bool) (sub : ℤ) : Bool × RocksDBStore :=
  let rev : Revision := ⟨f.store.currentRev.main,sub⟩
  let s := { f.store with currentRev := rev }
  if ok then
    (true,{ s with db := s.db.write { records := f.records, currentRevision := some rev } })
  else (false,s)

def deleteRange (s : RocksDBStore) (ok : Bool) (start : Bytes) (stop : Option Bytes) :
    Except Failure (ℤ × ℤ) × RocksDBStore :=
  if start = [] then (.error (.store .emptyKey),s)
  else if s.closed then (.error (.store .closed),s)
  else
    let keys := s.keysToDelete start stop
    if keys = [] then (.ok (s.currentRev.main,0),s)
    else
      let baseRev := s.next.currentRev
      let (f,deleted) := deleteKeys baseRev 0 keys (⟨s.next,[]⟩,0)
      let (written,s) := f.finish ok (if 0 < deleted then keys.length-1 else baseRev.sub)
      if written then (.ok (baseRev.main,deleted),s) else (.error .database,s)

def executePut (f : Filling) (op : Op) (rev : Revision) : Filling :=
  let info := f.store.liveInfo rev op.key
  { store := { f.store with keyIndex := f.store.keyIndex.put op.key rev }
    records := f.records ++
      [.put ⟨op.key,rev⟩ ⟨op.key,op.value,info.1,rev.main,info.2,op.lease⟩] }

def executeGet (s : RocksDBStore) (op : Op) : OpResponse :=
  match op.stop with
  | none =>
    { type := .get, kvs := ((s.liveRecord op.key).filter fun kv => decide (0 < kv.version)).toList }
  | some stop =>
    let kvs := (s.keyIndex.range op.key (some stop) .zero).filterMap fun item =>
      match s.record item.1 item.2 with
      | none => none
      | some kv => if 0 < kv.version then some kv else none
    { type := .get, kvs := kvs }

def executeDelete (f : Filling) (op : Op) (rev : Revision) : Filling × OpResponse :=
  match f.store.liveItem op.key with
  | none => (f,{ type := .delete })
  | some ki => (f.delete rev op.key ki,{ type := .delete, deleted := 1 })

def executeDeleteRange (f : Filling) (op : Op) (baseRev : Revision) : Filling × OpResponse :=
  let done := deleteKeys baseRev 0 (f.store.keysToDelete op.key op.stop) (f,0)
  (done.1,{ type := .deleteRange, deleted := done.2 })

def executeOp (f : Filling) (op : Op) (opRev : Revision) : Filling × OpResponse :=
  match op.type with
  | .put => (executePut f op opRev,{ type := .put })
  | .get => (f,f.store.executeGet op)
  | .delete => executeDelete f op opRev
  | .deleteRange => executeDeleteRange f op opRev
  | .other code => (f,{ type := .other code })

/-- The loop over the operations of a transaction; the `i`-th has sub-revision `i`. -/
def executeOps (txnRev : Revision) : ℤ → List Op → Filling → Filling × List OpResponse
  | _,[],f => (f,[])
  | i,op :: ops,f =>
    let done := executeOp f op ⟨txnRev.main,i⟩
    let rest := executeOps txnRev (i+1) ops done.1
    (rest.1,done.2 :: rest.2)

/-- `Commit`. The conditions are evaluated before a revision is taken. -/
def commit (s : RocksDBStore) (ok : Bool) (txn : Txn) : Except Failure TxnResponse × RocksDBStore :=
  if s.closed then (.error (.store .closed),s)
  else
    match MVCC.succeeded s.liveRecord txn.conditions with
    | none => (.error (.store .panic),s)
    | some succeeded =>
      let ops := if succeeded then txn.thenOps else txn.elseOps
      let txnRev := s.next.currentRev
      let (f,responses) := executeOps txnRev 0 ops ⟨s.next,[]⟩
      let (written,s) := f.finish ok (if 0 < ops.length then ops.length-1 else txnRev.sub)
      if written then (.ok ⟨succeeded,txnRev.main,responses⟩,s) else (.error .database,s)

/-! ### Compaction -/

/-- `Compact`: the records before the target are deleted, and then the index is compacted. -/
def compact (s : RocksDBStore) (ok : Bool) (rev : ℤ) : Except Failure Unit × RocksDBStore :=
  if s.closed then (.error (.store .closed),s)
  else
    let targetRev : Revision := ⟨rev,0⟩
    if targetRev.lessThanOrEqual s.compactedRev then (.error (.store .compacted),s)
    else if targetRev.greaterThan s.currentRev then (.error (.store .futureRevision),s)
    else
      let old := s.db.records.keys.filter fun k => k.rev.lessThan targetRev
      let s := { s with compactedRev := targetRev }
      if ok then
        (.ok (),{ s with
          db := s.db.write { records := old.map .delete, compactedRevision := some targetRev }
          keyIndex := (s.keyIndex.compact targetRev).1 })
      else (.error .database,s)

def close (s : RocksDBStore) : Except Failure Unit × RocksDBStore :=
  if s.closed then (.error (.store .closed),s) else (.ok (),{ s with closed := true })

end RocksDBStore

/-! ### Requests to either store -/

inductive Request
  | put (key value : Bytes) (lease : ℤ)
  | delete (key : Bytes)
  | deleteRange (start : Bytes) (stop : Option Bytes)
  | commit (txn : Txn)
  | compact (rev : ℤ)
  | get (key : Bytes) (rev : ℤ)
  | range (start : Bytes) (stop : Option Bytes) (rev limit : ℤ)
  | currentRevision
  | compactedRevision
  deriving DecidableEq, Repr

inductive Reply
  | revision (revision : Except Failure ℤ)
  | deleted (revisionAndDeleted : Except Failure (ℤ × ℤ))
  | committed (response : Except Failure TxnResponse)
  | compacted (result : Except Failure Unit)
  | record (kv : Except Failure KeyValue)
  | records (kvsAndCount : Except Failure (List KeyValue × ℤ))
  deriving DecidableEq

def RocksDBStore.serve (s : RocksDBStore) (ok : Bool) : Request → Reply × RocksDBStore
  | .put key value lease => (s.put ok key value lease).map .revision id
  | .delete key => (s.delete ok key).map .deleted id
  | .deleteRange start stop => (s.deleteRange ok start stop).map .deleted id
  | .commit txn => (s.commit ok txn).map .committed id
  | .compact rev => (s.compact ok rev).map .compacted id
  | .get key rev => (.record (s.get key rev),s)
  | .range start stop rev limit => (.records (s.range start stop rev limit),s)
  | .currentRevision => (.revision (.ok s.currentRevision),s)
  | .compactedRevision => (.revision (.ok s.compactedRevision),s)

end MetaStore.MVCC
