import MetaStore.RocksDB.Database

/-! The raft storage on RocksDB (internal/rocksdb/raftlog.go): one record per log entry
and the first and last index of the log, kept both in the database and in memory. Every
mutator says whether the database accepts its write; a loop that never ends is `none`. -/
namespace MetaStore.RocksDB
open Std

structure RocksDBStorage where
  db : Database
  nodeID : Bytes
  firstIndex : UInt64
  lastIndex : UInt64

def prefixedKey (nodeID key : Bytes) : Bytes := nodeID ++ ascii "_" ++ key

def logKey (nodeID : Bytes) (index : UInt64) : Bytes :=
  prefixedKey nodeID (ascii "raft_log_") ++ ascii "_" ++ bigEndian index

def hardStateKey (nodeID : Bytes) : Bytes := prefixedKey nodeID (ascii "hard_state")
def confStateKey (nodeID : Bytes) : Bytes := prefixedKey nodeID (ascii "conf_state")
def snapshotKey (nodeID : Bytes) : Bytes := prefixedKey nodeID (ascii "snapshot_meta")
def firstIndexKey (nodeID : Bytes) : Bytes := prefixedKey nodeID (ascii "first_index")
def lastIndexKey (nodeID : Bytes) : Bytes := prefixedKey nodeID (ascii "last_index")

/-- `getFirstIndexUnsafe` and `getLastIndexUnsafe`. -/
def getIndex (db : Database) (key : Bytes) : Option UInt64 :=
  match db[key]? with
  | some (.index i) => some i
  | _ => none

/-- `NewRocksDBStorage`, with the writes of missing bounds taken to succeed. -/
def newRocksDBStorage (db : Database) (nodeID : Bytes) : RocksDBStorage :=
  let (db,firstIndex) := match getIndex db (firstIndexKey nodeID) with
    | some i => (db,i)
    | none => (db.insert (firstIndexKey nodeID) (.index 1),1)
  let (db,lastIndex) := match getIndex db (lastIndexKey nodeID) with
    | some i => (db,i)
    | none => (db.insert (lastIndexKey nodeID) (.index (firstIndex-1)),firstIndex-1)
  ⟨db,nodeID,firstIndex,lastIndex⟩

/-- The indexes that `for i := lo; i < hi; i++` visits. -/
def indexesBelow (lo hi : UInt64) : List UInt64 :=
  (List.range' lo.toNat (hi.toNat-lo.toNat)).map UInt64.ofNat

/-- The indexes that `for i := lo; i <= hi; i++` visits. At the largest `hi` the counter
wraps around and the loop goes on for ever. -/
def indexesUpTo (lo hi : UInt64) : Option (List UInt64) :=
  if lo ≤ hi ∧ hi.toNat = 2^64-1 then none
  else some ((List.range' lo.toNat (hi.toNat+1-lo.toNat)).map UInt64.ofNat)

namespace RocksDBStorage

def entryAt (s : RocksDBStorage) (i : UInt64) : Option Entry :=
  match s.db[logKey s.nodeID i]? with
  | some (.entry e) => some e
  | _ => none

def deletes (s : RocksDBStorage) (is : List UInt64) : List (BatchOp Bytes Value) :=
  (is.map (logKey s.nodeID)).map .delete

def puts (s : RocksDBStorage) (entries : List Entry) : List (BatchOp Bytes Value) :=
  entries.map fun e => .put (logKey s.nodeID e.index) (.entry e)

/-- The indexes of the entries that an append at `first` truncates. -/
def conflicting (s : RocksDBStorage) (first : UInt64) : Option (List UInt64) :=
  if first ≤ s.lastIndex then indexesUpTo first s.lastIndex else some []

def putIndexIf (changed : Bool) (key : Bytes) (i : UInt64) : List (BatchOp Bytes Value) :=
  if changed then [.put key (.index i)] else []

/-- `Append`. The cached bounds change before the write is tried. -/
def append (writeOK : Bool) (s : RocksDBStorage) (entries : List Entry) :
    Option (RocksDBStorage × Except String Unit) :=
  match entries with
  | [] => some (s,.ok ())
  | e :: rest =>
    let first := e.index
    let last := ((e :: rest).getLast (List.cons_ne_nil e rest)).index
    (s.conflicting first).map fun old =>
      let lastIndex := if s.lastIndex < last then last else s.lastIndex
      let firstIndex := if lastIndex < s.firstIndex then first else s.firstIndex
      let wb := s.deletes old ++ s.puts (e :: rest) ++
        (putIndexIf (s.lastIndex < last) (lastIndexKey s.nodeID) last ++
          putIndexIf (lastIndex < s.firstIndex) (firstIndexKey s.nodeID) first)
      if writeOK then (⟨WriteBatch.write s.db wb,s.nodeID,firstIndex,lastIndex⟩,.ok ())
      else (⟨s.db,s.nodeID,firstIndex,lastIndex⟩,.error "write failed")

/-- `loadSnapshotUnsafe`: the stored snapshot, else an empty one before the first index. -/
def loadSnapshotUnsafe (s : RocksDBStorage) : Snapshot :=
  match s.db[snapshotKey s.nodeID]? with
  | some (.snapshot snap) => snap
  | _ => ⟨[],s.firstIndex-1,0,{}⟩

/-- `raft.IsEmptySnap`. -/
def isEmptySnap (snap : Snapshot) : Bool := snap.index == 0

def errCompacted : String := "requested index is unavailable due to compaction"
def errUnavailable : String := "requested entry at index is unavailable"

/-- `Term`. The index before the first one is looked up in the stored snapshot. -/
def term (s : RocksDBStorage) (index : UInt64) : Except String UInt64 :=
  if index < s.firstIndex-1 then .error errCompacted
  else if s.lastIndex < index then .error errUnavailable
  else if index = s.firstIndex-1 then
    let snap := s.loadSnapshotUnsafe
    if !isEmptySnap snap && snap.index == index then .ok snap.term
    else if index = 0 then .ok 0
    else .error errCompacted
  else match s.entryAt index with
    | some e => .ok e.term
    | none => .error errUnavailable

/-- The loop of `Entries`: the first entry is taken whatever its size. -/
def entriesLoop (s : RocksDBStorage) (entSize : Entry → UInt64) (maxSize : UInt64) :
    List UInt64 → List Entry → UInt64 → Except String (List Entry)
  | [],ents,_ => .ok ents
  | i :: is,ents,size =>
    match s.entryAt i with
    | none => .error errUnavailable
    | some ent =>
      if 0 < size ∧ maxSize < size+entSize ent then .ok ents
      else entriesLoop s entSize maxSize is (ents ++ [ent]) (size+entSize ent)

/-- `Entries`, where `entSize` is the encoded size of an entry. -/
def entriesBetween (s : RocksDBStorage) (entSize : Entry → UInt64) (lo hi maxSize : UInt64) :
    Except String (List Entry) :=
  if hi < lo then .error s!"invalid range: lo({lo}) > hi({hi})"
  else if lo < s.firstIndex then .error errCompacted
  else if s.lastIndex+1 < hi then .error errUnavailable
  else if lo = hi then .ok []
  else s.entriesLoop entSize maxSize (indexesBelow lo hi) [] 0

/-- `SetHardState`. -/
def setHardState (writeOK : Bool) (s : RocksDBStorage) (st : HardState) :
    RocksDBStorage × Except String Unit :=
  if writeOK then ({ s with db := s.db.insert (hardStateKey s.nodeID) (.hardState st) },.ok ())
  else (s,.error "write failed")

/-- The term `CreateSnapshot` records for the index. -/
def snapshotTerm (s : RocksDBStorage) (index : UInt64) : Except String UInt64 :=
  if index = s.firstIndex-1 then
    let snap := s.loadSnapshotUnsafe
    .ok (if isEmptySnap snap then 0 else snap.term)
  else match s.entryAt index with
    | some e => .ok e.term
    | none => .error s!"entry {index} not found"

def createSnapshot (writeOK : Bool) (s : RocksDBStorage) (index : UInt64) (cs : ConfState)
    (data : Bytes) : RocksDBStorage × Except String Snapshot :=
  if index < s.firstIndex-1 then
    (s,.error "requested index is older than the existing snapshot")
  else if s.lastIndex < index then (s,.error s!"snapshot index {index} > last index {s.lastIndex}")
  else match s.snapshotTerm index with
    | .error e => (s,.error e)
    | .ok term =>
      let snapshot : Snapshot := ⟨data,index,term,cs⟩
      if writeOK then
        ({ s with db := s.db.insert (snapshotKey s.nodeID) (.snapshot snapshot) },.ok snapshot)
      else (s,.error "failed to save snapshot")

/-- `ApplySnapshot`. The cached last index changes before the write is tried. -/
def applySnapshot (writeOK : Bool) (s : RocksDBStorage) (snap : Snapshot) :
    Option (RocksDBStorage × Except String Unit) :=
  if isEmptySnap snap then some (s,.ok ())
  else if snap.index ≤ s.firstIndex-1 then
    some (s,.error "requested index is older than the existing snapshot")
  else
    let lastDeleted := if snap.index ≤ s.lastIndex then snap.index else s.lastIndex
    (indexesUpTo s.firstIndex lastDeleted).map fun old =>
      let newFirstIndex := snap.index+1
      let lastIndex := if s.lastIndex < snap.index then snap.index else s.lastIndex
      let wb := [.put (snapshotKey s.nodeID) (.snapshot snap)] ++ s.deletes old ++
        [.put (firstIndexKey s.nodeID) (.index newFirstIndex)] ++
        putIndexIf (s.lastIndex < snap.index) (lastIndexKey s.nodeID) snap.index ++
        [.put (confStateKey s.nodeID) (.confState snap.confState)]
      if writeOK then (⟨WriteBatch.write s.db wb,s.nodeID,newFirstIndex,lastIndex⟩,.ok ())
      else ({ s with lastIndex := lastIndex },.error "failed to write snapshot")

def compact (writeOK : Bool) (s : RocksDBStorage) (compactIndex : UInt64) :
    RocksDBStorage × Except String Unit :=
  if compactIndex ≤ s.firstIndex then
    (s,.error "requested index is unavailable due to compaction")
  else if s.lastIndex < compactIndex then
    (s,.error s!"compact index {compactIndex} > last index {s.lastIndex}")
  else
    let wb := s.deletes (indexesBelow s.firstIndex compactIndex) ++
      [.put (firstIndexKey s.nodeID) (.index compactIndex)]
    if writeOK then
      ({ s with db := WriteBatch.write s.db wb, firstIndex := compactIndex },.ok ())
    else (s,.error "failed to compact")

end RocksDBStorage
end MetaStore.RocksDB
