import MetaStore.Raft.MemoryNode
import MetaStore.RocksDB.Snapshot

/-! The raft node of the RocksDB engine (internal/raft/node_rocksdb.go), which shares its
database with the store. The raft library is represented by the Ready batches it delivers, the
store by its writes and by the snapshots it installs. An event that ends the process is no step;
a process that is started again and ends in its initialization is left as not running. -/
namespace MetaStore.Raft
open RocksDB WriteBatch

/-- The gob encoding of the store's snapshots. -/
structure SnapshotCodec where
  encode : Database → Bytes
  decode : Bytes → Option Database

structure RocksConfig extends Config where
  join : Bool := false
  codec : SnapshotCodec

/-- `raftNodeRocks`: `file` is the newest snapshot file, `initial` says whether the goroutine of
the initial snapshot is still to come and `reloads` how often the store has yet to install the
newest file. -/
structure RaftNodeRocks where
  raftStorage : RocksDBStorage
  file : Option Snapshot
  confState : ConfState
  snapshotIndex : UInt64
  appliedIndex : UInt64
  initial : Bool
  reloads : ℕ
  running : Bool

/-- A Ready batch, with the state that the last `ApplyConfChange` for its entries returns. -/
structure RocksReady where
  hardState : HardState := ⟨0,0,0⟩
  snapshot : Snapshot := ⟨[],0,0,{}⟩
  entries : List RocksDB.Entry := []
  committedEntries : List RocksDB.Entry := []
  confState : Option ConfState := none

/-- `raft.IsEmptyHardState`. -/
def isEmptyHardState (st : HardState) : Bool := st = ⟨0,0,0⟩

/-- An entry as `publishEntries` looks at it. -/
def toEntry (e : RocksDB.Entry) : Entry :=
  ⟨e.index.toNat,match e.type with
    | .normal => .normal
    | .confChange => .confChange
    | .confChangeV2 => .other,e.data⟩

/-- `snapshotCatchUpEntriesN`. -/
def snapshotCatchUpEntriesN : UInt64 := 10000

instance (x : Bytes) : Decidable (AppKey x) := inferInstanceAs (Decidable (_ ∨ _ ∨ _))

namespace RaftNodeRocks
variable (cfg : RocksConfig) (n : RaftNodeRocks)

def saveHardState (st : HardState) : RaftNodeRocks :=
  if isEmptyHardState st then n
  else { n with raftStorage := (n.raftStorage.setHardState true st).1 }

/-- A received snapshot is stored, saved and published; it must be ahead of the applied index. -/
def handleSnapshot (snap : Snapshot) : Option RaftNodeRocks :=
  if RocksDBStorage.isEmptySnap snap then some n
  else match n.raftStorage.applySnapshot true snap with
    | some (s,.ok ()) =>
      if snap.index ≤ n.appliedIndex then none
      else some { n with raftStorage := s, file := some snap, confState := snap.confState,
                         snapshotIndex := snap.index, appliedIndex := snap.index,
                         reloads := n.reloads+1 }
    | _ => none

def appendEntries (entries : List RocksDB.Entry) : Option RaftNodeRocks :=
  match n.raftStorage.append true entries with
  | some (s,.ok ()) => some { n with raftStorage := s }
  | _ => none

/-- `publishEntries` on the entries to apply; it ends the node that is removed. -/
def publishEntries (confState : Option ConfState) (ents : List RocksDB.Entry) :
    Option RaftNodeRocks :=
  match entriesToApply n.appliedIndex.toNat (ents.map toEntry) with
  | none => none
  | some [] => some n
  | some (e :: es) => (collectData cfg.toConfig (e :: es)).map fun _ =>
      { n with confState := confState.getD n.confState,
               appliedIndex := (ents.getLast?.map RocksDB.Entry.index).getD n.appliedIndex }

def storeWrites (writes : List (BatchOp Bytes Value)) : Option RaftNodeRocks :=
  if ∀ op ∈ writes, AppKey op.key then
    some { n with raftStorage := { n.raftStorage with db := write n.raftStorage.db writes } }
  else none

def maybeTriggerSnapshot : Option RaftNodeRocks :=
  if (n.appliedIndex-n.snapshotIndex).toNat ≤ cfg.snapCount then some n
  else
    let data := cfg.codec.encode (getSnapshot n.raftStorage.db)
    match n.raftStorage.createSnapshot true n.appliedIndex n.confState data with
    | (_,.error _) => none
    | (s,.ok snap) =>
      let compactIndex := if snapshotCatchUpEntriesN < n.appliedIndex then
        n.appliedIndex-snapshotCatchUpEntriesN else 1
      match s.compact true compactIndex with
      | (t,.ok ()) =>
        some { n with raftStorage := t, file := some snap, snapshotIndex := n.appliedIndex }
      | (_,.error e) =>
        if e = RocksDBStorage.errCompacted then
          some { n with raftStorage := s, file := some snap, snapshotIndex := n.appliedIndex }
        else none

/-- A completed iteration of `serveChannels` on a Ready batch, with what the store writes while
the entries are applied. -/
def handleReady (rd : RocksReady) (writes : List (BatchOp Bytes Value)) : Option RaftNodeRocks := do
  let n ← (n.saveHardState rd.hardState).handleSnapshot rd.snapshot
  let n ← n.appendEntries rd.entries
  let n ← n.publishEntries cfg rd.confState rd.committedEntries
  let n ← n.storeWrites writes
  n.maybeTriggerSnapshot cfg

def initialSnapshot : Option RaftNodeRocks :=
  if n.initial then
    if RocksDBStorage.isEmptySnap n.raftStorage.loadSnapshotUnsafe then
      let data := cfg.codec.encode (getSnapshot n.raftStorage.db)
      some { n with raftStorage := (n.raftStorage.createSnapshot true 0 n.confState data).1,
                    initial := false }
    else some { n with initial := false }
  else none

def reload : Option RaftNodeRocks :=
  match n.reloads,n.file with
  | 0,_ => none
  | k+1,none => some { n with reloads := k }
  | k+1,some snap => (cfg.codec.decode snap.data).map fun data =>
      let db := recoverFromSnapshot n.raftStorage.db data
      { n with raftStorage := { n.raftStorage with db := db }, reloads := k }

end RaftNodeRocks

/-- `initRocksDBStorage` with the snapshot that `loadSnapshot` finds. -/
def initRocksDBStorage (cfg : RocksConfig) (db : Database) (file : Option Snapshot) :
    Option (RocksDBStorage × Except String Unit) :=
  let s := newRocksDBStorage db (nodeName cfg.id)
  match file with
  | none => some (s,.ok ())
  | some snap =>
    if RocksDBStorage.isEmptySnap snap then some (s,.ok ())
    else (s.applySnapshot true snap).map fun p =>
      (p.1,p.2.mapError fun e => s!"failed to apply snapshot: {e}")

/-- The hard state of `InitialState`. -/
def initialHardState (s : RocksDBStorage) : HardState :=
  match s.db[hardStateKey s.nodeID]? with
  | some (.hardState st) => st
  | _ => ⟨0,0,0⟩

/-- `startRaft` and the start of `serveChannels`, on the database and the newest file. Without
an initialized storage the process ends. -/
def startRaft (cfg : RocksConfig) (db : Database) (file : Option Snapshot) : RaftNodeRocks :=
  match initRocksDBStorage cfg db file with
  | some (s,.ok ()) =>
    let snap := s.loadSnapshotUnsafe
    let oldNode := !isEmptyHardState (initialHardState s)
    ⟨s,file,snap.confState,snap.index,snap.index,!oldNode && !cfg.join && !cfg.witness,1,true⟩
  | some (s,.error _) => ⟨s,file,{},0,0,false,0,false⟩
  | none => ⟨newRocksDBStorage db (nodeName cfg.id),file,{},0,0,false,0,false⟩

inductive RocksEvent
  | ready (rd : RocksReady) (writes : List (BatchOp Bytes Value))
  | store (writes : List (BatchOp Bytes Value))
  | reload
  | initialSnapshot
  | restart

def RaftNodeRocks.step (cfg : RocksConfig) (n : RaftNodeRocks) (e : RocksEvent) :
    Option RaftNodeRocks :=
  match e with
  | .restart => some (startRaft cfg n.raftStorage.db n.file)
  | .ready rd writes => if n.running then n.handleReady cfg rd writes else none
  | .store writes => if n.running then n.storeWrites writes else none
  | .reload => if n.running then n.reload cfg else none
  | .initialSnapshot => if n.running then n.initialSnapshot cfg else none

def newRaftNodeRocks (cfg : RocksConfig) : RaftNodeRocks := startRaft cfg ∅ none

end MetaStore.Raft
