import MetaStore.MVCC.KeyIndex

/-! The MVCC store in memory (internal/mvcc/memory_store.go): an index from keys to revisions
and the records by revision. Every operation of a transaction and every key of a range
deletion writes under a sub-revision of its own. -/
namespace MetaStore.MVCC
open Std

structure KeyValue where
  key : Bytes
  value : Bytes
  createRevision : ℤ
  modRevision : ℤ
  version : ℤ
  lease : ℤ
  deriving DecidableEq, Repr

inductive Error
  | keyNotFound | compacted | futureRevision | emptyKey | closed | panic
  deriving DecidableEq, Repr

inductive ConditionTarget
  | version | createRevision | modRevision | value | other (code : ℤ)
  deriving DecidableEq, Repr

inductive CompareType
  | equal | notEqual | less | greater | other (code : ℤ)
  deriving DecidableEq, Repr

/-- The dynamic types of an `interface{}` that a comparison tells apart. -/
inductive Operand
  | int (n : ℤ) | bytes (b : Bytes) | other
  deriving DecidableEq, Repr

structure Condition where
  key : Bytes
  target : ConditionTarget
  compare : CompareType
  value : Operand
  deriving DecidableEq, Repr

inductive OpType
  | put | get | delete | deleteRange | other (code : ℤ)
  deriving DecidableEq, Repr

/-- An operation of a transaction. No `stop` is a nil `End`. -/
structure Op where
  type : OpType
  key : Bytes
  stop : Option Bytes := none
  value : Bytes := []
  lease : ℤ := 0
  deriving DecidableEq, Repr

structure OpResponse where
  type : OpType
  kvs : List KeyValue := []
  deleted : ℤ := 0
  deriving DecidableEq, Repr

structure TxnResponse where
  succeeded : Bool
  revision : ℤ
  responses : List OpResponse
  deriving DecidableEq, Repr

structure Txn where
  conditions : List Condition
  thenOps : List Op
  elseOps : List Op
  deriving DecidableEq, Repr

/-- `current` is the state of the revision generator. -/
structure MemoryStore where
  keyIndex : KeyIndex
  revisionStore : ExtTreeMap Revision KeyValue
  current : Revision
  compactedRev : Revision
  closed : Bool

/-! ### Conditions -/

def CompareType.holds : CompareType → Ordering → Bool
  | .equal,o => o == .eq
  | .notEqual,o => o != .eq
  | .less,o => o == .lt
  | .greater,o => o == .gt
  | .other _,_ => false

/-- `compare`. The expected value must have the dynamic type of the actual one. -/
def compareOperands (actual : Operand) (cmp : CompareType) (expected : Operand) : Option Bool :=
  match actual,expected with
  | .int a,.int e => some (cmp.holds (compare a e))
  | .int _,_ => none
  | .bytes a,.bytes e => some (cmp.holds (compare a e))
  | .bytes _,_ => none
  | .other,_ => some false

/-- `evaluateCondition`, on the record of the key if it is live. -/
def Condition.evaluate (cond : Condition) (kv : Option KeyValue) : Option Bool :=
  let actual : Operand := match cond.target with
    | .version => .int ((kv.map KeyValue.version).getD 0)
    | .createRevision => .int ((kv.map KeyValue.createRevision).getD 0)
    | .modRevision => .int ((kv.map KeyValue.modRevision).getD 0)
    | .value => .bytes ((kv.map KeyValue.value).getD [])
    | .other _ => .other
  compareOperands actual cond.compare cond.value

def succeeded (record : Bytes → Option KeyValue) : List Condition → Option Bool
  | [] => some true
  | cond :: conds =>
    match cond.evaluate (record cond.key) with
    | none => none
    | some false => some false
    | some true => succeeded record conds

namespace MemoryStore

/-- `NewMemoryStore`. -/
def new : MemoryStore := ⟨∅,∅,.zero,.zero,false⟩

/-- `revisionGen.Next`. -/
def next (s : MemoryStore) : MemoryStore := { s with current := ⟨s.current.main+1,0⟩ }

def currentRevision (s : MemoryStore) : ℤ := s.current.main

/-! ### Reading -/

def liveItem (s : MemoryStore) (key : Bytes) : Option KeyItem :=
  match s.keyIndex[key]? with
  | none => none
  | some ki => if ki.isDeleted then none else some ki

def lastRecord (s : MemoryStore) (ki : KeyItem) : Option KeyValue :=
  if ki.lastRevision.isZero then none else s.revisionStore[ki.lastRevision]?

def liveRecord (s : MemoryStore) (key : Bytes) : Option KeyValue :=
  (s.liveItem key).bind s.lastRecord

def get (s : MemoryStore) (key : Bytes) (rev : ℤ) : Except Error KeyValue :=
  if key = [] then .error .emptyKey
  else if s.closed then .error .closed
  else
    let atRev : Revision := if rev = 0 then s.current else ⟨rev,0⟩
    if atRev.lessThan s.compactedRev then .error .compacted
    else if atRev.greaterThan s.current then .error .futureRevision
    else
      let keyRev := s.keyIndex.getRevision key atRev
      if keyRev.isZero then .error .keyNotFound
      else
        match s.revisionStore[keyRev]? with
        | none => .error .keyNotFound
        | some kv => if kv.version = 0 then .error .keyNotFound else .ok kv

/-- The callback of `Range` over the keys it is handed: records that are missing or tombstones
are passed over, and a positive limit ends the walk. -/
def collect (s : MemoryStore) (limit : ℤ) : ℤ → List (Bytes × Revision) → List KeyValue
  | _,[] => []
  | count,item :: items =>
    if 0 < limit ∧ limit ≤ count then []
    else
      match s.revisionStore[item.2]? with
      | none => s.collect limit count items
      | some kv =>
        if kv.version = 0 then s.collect limit count items
        else kv :: s.collect limit (count+1) items

/-- `Range`, with the number of records it returns. -/
def range (s : MemoryStore) (start : Bytes) (stop : Option Bytes) (rev limit : ℤ) :
    Except Error (List KeyValue × ℤ) :=
  if start = [] then .error .emptyKey
  else if s.closed then .error .closed
  else
    let atRev : Revision := if rev = 0 then s.current else ⟨rev,0⟩
    if atRev.lessThan s.compactedRev then .error .compacted
    else if atRev.greaterThan s.current then .error .futureRevision
    else
      let result := s.collect limit 0 (s.keyIndex.range start stop atRev)
      .ok (result,result.length)

/-! ### Writing -/

/-- The creation revision and the version of a put, from the previous version of the key. -/
def previousInfo (s : MemoryStore) (rev : Revision) (key : Bytes) : ℤ × ℤ :=
  match s.liveItem key with
  | none => (rev.main,1)
  | some ki =>
    match s.lastRecord ki with
    | none => (0,1)
    | some prevKv => (prevKv.createRevision,prevKv.version+1)

/-- The part that `Put` and `executePut` share. -/
def putAt (s : MemoryStore) (rev : Revision) (key value : Bytes) (lease : ℤ) : MemoryStore :=
  let info := s.previousInfo rev key
  { s with
    revisionStore := s.revisionStore.insert rev ⟨key,value,info.1,rev.main,info.2,lease⟩
    keyIndex := s.keyIndex.put key rev }

/-- The part that the deletions share: a tombstone has version 0. -/
def tombstone (s : MemoryStore) (rev : Revision) (key : Bytes) (ki : KeyItem) : MemoryStore :=
  let createRev := ((s.lastRecord ki).map KeyValue.createRevision).getD 0
  { s with
    revisionStore := s.revisionStore.insert rev ⟨key,[],createRev,rev.main,0,0⟩
    keyIndex := s.keyIndex.delete key rev }

/-- The loop of the range deletions, from position `i` on; it keeps the number of deleted keys
and the last position. -/
def deleteKeys (base : Revision) : ℤ → List Bytes → MemoryStore × ℤ × ℤ → MemoryStore × ℤ × ℤ
  | _,[],acc => acc
  | i,key :: keys,(s,deleted,lastSubRev) =>
    match s.liveItem key with
    | none => deleteKeys base (i+1) keys (s,deleted,lastSubRev)
    | some ki =>
      deleteKeys base (i+1) keys (s.tombstone ⟨base.main,base.sub+i⟩ key ki,deleted+1,i)

def keysToDelete (s : MemoryStore) (start : Bytes) (stop : Option Bytes) : List Bytes :=
  (s.keyIndex.range start stop .zero).map Prod.fst

def put (s : MemoryStore) (key value : Bytes) (lease : ℤ) : Except Error (ℤ × MemoryStore) :=
  if key = [] then .error .emptyKey
  else if s.closed then .error .closed
  else
    let s := s.next
    .ok (s.current.main,s.putAt s.current key value lease)

def delete (s : MemoryStore) (key : Bytes) : Except Error ((ℤ × ℤ) × MemoryStore) :=
  if key = [] then .error .emptyKey
  else if s.closed then .error .closed
  else
    match s.liveItem key with
    | none => .ok ((s.current.main,0),s)
    | some ki =>
      let s := s.next
      .ok ((s.current.main,1),s.tombstone s.current key ki)

/-- The generator is left at the last sub-revision used. -/
def deleteRange (s : MemoryStore) (start : Bytes) (stop : Option Bytes) :
    Except Error ((ℤ × ℤ) × MemoryStore) :=
  if start = [] then .error .emptyKey
  else if s.closed then .error .closed
  else
    let keys := s.keysToDelete start stop
    if keys = [] then .ok ((s.current.main,0),s)
    else
      let rev := s.next.current
      let (s,deleted,lastSubRev) := deleteKeys rev 0 keys (s.next,0,0)
      if 0 < deleted ∧ 0 < lastSubRev then
        .ok ((rev.main,deleted),{ s with current := ⟨s.current.main,lastSubRev⟩ })
      else .ok ((rev.main,deleted),s)

def executeGet (s : MemoryStore) (op : Op) : OpResponse :=
  match op.stop with
  | none => { type := .get, kvs := (s.liveRecord op.key).toList }
  | some stop =>
    let kvs := (s.keyIndex.range op.key (some stop) .zero).filterMap fun item =>
      match s.revisionStore[item.2]? with
      | none => none
      | some kv => if 0 < kv.version then some kv else none
    { type := .get, kvs := kvs }

def executeDelete (s : MemoryStore) (op : Op) (rev : Revision) : MemoryStore × OpResponse :=
  match s.liveItem op.key with
  | none => (s,{ type := .delete })
  | some ki => (s.tombstone rev op.key ki,{ type := .delete, deleted := 1 })

def executeDeleteRange (s : MemoryStore) (op : Op) (baseRev : Revision) :
    MemoryStore × OpResponse :=
  let done := deleteKeys baseRev 0 (s.keysToDelete op.key op.stop) (s,0,0)
  (done.1,{ type := .deleteRange, deleted := done.2.1 })

def executeOp (s : MemoryStore) (op : Op) (opRev : Revision) : MemoryStore × OpResponse :=
  match op.type with
  | .put => (s.putAt opRev op.key op.value op.lease,{ type := .put })
  | .get => (s,s.executeGet op)
  | .delete => s.executeDelete op opRev
  | .deleteRange => s.executeDeleteRange op opRev
  | .other code => (s,{ type := .other code })

/-- The loop over the operations of a transaction; the `i`-th has sub-revision `i`. -/
def executeOps (txnRev : Revision) : ℤ → List Op → MemoryStore → MemoryStore × List OpResponse
  | _,[],s => (s,[])
  | i,op :: ops,s =>
    let done := s.executeOp op ⟨txnRev.main,i⟩
    let rest := executeOps txnRev (i+1) ops done.1
    (rest.1,done.2 :: rest.2)

/-- `Commit`. A transaction takes a revision even if it has no operation. -/
def commit (s : MemoryStore) (txn : Txn) : Except Error (TxnResponse × MemoryStore) :=
  if s.closed then .error .closed
  else
    match MVCC.succeeded s.liveRecord txn.conditions with
    | none => .error .panic
    | some succeeded =>
      let ops := if succeeded then txn.thenOps else txn.elseOps
      let rev := s.next.current
      let done := executeOps rev 0 ops s.next
      .ok (⟨succeeded,rev.main,done.2⟩,done.1)

/-! ### Compaction -/

/-- `Compact`: the index is compacted and every record before the target is removed. -/
def compact (s : MemoryStore) (rev : ℤ) : Except Error MemoryStore :=
  if s.closed then .error .closed
  else
    let targetRev : Revision := ⟨rev,0⟩
    if targetRev.lessThanOrEqual s.compactedRev then .error .compacted
    else if targetRev.greaterThan s.current then .error .futureRevision
    else .ok { s with
      keyIndex := (s.keyIndex.compact targetRev).1
      revisionStore := s.revisionStore.filter fun r _ => !r.lessThan targetRev
      compactedRev := targetRev }

def close (s : MemoryStore) : Except Error MemoryStore :=
  if s.closed then .error .closed else .ok { s with closed := true }

end MemoryStore

inductive Call
  | put (key value : Bytes) (lease : ℤ)
  | delete (key : Bytes)
  | deleteRange (start : Bytes) (stop : Option Bytes)
  | commit (txn : Txn)
  deriving DecidableEq, Repr

def written {α : Type*} (s : MemoryStore) (result : Except Error (α × MemoryStore)) : MemoryStore :=
  match result with
  | .ok (_,s') => s'
  | .error _ => s

def MemoryStore.step (s : MemoryStore) : Call → MemoryStore
  | .put key value lease => written s (s.put key value lease)
  | .delete key => written s (s.delete key)
  | .deleteRange start stop => written s (s.deleteRange start stop)
  | .commit txn => written s (s.commit txn)

def MemoryStore.run (calls : List Call) : MemoryStore := calls.foldl MemoryStore.step .new

inductive Answer
  | put (revision : Except Error ℤ)
  | delete (revisionAndDeleted : Except Error (ℤ × ℤ))
  | commit (response : Except Error TxnResponse)

def MemoryStore.answer (s : MemoryStore) : Call → Answer
  | .put key value lease => .put ((s.put key value lease).map Prod.fst)
  | .delete key => .delete ((s.delete key).map Prod.fst)
  | .deleteRange start stop => .delete ((s.deleteRange start stop).map Prod.fst)
  | .commit txn => .commit ((s.commit txn).map Prod.fst)

def MemoryStore.answers : MemoryStore → List Call → List Answer
  | _,[] => []
  | s,call :: calls => s.answer call :: (s.step call).answers calls

inductive Action
  | call (call : Call)
  | compact (rev : ℤ)
  | close

def MemoryStore.act (s : MemoryStore) : Action → MemoryStore
  | .call call => s.step call
  | .compact rev => (s.compact rev).toOption.getD s
  | .close => s.close.toOption.getD s

def MemoryStore.after (actions : List Action) : MemoryStore := actions.foldl MemoryStore.act .new

end MetaStore.MVCC
