import MetaStore.Library.Bytes

/-! The data types shared by the storage engines (internal/kvstore/types.go) and the
replicated operation both engines declare. Byte strings stand for `string` and `[]byte`,
unbounded integers for `int64` revisions, counters and lease ids, and an instant of the
local clock is a number of nanoseconds. -/
namespace MetaStore
open Std

structure KeyValue where
  key : Bytes
  value : Bytes
  createRevision : ℤ
  modRevision : ℤ
  version : ℤ
  lease : ℤ
  deriving DecidableEq, Repr

/-- A lease with its set of attached keys; `keys` is the `map[string]bool` of the source. -/
structure Lease where
  id : ℤ
  ttl : ℤ
  grantTime : ℤ
  keys : ExtTreeSet Bytes
  deriving DecidableEq

/-- The limits of `time.Duration`, in nanoseconds. -/
def minDuration : ℤ := -2^63
def maxDuration : ℤ := 2^63-1

/-- Elapsed time since an instant; subtraction of instants saturates. -/
def since (now t : ℤ) : ℤ := max minDuration (min maxDuration (now-t))

/-- `elapsed >= float64(l.TTL)` with the seconds taken exactly. -/
def Lease.isExpired (now : ℤ) (l : Lease) : Bool := decide (l.ttl*10^9 ≤ since now l.grantTime)

/-- `other` stands for every integer no switch of the source has a case for. -/
inductive CompareTarget
  | version | create | mod | value | lease | other (code : ℤ)
  deriving DecidableEq, Repr

inductive CompareResult
  | equal | greater | less | notEqual | other (code : ℤ)
  deriving DecidableEq, Repr

structure CompareUnion where
  version : ℤ := 0
  createRevision : ℤ := 0
  modRevision : ℤ := 0
  value : Bytes := []
  lease : ℤ := 0
  deriving DecidableEq, Repr

structure Compare where
  target : CompareTarget
  result : CompareResult
  key : Bytes
  targetUnion : CompareUnion
  deriving DecidableEq, Repr

/-- The operation types of a transaction; the engines have no case for `txn`. -/
inductive OpType
  | range | put | delete | txn
  deriving DecidableEq, Repr

structure Op where
  type : OpType
  key : Bytes
  rangeEnd : Bytes := []
  value : Bytes := []
  limit : ℤ := 0
  leaseID : ℤ := 0
  deriving DecidableEq, Repr

structure RangeResponse where
  kvs : List KeyValue
  more : Bool
  count : ℤ
  revision : ℤ
  deriving DecidableEq, Repr

structure PutResponse where
  prevKv : Option KeyValue
  revision : ℤ
  deriving DecidableEq, Repr

structure DeleteResponse where
  deleted : ℤ
  prevKvs : List KeyValue
  revision : ℤ
  deriving DecidableEq, Repr

/-- The default is the zero value of the source's struct. -/
structure OpResponse where
  type : OpType := .range
  rangeResp : Option RangeResponse := none
  putResp : Option PutResponse := none
  deleteResp : Option DeleteResponse := none
  deriving DecidableEq, Repr

structure TxnResponse where
  succeeded : Bool
  responses : List OpResponse
  revision : ℤ
  deriving DecidableEq, Repr

/-- The `Type` of a replicated operation; `other` is any string but the five known ones. -/
inductive RaftOpType
  | put | delete | leaseGrant | leaseRevoke | txn | other (name : Bytes)
  deriving DecidableEq, Repr

/-- An operation committed through Raft. An empty `seqNum` means nobody waits for it. -/
structure RaftOperation where
  type : RaftOpType
  key : Bytes := []
  value : Bytes := []
  leaseID : ℤ := 0
  rangeEnd : Bytes := []
  seqNum : Bytes := []
  ttl : ℤ := 0
  compares : List Compare := []
  thenOps : List Op := []
  elseOps : List Op := []
  deriving DecidableEq, Repr

/-- `compareInt` of both engines. -/
def compareInt (a b : ℤ) : CompareResult → Bool
  | .equal => a == b
  | .greater => decide (b < a)
  | .less => decide (a < b)
  | .notEqual => a != b
  | .other _ => false

/-- `compareBytes` of both engines. -/
def compareBytes (a b : Bytes) : CompareResult → Bool
  | .equal => compare a b == .eq
  | .greater => compare a b == .gt
  | .less => compare a b == .lt
  | .notEqual => compare a b != .eq
  | .other _ => false

/-- `evaluateCompare` of both engines, on the record found under the compared key. -/
def evaluateCompare (kv : Option KeyValue) (cmp : Compare) : Bool :=
  match cmp.target with
  | .version => compareInt ((kv.map (·.version)).getD 0) cmp.targetUnion.version cmp.result
  | .create =>
    compareInt ((kv.map (·.createRevision)).getD 0) cmp.targetUnion.createRevision cmp.result
  | .mod => compareInt ((kv.map (·.modRevision)).getD 0) cmp.targetUnion.modRevision cmp.result
  | .value => compareBytes ((kv.map (·.value)).getD []) cmp.targetUnion.value cmp.result
  | .lease => compareInt ((kv.map (·.lease)).getD 0) cmp.targetUnion.lease cmp.result
  | .other _ => false

/-- The end key `"\x00"`, which the range tests read as no upper bound. -/
def noUpperBound : Bytes := [0]

/-- The range test `k >= startKey && (endKey == "\x00" || k < endKey)`. -/
def inRange (startKey endKey k : Bytes) : Bool :=
  decide (startKey ≤ k) && (decide (endKey = noUpperBound) || decide (k < endKey))

/-- The record a put writes: it continues the previous record of the key, if there is one. -/
def putRecord (prevKv : Option KeyValue) (newRevision : ℤ) (key value : Bytes) (leaseID : ℤ) :
    KeyValue where
  key := key
  value := value
  createRevision := match prevKv with
    | some kv => kv.createRevision
    | none => newRevision
  modRevision := newRevision
  version := match prevKv with
    | some kv => kv.version+1
    | none => 1
  lease := leaseID

end MetaStore
