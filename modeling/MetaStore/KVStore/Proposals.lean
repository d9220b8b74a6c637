import MetaStore.KVStore.Types
import MetaStore.Library.Json
import MetaStore.Library.Wire

/-! The byte strings the stores propose to Raft: operations of the memory engine
(protobuf_converter.go), of the RocksDB engine (raft_proto.go), and the legacy puts of the
HTTP interface. Both converters build the messages of raft.proto field by field. -/
namespace MetaStore

def RaftOpType.name : RaftOpType → Bytes
  | put => ascii "PUT"
  | delete => ascii "DELETE"
  | leaseGrant => ascii "LEASE_GRANT"
  | leaseRevoke => ascii "LEASE_REVOKE"
  | txn => ascii "TXN"
  | other name => name

def RaftOpType.Known : RaftOpType → Prop
  | other _ => False
  | _ => True

def CompareTarget.code : CompareTarget → ℤ
  | version => 0
  | create => 1
  | mod => 2
  | value => 3
  | lease => 4
  | other code => code

def CompareResult.code : CompareResult → ℤ
  | equal => 0
  | greater => 1
  | less => 2
  | notEqual => 3
  | other code => code

def OpType.code : OpType → ℤ
  | range => 0
  | put => 1
  | delete => 2
  | txn => 3

/-! ### The messages of raft.proto -/

namespace Raftpb
open Protobuf

/-- Enumerations of messages are 32-bit numbers. -/
def enumeration (code : ℤ) : ℤ := code.bmod (2^32)

inductive TargetUnion
  | version (n : ℤ)
  | createRevision (n : ℤ)
  | modRevision (n : ℤ)
  | value (bs : Bytes)
  | lease (n : ℤ)
  deriving DecidableEq, Repr

structure Compare where
  key : Bytes
  result : ℤ
  target : ℤ
  targetUnion : Option TargetUnion
  deriving DecidableEq, Repr

structure Op where
  type : ℤ
  key : Bytes
  value : Bytes
  rangeEnd : Bytes
  lease : ℤ
  deriving DecidableEq, Repr

structure RaftOperation where
  type : Bytes
  key : Bytes
  value : Bytes
  leaseId : ℤ
  rangeEnd : Bytes
  seqNum : Bytes
  ttl : ℤ
  compares : List Compare
  thenOps : List Op
  elseOps : List Op
  deriving DecidableEq, Repr

/-- The member of a union that is set is written even when it is zero. -/
def TargetUnion.marshal : TargetUnion → Bytes
  | version n => presentInt 4 n
  | createRevision n => presentInt 5 n
  | modRevision n => presentInt 6 n
  | value bs => delimited 7 bs
  | lease n => presentInt 8 n

def Compare.marshal (cmp : Compare) : Except String Bytes :=
  message [stringField 1 cmp.key,.ok (intField 2 cmp.result),.ok (intField 3 cmp.target),
    .ok ((cmp.targetUnion.map TargetUnion.marshal).getD [])]

def Op.marshal (op : Op) : Except String Bytes :=
  message [.ok (intField 1 op.type),stringField 2 op.key,.ok (bytesField 3 op.value),
    stringField 4 op.rangeEnd,.ok (intField 5 op.lease)]

def RaftOperation.marshal (op : RaftOperation) : Except String Bytes :=
  message ([stringField 1 op.type,stringField 2 op.key,stringField 3 op.value,
    .ok (intField 4 op.leaseId),stringField 5 op.rangeEnd,stringField 6 op.seqNum,
    .ok (intField 7 op.ttl)] ++
    op.compares.map (fun cmp => cmp.marshal.map (delimited 8)) ++
    op.thenOps.map (fun o => o.marshal.map (delimited 9)) ++
    op.elseOps.map (fun o => o.marshal.map (delimited 10)))

end Raftpb

/-! ### The converters -/

/-- `compareToProto` of both engines. -/
def compareToProto (cmp : Compare) : Raftpb.Compare where
  key := cmp.key
  result := Raftpb.enumeration cmp.result.code
  target := Raftpb.enumeration cmp.target.code
  targetUnion := match cmp.target with
    | .version => some (.version cmp.targetUnion.version)
    | .create => some (.createRevision cmp.targetUnion.createRevision)
    | .mod => some (.modRevision cmp.targetUnion.modRevision)
    | .value => some (.value cmp.targetUnion.value)
    | .lease => some (.lease cmp.targetUnion.lease)
    | .other _ => none

/-- `opToProto` of both engines; the message has no field for the limit. -/
def opToProto (op : Op) : Raftpb.Op where
  type := Raftpb.enumeration op.type.code
  key := op.key
  value := op.value
  rangeEnd := op.rangeEnd
  lease := op.leaseID

/-- `raftOperationToProto` of the memory engine and `toProto` of the RocksDB engine. -/
def raftOperationToProto (op : RaftOperation) : Raftpb.RaftOperation where
  type := op.type.name
  key := op.key
  value := op.value
  leaseId := op.leaseID
  rangeEnd := op.rangeEnd
  seqNum := op.seqNum
  ttl := op.ttl
  compares := op.compares.map compareToProto
  thenOps := op.thenOps.map opToProto
  elseOps := op.elseOps.map opToProto

section Json
open Json

def Compare.marshalJson (cmp : Compare) : Bytes :=
  writeObject [(ascii "Target",writeInt cmp.target.code),(ascii "Result",writeInt cmp.result.code),
    (ascii "Key",writeBytes cmp.key),
    (ascii "TargetUnion",writeObject [(ascii "Version",writeInt cmp.targetUnion.version),
      (ascii "CreateRevision",writeInt cmp.targetUnion.createRevision),
      (ascii "ModRevision",writeInt cmp.targetUnion.modRevision),
      (ascii "Value",writeBytes cmp.targetUnion.value),
      (ascii "Lease",writeInt cmp.targetUnion.lease)])]

def Op.marshalJson (op : Op) : Bytes :=
  writeObject [(ascii "Type",writeInt op.type.code),(ascii "Key",writeBytes op.key),
    (ascii "RangeEnd",writeBytes op.rangeEnd),(ascii "Value",writeBytes op.value),
    (ascii "Limit",writeInt op.limit),(ascii "LeaseID",writeInt op.leaseID)]

/-- A list member that is left out when it is empty. -/
def listMember (name : Bytes) (items : List Bytes) : List (Bytes × Bytes) :=
  if items = [] then [] else [(name,writeArray items)]

def RaftOperation.marshalJson (op : RaftOperation) : Bytes :=
  writeObject ([(ascii "type",writeString op.type.name),(ascii "key",writeString op.key),
    (ascii "value",writeString op.value),(ascii "lease_id",writeInt op.leaseID),
    (ascii "range_end",writeString op.rangeEnd),(ascii "seq_num",writeString op.seqNum),
    (ascii "ttl",writeInt op.ttl)] ++
    listMember (ascii "compares") (op.compares.map Compare.marshalJson) ++
    listMember (ascii "then_ops") (op.thenOps.map Op.marshalJson) ++
    listMember (ascii "else_ops") (op.elseOps.map Op.marshalJson))

end Json

def serializeOperation (enableProtobuf : Bool) (op : RaftOperation) : Except String Bytes :=
  if enableProtobuf then
    match (raftOperationToProto op).marshal with
    | .ok data => .ok (ascii "PB:" ++ data)
    | .error err => .error ("protobuf marshal failed: " ++ err)
  else .ok op.marshalJson

def marshalRaftOperation (op : RaftOperation) : Except String Bytes :=
  (raftOperationToProto op).marshal

/-- The gob description of the struct `KV` under the number the process gave to the type. -/
def describeKV (typeID : ℕ) : Bytes :=
  Gob.int (-typeID) ++ [3,1,1] ++ Gob.string (ascii "KV") ++ [1] ++ Gob.int typeID ++ [0,1,2] ++
    [1] ++ Gob.string (ascii "Key") ++ [1,12,0] ++ [1] ++ Gob.string (ascii "Val") ++ [1,12,0] ++
    [0,0]

/-- The fields of a struct that are not empty, each after its distance from the last one. -/
def fieldsKV (k v : Bytes) : Bytes :=
  if k = [] then if v = [] then [] else 2 :: Gob.string v
  else 1 :: Gob.string k ++ if v = [] then [] else 1 :: Gob.string v

/-- `gob.NewEncoder(&buf).Encode(kvstore.KV{Key: k, Val: v})`. -/
def encodeKV (typeID : ℕ) (k v : Bytes) : Bytes :=
  Gob.message (describeKV typeID) ++ Gob.message (Gob.int typeID ++ fieldsKV k v ++ [0])

/-- The proposals of the stores: operations of the five known types in the binary format of
either engine, and legacy puts. The types gob describes are numbered from 65 on. -/
inductive Emitted : Bytes → Prop
  | memory {op : RaftOperation} {data : Bytes} (known : op.type.Known)
      (h : serializeOperation true op = .ok data) : Emitted data
  | rocksdb {op : RaftOperation} {data : Bytes} (known : op.type.Known)
      (h : marshalRaftOperation op = .ok data) : Emitted data
  | legacy (typeID : ℕ) (k v : Bytes) (hlow : 65 ≤ typeID) (hhigh : typeID < 2^31) :
      Emitted (encodeKV typeID k v)

end MetaStore
