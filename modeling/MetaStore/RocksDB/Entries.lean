import MetaStore.KVStore.OperationCodec
import MetaStore.RocksDB.Restart

/-! The strings of a commit as the RocksDB engine decodes them (`readCommits` of kvstore.go,
`unmarshalRaftMessage` of raft_proto.go): as a RaftMessage if they can be read as one, else as one
operation, else in the legacy format. The parsers are parameters. An operation is not taken for a
message because the name of its type is no message. -/
namespace MetaStore

lemma CompareTarget.code_ofCode (n : ℤ) : (CompareTarget.ofCode n).code = n := by
  unfold ofCode
  split_ifs <;> simp_all [code]

lemma CompareResult.code_ofCode (n : ℤ) : (CompareResult.ofCode n).code = n := by
  unfold ofCode
  split_ifs <;> simp_all [code]

/-- `other` is for codes and names that are not known. -/
structure RaftOperation.Canonical (op : RaftOperation) : Prop where
  type : RaftOpType.ofName op.type.name = op.type
  target : ∀ cmp ∈ op.compares, CompareTarget.ofCode cmp.target.code = cmp.target
  result : ∀ cmp ∈ op.compares, CompareResult.ofCode cmp.result.code = cmp.result

structure Compare.Carried (cmp : Compare) : Prop where
  target : Raftpb.enumeration cmp.target.code = cmp.target.code
  result : Raftpb.enumeration cmp.result.code = cmp.result.code
  targetUnion : cmp.targetUnion.select cmp.target = cmp.targetUnion

structure RaftOperation.Carried (op : RaftOperation) : Prop where
  compares : ∀ cmp ∈ op.compares, cmp.Carried
  thenOps : ∀ o ∈ op.thenOps, o.limit = 0
  elseOps : ∀ o ∈ op.elseOps, o.limit = 0

lemma protoToCompare_compareToProto_eq_iff {cmp : Compare}
    (htarget : CompareTarget.ofCode cmp.target.code = cmp.target)
    (hresult : CompareResult.ofCode cmp.result.code = cmp.result) :
    protoToCompare (compareToProto cmp) = cmp ↔ cmp.Carried := by
  have hback : protoToCompare (compareToProto cmp) =
      ⟨.ofCode (Raftpb.enumeration cmp.target.code),.ofCode (Raftpb.enumeration cmp.result.code),
        cmp.key,cmp.targetUnion.select cmp.target⟩ := by
    obtain ⟨target,result,key,u⟩ := cmp
    cases target <;> rfl
  rw [hback]
  constructor
  · intro h
    refine ⟨?_,?_,congrArg Compare.targetUnion h⟩
    · simpa only [CompareTarget.code_ofCode] using congrArg (fun c => c.target.code) h
    · simpa only [CompareResult.code_ofCode] using congrArg (fun c => c.result.code) h
  · rintro ⟨h₁,h₂,h₃⟩
    rw [h₁,h₂,h₃,htarget,hresult]

lemma map_eq_self_iff {α : Type} {f : α → α} {l : List α} : l.map f = l ↔ ∀ a ∈ l, f a = a := by
  rw [← List.map_inj_left,List.map_id']

lemma protoToOp_opToProto_eq_iff (o : Op) : protoToOp (opToProto o) = o ↔ o.limit = 0 := by
  obtain ⟨type,key,rangeEnd,value,limit,leaseID⟩ := o
  rw [protoToOp_opToProto,Op.unlimited]
  simp [eq_comm]

theorem protoToRaftOperation_eq_iff {op : RaftOperation} (h : op.Canonical) :
    protoToRaftOperation (raftOperationToProto op) = op ↔ op.Carried := by
  have hcompares : op.compares.map (protoToCompare ∘ compareToProto) = op.compares ↔
      ∀ cmp ∈ op.compares, cmp.Carried := by
    rw [map_eq_self_iff]
    exact forall₂_congr fun cmp hcmp =>
      protoToCompare_compareToProto_eq_iff (h.target cmp hcmp) (h.result cmp hcmp)
  have hops : ∀ ops : List Op, ops.map (protoToOp ∘ opToProto) = ops ↔ ∀ o ∈ ops, o.limit = 0 := by
    intro ops
    rw [map_eq_self_iff]
    exact forall₂_congr fun o _ => protoToOp_opToProto_eq_iff o
  have hback : protoToRaftOperation (raftOperationToProto op) =
      { op with
        compares := op.compares.map (protoToCompare ∘ compareToProto)
        thenOps := op.thenOps.map (protoToOp ∘ opToProto)
        elseOps := op.elseOps.map (protoToOp ∘ opToProto) } := by
    simp only [protoToRaftOperation,raftOperationToProto,h.type,List.map_map]
  rw [hback]
  constructor
  · intro heq
    exact ⟨hcompares.mp (congrArg RaftOperation.compares heq),
      (hops _).mp (congrArg RaftOperation.thenOps heq),
      (hops _).mp (congrArg RaftOperation.elseOps heq)⟩
  · rintro ⟨h₁,h₂,h₃⟩
    rw [hcompares.mpr h₁,(hops _).mpr h₂,(hops _).mpr h₃]

namespace Raftpb
open Protobuf

inductive Payload
  | single (op : RaftOperation)
  | batch (operations : List RaftOperation)

structure RaftMessage where
  payload : Option Payload

def Payload.marshal : Payload → Except String Bytes
  | single op => op.marshal.map (delimited 1)
  | batch operations =>
    (message (operations.map fun op => op.marshal.map (delimited 1))).map (delimited 2)

def RaftMessage.marshal (msg : RaftMessage) : Except String Bytes :=
  match msg.payload with
  | some payload => payload.marshal
  | none => .ok []

end Raftpb

namespace RocksDB
open Protobuf

def batchMessage (ops : List RaftOperation) : Raftpb.RaftMessage :=
  ⟨some (.batch (ops.map raftOperationToProto))⟩

def marshalBatchOperations (ops : List RaftOperation) : Except String Bytes :=
  (batchMessage ops).marshal

/-- The parsers of the libraries. A message is refused if the operation in it is no message. -/
structure Parsers where
  message : Bytes → Except String Raftpb.RaftMessage
  operation : Bytes → Except String Raftpb.RaftOperation
  decodeKV : Bytes → Option (Bytes × Bytes)
  refuses : ∀ payload rest, StrayEnd payload → ∃ err, message (delimited 1 payload ++ rest) = .error err

namespace Parsers
variable (parsers : Parsers)

/-- A message without a payload yields no list. -/
def unmarshalRaftMessage (data : Bytes) : Except String (Option (List RaftOperation)) :=
  (parsers.message data).map fun msg =>
    match msg.payload with
    | some (.single op) => some [protoToRaftOperation op]
    | some (.batch operations) => some (operations.map protoToRaftOperation)
    | none => none

/-- What is tried when the string is no message. -/
def single (data : Bytes) : Option Datum :=
  match unmarshalRaftOperation parsers.operation data with
  | .ok op => some (.operations [op])
  | .error _ => (parsers.decodeKV data).map fun kv => .legacy kv.1 kv.2

def datum (data : Bytes) : Option Datum :=
  match parsers.unmarshalRaftMessage data with
  | .ok (some ops) => some (.operations ops)
  | .ok none | .error _ => parsers.single data

lemma strayEnd_name {type : RaftOpType} (h : type.Known) : StrayEnd type.name := by
  cases type with
  | put => exact .int 10 0x55 (.ends 10 [])
  | delete => exact .ends 8 (ascii "ELETE")
  | leaseGrant => exact .ends 9 (ascii "EASE_GRANT")
  | leaseRevoke => exact .ends 9 (ascii "EASE_REVOKE")
  | txn => exact .ends 10 (ascii "XN")
  | other name => cases h

lemma datum_marshalRaftOperation {op : RaftOperation} (h : op.type.Known) {data : Bytes}
    (hdata : marshalRaftOperation op = .ok data) : parsers.datum data = parsers.single data := by
  obtain ⟨first,rest,hfirst,rfl⟩ := message_cons_eq_ok hdata
  have hname : first = delimited 1 op.type.name := by
    have hne : op.type.name ≠ [] := by
      cases ht : op.type with
      | other name => rw [ht] at h; cases h
      | _ => exact List.cons_ne_nil _ _
    rw [stringField_eq_ok hfirst]
    exact if_neg hne
  obtain ⟨err,herr⟩ := parsers.refuses _ rest (strayEnd_name h)
  rw [hname,datum,unmarshalRaftMessage,herr]
  rfl

def knowing (ops : List RaftOperation) : Parsers where
  message bs := if bs.head? = some 0x12 then .ok (batchMessage ops) else .error "invalid wire format"
  operation _ := .error "invalid wire format"
  decodeKV _ := none
  refuses _ _ _ := ⟨_,rfl⟩

end Parsers
end RocksDB
end MetaStore
