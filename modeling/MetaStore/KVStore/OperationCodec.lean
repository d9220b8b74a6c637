import MetaStore.Batch.Codec

/-! Replicated operations as they are read back (protobuf_converter.go of the memory engine,
raft_proto.go of the RocksDB engine). The parser of messages, and that of the older JSON format,
are parameters. A message has no field for the limit of a range, and of the values to compare with
it has the one that its target asks for. -/
namespace MetaStore

def CompareTarget.ofCode (code : ℤ) : CompareTarget :=
  if code = 0 then .version
  else if code = 1 then .create
  else if code = 2 then .mod
  else if code = 3 then .value
  else if code = 4 then .lease
  else .other code

def CompareResult.ofCode (code : ℤ) : CompareResult :=
  if code = 0 then .equal
  else if code = 1 then .greater
  else if code = 2 then .less
  else if code = 3 then .notEqual
  else .other code

/-- The engines treat all other numbers like `txn`. -/
def OpType.ofCode (code : ℤ) : OpType :=
  if code = 0 then .range else if code = 1 then .put else if code = 2 then .delete else .txn

def RaftOpType.ofName (name : Bytes) : RaftOpType :=
  if name = ascii "PUT" then .put
  else if name = ascii "DELETE" then .delete
  else if name = ascii "LEASE_GRANT" then .leaseGrant
  else if name = ascii "LEASE_REVOKE" then .leaseRevoke
  else if name = ascii "TXN" then .txn
  else .other name

/-- `protoToCompare` and `compareFromProto`. -/
def protoToCompare (pbCmp : Raftpb.Compare) : Compare where
  target := .ofCode pbCmp.target
  result := .ofCode pbCmp.result
  key := pbCmp.key
  targetUnion := match pbCmp.targetUnion with
    | some (.version n) => { version := n }
    | some (.createRevision n) => { createRevision := n }
    | some (.modRevision n) => { modRevision := n }
    | some (.value bs) => { value := bs }
    | some (.lease n) => { lease := n }
    | none => {}

/-- `protoToOp` and `opFromProto`. -/
def protoToOp (pbOp : Raftpb.Op) : Op where
  type := .ofCode pbOp.type
  key := pbOp.key
  rangeEnd := pbOp.rangeEnd
  value := pbOp.value
  leaseID := pbOp.lease

/-- `protoToRaftOperation` and `fromProto`. -/
def protoToRaftOperation (pbOp : Raftpb.RaftOperation) : RaftOperation where
  type := .ofName pbOp.type
  key := pbOp.key
  value := pbOp.value
  leaseID := pbOp.leaseId
  rangeEnd := pbOp.rangeEnd
  seqNum := pbOp.seqNum
  ttl := pbOp.ttl
  compares := pbOp.compares.map protoToCompare
  thenOps := pbOp.thenOps.map protoToOp
  elseOps := pbOp.elseOps.map protoToOp

section Parsers
variable (unmarshal : Bytes → Except String Raftpb.RaftOperation)

def deserializeOperation (unmarshalJson : Bytes → Except String RaftOperation) (data : Bytes) :
    Except String RaftOperation :=
  if 3 < data.length ∧ ascii "PB:" <+: data then
    match unmarshal (data.drop 3) with
    | .ok pbOp => .ok (protoToRaftOperation pbOp)
    | .error err => .error ("protobuf unmarshal failed: " ++ err)
  else
    match unmarshalJson data with
    | .ok op => .ok op
    | .error err => .error ("json unmarshal failed: " ++ err)

def unmarshalRaftOperation (data : Bytes) : Except String RaftOperation :=
  match unmarshal data with
  | .ok pbOp => .ok (protoToRaftOperation pbOp)
  | .error err => .error err

end Parsers

def CompareTarget.Known : CompareTarget → Prop
  | other _ => False
  | _ => True

def CompareResult.Known : CompareResult → Prop
  | other _ => False
  | _ => True

structure RaftOperation.Built (op : RaftOperation) : Prop where
  type : op.type.Known
  target : ∀ cmp ∈ op.compares, cmp.target.Known
  result : ∀ cmp ∈ op.compares, cmp.result.Known

/-- The keys of an operation are UTF-8, and so is the number that its call waits with. -/
structure RaftOperation.Utf8Keys (op : RaftOperation) : Prop where
  key : Utf8.Valid op.key
  rangeEnd : Utf8.Valid op.rangeEnd
  seqNum : Utf8.Valid op.seqNum
  compares : ∀ cmp ∈ op.compares, Utf8.Valid cmp.key
  ops : ∀ o ∈ op.thenOps ++ op.elseOps, Utf8.Valid o.key ∧ Utf8.Valid o.rangeEnd

def Op.unlimited (op : Op) : Op := { op with limit := 0 }

def CompareUnion.select (u : CompareUnion) : CompareTarget → CompareUnion
  | .version => { version := u.version }
  | .create => { createRevision := u.createRevision }
  | .mod => { modRevision := u.modRevision }
  | .value => { value := u.value }
  | .lease => { lease := u.lease }
  | .other _ => {}

def RaftOperation.received (op : RaftOperation) : RaftOperation :=
  { op with
    compares := op.compares.map fun cmp =>
      { cmp with targetUnion := cmp.targetUnion.select cmp.target }
    thenOps := op.thenOps.map Op.unlimited
    elseOps := op.elseOps.map Op.unlimited }

lemma protoToCompare_compareToProto {cmp : Compare} (htarget : cmp.target.Known)
    (hresult : cmp.result.Known) :
    protoToCompare (compareToProto cmp) =
      { cmp with targetUnion := cmp.targetUnion.select cmp.target } := by
  obtain ⟨target,result,key,u⟩ := cmp
  have hresult' : CompareResult.ofCode (Raftpb.enumeration result.code) = result := by
    cases result with
    | other code => cases hresult
    | _ => rfl
  cases target with
  | other code => cases htarget
  | _ => simp only [protoToCompare,compareToProto,hresult']; rfl

lemma protoToOp_opToProto (op : Op) : protoToOp (opToProto op) = op.unlimited := by
  obtain ⟨type,key,rangeEnd,value,limit,leaseID⟩ := op
  cases type <;> rfl

lemma ofName_name {type : RaftOpType} (h : type.Known) : RaftOpType.ofName type.name = type := by
  cases type with
  | other name => cases h
  | _ => rfl

theorem protoToRaftOperation_raftOperationToProto {op : RaftOperation} (h : op.Built) :
    protoToRaftOperation (raftOperationToProto op) = op.received := by
  have hcompares : op.compares.map (protoToCompare ∘ compareToProto) =
      op.compares.map fun cmp => { cmp with targetUnion := cmp.targetUnion.select cmp.target } :=
    List.map_congr_left fun cmp hcmp =>
      protoToCompare_compareToProto (h.target cmp hcmp) (h.result cmp hcmp)
  have hops : protoToOp ∘ opToProto = Op.unlimited := funext protoToOp_opToProto
  simp only [protoToRaftOperation,raftOperationToProto,ofName_name h.type,List.map_map,hcompares,
    hops,RaftOperation.received]

section Encodable
open Protobuf

lemma exists_marshal_compareToProto {cmp : Compare} (h : Utf8.Valid cmp.key) :
    ∃ data, (compareToProto cmp).marshal = .ok data := by
  refine exists_message_iff.mpr ?_
  simp only [List.forall_mem_cons,exists_stringField_iff]
  exact ⟨h,⟨_,rfl⟩,⟨_,rfl⟩,⟨_,rfl⟩,by simp⟩

lemma exists_marshal_opToProto {op : Op} (hkey : Utf8.Valid op.key)
    (hend : Utf8.Valid op.rangeEnd) : ∃ data, (opToProto op).marshal = .ok data := by
  refine exists_message_iff.mpr ?_
  simp only [List.forall_mem_cons,exists_stringField_iff]
  exact ⟨⟨_,rfl⟩,hkey,⟨_,rfl⟩,hend,⟨_,rfl⟩,by simp⟩

theorem exists_marshal_iff {op : RaftOperation} (hbuilt : op.Built) (hkeys : op.Utf8Keys) :
    (∃ data, (raftOperationToProto op).marshal = .ok data) ↔ Utf8.Valid op.value := by
  have htype : Utf8.Valid op.type.name := by
    have hknown := hbuilt.type
    cases htype : op.type with
    | other name =>
      rw [htype] at hknown
      cases hknown
    | _ => decide
  have hmap : ∀ (field : ℕ) {data : Except String Bytes}, (∃ bs, data = .ok bs) →
      ∃ bs, data.map (delimited field) = .ok bs := by
    rintro field data ⟨bs,rfl⟩
    exact ⟨_,rfl⟩
  have hops : ∀ (field : ℕ) (ops : List Op),
      (∀ o ∈ ops, Utf8.Valid o.key ∧ Utf8.Valid o.rangeEnd) → ∀ data ∈ (ops.map opToProto).map
        (fun o => o.marshal.map (delimited field)), ∃ bs, data = .ok bs := by
    intro field ops h data hdata
    simp only [List.map_map,List.mem_map,Function.comp_apply] at hdata
    obtain ⟨o,ho,rfl⟩ := hdata
    exact hmap field (exists_marshal_opToProto (h o ho).1 (h o ho).2)
  have hcompares : ∀ data ∈ (op.compares.map compareToProto).map
      (fun cmp => cmp.marshal.map (delimited 8)), ∃ bs, data = .ok bs := by
    intro data hdata
    simp only [List.map_map,List.mem_map,Function.comp_apply] at hdata
    obtain ⟨cmp,hcmp,rfl⟩ := hdata
    exact hmap 8 (exists_marshal_compareToProto (hkeys.compares cmp hcmp))
  have hthen := hops 9 op.thenOps fun o ho => hkeys.ops o (List.mem_append_left _ ho)
  have helse := hops 10 op.elseOps fun o ho => hkeys.ops o (List.mem_append_right _ ho)
  refine exists_message_iff.trans ?_
  simp only [List.forall_mem_append,List.forall_mem_cons,exists_stringField_iff]
  constructor
  · rintro ⟨⟨⟨⟨-,-,hvalue,-⟩,-⟩,-⟩,-⟩
    exact hvalue
  · intro hvalue
    exact ⟨⟨⟨⟨htype,hkeys.key,hvalue,⟨_,rfl⟩,hkeys.rangeEnd,hkeys.seqNum,⟨_,rfl⟩,by simp⟩,
      hcompares⟩,hthen⟩,helse⟩

end Encodable

def Lossless (unmarshal : Bytes → Except String Raftpb.RaftOperation) (op : RaftOperation) : Prop :=
  ∀ data, (raftOperationToProto op).marshal = .ok data →
    unmarshal data = .ok (raftOperationToProto op)

section RoundTrip
variable {op : RaftOperation} {unmarshal : Bytes → Except String Raftpb.RaftOperation}

theorem unmarshalRaftOperation_marshalRaftOperation (h : op.Built)
    (hlossless : Lossless unmarshal op) {data : Bytes} (hdata : marshalRaftOperation op = .ok data) :
    unmarshalRaftOperation unmarshal data = .ok op.received := by
  rw [unmarshalRaftOperation,hlossless data hdata]
  exact congrArg _ (protoToRaftOperation_raftOperationToProto h)

theorem deserializeOperation_serializeOperation
    (unmarshalJson : Bytes → Except String RaftOperation) (h : op.Built)
    (hlossless : Lossless unmarshal op) {data : Bytes}
    (hdata : serializeOperation true op = .ok data) :
    deserializeOperation unmarshal unmarshalJson data = .ok op.received := by
  rw [serializeOperation,if_pos rfl] at hdata
  cases hmarshal : (raftOperationToProto op).marshal with
  | error err =>
    rw [hmarshal] at hdata
    cases hdata
  | ok message =>
    rw [hmarshal] at hdata
    obtain rfl := Except.ok.inj hdata
    have hmark : 3 < (ascii "PB:" ++ message).length ∧ ascii "PB:" <+: ascii "PB:" ++ message := by
      obtain ⟨b,bs,rfl,-⟩ := Batch.marshal_head h.type hmarshal
      have hlength : (ascii "PB:").length = 3 := rfl
      refine ⟨?_,List.prefix_append _ _⟩
      rw [List.length_append,List.length_cons]
      omega
    have hdrop : (ascii "PB:" ++ message).drop 3 = message := rfl
    rw [deserializeOperation,if_pos hmark,hdrop,hlossless message hmarshal]
    exact congrArg _ (protoToRaftOperation_raftOperationToProto h)

theorem exists_serializeOperation_iff (hbuilt : op.Built) (hkeys : op.Utf8Keys) :
    (∃ data, serializeOperation true op = .ok data) ↔ Utf8.Valid op.value := by
  rw [← exists_marshal_iff hbuilt hkeys,serializeOperation,if_pos rfl]
  cases (raftOperationToProto op).marshal <;> simp

end RoundTrip

lemma evaluateCompare_select (kv : Option KeyValue) (cmp : Compare) :
    evaluateCompare kv { cmp with targetUnion := cmp.targetUnion.select cmp.target } =
      evaluateCompare kv cmp := by
  obtain ⟨target,result,key,u⟩ := cmp
  cases target <;> rfl

end MetaStore
