import MetaStore.KVStore.OperationCodec
import MetaStore.Memory.ReadCommits

/-! Puts of arbitrary bytes on their way through the log of the memory engine. Protobuf has no
string that is not UTF-8, and encoding/json writes U+FFFD for what is not. -/
namespace MetaStore

def RaftOperation.sanitized (op : RaftOperation) : RaftOperation :=
  { op with
    key := Utf8.sanitize op.key
    value := Utf8.sanitize op.value
    rangeEnd := Utf8.sanitize op.rangeEnd
    seqNum := Utf8.sanitize op.seqNum }

namespace Memory

/-- The parsers of the libraries; the last one is gob's, for the legacy format. -/
structure Parsers where
  unmarshal : Bytes → Except String Raftpb.RaftOperation
  unmarshalJson : Bytes → Except String RaftOperation
  decodeKV : Bytes → Option (Bytes × Bytes)

/-- An entry of a commit; one that is of no format ends the process. -/
def Parsers.datum (parsers : Parsers) (data : Bytes) : Option Datum :=
  match deserializeOperation parsers.unmarshal parsers.unmarshalJson data with
  | .ok op => some (.operation op)
  | .error _ => (parsers.decodeKV data).map fun kv => .legacy kv.1 kv.2

/-- `readCommits` takes the entry and changes the value of the key to this one, and no other. -/
def Stores (parsers : Parsers) (clock : Clock) (data key value : Bytes) (m : Memory) : Prop :=
  ∃ d m', parsers.datum data = some d ∧ ReadCommit clock [d] m m' ∧
    ∀ k, (m'.etcd.kvData.get k).map KeyValue.value =
      if k = key then some value else (m.etcd.kvData.get k).map KeyValue.value

def putOperation (key value : Bytes) (lease : ℤ) (seqNum : Bytes) : RaftOperation where
  type := .put
  key := key
  value := value
  leaseID := lease
  seqNum := seqNum

section Put
variable (key value : Bytes) (lease : ℤ) {seqNum : Bytes}

lemma exists_serializeOperation_put_iff (hseq : Utf8.Valid seqNum) :
    (∃ data, serializeOperation true (putOperation key value lease seqNum) = .ok data) ↔
      Utf8.Valid key ∧ Utf8.Valid value := by
  have hmessage : (∃ data, (raftOperationToProto (putOperation key value lease seqNum)).marshal =
      .ok data) ↔ Utf8.Valid key ∧ Utf8.Valid value := by
    refine Protobuf.exists_message_iff.trans ?_
    simp only [raftOperationToProto,putOperation,List.map_nil,List.append_nil,List.forall_mem_cons,
      Protobuf.exists_stringField_iff]
    constructor
    · rintro ⟨-,hkey,hvalue,-⟩
      exact ⟨hkey,hvalue⟩
    · rintro ⟨hkey,hvalue⟩
      exact ⟨by decide,hkey,hvalue,⟨_,rfl⟩,by decide,hseq,⟨_,rfl⟩,by simp⟩
  rw [← hmessage,serializeOperation,if_pos rfl]
  cases (raftOperationToProto (putOperation key value lease seqNum)).marshal <;> simp

/-- The text of an object is not taken for a message. -/
lemma datum_marshalJson {parsers : Parsers} {op op' : RaftOperation}
    (h : parsers.unmarshalJson op.marshalJson = .ok op') :
    parsers.datum op.marshalJson = some (.operation op') := by
  have hhead : ¬ (3 < op.marshalJson.length ∧ ascii "PB:" <+: op.marshalJson) := by
    rintro ⟨-,rest,hrest⟩
    exact absurd (List.cons.inj hrest).1 (by decide)
  rw [Parsers.datum,deserializeOperation,if_neg hhead,h]

lemma stores_iff {parsers : Parsers} {data : Bytes} {op : RaftOperation} (htype : op.type = .put)
    (h : parsers.datum data = some (.operation op)) (clock : Clock) :
    (∀ m, Stores parsers clock data key value m) ↔ op.key = key ∧ op.value = value := by
  have hput : ∀ m m', ReadCommit clock [.operation op] m m' → ∀ k,
      (m'.etcd.kvData.get k).map KeyValue.value =
        if k = op.key then some op.value else (m.etcd.kvData.get k).map KeyValue.value := by
    rintro m m' rfl k
    simp only [List.filterMap_cons,List.filterMap_nil,Datum.legacy?,List.foldl_nil,applyOperation,
      notify,applyEffect,htype,MemoryEtcd.applyPut,MemoryEtcd.putDirect,ShardedMap.get_set]
    split_ifs <;> rfl
  constructor
  · intro hall
    obtain ⟨d,m',hd,hm',hstored⟩ := hall ⟨.empty,.empty⟩
    obtain rfl := Option.some.inj (h.symm.trans hd)
    have hkey := hstored op.key
    rw [hput _ m' hm',if_pos rfl] at hkey
    -- the store was empty, so what it holds now is what was put
    split_ifs at hkey with heq
    · exact ⟨heq,Option.some.inj hkey⟩
    · simp [MemoryEtcd.empty] at hkey
  · rintro ⟨rfl,rfl⟩ m
    exact ⟨.operation op,_,h,rfl,hput m _ rfl⟩

/-- A put is transparent exactly for text, with either setting of the switch. -/
theorem put_transparent_iff (parsers : Parsers) (hseq : Utf8.Valid seqNum)
    (hproto : Lossless parsers.unmarshal (putOperation key value lease seqNum))
    (hjson : parsers.unmarshalJson (putOperation key value lease seqNum).marshalJson =
      .ok (putOperation key value lease seqNum).sanitized) (enableProtobuf : Bool) (clock : Clock) :
    (∃ data, serializeOperation enableProtobuf (putOperation key value lease seqNum) = .ok data ∧
      ∀ m, Stores parsers clock data key value m) ↔ Utf8.Valid key ∧ Utf8.Valid value := by
  cases enableProtobuf with
  | true =>
    rw [← exists_serializeOperation_put_iff key value lease hseq]
    refine exists_congr fun data => and_iff_left_of_imp fun hdata => ?_
    have hbuilt : (putOperation key value lease seqNum).Built :=
      ⟨trivial,by simp [putOperation],by simp [putOperation]⟩
    have hdatum : parsers.datum data = some (.operation (putOperation key value lease seqNum)) := by
      rw [Parsers.datum,deserializeOperation_serializeOperation _ hbuilt hproto hdata]
      rfl
    exact (stores_iff key value rfl hdatum clock).mpr ⟨rfl,rfl⟩
  | false =>
    rw [← Utf8.sanitize_eq_self_iff,← Utf8.sanitize_eq_self_iff]
    refine Iff.trans ?_ (stores_iff key value rfl (datum_marshalJson hjson) clock)
    simp [serializeOperation]

end Put

/-- A parser that knows one entry. -/
theorem put_transparent_iff_text :
    let op := putOperation [107] [118] 0 (ascii "seq-1")
    let parsers : Parsers :=
      ⟨fun _ => .ok (raftOperationToProto op),fun _ => .ok op.sanitized,fun _ => none⟩
    Utf8.Valid (ascii "seq-1") ∧
      ((∃ data, serializeOperation true op = .ok data ∧
        ∀ m, Stores parsers (fun _ => 0) data [107] [118] m) ↔
          Utf8.Valid [107] ∧ Utf8.Valid [118]) :=
  ⟨by decide,put_transparent_iff [107] [118] 0 _ (by decide) (fun _ _ => rfl) rfl true fun _ => 0⟩

/-- The value 0xFF: protobuf refuses the operation, and JSON stores U+FFFD in its place. -/
theorem binary_value_altered :
    let op := putOperation [107] [0xFF] 0 (ascii "seq-1")
    serializeOperation true op =
        .error "protobuf marshal failed: string field contains invalid UTF-8" ∧
      ∀ parsers : Parsers, parsers.unmarshalJson op.marshalJson = .ok op.sanitized →
        serializeOperation false op = .ok op.marshalJson ∧
        Stores parsers (fun _ => 0) op.marshalJson [107] [0xEF,0xBF,0xBD] ⟨.empty,.empty⟩ := by
  intro op
  refine ⟨by decide,fun parsers hjson => ⟨rfl,?_⟩⟩
  exact (stores_iff _ _ rfl (datum_marshalJson hjson) _).mpr ⟨by decide,by decide⟩ _

end Memory
end MetaStore
