import MetaStore.KVStore.Proposals

/-! The batch codec (internal/batch/codec.go) and its round trip. Two or more proposals are
framed as a JSON array of strings, a single one is passed through and recognised by not
being a frame. The frame keeps every proposal up to the cleaning of its bytes as UTF-8. -/
namespace MetaStore.Batch
open Json
variable {data : Bytes}

structure BatchProposal where
  isBatch : Bool := false
  proposals : List Bytes := []
  deriving DecidableEq, Repr

def isBatchName : Bytes := ascii "is_batch"
def proposalsName : Bytes := ascii "proposals"

/-- `json.Marshal` of a frame. -/
def BatchProposal.marshal (batch : BatchProposal) : Bytes :=
  writeObject [(isBatchName,writeBool batch.isBatch),
    (proposalsName,writeArray (batch.proposals.map writeString))]

/-- Field names are matched without regard to case, over all letters that fold to ASCII:
U+017F is a form of `s` and U+212A one of `k`. -/
def foldName : Bytes → Bytes
  | 0xC5 :: 0xBF :: rest => 0x73 :: foldName rest
  | 0xE2 :: 0x84 :: 0xAA :: rest => 0x6B :: foldName rest
  | b :: rest => (if 65 ≤ b ∧ b ≤ 90 then b+32 else b) :: foldName rest
  | [] => []

/-- An element of the array of proposals; `null` leaves the empty string. -/
def decodeProposal : Json → Option Bytes
  | .string s => some s
  | .null => some []
  | _ => none

/-- The effect of one member on the frame, or a type error. Unknown names are ignored. -/
def setMember (batch : BatchProposal) (member : Bytes × Json) : Option BatchProposal :=
  if foldName member.1 = isBatchName then
    match member.2 with
    | .bool b => some {batch with isBatch := b}
    | .null => some batch
    | _ => none
  else if foldName member.1 = proposalsName then
    match member.2 with
    | .array items => (items.mapM decodeProposal).map fun ps => {batch with proposals := ps}
    | .null => some {batch with proposals := []}
    | _ => none
  else some batch

/-- `json.Unmarshal` into a frame; `none` stands for any of its errors. -/
def BatchProposal.unmarshal (data : Bytes) : Option BatchProposal :=
  match Json.read data with
  | some (.object members) => members.foldlM setMember {}
  | some .null => some {}
  | _ => none

def encodeBatch : List Bytes → Except String Bytes
  | [] => .error "empty proposals"
  | [proposal] => .ok proposal
  | proposals => .ok (BatchProposal.marshal {isBatch := true,proposals := proposals})

def decodeBatch (data : Bytes) : Except String (List Bytes) :=
  if data = [] then .error "empty data"
  else
    match BatchProposal.unmarshal data with
    | some batch => if batch.isBatch then .ok batch.proposals else .ok [data]
    | none => .ok [data]

def RoundTrips (ps : List Bytes) : Prop := encodeBatch ps >>= decodeBatch = .ok ps

instance (ps : List Bytes) : Decidable (RoundTrips ps) :=
  inferInstanceAs (Decidable (encodeBatch ps >>= decodeBatch = .ok ps))

/-! ### Frames -/

lemma decodeProposals_strings (ps : List Bytes) :
    (ps.map Json.string).mapM decodeProposal = some ps := by
  induction ps with
  | nil => rfl
  | cons p ps ih => simp [List.mapM_cons,decodeProposal,ih]

lemma setMember_isBatch (batch : BatchProposal) (b : Bool) :
    setMember batch (isBatchName,.bool b) = some {batch with isBatch := b} := by
  have hname : foldName isBatchName = isBatchName := by decide
  rw [setMember,if_pos hname]

lemma setMember_proposals (batch : BatchProposal) (ps : List Bytes) :
    setMember batch (proposalsName,.array (ps.map Json.string)) =
      some {batch with proposals := ps} := by
  have hother : foldName proposalsName ≠ isBatchName := by decide
  have hname : foldName proposalsName = proposalsName := by decide
  rw [setMember,if_neg hother,if_pos hname]
  simp only [decodeProposals_strings,Option.map_some]

lemma sanitize_isBatchName : Utf8.sanitize isBatchName = isBatchName := by decide

lemma sanitize_proposalsName : Utf8.sanitize proposalsName = proposalsName := by decide

theorem unmarshal_marshal (batch : BatchProposal) :
    BatchProposal.unmarshal batch.marshal =
      some {batch with proposals := batch.proposals.map Utf8.sanitize} := by
  have hstrings : List.Forall₂ (fun t j => Reads t 0 j) (batch.proposals.map writeString)
      ((batch.proposals.map Utf8.sanitize).map Json.string) := by
    simp only [List.forall₂_map_left_iff,List.forall₂_map_right_iff,List.forall₂_same]
    exact fun p _ => reads_writeString p
  have hmembers : List.Forall₂ (ReadsMember 1)
      [(isBatchName,writeBool batch.isBatch),
        (proposalsName,writeArray (batch.proposals.map writeString))]
      [(isBatchName,.bool batch.isBatch),
        (proposalsName,.array ((batch.proposals.map Utf8.sanitize).map Json.string))] :=
    .cons ⟨sanitize_isBatchName.symm,(reads_writeBool _).mono (by omega)⟩
      (.cons ⟨sanitize_proposalsName.symm,reads_writeArray hstrings⟩ .nil)
  have hread : Json.read batch.marshal = some (.object _) :=
    (reads_writeObject hmembers).read_eq (by decide)
  simp only [BatchProposal.unmarshal,hread,List.foldlM_cons,List.foldlM_nil,setMember_isBatch,
    setMember_proposals,Option.bind_eq_bind,Option.bind_some,Option.pure_def]

theorem decodeBatch_of_not_object {b : UInt8} {bs : Bytes}
    (h : skipSpace data = b :: bs) (hb : b ≠ 0x7B) : decodeBatch data = .ok [data] := by
  have hne : data ≠ [] := by rintro rfl; cases h
  have hbatch : ∀ batch, BatchProposal.unmarshal data = some batch → batch.isBatch = false := by
    intro batch hbatch
    rw [BatchProposal.unmarshal] at hbatch
    split at hbatch
    · next members hread => exact absurd hread (read_ne_object h hb members)
    · cases hbatch; rfl
    · cases hbatch
  rw [decodeBatch,if_neg hne]
  cases hu : BatchProposal.unmarshal data with
  | none => rfl
  | some batch => simp only [hbatch batch hu,Bool.false_eq_true,if_false]

/-! ### Single proposals -/

/-- The binary form of an operation starts with the length and the name of its type. -/
lemma marshal_head {op : RaftOperation} (known : op.type.Known)
    (h : (raftOperationToProto op).marshal = .ok data) :
    ∃ b bs, data = 0x0A :: b :: bs ∧ isSpace b = false ∧ b ≠ 0x7B := by
  obtain ⟨first,rest,hfirst,rfl⟩ := Protobuf.message_cons_eq_ok h
  rw [Protobuf.stringField_eq_ok hfirst]
  change ∃ b bs, Protobuf.bytesField 1 op.type.name ++ rest = _ ∧ _
  cases ht : op.type with
  | other name => rw [ht] at known; cases known
  | _ => exact ⟨_,_,rfl,by decide,by decide⟩

/-- A legacy put starts with the length of a type description, which may be the code of a
blank, and the first byte of a type number, which is neither a blank nor a brace. -/
lemma encodeKV_head {typeID : ℕ} (hlow : 65 ≤ typeID) (hhigh : typeID < 2^31) (k v : Bytes) :
    ∃ b c bs, encodeKV typeID k v = b :: c :: bs ∧ b.toNat ≤ 46 ∧ 0xF8 ≤ c.toNat := by
  obtain ⟨c,cs,hc,hc8,hcs⟩ := Gob.uint_of_le (show 128 ≤ 2*(typeID-1)+1 by omega) (by omega)
  obtain ⟨d,ds,hd,-,hds⟩ := Gob.uint_of_le (show 128 ≤ 2*typeID by omega) (by omega)
  have hneg : Gob.int (-typeID) = c :: cs := by
    rw [Gob.int,if_pos (by omega),← hc]
    congr 2
    omega
  have hpos : Gob.int typeID = d :: ds := by
    rw [Gob.int,if_neg (by omega),← hd,Int.toNat_natCast]
  have hKV : (Gob.string (ascii "KV")).length = 3 := by decide
  have hKey : (Gob.string (ascii "Key")).length = 4 := by decide
  have hVal : (Gob.string (ascii "Val")).length = 4 := by decide
  have hlen : (describeKV typeID).length = 30+cs.length+ds.length := by
    simp only [describeKV,hneg,hpos,List.length_append,List.length_cons,List.length_nil,hKV,hKey,
      hVal]
    omega
  have hfirst : Gob.uint (describeKV typeID).length = [UInt8.ofNat (30+cs.length+ds.length)] := by
    rw [hlen,Gob.uint,if_pos (by omega)]
  obtain ⟨tail,htail⟩ : ∃ tail, describeKV typeID = c :: tail := by
    simp only [describeKV,hneg,List.cons_append]
    exact ⟨_,rfl⟩
  refine ⟨UInt8.ofNat (30+cs.length+ds.length),c,
    tail ++ Gob.message (Gob.int typeID ++ fieldsKV k v ++ [0]),?_,?_,hc8⟩
  · rw [encodeKV,Gob.message,hfirst,htail]
    rfl
  · rw [UInt8.toNat_ofNat_of_lt' (show _ < 256 by omega)]
    omega

theorem Emitted.not_object (h : Emitted data) :
    ∃ b bs, skipSpace data = b :: bs ∧ b ≠ 0x7B := by
  cases h with
  | memory known h =>
    rw [serializeOperation,if_pos rfl] at h
    split at h
    · cases h
      exact ⟨0x50,_,rfl,by decide⟩
    · cases h
  | rocksdb known h =>
    obtain ⟨b,bs,rfl,hb,hne⟩ := marshal_head known h
    exact ⟨b,bs,skipSpace_cons hb bs,hne⟩
  | legacy typeID k v hlow hhigh =>
    obtain ⟨b,c,bs,he,hb,hc⟩ := encodeKV_head hlow hhigh k v
    have hbrace : ∀ x : UInt8, x.toNat ≤ 46 ∨ 0xF8 ≤ x.toNat → x ≠ 0x7B := by
      rintro x hx rfl
      exact absurd hx (by decide)
    rw [he]
    by_cases hspace : isSpace b
    · refine ⟨c,bs,?_,hbrace c (.inr hc)⟩
      rw [skipSpace,List.dropWhile_cons_of_pos hspace]
      refine skipSpace_cons ?_ bs
      have hc' : ∀ x : UInt8, x.toNat < 0xF8 → (c == x) = false := by
        intro x hx
        rw [beq_eq_false_iff_ne]
        rintro rfl
        omega
      simp [isSpace,hc']
    · exact ⟨b,_,skipSpace_cons (by simpa using hspace) _,hbrace b (.inl hb)⟩

/-! ### The round trip -/

theorem decodeBatch_encodeBatch_single {p : Bytes} (h : Emitted p) : RoundTrips [p] := by
  obtain ⟨b,bs,hskip,hb⟩ := Emitted.not_object h
  exact decodeBatch_of_not_object hskip hb

theorem decodeBatch_encodeBatch_many (p q : Bytes) (ps : List Bytes) :
    encodeBatch (p :: q :: ps) >>= decodeBatch = .ok ((p :: q :: ps).map Utf8.sanitize) := by
  have hencode : encodeBatch (p :: q :: ps) =
      .ok (BatchProposal.marshal { isBatch := true, proposals := p :: q :: ps }) := rfl
  have hbind : ∀ data, (Except.ok data >>= decodeBatch) = decodeBatch data := fun _ => rfl
  rw [hencode,hbind,decodeBatch,if_neg (by simp [BatchProposal.marshal,writeObject]),
    unmarshal_marshal]
  rfl

/-- The proposals of a batch come back unchanged exactly when there is a single one, or all
of them are valid UTF-8: the frame is a JSON text, and binary proposals are not. -/
theorem roundTrips_iff {ps : List Bytes} (hne : ps ≠ []) (hps : ∀ p ∈ ps, Emitted p) :
    RoundTrips ps ↔ ps.length = 1 ∨ ∀ p ∈ ps, Utf8.Valid p := by
  match ps, hne, hps with
  | [p], _, hps =>
    exact ⟨fun _ => .inl rfl,fun _ => decodeBatch_encodeBatch_single (hps p (by simp))⟩
  | p :: q :: ps, _, _ =>
    rw [RoundTrips,decodeBatch_encodeBatch_many,Except.ok.injEq]
    constructor
    · intro h
      refine .inr fun r hr => (Utf8.sanitize_eq_self_iff r).mp ?_
      exact List.map_inj_left.mp (h.trans (List.map_id _).symm) r hr
    · rintro (h | h)
      · simp at h
      · exact (List.map_congr_left fun r hr => (Utf8.sanitize_eq_self_iff r).mpr (h r hr)).trans
          (List.map_id _)

/-- `PutWithLease("a", "v", lease)` as the memory engine replicates it. -/
def leasedPut (leaseID : ℤ) : RaftOperation where
  type := .put
  key := ascii "a"
  value := ascii "v"
  leaseID := leaseID
  seqNum := ascii "seq-1"

def leasedPutData (lease : Bytes) : Bytes :=
  ascii "PB:" ++ [0x0A,3] ++ ascii "PUT" ++ [0x12,1] ++ ascii "a" ++ [0x1A,1] ++ ascii "v" ++
    lease ++ [0x32,5] ++ ascii "seq-1"

theorem roundTrips_two_small_leases :
    RoundTrips [leasedPutData [0x20,7],leasedPutData [0x20,7]] := by
  have hput : Emitted (leasedPutData [0x20,7]) :=
    .memory (show (leasedPut 7).type.Known from trivial) (by decide)
  have hvalid : Utf8.Valid (leasedPutData [0x20,7]) := by decide
  exact (roundTrips_iff (by simp) (by simp [hput])).mpr (.inr (by simp [hvalid]))

/-- The lease number 200 has the bytes `C8 01` in a message, which are no UTF-8. -/
theorem roundTrips_two_large_leases_fails :
    Emitted (leasedPutData [0x20,0xC8,1]) ∧
    encodeBatch [leasedPutData [0x20,0xC8,1],leasedPutData [0x20,0xC8,1]] >>= decodeBatch =
      .ok [leasedPutData [0x20,0xEF,0xBF,0xBD,1],leasedPutData [0x20,0xEF,0xBF,0xBD,1]] ∧
    ¬ RoundTrips [leasedPutData [0x20,0xC8,1],leasedPutData [0x20,0xC8,1]] := by
  have hput : Emitted (leasedPutData [0x20,0xC8,1]) :=
    .memory (show (leasedPut 200).type.Known from trivial) (by decide)
  have hclean : Utf8.sanitize (leasedPutData [0x20,0xC8,1]) =
      leasedPutData [0x20,0xEF,0xBF,0xBD,1] := by decide
  refine ⟨hput,?_,?_⟩
  · rw [decodeBatch_encodeBatch_many,List.map_cons,List.map_singleton,hclean]
  · rw [RoundTrips,decodeBatch_encodeBatch_many,List.map_cons,List.map_singleton,hclean]
    decide

end MetaStore.Batch
