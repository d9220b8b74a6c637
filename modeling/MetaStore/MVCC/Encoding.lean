import MetaStore.Library.Endian
import MetaStore.MVCC.RocksDBStore

/-! The bytes of the MVCC store (revision.go, key_value.go and the storage keys of rocksdb_store.go).
Numbers are big-endian, so the database keeps the records of a key in the order of their revisions.
Lengths are below 2^33 wherever they are added, and `int` has 64 bits. -/
namespace MetaStore.MVCC

def revisionSize : ℕ := 16

/-- `Bytes` and `EncodeTo`. -/
def Revision.bytes (r : Revision) : Bytes :=
  ByteOrder.big.put 8 (uint64 r.main) ++ ByteOrder.big.put 8 (uint64 r.sub)

def parseRevision (b : Bytes) : Revision :=
  if b.length < revisionSize then .zero
  else ⟨int64 (ByteOrder.big.get (b.take 8)),int64 (ByteOrder.big.get ((b.drop 8).take 8))⟩

def kvMVCCPrefix : Bytes := ascii "mvcc:kv:"

def makeStorageKey (key : Bytes) (rev : Revision) : Bytes :=
  kvMVCCPrefix ++ (key ++ (0x2F :: rev.bytes))

/-- The separator is looked for where it stands when a revision follows it. -/
def parseStorageKey (storageKey : Bytes) : Bytes × Revision × Bool :=
  if ¬ kvMVCCPrefix <+: storageKey then ([],.zero,false)
  else
    let remainder := storageKey.drop kvMVCCPrefix.length
    if remainder.length < revisionSize+1 then ([],.zero,false)
    else
      let sepIdx := remainder.length-revisionSize-1
      if remainder[sepIdx]? ≠ some 0x2F then ([],.zero,false)
      else (remainder.take sepIdx,parseRevision (remainder.drop (sepIdx+1)),true)

structure Revision.Natural (r : Revision) : Prop where
  main : 0 ≤ r.main ∧ r.main < 2^63
  sub : 0 ≤ r.sub ∧ r.sub < 2^63

lemma Revision.length_bytes (r : Revision) : r.bytes.length = revisionSize := by simp [bytes,revisionSize]

lemma parseRevision_bytes {r : Revision} (h : r.Natural) : parseRevision r.bytes = r := by
  have hmain := int64_uint64 (n := r.main) ⟨by have := h.main.1; omega,h.main.2⟩
  have hsub := int64_uint64 (n := r.sub) ⟨by have := h.sub.1; omega,h.sub.2⟩
  rw [parseRevision,r.length_bytes,if_neg (lt_irrefl _),Revision.bytes,
    List.take_left' (by simp),List.drop_left' (by simp),List.take_of_length_le (by simp),
    ByteOrder.get_put _ (uint64_lt _),ByteOrder.get_put _ (uint64_lt _),hmain,hsub]

lemma parseStorageKey_makeStorageKey (key : Bytes) {rev : Revision} (h : rev.Natural) :
    parseStorageKey (makeStorageKey key rev) = (key,rev,true) := by
  have hlength : (key ++ 0x2F :: rev.bytes).length = key.length+(revisionSize+1) := by
    rw [List.length_append,List.length_cons,rev.length_bytes]
  have hindex : key.length+(revisionSize+1)-revisionSize-1 = key.length := by omega
  have hrest : (key ++ 0x2F :: rev.bytes).drop (key.length+1) = rev.bytes := by
    rw [← List.singleton_append,← List.append_assoc]
    exact List.drop_left' (by simp)
  rw [parseStorageKey,makeStorageKey,if_neg (not_not.mpr (List.prefix_append _ _)),List.drop_left]
  simp only [hlength,hindex]
  rw [if_neg (by omega),if_neg (by simp),List.take_left,hrest,parseRevision_bytes h]

lemma bytes_lt_bytes_iff {r r' : Revision} (h : r.Natural) (h' : r'.Natural) :
    r.bytes < r'.bytes ↔ r < r' := by
  have hmain := h.main
  have hmain' := h'.main
  have hsub := h.sub
  have hsub' := h'.sub
  rw [Revision.bytes,Revision.bytes,Bytes.append_lt_append_iff_of_length (by simp),
    ByteOrder.big_put_lt_iff (uint64_lt _) (uint64_lt _),
    ByteOrder.big_put_lt_iff (uint64_lt _) (uint64_lt _),
    ByteOrder.put_inj (uint64_lt _) (uint64_lt _),Revision.lt_iff]
  unfold uint64
  omega

/-- Storage keys can be read back, so that they are different for different keys or revisions, and
those of one key are in the order of the revisions. -/
theorem storage_keys_faithful (key key' : Bytes) {rev rev' : Revision} (h : rev.Natural)
    (h' : rev'.Natural) :
    parseStorageKey (makeStorageKey key rev) = (key,rev,true) ∧
    (makeStorageKey key rev = makeStorageKey key' rev' → key = key' ∧ rev = rev') ∧
    (makeStorageKey key rev < makeStorageKey key rev' ↔ rev.lessThan rev' = true) ∧
    parseRevision rev.bytes = rev := by
  have hparse := parseStorageKey_makeStorageKey key h
  refine ⟨hparse,fun heq => ?_,?_,parseRevision_bytes h⟩
  · rw [heq,parseStorageKey_makeStorageKey key' h'] at hparse
    obtain ⟨rfl,hrev⟩ := Prod.mk.inj hparse
    exact ⟨rfl,(Prod.mk.inj hrev).1.symm⟩
  · have hlt : rev.bytes < rev'.bytes ↔ rev.lessThan rev' = true := bytes_lt_bytes_iff h h'
    rw [makeStorageKey,makeStorageKey,Bytes.append_lt_append_iff,Bytes.append_lt_append_iff,
      List.cons_lt_cons_iff,hlt]
    simp

/-- A key that ends in a separator, at the revisions 255 and 256. -/
theorem storage_keys_faithful_separator :
    let key := ascii "a/"
    parseStorageKey (makeStorageKey key ⟨255,0⟩) = (key,⟨255,0⟩,true) ∧
      makeStorageKey key ⟨255,0⟩ < makeStorageKey key ⟨256,0⟩ := by
  intro key
  have hlow : Revision.Natural ⟨255,0⟩ := ⟨by decide,by decide⟩
  have hhigh : Revision.Natural ⟨256,0⟩ := ⟨by decide,by decide⟩
  obtain ⟨hparse,-,hlt,-⟩ := storage_keys_faithful key key hlow hhigh
  exact ⟨hparse,hlt.mpr rfl⟩

def errInvalidData : String := "mvcc: invalid data format"

/-- `Encode`: the two lengths, the four numbers, the key and the value. -/
def KeyValue.encode (kv : KeyValue) : Bytes :=
  ByteOrder.big.put 4 kv.key.length ++ (ByteOrder.big.put 4 kv.value.length ++
    (ByteOrder.big.put 8 (uint64 kv.createRevision) ++
      (ByteOrder.big.put 8 (uint64 kv.modRevision) ++
        (ByteOrder.big.put 8 (uint64 kv.version) ++ (ByteOrder.big.put 8 (uint64 kv.lease) ++
          (kv.key ++ kv.value))))))

/-- A part of no bytes is not copied. -/
def copied (data : Bytes) (offset n : ℕ) : Option Bytes :=
  if 0 < n then slice data offset (offset+n) else some []

/-- `Decode`; `none` is a panic. -/
def KeyValue.decode (data : Bytes) : Option (Except String KeyValue) :=
  if data.length < 40 then some (.error errInvalidData)
  else do
    let keyLen ← number .big 4 data 0
    let valueLen ← number .big 4 data 4
    if data.length < 40+keyLen+valueLen then some (.error errInvalidData)
    else do
      let createRevision ← number .big 8 data 8
      let modRevision ← number .big 8 data 16
      let version ← number .big 8 data 24
      let lease ← number .big 8 data 32
      let key ← copied data 40 keyLen
      let value ← copied data (40+keyLen) valueLen
      some (.ok ⟨key,value,int64 createRevision,int64 modRevision,int64 version,int64 lease⟩)

structure KeyValue.Encodable (kv : KeyValue) : Prop where
  key : kv.key.length < 2^32
  value : kv.value.length < 2^32
  createRevision : FitsInt64 kv.createRevision
  modRevision : FitsInt64 kv.modRevision
  version : FitsInt64 kv.version
  lease : FitsInt64 kv.lease

lemma KeyValue.length_encode (kv : KeyValue) :
    kv.encode.length = 40+kv.key.length+kv.value.length := by
  simp only [encode,List.length_append,ByteOrder.length_put]
  omega

lemma KeyValue.encode_isPrefix_iff {kv : KeyValue} {data : Bytes} :
    kv.encode <+: data ↔
      slice data 0 4 = some (ByteOrder.big.put 4 kv.key.length) ∧
      slice data 4 8 = some (ByteOrder.big.put 4 kv.value.length) ∧
      slice data 8 16 = some (ByteOrder.big.put 8 (uint64 kv.createRevision)) ∧
      slice data 16 24 = some (ByteOrder.big.put 8 (uint64 kv.modRevision)) ∧
      slice data 24 32 = some (ByteOrder.big.put 8 (uint64 kv.version)) ∧
      slice data 32 40 = some (ByteOrder.big.put 8 (uint64 kv.lease)) ∧
      slice data 40 (40+kv.key.length) = some kv.key ∧
      slice data (40+kv.key.length) (40+kv.key.length+kv.value.length) = some kv.value := by
  rw [isPrefix_iff_slice,kv.length_encode,encode]
  simp only [slice_append_iff,ByteOrder.length_put,Nat.zero_add,Nat.reduceAdd]

lemma copied_eq {data : Bytes} {offset n : ℕ} (h : offset+n ≤ data.length) :
    copied data offset n = slice data offset (offset+n) := by
  unfold copied
  split_ifs with hn
  · rfl
  · obtain rfl : n = 0 := by omega
    exact (slice_eq_some_iff.mpr
      ⟨data.take offset,data.drop offset,by simp,by simp; omega,by simp⟩).symm

lemma KeyValue.decode_of_isPrefix {kv : KeyValue} (h : kv.Encodable) {data : Bytes}
    (hdata : kv.encode <+: data) : decode data = some (.ok kv) := by
  obtain ⟨hkeyLen,hvalueLen,hcreate,hmod,hversion,hlease,hkey,hvalue⟩ :=
    encode_isPrefix_iff.mp hdata
  have hlength := kv.length_encode ▸ hdata.length_le
  have hnumber : ∀ {offset n : ℕ}, n < 256^8 →
      slice data offset (offset+8) = some (ByteOrder.big.put 8 n) →
      number .big 8 data offset = some n := fun hn hs => number_eq_some_iff.mpr ⟨hn,hs⟩
  have hk : number .big 4 data 0 = some kv.key.length := number_eq_some_iff.mpr ⟨h.key,hkeyLen⟩
  have hv : number .big 4 data 4 = some kv.value.length :=
    number_eq_some_iff.mpr ⟨h.value,hvalueLen⟩
  rw [decode,if_neg (by omega)]
  simp only [hk,hv,Option.bind_eq_bind,Option.bind_some,hnumber (uint64_lt _) hcreate,
    hnumber (uint64_lt _) hmod,hnumber (uint64_lt _) hversion,hnumber (uint64_lt _) hlease]
  rw [if_neg (by omega),copied_eq (by omega),copied_eq (by omega),hkey,hvalue]
  simp only [Option.bind_some,int64_uint64 h.createRevision,int64_uint64 h.modRevision,
    int64_uint64 h.version,int64_uint64 h.lease]

lemma KeyValue.decode_cases (data : Bytes) :
    decode data = some (.error errInvalidData) ∨
      ∃ kv : KeyValue, kv.Encodable ∧ kv.encode <+: data := by
  rw [decode]
  by_cases hshort : data.length < 40
  · exact .inl (if_pos hshort)
  obtain ⟨keyLen,hkeyLen⟩ : ∃ n, number .big 4 data 0 = some n := exists_number .big (by omega)
  obtain ⟨valueLen,hvalueLen⟩ : ∃ n, number .big 4 data 4 = some n := exists_number .big (by omega)
  by_cases hlong : data.length < 40+keyLen+valueLen
  · refine .inl ?_
    rw [if_neg hshort]
    simp only [hkeyLen,hvalueLen,Option.bind_eq_bind,Option.bind_some,if_pos hlong]
  refine .inr ?_
  have hnumber : ∀ offset, offset+8 ≤ data.length → ∃ n : ℤ, FitsInt64 n ∧
      slice data offset (offset+8) = some (ByteOrder.big.put 8 (uint64 n)) := by
    intro offset hoffset
    obtain ⟨n,hn⟩ := exists_number .big hoffset
    obtain ⟨hlt,hslice⟩ := number_eq_some_iff.mp hn
    exact ⟨int64 n,fitsInt64_int64 n,by rw [uint64_int64 hlt,hslice]⟩
  obtain ⟨createRevision,hcreate⟩ := hnumber 8 (by omega)
  obtain ⟨modRevision,hmod⟩ := hnumber 16 (by omega)
  obtain ⟨version,hversion⟩ := hnumber 24 (by omega)
  obtain ⟨lease,hlease⟩ := hnumber 32 (by omega)
  obtain ⟨key,hkey⟩ : ∃ bs, slice data 40 (40+keyLen) = some bs :=
    exists_slice (by omega) (by omega)
  obtain ⟨value,hvalue⟩ : ∃ bs, slice data (40+keyLen) (40+keyLen+valueLen) = some bs :=
    exists_slice (by omega) (by omega)
  obtain rfl : key.length = keyLen := by have := slice_bounds hkey; omega
  obtain rfl : value.length = valueLen := by have := slice_bounds hvalue; omega
  obtain ⟨hk,hkeyLen⟩ := number_eq_some_iff.mp hkeyLen
  obtain ⟨hv,hvalueLen⟩ := number_eq_some_iff.mp hvalueLen
  refine ⟨⟨key,value,createRevision,modRevision,version,lease⟩,
    ⟨hk,hv,hcreate.1,hmod.1,hversion.1,hlease.1⟩,encode_isPrefix_iff.mpr ?_⟩
  exact ⟨hkeyLen,hvalueLen,hcreate.2,hmod.2,hversion.2,hlease.2,hkey,hvalue⟩

/-- Records are read back, and of other data `Decode` returns the error, or a record that stands at
their start; it never panics. -/
theorem record_codec_lossless_total {kv : KeyValue} (h : kv.Encodable) (data : Bytes) :
    KeyValue.decode kv.encode = some (.ok kv) ∧
    (KeyValue.decode data = some (.error errInvalidData) ∨
      ∃ kv, KeyValue.decode data = some (.ok kv) ∧ kv.encode <+: data) := by
  refine ⟨KeyValue.decode_of_isPrefix h (List.prefix_refl _),?_⟩
  rcases KeyValue.decode_cases data with herror|⟨kv,hkv,hdata⟩
  · exact .inl herror
  · exact .inr ⟨kv,KeyValue.decode_of_isPrefix hkv hdata,hdata⟩

/-- A record with a negative number, and its bytes without the last one. -/
theorem record_codec_lossless_total_negative :
    let kv : KeyValue := ⟨ascii "a",ascii "1",2,-1,1,0⟩
    KeyValue.decode kv.encode = some (.ok kv) ∧
      (KeyValue.decode kv.encode.dropLast).map Except.toOption = some none := by
  intro kv
  have hkv : kv.Encodable := by constructor <;> decide
  exact ⟨(record_codec_lossless_total hkv []).1,by decide⟩

end MetaStore.MVCC
