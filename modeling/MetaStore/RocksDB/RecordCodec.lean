import MetaStore.KVStore.Types
import MetaStore.Library.Endian

/-! The records of the RocksDB engine as bytes (internal/rocksdb/pools.go). The decoder follows the
two lengths that it finds, whatever they are. -/
namespace MetaStore.RocksDB

def encodeKeyValue (kv : KeyValue) : Bytes :=
  ByteOrder.little.put 4 kv.key.length ++ (kv.key ++ (ByteOrder.little.put 4 kv.value.length ++
    (kv.value ++ (ByteOrder.little.put 8 (uint64 kv.createRevision) ++
      (ByteOrder.little.put 8 (uint64 kv.modRevision) ++
        (ByteOrder.little.put 8 (uint64 kv.version) ++
          ByteOrder.little.put 8 (uint64 kv.lease)))))))

/-- The record, or nil; the error is always nil. `none` is a panic. -/
def decodeKeyValue (data : Bytes) : Option (Option KeyValue) :=
  if data.length < 8 then some none
  else do
    let keyLen ← number .little 4 data 0
    let key ← slice data 4 (4+keyLen)
    let valueLen ← number .little 4 data (4+keyLen)
    let value ← slice data (4+keyLen+4) (4+keyLen+4+valueLen)
    let createRevision ← number .little 8 data (4+keyLen+4+valueLen)
    let modRevision ← number .little 8 data (4+keyLen+4+valueLen+8)
    let version ← number .little 8 data (4+keyLen+4+valueLen+8+8)
    let lease ← number .little 8 data (4+keyLen+4+valueLen+8+8+8)
    some (some ⟨key,value,int64 createRevision,int64 modRevision,int64 version,int64 lease⟩)

structure Encodable (kv : KeyValue) : Prop where
  key : kv.key.length < 2^32
  value : kv.value.length < 2^32
  createRevision : FitsInt64 kv.createRevision
  modRevision : FitsInt64 kv.modRevision
  version : FitsInt64 kv.version
  lease : FitsInt64 kv.lease

lemma length_encodeKeyValue (kv : KeyValue) :
    (encodeKeyValue kv).length = 4+kv.key.length+4+kv.value.length+32 := by
  simp only [encodeKeyValue,List.length_append,ByteOrder.length_put]
  omega

lemma decodeKeyValue_eq_some_iff {data : Bytes} {kv : KeyValue} :
    decodeKeyValue data = some (some kv) ↔ Encodable kv ∧ encodeKeyValue kv <+: data := by
  rw [isPrefix_iff_slice,length_encodeKeyValue,encodeKeyValue]
  simp only [slice_append_iff,ByteOrder.length_put,Nat.zero_add]
  constructor
  · intro h
    rw [decodeKeyValue] at h
    split_ifs at h
    · cases h
    simp only [Option.bind_eq_bind,Option.bind_eq_some_iff,Option.some.injEq,
      number_eq_some_iff] at h
    obtain ⟨keyLen,⟨hkeyLen,hk⟩,key,hkey,valueLen,⟨hvalueLen,hv⟩,value,hvalue,createRevision,
      ⟨hcreate,hc⟩,modRevision,⟨hmod,hm⟩,version,⟨hversion,hver⟩,lease,⟨hlease,hl⟩,rfl⟩ := h
    obtain rfl : key.length = keyLen := by have := slice_bounds hkey; omega
    obtain rfl : value.length = valueLen := by have := slice_bounds hvalue; omega
    simp only [uint64_int64 hcreate,uint64_int64 hmod,uint64_int64 hversion,uint64_int64 hlease]
    refine ⟨⟨hkeyLen,hvalueLen,?_,?_,?_,?_⟩,hk,hkey,hv,hvalue,hc,hm,hver,hl⟩
    all_goals
      dsimp only
      exact fitsInt64_int64 _
  · rintro ⟨h,hk,hkey,hv,hvalue,hc,hm,hver,hl⟩
    have hlong := (slice_bounds hl).2
    have hnumber : ∀ {offset : ℕ} {n : ℤ},
        slice data offset (offset+8) = some (ByteOrder.little.put 8 (uint64 n)) →
        number .little 8 data offset = some (uint64 n) :=
      fun hs => number_eq_some_iff.mpr ⟨uint64_lt _,hs⟩
    have hk : number .little 4 data 0 = some kv.key.length :=
      number_eq_some_iff.mpr ⟨h.key,hk⟩
    have hv : number .little 4 data (4+kv.key.length) = some kv.value.length :=
      number_eq_some_iff.mpr ⟨h.value,hv⟩
    rw [decodeKeyValue,if_neg (by omega)]
    simp only [Option.bind_eq_bind,hk,hkey,hv,hvalue,hnumber hc,hnumber hm,hnumber hver,
      hnumber hl,Option.bind_some,int64_uint64 h.createRevision,int64_uint64 h.modRevision,
      int64_uint64 h.version,int64_uint64 h.lease]

/-- Records are read back. Other data are read without a panic if and only if they have fewer than
eight bytes or start with a whole record. -/
theorem record_codec_in_bounds_iff (data : Bytes) :
    (∀ kv, Encodable kv → decodeKeyValue (encodeKeyValue kv) = some (some kv)) ∧
    (decodeKeyValue data ≠ none ↔
      data.length < 8 ∨ ∃ kv, Encodable kv ∧ encodeKeyValue kv <+: data) := by
  refine ⟨fun kv h => decodeKeyValue_eq_some_iff.mpr ⟨h,List.prefix_refl _⟩,?_⟩
  constructor
  · intro h
    by_cases hshort : data.length < 8
    · exact .inl hshort
    · cases hdecode : decodeKeyValue data with
      | none => exact absurd hdecode h
      | some result =>
        cases result with
        | none =>
          rw [decodeKeyValue,if_neg hshort] at hdecode
          simp [Option.bind_eq_some_iff] at hdecode
        | some kv => exact .inr ⟨kv,decodeKeyValue_eq_some_iff.mp hdecode⟩
  · rintro (hshort|⟨kv,hkv⟩)
    · rw [decodeKeyValue,if_pos hshort]
      exact Option.some_ne_none _
    · rw [decodeKeyValue_eq_some_iff.mpr hkv]
      exact Option.some_ne_none _

/-- A record whose key is said to have five bytes, of which none is there. -/
theorem truncated_record_panics : decodeKeyValue [5,0,0,0,0,0,0,0] = none := by decide

end MetaStore.RocksDB
