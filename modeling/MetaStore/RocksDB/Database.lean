import MetaStore.KVStore.Types
import MetaStore.Library.WriteBatch

/-! The database that the RocksDB engine and its raft storage share. Keys are byte strings.
A stored value is kept as what it encodes, so a decoder succeeds exactly on the values its
encoder wrote; the database itself is an ordered map with atomic write batches. -/
namespace MetaStore.RocksDB
open Std

/-- `raftpb.EntryType`. -/
inductive EntryType
  | normal | confChange | confChangeV2
  deriving DecidableEq, Repr

structure Entry where
  term : UInt64
  index : UInt64
  type : EntryType := .normal
  data : Bytes := []
  deriving DecidableEq, Repr

structure HardState where
  term : UInt64
  vote : UInt64
  commit : UInt64
  deriving DecidableEq, Repr

structure ConfState where
  voters : List UInt64 := []
  learners : List UInt64 := []
  deriving DecidableEq, Repr

/-- `raftpb.Snapshot` with its metadata. -/
structure Snapshot where
  data : Bytes
  index : UInt64
  term : UInt64
  confState : ConfState
  deriving DecidableEq, Repr

/-- The values in the database: marshalled raft records and 8-byte big-endian indexes of the
raft storage; key-value records, leases and the 8-byte little-endian revision of the store. -/
inductive Value
  | entry (e : Entry)
  | hardState (st : HardState)
  | confState (cs : ConfState)
  | snapshot (s : Snapshot)
  | index (i : UInt64)
  | keyValue (kv : KeyValue)
  | lease (l : Lease)
  | revision (n : ℤ)
  deriving DecidableEq

abbrev Database := ExtTreeMap Bytes Value

/-- `binary.BigEndian.PutUint64`. -/
def bigEndian (i : UInt64) : Bytes :=
  [56,48,40,32,24,16,8,0].map fun k => UInt8.ofNat (i.toNat/2^k)

lemma div_eq_of_byte {a b k : ℕ} (hhigh : a/2^(k+8) = b/2^(k+8))
    (hbyte : a/2^k % 256 = b/2^k % 256) : a/2^k = b/2^k := by
  rw [Nat.pow_add,← Nat.div_div_eq_div_mul,← Nat.div_div_eq_div_mul] at hhigh
  have ha := Nat.div_add_mod (a/2^k) 256
  have hb := Nat.div_add_mod (b/2^k) 256
  rw [show 256 = 2^8 from rfl] at hbyte ha hb
  rw [← ha,← hb,hhigh,hbyte]

theorem bigEndian_injective : Function.Injective bigEndian := by
  intro i j h
  simp only [bigEndian,List.map_cons,List.map_nil,List.cons.injEq,← UInt8.toNat_inj,
    UInt8.toNat_ofNat'] at h
  obtain ⟨h56,h48,h40,h32,h24,h16,h8,h0,-⟩ := h
  have h64 : i.toNat/2^64 = j.toNat/2^64 := by
    rw [Nat.div_eq_of_lt i.toNat_lt,Nat.div_eq_of_lt j.toNat_lt]
  have hbytes : i.toNat/2^24 = j.toNat/2^24 :=
    div_eq_of_byte (div_eq_of_byte (div_eq_of_byte (div_eq_of_byte (div_eq_of_byte h64
      h56) h48) h40) h32) h24
  have hall : i.toNat/2^0 = j.toNat/2^0 :=
    div_eq_of_byte (div_eq_of_byte (div_eq_of_byte hbytes h16) h8) h0
  apply UInt64.toNat_inj.mp
  rwa [Nat.pow_zero,Nat.div_one,Nat.div_one] at hall

end MetaStore.RocksDB
