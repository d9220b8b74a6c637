import MetaStore.Memory.SnapshotCodec

/-! Leases as they are stored (internal/common/lease_converter.go), in protobuf or in the older gob
format. The mark in front tells which one it is, whatever the setting is when a lease is read. -/
namespace MetaStore
open Std

def Raftpb.LeaseProto.Valid (pbLease : Raftpb.LeaseProto) : Prop := ∀ k ∈ pbLease.keys, Utf8.Valid k

def pbPrefix : Bytes := ascii "LEASE-PB:"

/-- The two formats: protobuf takes messages whose strings are UTF-8, gob takes every lease. Gob
never writes the prefix of the other format, and finds no lease where there are no data. -/
structure LeaseFormat where
  protobuf : Codec Raftpb.LeaseProto Raftpb.LeaseProto.Valid
  gob : Codec Lease fun _ => True
  unmarshalError : Bytes → Bytes
  decodeError : Bytes → Bytes
  visit : (order : ℕ) → ExtTreeSet Bytes → List Bytes
  visit_perm : ∀ order keys, (visit order keys).Perm keys.toList
  gob_unmarked : ∀ order lease data, gob.serialize order lease = .ok data → ¬ pbPrefix <+: data
  gob_empty : gob.deserialize [] = none

namespace LeaseFormat
variable (format : LeaseFormat)

def serializeLease (enableLeaseProtobuf : Bool) (order : ℕ) : Option Lease → Except Bytes Bytes
  | none => .error (ascii "lease is nil")
  | some lease =>
    if enableLeaseProtobuf then
      match format.protobuf.serialize order (leaseToProto (format.visit order) lease) with
      | .ok data => .ok (pbPrefix ++ data)
      | .error err => .error (ascii "protobuf marshal lease failed: " ++ err)
    else
      match format.gob.serialize order lease with
      | .ok data => .ok data
      | .error err => .error (ascii "gob encode lease failed: " ++ err)

def deserializeLease (data : Bytes) : Except Bytes Lease :=
  if data.length = 0 then .error (ascii "empty lease data")
  else if pbPrefix.length ≤ data.length ∧ data.take pbPrefix.length = pbPrefix then
    match format.protobuf.deserialize (data.drop pbPrefix.length) with
    | some pbLease => .ok (protoToLease pbLease)
    | none => .error (ascii "protobuf unmarshal lease failed: " ++
        format.unmarshalError (data.drop pbPrefix.length))
  else
    match format.gob.deserialize data with
    | some lease => .ok lease
    | none => .error (ascii "gob decode lease failed: " ++ format.decodeError data)

/-- There are such formats: gob may list the keys after a zero byte. -/
lemma nonempty : Nonempty LeaseFormat := by
  obtain ⟨protobuf⟩ := Codec.nonempty_of_countable Raftpb.LeaseProto.Valid
  obtain ⟨plain⟩ := Codec.nonempty_of_countable fun _ : Raftpb.LeaseProto => True
  let listed (lease : Lease) : Raftpb.LeaseProto :=
    ⟨lease.id,lease.ttl,lease.grantTime,lease.keys.toList⟩
  have hlisted (lease : Lease) : protoToLease (listed lease) = lease := by
    have hkeys : ExtTreeSet.ofList lease.keys.toList = lease.keys := by
      apply ExtTreeSet.ext_mem
      intro k
      rw [ExtTreeSet.mem_ofList,List.contains_iff_mem,ExtTreeSet.mem_toList]
    exact congrArg (Lease.mk lease.id lease.ttl lease.grantTime) hkeys
  let gob : Codec Lease fun _ => True :=
    { serialize := fun order lease => (plain.serialize order (listed lease)).map (List.cons 0)
      deserialize := fun data => if data = [] then none
        else (plain.deserialize data.tail).map protoToLease
      roundTrip := fun order lease _ => by
        obtain ⟨data,hdata,hread⟩ := plain.roundTrip order (listed lease) trivial
        refine ⟨0 :: data,by rw [hdata]; rfl,?_⟩
        rw [if_neg (List.cons_ne_nil _ _),List.tail_cons,hread,Option.map_some,hlisted] }
  refine ⟨⟨protobuf,gob,fun _ => [],fun _ => [],fun _ keys => keys.toList,fun _ _ => .rfl,?_,rfl⟩⟩
  intro order lease data hdata hmark
  cases hplain : plain.serialize order (listed lease) with
  | error err => simp [gob,hplain,Except.map] at hdata
  | ok bs =>
    obtain rfl : 0 :: bs = data := by simpa [gob,hplain,Except.map] using hdata
    exact absurd (List.cons_prefix_cons.mp hmark).1 (by decide)

end LeaseFormat
end MetaStore
