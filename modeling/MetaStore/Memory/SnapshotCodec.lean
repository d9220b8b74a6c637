import MetaStore.Batch.Codec
import MetaStore.KVStore.OperationCodec
import MetaStore.Library.Codec
import MetaStore.Memory.BatchOrder
import MetaStore.Memory.CommitOrder

/-! Snapshots of the memory engine as bytes (GetSnapshot and recoverFromSnapshot of
internal/memory/kvstore.go, snapshot_converter.go and internal/common/lease_converter.go).
The messages are the ones of internal/proto/raft.proto: a record holds its key as bytes, but it
is filed under a proto3 string, and so are the keys of a lease. -/
namespace MetaStore
open Std

namespace Raftpb

structure KeyValueProto where
  key : Bytes
  value : Bytes
  createRevision : ℤ
  modRevision : ℤ
  version : ℤ
  lease : ℤ

structure LeaseProto where
  id : ℤ
  ttl : ℤ
  grantTimeUnixNano : ℤ
  keys : List Bytes

structure StoreSnapshot where
  revision : ℤ
  kvData : ExtTreeMap Bytes KeyValueProto
  leases : ExtTreeMap ℤ LeaseProto

structure StoreSnapshot.Valid (snapshot : StoreSnapshot) : Prop where
  kvData : ∀ k : Bytes, snapshot.kvData[k]?.isSome = true → Utf8.Valid k
  leases : ∀ (id : ℤ) (l : LeaseProto), snapshot.leases[id]? = some l →
    ∀ k ∈ l.keys, Utf8.Valid k

end Raftpb

/-- The instants that have a number of nanoseconds in an `int64`. -/
def InUnixNano (t : ℤ) : Prop := -2^63 ≤ t ∧ t < 2^63

/-- `Time.UnixNano`, which wraps around. -/
def unixNano (t : ℤ) : ℤ := t.bmod (2^64)

lemma unixNano_eq_iff {t : ℤ} : unixNano t = t ↔ InUnixNano t := by
  unfold unixNano InUnixNano
  constructor
  · intro h
    have hle := Int.le_bmod (x := t) (m := 2^64) (by decide)
    have hlt := Int.bmod_lt (x := t) (m := 2^64) (by decide)
    rw [h] at hle hlt
    constructor
    · exact hle
    · exact hlt
  · rintro ⟨hle,hlt⟩
    exact Int.bmod_eq_of_le (by omega) (by omega)

/-- `LeaseToProto`, which lists the keys in the order in which it visits them. -/
def leaseToProto (visit : ExtTreeSet Bytes → List Bytes) (lease : Lease) : Raftpb.LeaseProto where
  id := lease.id
  ttl := lease.ttl
  grantTimeUnixNano := unixNano lease.grantTime
  keys := visit lease.keys

/-- `ProtoToLease`. -/
def protoToLease (pbLease : Raftpb.LeaseProto) : Lease where
  id := pbLease.id
  ttl := pbLease.ttl
  grantTime := pbLease.grantTimeUnixNano
  keys := .ofList pbLease.keys

def keyValueToProto (kv : KeyValue) : Raftpb.KeyValueProto :=
  ⟨kv.key,kv.value,kv.createRevision,kv.modRevision,kv.version,kv.lease⟩

def protoToKeyValue (pbKv : Raftpb.KeyValueProto) : KeyValue :=
  ⟨pbKv.key,pbKv.value,pbKv.createRevision,pbKv.modRevision,pbKv.version,pbKv.lease⟩

/-- A lease survives the conversion when its time does; the order of its keys is lost on the way
back. -/
lemma protoToLease_leaseToProto_iff {visit : ExtTreeSet Bytes → List Bytes} {l : Lease}
    (hvisit : (visit l.keys).Perm l.keys.toList) :
    protoToLease (leaseToProto visit l) = l ↔ InUnixNano l.grantTime := by
  have hkeys : ExtTreeSet.ofList (visit l.keys) = l.keys := by
    apply ExtTreeSet.ext_mem
    intro k
    rw [ExtTreeSet.mem_ofList,List.contains_iff_mem,hvisit.mem_iff,ExtTreeSet.mem_toList]
  rw [← unixNano_eq_iff]
  obtain ⟨id,ttl,grantTime,keys⟩ := l
  simp only [protoToLease,leaseToProto,Lease.mk.injEq,true_and]
  exact and_iff_left hkeys

namespace Memory

namespace ShardedMap

/-- `GetAll`: the shards together. -/
def getAll (m : ShardedMap) : ExtTreeMap Bytes KeyValue := .ofList m.entries

/-- `SetAll`: every record goes to its shard, whatever was there before. -/
def setAll (_ : ShardedMap) (data : ExtTreeMap Bytes KeyValue) : ShardedMap :=
  data.toList.foldl (fun m kv => m.set kv.1 kv.2) .empty

lemma getElem?_getAll (m : ShardedMap) (k : Bytes) : m.getAll[k]? = m.get k := by
  have hdistinct : m.entries.Pairwise fun a b => ¬ compare a.1 b.1 = .eq :=
    (List.pairwise_map.mp m.entries_nodup_keys).imp fun hne heq =>
      hne (LawfulEqCmp.eq_of_compare heq)
  cases hget : m.get k with
  | none =>
    apply ExtTreeMap.getElem?_ofList_of_contains_eq_false
    rw [← Bool.not_eq_true,List.contains_iff_mem]
    intro hmem
    obtain ⟨⟨k',kv⟩,hentry,rfl⟩ := List.mem_map.mp hmem
    cases hget.symm.trans ((m.mem_entries k' kv).mp hentry)
  | some kv =>
    exact ExtTreeMap.getElem?_ofList_of_mem compare_self hdistinct ((m.mem_entries k kv).mpr hget)

lemma get_foldl_set_of_not_mem (l : List (Bytes × KeyValue)) (m : ShardedMap) {k : Bytes}
    (h : k ∉ l.map Prod.fst) : (l.foldl (fun m kv => m.set kv.1 kv.2) m).get k = m.get k := by
  induction l generalizing m with
  | nil => rfl
  | cons e l ih =>
    rw [List.map_cons,List.mem_cons,not_or] at h
    rw [List.foldl_cons,ih _ h.2,get_set,if_neg h.1]

lemma get_foldl_set_of_mem {l : List (Bytes × KeyValue)} (hdistinct : (l.map Prod.fst).Nodup)
    (m : ShardedMap) {k : Bytes} {kv : KeyValue} (h : (k,kv) ∈ l) :
    (l.foldl (fun m kv => m.set kv.1 kv.2) m).get k = some kv := by
  induction l generalizing m with
  | nil => cases h
  | cons e l ih =>
    rw [List.map_cons,List.nodup_cons] at hdistinct
    rw [List.foldl_cons]
    rcases List.mem_cons.mp h with rfl|hmem
    · rw [get_foldl_set_of_not_mem l _ hdistinct.1,get_set_self]
    · exact ih hdistinct.2 _ hmem

lemma get_setAll (m : ShardedMap) (data : ExtTreeMap Bytes KeyValue) (k : Bytes) :
    (m.setAll data).get k = data[k]? := by
  have hkeys : data.toList.map Prod.fst = data.keys := ExtTreeMap.map_fst_toList_eq_keys
  cases hget : data[k]? with
  | none =>
    rw [setAll,get_foldl_set_of_not_mem,get_empty]
    rw [hkeys,ExtTreeMap.mem_keys,ExtTreeMap.mem_iff_isSome_getElem?,hget]
    exact Bool.false_ne_true
  | some kv =>
    refine get_foldl_set_of_mem (hkeys ▸ ExtTreeMap.nodup_keys) _ ?_
    exact ExtTreeMap.mem_toList_iff_getElem?_eq_some.mpr hget

end ShardedMap

/-- `SnapshotData` of the source, with the records in one map. -/
structure PlainSnapshot where
  revision : ℤ
  kvData : ExtTreeMap Bytes KeyValue
  leases : ExtTreeMap ℤ Lease

/-- The formats of a snapshot: protobuf, what its parser says of other bytes, the order in which
the keys of a lease are visited, and the older JSON format. -/
structure SnapshotFormat extends StrictCodec Raftpb.StoreSnapshot Raftpb.StoreSnapshot.Valid where
  unmarshalError : Bytes → Bytes
  visit : (order : ℕ) → ExtTreeSet Bytes → List Bytes
  visit_perm : ∀ order keys, (visit order keys).Perm keys.toList
  marshalJson : PlainSnapshot → Except Bytes Bytes
  unmarshalJson : Bytes → Except Bytes PlainSnapshot

namespace SnapshotFormat
variable (format : SnapshotFormat)

def mark : Bytes := ascii "SNAP-PB:"

/-- The message that `serializeSnapshot` builds. -/
def toProto (order : ℕ) (snapshot : PlainSnapshot) : Raftpb.StoreSnapshot where
  revision := snapshot.revision
  kvData := snapshot.kvData.map fun _ => keyValueToProto
  leases := snapshot.leases.map fun _ => leaseToProto (format.visit order)

/-- What `deserializeSnapshot` makes of a message. -/
def ofProto (pbSnapshot : Raftpb.StoreSnapshot) : PlainSnapshot where
  revision := pbSnapshot.revision
  kvData := pbSnapshot.kvData.map fun _ => protoToKeyValue
  leases := pbSnapshot.leases.map fun _ => protoToLease

def serializeSnapshot (enableSnapshotProtobuf : Bool) (order : ℕ) (snapshot : PlainSnapshot) :
    Except Bytes Bytes :=
  if enableSnapshotProtobuf then
    match format.serialize order (format.toProto order snapshot) with
    | .ok data => .ok (mark ++ data)
    | .error err => .error (ascii "protobuf marshal snapshot failed: " ++ err)
  else format.marshalJson snapshot

def deserializeSnapshot (data : Bytes) : Except Bytes PlainSnapshot :=
  if mark.length ≤ data.length ∧ data.take mark.length = mark then
    match format.deserialize (data.drop mark.length) with
    | some pbSnapshot => .ok (ofProto pbSnapshot)
    | none => .error (ascii "protobuf unmarshal snapshot failed: " ++
        format.unmarshalError (data.drop mark.length))
  else match format.unmarshalJson data with
    | .ok snapshot => .ok snapshot
    | .error err => .error (ascii "json unmarshal snapshot failed: " ++ err)

/-- `GetSnapshot`, while nothing else runs. -/
def getSnapshot (enableSnapshotProtobuf : Bool) (order : ℕ) (s : MemoryEtcd) :
    Except Bytes Bytes :=
  format.serializeSnapshot enableSnapshotProtobuf order ⟨s.revision,s.kvData.getAll,s.leases⟩

/-- `recoverFromSnapshot`. -/
def recoverFromSnapshot (s : MemoryEtcd) (snapshotData : Bytes) : Except Bytes MemoryEtcd :=
  (format.deserializeSnapshot snapshotData).map fun snapshot =>
    { s with
      revision := snapshot.revision
      kvData := s.kvData.setAll snapshot.kvData
      leases := snapshot.leases }

/-- A snapshot of `s` can be taken, and loading it into `t` gives the records, the revision and the
leases of `s`. -/
def RoundTrips (order : ℕ) (s t : MemoryEtcd) : Prop :=
  ∃ data, format.getSnapshot true order s = .ok data ∧
    format.recoverFromSnapshot t data = .ok (t.recoverFromSnapshot s.getSnapshot)

end SnapshotFormat

def PlainLeases (leases : ExtTreeMap ℤ Lease) : Prop :=
  ∀ (id : ℤ) (l : Lease), leases[id]? = some l → ∀ k ∈ l.keys, Utf8.Valid k

/-- The live keys and the keys of the leases are UTF-8, and the times of the leases are within the
range of `UnixNano`. -/
structure Snapshottable (s : MemoryEtcd) : Prop where
  keys : ∀ k, (s.kvData.get k).isSome = true → Utf8.Valid k
  leases : PlainLeases s.leases
  times : ∀ (id : ℤ) (l : Lease), s.leases[id]? = some l → InUnixNano l.grantTime

namespace SnapshotFormat
variable (format : SnapshotFormat)

lemma valid_toProto_iff (order : ℕ) (snapshot : PlainSnapshot) :
    (format.toProto order snapshot).Valid ↔
      (∀ k : Bytes, snapshot.kvData[k]?.isSome = true → Utf8.Valid k) ∧
        PlainLeases snapshot.leases := by
  have hkv : ∀ k : Bytes, (format.toProto order snapshot).kvData[k]?.isSome =
      snapshot.kvData[k]?.isSome := by
    intro k
    rw [toProto,ExtTreeMap.getElem?_map,Option.isSome_map]
  have hvisit : ∀ (l : Lease) k, k ∈ format.visit order l.keys ↔ k ∈ l.keys := fun l k =>
    (format.visit_perm order l.keys).mem_iff.trans ExtTreeSet.mem_toList
  constructor
  · intro h
    refine ⟨fun k hk => h.kvData k ((hkv k).trans hk),fun id l hl k hk => ?_⟩
    refine h.leases id (leaseToProto (format.visit order) l) ?_ k ((hvisit l k).mpr hk)
    rw [toProto,ExtTreeMap.getElem?_map,hl,Option.map_some]
  · rintro ⟨hkeys,hleases⟩
    refine ⟨fun k hk => hkeys k ((hkv k).symm.trans hk),fun id pbLease hpb k hk => ?_⟩
    rw [toProto,ExtTreeMap.getElem?_map] at hpb
    obtain ⟨l,hl,rfl⟩ := Option.map_eq_some_iff.mp hpb
    exact hleases id l hl k ((hvisit l k).mp hk)

lemma ofProto_toProto_iff (order : ℕ) (snapshot : PlainSnapshot) :
    ofProto (format.toProto order snapshot) = snapshot ↔
      ∀ (id : ℤ) (l : Lease), snapshot.leases[id]? = some l → InUnixNano l.grantTime := by
  have hlease : ∀ l : Lease, protoToLease (leaseToProto (format.visit order) l) = l ↔
      InUnixNano l.grantTime := fun l =>
    protoToLease_leaseToProto_iff (format.visit_perm order l.keys)
  have hkv : (ofProto (format.toProto order snapshot)).kvData = snapshot.kvData := by
    apply ExtTreeMap.ext_getElem?
    intro k
    simp only [ofProto,toProto,ExtTreeMap.getElem?_map,Option.map_map]
    exact Option.map_id_apply ..
  have hget : ∀ id : ℤ, (ofProto (format.toProto order snapshot)).leases[id]? =
      snapshot.leases[id]?.map fun l => protoToLease (leaseToProto (format.visit order) l) := by
    intro id
    simp only [ofProto,toProto,ExtTreeMap.getElem?_map,Option.map_map]
    rfl
  constructor
  · intro h id l hl
    have hid := hget id
    rw [h,hl,Option.map_some] at hid
    exact (hlease l).mp (Option.some.inj hid).symm
  · intro h
    have hleases : (ofProto (format.toProto order snapshot)).leases = snapshot.leases := by
      apply ExtTreeMap.ext_getElem?
      intro id
      rw [hget]
      cases hl : snapshot.leases[id]? with
      | none => rfl
      | some l => rw [Option.map_some,(hlease l).mpr (h id l hl)]
    obtain ⟨revision,kvData,leases⟩ := snapshot
    exact (PlainSnapshot.mk.injEq ..).mpr ⟨rfl,hkv,hleases⟩

lemma recovered_eq_iff (s t : MemoryEtcd) (snapshot : PlainSnapshot) :
    { t with
      revision := snapshot.revision
      kvData := t.kvData.setAll snapshot.kvData
      leases := snapshot.leases } = t.recoverFromSnapshot s.getSnapshot ↔
    snapshot = ⟨s.revision,s.kvData.getAll,s.leases⟩ := by
  have hkv : t.kvData.setAll snapshot.kvData = s.kvData ↔ snapshot.kvData = s.kvData.getAll := by
    rw [ShardedMap.ext_get_iff]
    constructor
    · intro h
      apply ExtTreeMap.ext_getElem?
      intro k
      rw [ShardedMap.getElem?_getAll,← h k,ShardedMap.get_setAll]
    · intro h k
      rw [ShardedMap.get_setAll,h,ShardedMap.getElem?_getAll]
  obtain ⟨revision,kvData,leases⟩ := snapshot
  simp only [MemoryEtcd.recoverFromSnapshot,MemoryEtcd.getSnapshot,MemoryEtcd.mk.injEq,
    PlainSnapshot.mk.injEq,and_true,hkv]
  tauto

lemma deserializeSnapshot_mark (data : Bytes) {pbSnapshot : Raftpb.StoreSnapshot}
    (h : format.deserialize data = some pbSnapshot) :
    format.deserializeSnapshot (mark ++ data) = .ok (ofProto pbSnapshot) := by
  have hmark : mark.length ≤ (mark ++ data).length ∧ (mark ++ data).take mark.length = mark :=
    ⟨by rw [List.length_append]; omega,List.take_left⟩
  rw [deserializeSnapshot,if_pos hmark,List.drop_left,h]

lemma exists_getSnapshot_iff (order : ℕ) (s : MemoryEtcd) :
    (∃ data, format.getSnapshot true order s = .ok data) ↔
      (∀ k, (s.kvData.get k).isSome = true → Utf8.Valid k) ∧ PlainLeases s.leases := by
  have hvalid := valid_toProto_iff format order ⟨s.revision,s.kvData.getAll,s.leases⟩
  simp only [ShardedMap.getElem?_getAll] at hvalid
  rw [← hvalid,← format.exists_ok_iff order,getSnapshot,serializeSnapshot,if_pos rfl]
  cases format.serialize order (format.toProto order ⟨s.revision,s.kvData.getAll,s.leases⟩) with
  | ok data => simp
  | error err => simp

theorem roundTrips_iff_snapshottable (order : ℕ) (s t : MemoryEtcd) :
    format.RoundTrips order s t ↔ Snapshottable s := by
  have hsame := ofProto_toProto_iff format order ⟨s.revision,s.kvData.getAll,s.leases⟩
  have hexists := exists_getSnapshot_iff format order s
  -- what comes back is the message that was sent, read
  have hrecover : ∀ data, format.getSnapshot true order s = .ok data →
      (format.recoverFromSnapshot t data = .ok (t.recoverFromSnapshot s.getSnapshot) ↔
        ∀ (id : ℤ) (l : Lease), s.leases[id]? = some l → InUnixNano l.grantTime) := by
    intro data hdata
    obtain ⟨hkeys,hleases⟩ := hexists.mp ⟨data,hdata⟩
    obtain ⟨bytes,hbytes,hread⟩ := format.roundTrip order _ ((valid_toProto_iff format order
      ⟨s.revision,s.kvData.getAll,s.leases⟩).mpr
        ⟨fun k => by rw [ShardedMap.getElem?_getAll]; exact hkeys k,hleases⟩)
    rw [getSnapshot,serializeSnapshot,if_pos rfl,hbytes] at hdata
    obtain rfl := Except.ok.inj hdata
    rw [recoverFromSnapshot,deserializeSnapshot_mark format bytes hread,← hsame,
      ← recovered_eq_iff s t,Except.map,Except.ok.injEq]
  constructor
  · rintro ⟨data,hdata,hload⟩
    obtain ⟨hkeys,hleases⟩ := hexists.mp ⟨data,hdata⟩
    exact ⟨hkeys,hleases,(hrecover data hdata).mp hload⟩
  · intro h
    obtain ⟨data,hdata⟩ := hexists.mpr ⟨h.keys,h.leases⟩
    exact ⟨data,hdata,(hrecover data hdata).mpr h.times⟩

end SnapshotFormat
def Datum.Utf8Keys : Datum → Prop
  | .operation op => op.Utf8Keys
  | .legacy key _ => Utf8.Valid key

namespace Snapshottable
variable {s : MemoryEtcd}

lemma empty : Snapshottable .empty where
  keys k hk := by simp [MemoryEtcd.empty] at hk
  leases id l hl := by simp [MemoryEtcd.empty] at hl
  times id l hl := by simp [MemoryEtcd.empty] at hl

lemma congr (h : Snapshottable s) {t : MemoryEtcd} (hkv : t.kvData = s.kvData)
    (hleases : t.leases = s.leases) : Snapshottable t where
  keys := hkv ▸ h.keys
  leases := hleases ▸ h.leases
  times := hleases ▸ h.times

lemma set (h : Snapshottable s) {key : Bytes} (hkey : Utf8.Valid key) (kv : KeyValue) :
    Snapshottable { s with kvData := s.kvData.set key kv } where
  keys k hk := by
    dsimp only at hk
    rw [ShardedMap.get_set] at hk
    split_ifs at hk with heq
    · exact heq ▸ hkey
    · exact h.keys k hk
  leases := h.leases
  times := h.times

lemma delete (h : Snapshottable s) (key : Bytes) :
    Snapshottable { s with kvData := s.kvData.delete key } where
  keys k hk := by
    dsimp only at hk
    rw [ShardedMap.get_delete] at hk
    split_ifs at hk
    · cases hk
    · exact h.keys k hk
  leases := h.leases
  times := h.times

lemma updateKeys (h : Snapshottable s) (leaseID : ℤ) {f : ExtTreeSet Bytes → ExtTreeSet Bytes}
    (hf : ∀ keys, (∀ k ∈ keys, Utf8.Valid k) → ∀ k ∈ f keys, Utf8.Valid k) :
    Snapshottable { s with leases := updateKeys s.leases leaseID f } where
  keys := h.keys
  leases id l hl := by
    rw [getElem?_updateKeys] at hl
    split_ifs at hl
    · obtain ⟨l',hl',rfl⟩ := Option.map_eq_some_iff.mp hl
      exact hf l'.keys (h.leases id l' hl')
    · exact h.leases id l hl
  times id l hl := by
    rw [getElem?_updateKeys] at hl
    split_ifs at hl
    · obtain ⟨l',hl',rfl⟩ := Option.map_eq_some_iff.mp hl
      exact h.times id l' hl'
    · exact h.times id l hl

lemma attachKey (h : Snapshottable s) (leaseID : ℤ) {key : Bytes} (hkey : Utf8.Valid key) :
    Snapshottable { s with leases := attachKey s.leases leaseID key } := by
  refine h.updateKeys leaseID fun keys hkeys k hk => ?_
  rcases ExtTreeSet.mem_insert.mp hk with heq|hmem
  · exact LawfulEqCmp.eq_of_compare heq ▸ hkey
  · exact hkeys k hmem

lemma detachKey (h : Snapshottable s) (leaseID : ℤ) (key : Bytes) :
    Snapshottable { s with leases := detachKey s.leases leaseID key } :=
  h.updateKeys leaseID fun _ hkeys k hk => hkeys k (ExtTreeSet.mem_of_mem_erase hk)

lemma grant (h : Snapshottable s) {clock : Clock} (hclock : ∀ n, InUnixNano (clock n))
    (leaseID ttl : ℤ) : Snapshottable (s.applyLeaseOperationDirect clock .leaseGrant leaseID ttl) where
  keys := h.keys
  leases id l hl := by
    simp only [MemoryEtcd.applyLeaseOperationDirect,ExtTreeMap.getElem?_insert] at hl
    split_ifs at hl
    · obtain rfl := Option.some.inj hl
      exact fun k hk => absurd hk ExtTreeSet.not_mem_empty
    · exact h.leases id l hl
  times id l hl := by
    simp only [MemoryEtcd.applyLeaseOperationDirect,ExtTreeMap.getElem?_insert] at hl
    split_ifs at hl
    · obtain rfl := Option.some.inj hl
      exact hclock _
    · exact h.times id l hl

lemma eraseLease (h : Snapshottable s) (leaseID : ℤ) :
    Snapshottable { s with leases := s.leases.erase leaseID } where
  keys := h.keys
  leases id l hl := by
    rw [ExtTreeMap.getElem?_erase] at hl
    split_ifs at hl
    exact h.leases id l hl
  times id l hl := by
    rw [ExtTreeMap.getElem?_erase] at hl
    split_ifs at hl
    exact h.times id l hl

lemma batchApplyPut {ops : List RaftOperation} (hops : ∀ op ∈ ops, Utf8.Valid op.key)
    (h : Snapshottable s) {t : MemoryEtcd} (hbatch : BatchApplyPut ops s t) : Snapshottable t := by
  refine hbatch.invariant_of_queued (Q := fun a => Utf8.Valid a.key) ?_ ?_ h ?_
  · intro a s ha hs
    cases a with
    | draw op => exact hs.congr rfl rfl
    | store op newRevision => exact hs.set ha _
    | link op => exact hs.attachKey op.leaseID ha
  · intro a s ha b hb
    cases a with
    | draw op => exact List.mem_singleton.mp hb ▸ ha
    | store op newRevision => exact List.mem_singleton.mp hb ▸ ha
    | link op => cases hb
  · intro i a ha
    obtain ⟨op,hop,rfl⟩ := List.mem_map.mp (List.mem_filter.mp ha).1
    exact hops op hop

variable {clock : Clock} (hclock : ∀ n, InUnixNano (clock n))
include hclock

lemma kept : Kept clock Utf8.Valid Snapshottable where
  tick h := h.congr rfl rfl
  draw h := h.congr rfl rfl
  delete key h := h.delete key
  detach leaseID key h := h.detachKey leaseID key
  put _ leaseID hkey h := ((h.set hkey _).attachKey leaseID hkey).congr rfl rfl
  grant leaseID ttl h := h.grant hclock leaseID ttl
  eraseLease leaseID h := h.eraseLease leaseID
  batchApplyPut hops h := h.batchApplyPut hops

lemma readCommit {data : List Datum} (hdata : ∀ d ∈ data, d.Utf8Keys) {m m' : Memory}
    (h : Snapshottable m.etcd) (hcommit : ReadCommit clock data m m') : Snapshottable m'.etcd := by
  have hP := kept hclock
  refine hP.applyBatch (List.foldlRecOn (motive := Snapshottable) _ _ h fun s hs kv hkv => ?_)
    (fun op hop => ?_) hcommit
  · obtain ⟨d,hd,hsome⟩ := List.mem_filterMap.mp hkv
    cases d with
    | operation op' => cases hsome
    | legacy key val =>
      obtain rfl := Option.some.inj hsome
      exact hP.put val 0 (hdata _ hd) hs
  · obtain ⟨d,hd,hsome⟩ := List.mem_filterMap.mp hop
    cases d with
    | operation op' =>
      obtain rfl := Option.some.inj hsome
      have hop : op'.Utf8Keys := hdata _ hd
      exact ⟨hop.key,fun o ho => (hop.ops o ho).1⟩
    | legacy key val => cases hsome

end Snapshottable
/-- The states of a node that starts empty and applies commits of entries with the property. -/
inductive Committed (clock : Clock) (P : Datum → Prop) : Memory → Prop
  | new (w : Waiters) : Committed clock P ⟨.empty,w⟩
  | commit {m m' : Memory} (data : List Datum) : Committed clock P m → (∀ d ∈ data, P d) →
      ReadCommit clock data m m' → Committed clock P m'

lemma Committed.snapshottable {clock : Clock} (hclock : ∀ n, InUnixNano (clock n)) {m : Memory}
    (h : Committed clock Datum.Utf8Keys m) : Snapshottable m.etcd := by
  induction h with
  | new w => exact .empty
  | commit data _ hdata hcommit ih => exact ih.readCommit hclock hdata hcommit

instance : Countable Raftpb.KeyValueProto :=
  Function.Injective.countable (f := fun kv : Raftpb.KeyValueProto =>
    ((kv.key,kv.value),(kv.createRevision,kv.modRevision),(kv.version,kv.lease))) fun a b h => by
    cases a
    cases b
    simp_all

instance : Countable Raftpb.LeaseProto :=
  Function.Injective.countable (f := fun l : Raftpb.LeaseProto =>
    (l.id,l.ttl,l.grantTimeUnixNano,l.keys)) fun a b h => by
    cases a
    cases b
    simp_all

instance : Countable Raftpb.StoreSnapshot :=
  Function.Injective.countable (f := fun snapshot : Raftpb.StoreSnapshot =>
    (snapshot.revision,snapshot.kvData,snapshot.leases)) fun a b h => by
    cases a
    cases b
    simp_all

lemma SnapshotFormat.nonempty : Nonempty SnapshotFormat := by
  obtain ⟨codec⟩ := StrictCodec.nonempty_of_countable Raftpb.StoreSnapshot.Valid
  exact ⟨{ codec with
    unmarshalError := fun _ => []
    visit := fun _ keys => keys.toList
    visit_perm := fun _ _ => .rfl
    marshalJson := fun _ => .error []
    unmarshalJson := fun _ => .error [] }⟩

lemma committed_legacy (clock : Clock) (P : Datum → Prop) (w : Waiters) {key : Bytes} (val : Bytes)
    (h : P (.legacy key val)) :
    Committed clock P ⟨MemoryEtcd.empty.applyLegacyOp key val,w⟩ := by
  refine .commit [.legacy key val] (.new w) (fun d hd => ?_) rfl
  exact List.mem_singleton.mp hd ▸ h

end Memory
end MetaStore
