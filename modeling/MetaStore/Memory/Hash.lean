import MetaStore.Library.Wire
import MetaStore.Memory.SnapshotCodec

/-! The consistency hash of the memory engine (`Hash` of api/etcd/maintenance.go over
`GetSnapshot` of internal/memory). Snapshots are written byte by byte here: protobuf emits the
entries of a map in the order in which Go visits them, and so does the list of a lease's keys. -/
namespace MetaStore.Memory
open Std Protobuf

/-- The reflected polynomial of IEEE 802.3, one bit at a time. -/
def crcBit (crc : UInt32) : UInt32 :=
  if crc &&& 1 = 1 then (crc >>> 1) ^^^ 0xEDB88320 else crc >>> 1

def crcByte (crc : UInt32) (b : UInt8) : UInt32 := crcBit^[8] (crc ^^^ b.toUInt32)

/-- `crc32.ChecksumIEEE`. -/
def checksumIEEE (data : Bytes) : UInt32 := data.foldl crcByte 0xFFFFFFFF ^^^ 0xFFFFFFFF

example : checksumIEEE (ascii "123456789") = 0xCBF43926 := by decide +kernel

/-! ### The bytes of a snapshot -/

structure Iteration where
  records : ExtTreeMap Bytes KeyValue → List (Bytes × KeyValue)
  leases : ExtTreeMap ℤ Lease → List (ℤ × Lease)
  keys : ExtTreeSet Bytes → List Bytes
  records_perm : ∀ m, (records m).Perm m.toList
  leases_perm : ∀ m, (leases m).Perm m.toList
  keys_perm : ∀ m, (keys m).Perm m.toList

def keyValueBytes (kv : Raftpb.KeyValueProto) : Bytes :=
  bytesField 1 kv.key ++ bytesField 2 kv.value ++ intField 3 kv.createRevision ++
    intField 4 kv.modRevision ++ intField 5 kv.version ++ intField 6 kv.lease

def leaseBytes (lease : Raftpb.LeaseProto) : Bytes :=
  intField 1 lease.id ++ intField 2 lease.ttl ++ intField 3 lease.grantTimeUnixNano ++
    lease.keys.flatMap (delimited 4)

def recordEntry (e : Bytes × KeyValue) : Bytes :=
  delimited 2 (delimited 1 e.1 ++ delimited 2 (keyValueBytes (keyValueToProto e.2)))

def leaseEntry (visit : ExtTreeSet Bytes → List Bytes) (e : ℤ × Lease) : Bytes :=
  delimited 3 (presentInt 1 e.1 ++ delimited 2 (leaseBytes (leaseToProto visit e.2)))

/-- `proto.Marshal` of a snapshot whose strings are UTF-8. -/
def marshal (o : Iteration) (snapshot : PlainSnapshot) : Bytes :=
  intField 1 snapshot.revision ++ (o.records snapshot.kvData).flatMap recordEntry ++
    (o.leases snapshot.leases).flatMap (leaseEntry o.keys)

def PlainSnapshot.Utf8 (snapshot : PlainSnapshot) : Prop :=
  (∀ k ∈ snapshot.kvData.keys, MetaStore.Utf8.Valid k) ∧
    ∀ l ∈ snapshot.leases.values, ∀ k ∈ l.keys.toList, MetaStore.Utf8.Valid k

instance instDecidableUtf8 (snapshot : PlainSnapshot) : Decidable snapshot.Utf8 :=
  inferInstanceAs (Decidable (_ ∧ _))

/-- `GetSnapshot`; JSON writes maps in the order of their keys. -/
def snapshotBytes (enableSnapshotProtobuf : Bool) (json : PlainSnapshot → Except Bytes Bytes)
    (o : Iteration) (snapshot : PlainSnapshot) : Except Bytes Bytes :=
  if enableSnapshotProtobuf then
    if snapshot.Utf8 then .ok (SnapshotFormat.mark ++ marshal o snapshot)
    else .error (ascii "protobuf marshal snapshot failed: string field contains invalid UTF-8")
  else json snapshot

def plain (s : MemoryEtcd) : PlainSnapshot := ⟨s.revision,s.kvData.getAll,s.leases⟩

/-- `Hash`. -/
def hash (enableSnapshotProtobuf : Bool) (json : PlainSnapshot → Except Bytes Bytes)
    (o : Iteration) (s : MemoryEtcd) : Except Bytes UInt32 :=
  (snapshotBytes enableSnapshotProtobuf json o (plain s)).map checksumIEEE

/-! ### One order only -/

structure PlainSnapshot.OneOrder (snapshot : PlainSnapshot) : Prop where
  records : snapshot.kvData.toList.length ≤ 1
  leases : snapshot.leases.toList.length ≤ 1
  keys : ∀ e ∈ snapshot.leases.toList, e.2.keys.toList.length ≤ 1

lemma perm_eq_of_length_le_one {α : Type*} {l l' r : List α} (hl : l.Perm r) (hl' : l'.Perm r)
    (h : r.length ≤ 1) : l = l' := by
  match r, h with
  | [],_ => rw [hl.eq_nil,hl'.eq_nil]
  | [a],_ => rw [hl.eq_singleton,hl'.eq_singleton]

def Iteration.ascending : Iteration where
  records := ExtTreeMap.toList
  leases := ExtTreeMap.toList
  keys := ExtTreeSet.toList
  records_perm _ := .rfl
  leases_perm _ := .rfl
  keys_perm _ := .rfl

def Iteration.descending (records leases keys : Bool) : Iteration where
  records m := if records then m.toList.reverse else m.toList
  leases m := if leases then m.toList.reverse else m.toList
  keys m := if keys then m.toList.reverse else m.toList
  records_perm m := by split_ifs; exacts [List.reverse_perm _,.rfl]
  leases_perm m := by split_ifs; exacts [List.reverse_perm _,.rfl]
  keys_perm m := by split_ifs; exacts [List.reverse_perm _,.rfl]

lemma marshal_eq_of_oneOrder {snapshot : PlainSnapshot} (h : snapshot.OneOrder) (o o' : Iteration) :
    marshal o snapshot = marshal o' snapshot := by
  have hrecords := perm_eq_of_length_le_one (o.records_perm _) (o'.records_perm _) h.records
  have hleases := perm_eq_of_length_le_one (o.leases_perm _) (o'.leases_perm _) h.leases
  have hentry : ∀ e ∈ o'.leases snapshot.leases, leaseEntry o.keys e = leaseEntry o'.keys e := by
    intro e he
    have hkeys := perm_eq_of_length_le_one (o.keys_perm e.2.keys) (o'.keys_perm e.2.keys)
      (h.keys e ((o'.leases_perm _).mem_iff.mp he))
    rw [leaseEntry,leaseEntry,leaseToProto,leaseToProto,hkeys]
  rw [marshal,marshal,hrecords,hleases,List.flatMap_congr hentry]

/-! ### More than one order -/

lemma nodup_toList {α β : Type*} [Ord α] [TransOrd α] (m : ExtTreeMap α β) : m.toList.Nodup :=
  ExtTreeMap.distinct_keys_toList.imp fun {a b} hne heq => hne (by rw [heq]; exact compare_self)

/-- A list of encodings that show where they end is not the same backwards. -/
lemma flatMap_reverse_ne {α : Type*} (enc : α → Bytes) {l : List α} (hlen : 1 < l.length)
    (hnodup : l.Nodup)
    (hinj : ∀ a ∈ l, ∀ b ∈ l, ∀ x y, enc a ++ x = enc b ++ y → a = b) (x y : Bytes) :
    l.flatMap enc ++ x ≠ l.reverse.flatMap enc ++ y := by
  obtain ⟨a,l,rfl⟩ := List.exists_cons_of_length_pos (Nat.zero_lt_of_lt hlen)
  obtain rfl | ⟨l,b,rfl⟩ := List.eq_nil_or_concat l
  · simp at hlen
  intro h
  simp only [List.concat_eq_append,List.flatMap_cons,List.reverse_cons,List.reverse_append,
    List.reverse_nil,List.nil_append,List.cons_append,List.append_assoc] at h
  obtain rfl := hinj a (by simp) b (by simp) _ _ h
  simp at hnodup

structure PlainSnapshot.Fits (snapshot : PlainSnapshot) : Prop where
  length : ∀ o, (marshal o snapshot).length < 2^63
  ids : ∀ e ∈ snapshot.leases.toList, -2^63 ≤ e.1 ∧ e.1 < 2^63

lemma length_le_flatMap {α : Type*} (enc : α → Bytes) {l : List α} {a : α} (h : a ∈ l) :
    (enc a).length ≤ (l.flatMap enc).length := by
  obtain ⟨s,t,rfl⟩ := List.append_of_mem h
  simp only [List.flatMap_append,List.flatMap_cons,List.length_append]
  omega

lemma length_lt_of_delimited {field : ℕ} {bs : Bytes} {n : ℕ}
    (h : (delimited field bs).length < n) : bs.length < n := by
  simp only [delimited,List.length_append] at h
  omega

variable {snapshot : PlainSnapshot}

lemma PlainSnapshot.Fits.record (h : snapshot.Fits) (o : Iteration) {e : Bytes × KeyValue}
    (he : e ∈ snapshot.kvData.toList) : (recordEntry e).length < 2^63 := by
  have hle := length_le_flatMap recordEntry ((o.records_perm _).mem_iff.mpr he)
  have := h.length o
  simp only [marshal,List.length_append] at this
  omega

lemma PlainSnapshot.Fits.lease (h : snapshot.Fits) (o : Iteration) {e : ℤ × Lease}
    (he : e ∈ snapshot.leases.toList) : (leaseEntry o.keys e).length < 2^63 := by
  have hle := length_le_flatMap (leaseEntry o.keys) ((o.leases_perm _).mem_iff.mpr he)
  have := h.length o
  simp only [marshal,List.length_append] at this
  omega

lemma recordEntry_inj (h : snapshot.Fits) {a b : Bytes × KeyValue}
    (ha : a ∈ snapshot.kvData.toList) (hb : b ∈ snapshot.kvData.toList) {x y : Bytes}
    (heq : recordEntry a ++ x = recordEntry b ++ y) : a = b := by
  have hla := length_lt_of_delimited (h.record .ascending ha)
  have hlb := length_lt_of_delimited (h.record .ascending hb)
  obtain ⟨hbody,-⟩ := delimited_append_inj hla hlb heq
  simp only [delimited,List.length_append] at hla hlb
  obtain ⟨hkey,-⟩ := delimited_append_inj (by omega) (by omega) hbody
  rw [ExtTreeMap.mem_toList_iff_getElem?_eq_some] at ha hb
  rw [hkey,hb] at ha
  exact Prod.ext hkey (Option.some.inj ha).symm

lemma leaseEntry_inj (h : snapshot.Fits) {a b : ℤ × Lease}
    (ha : a ∈ snapshot.leases.toList) (hb : b ∈ snapshot.leases.toList) {x y : Bytes}
    (heq : leaseEntry ExtTreeSet.toList a ++ x = leaseEntry ExtTreeSet.toList b ++ y) : a = b := by
  have hla := length_lt_of_delimited (h.lease .ascending ha)
  have hlb := length_lt_of_delimited (h.lease .ascending hb)
  obtain ⟨hbody,-⟩ := delimited_append_inj hla hlb heq
  simp only [presentInt,List.append_assoc,List.append_cancel_left_eq] at hbody
  obtain ⟨hid,-⟩ := varintUpTo_append_inj (by omega) (by omega) hbody
  have hia := h.ids a ha
  have hib := h.ids b hb
  have hid : a.1 = b.1 := by omega
  rw [ExtTreeMap.mem_toList_iff_getElem?_eq_some] at ha hb
  rw [hid,hb] at ha
  exact Prod.ext hid (Option.some.inj ha).symm

lemma keys_length_le_one (h : snapshot.Fits) {e : ℤ × Lease} (he : e ∈ snapshot.leases.toList)
    (heq : leaseEntry ExtTreeSet.toList e = leaseEntry (fun m => m.toList.reverse) e) :
    e.2.keys.toList.length ≤ 1 := by
  have hla := length_lt_of_delimited (h.lease .ascending he)
  have hlb := length_lt_of_delimited (h.lease (.descending false false true) he)
  have hbody := List.append_cancel_left
    (delimited_append_inj hla hlb (congrArg (· ++ ([] : Bytes)) heq)).1
  simp only [List.length_append] at hla hlb
  have hla := length_lt_of_delimited ((Nat.le_add_left _ _).trans_lt hla)
  have hlb := length_lt_of_delimited ((Nat.le_add_left _ _).trans_lt hlb)
  have hkeys := List.append_cancel_left
    (delimited_append_inj hla hlb (congrArg (· ++ ([] : Bytes)) hbody)).1
  have hshort : ∀ k ∈ e.2.keys.toList, k.length < 2^63 := fun k hk => by
    have hle := length_le_flatMap (delimited 4) hk
    simp only [leaseBytes,List.length_append] at hla
    exact length_lt_of_delimited (hle.trans_lt ((Nat.le_add_left _ _).trans_lt hla))
  by_contra hlen
  refine flatMap_reverse_ne (delimited 4) (Nat.lt_of_not_le hlen)
    (e.2.keys.distinct_toList.imp fun hne heq => hne (LawfulEqCmp.compare_eq_iff_eq.mpr heq))
    (fun a ha b hb x y hab => (delimited_append_inj (hshort a ha) (hshort b hb) hab).1) [] [] ?_
  rw [List.append_nil,List.append_nil]
  exact hkeys

/-- The bytes depend on the order as soon as a map has two entries. -/
lemma oneOrder_of_marshal (h : snapshot.Fits)
    (hsame : ∀ o o', marshal o snapshot = marshal o' snapshot) : snapshot.OneOrder := by
  have hrecords : snapshot.kvData.toList.length ≤ 1 := by
    by_contra hlen
    have heq := hsame .ascending (.descending true false false)
    simp only [marshal,List.append_assoc,List.append_cancel_left_eq] at heq
    exact flatMap_reverse_ne recordEntry (by omega) (nodup_toList _)
      (fun a ha b hb x y hab => recordEntry_inj h ha hb hab) _ _ heq
  have hleases : snapshot.leases.toList.length ≤ 1 := by
    by_contra hlen
    have heq := hsame .ascending (.descending false true false)
    refine flatMap_reverse_ne (leaseEntry ExtTreeSet.toList) (by omega) (nodup_toList _)
      (fun a ha b hb x y hab => leaseEntry_inj h ha hb hab) [] [] ?_
    rw [List.append_nil,List.append_nil]
    exact List.append_cancel_left heq
  refine ⟨hrecords,hleases,fun e he => ?_⟩
  by_contra hlen
  -- the one lease differs in the list of its keys
  have hone : snapshot.leases.toList = [e] := by
    obtain ⟨e',he'⟩ := List.length_eq_one_iff.mp
      (hleases.antisymm (List.length_pos_iff.mpr (List.ne_nil_of_mem he)))
    rw [he'] at he ⊢
    rw [List.mem_singleton.mp he]
  have heq : (snapshot.leases.toList).flatMap (leaseEntry ExtTreeSet.toList) =
      (snapshot.leases.toList).flatMap (leaseEntry fun m => m.toList.reverse) :=
    List.append_cancel_left (hsame .ascending (.descending false false true))
  rw [hone,List.flatMap_singleton,List.flatMap_singleton] at heq
  exact hlen (keys_length_le_one h he heq)

structure SameStored (s t : MemoryEtcd) : Prop where
  kvData : t.kvData = s.kvData
  leases : t.leases = s.leases
  revision : t.revision = s.revision

lemma SameStored.plain_eq {s t : MemoryEtcd} (h : SameStored s t) : plain t = plain s := by
  rw [plain,plain,h.kvData,h.leases,h.revision]

/-- What is hashed is the same for all orders exactly if no map has two entries, JSON is used or
the snapshot is refused, and then so is the hash. -/
theorem hash_of_states_iff (enableSnapshotProtobuf : Bool)
    (json : PlainSnapshot → Except Bytes Bytes) {s : MemoryEtcd} (hfits : (plain s).Fits) :
    ((∀ t, SameStored s t → ∀ o o', snapshotBytes enableSnapshotProtobuf json o (plain s) =
        snapshotBytes enableSnapshotProtobuf json o' (plain t)) ↔
      (enableSnapshotProtobuf = true → (plain s).Utf8 → (plain s).OneOrder)) ∧
    ((enableSnapshotProtobuf = true → (plain s).Utf8 → (plain s).OneOrder) →
      ∀ t, SameStored s t → ∀ o o',
        hash enableSnapshotProtobuf json o s = hash enableSnapshotProtobuf json o' t) := by
  have hone : (enableSnapshotProtobuf = true → (plain s).Utf8 → (plain s).OneOrder) →
      ∀ o o', snapshotBytes enableSnapshotProtobuf json o (plain s) =
        snapshotBytes enableSnapshotProtobuf json o' (plain s) := by
    intro h o o'
    unfold snapshotBytes
    split_ifs with henable hutf8
    · rw [marshal_eq_of_oneOrder (h henable hutf8) o o']
    · rfl
    · rfl
  refine ⟨⟨fun hall henable hutf8 => ?_,fun h t hst o o' => ?_⟩,fun h t hst o o' => ?_⟩
  · refine oneOrder_of_marshal hfits fun o o' => ?_
    have hsame := hall s ⟨rfl,rfl,rfl⟩ o o'
    rw [snapshotBytes,snapshotBytes,if_pos henable,if_pos henable,if_pos hutf8,if_pos hutf8] at hsame
    exact List.append_cancel_left (Except.ok.inj hsame)
  · rw [hst.plain_eq]
    exact hone h o o'
  · rw [hash,hash,hst.plain_eq,hone h o o']

@[simp] lemma getAll_empty : ShardedMap.empty.getAll = ∅ := by
  apply ExtTreeMap.ext_getElem?
  intro key
  rw [ShardedMap.getElem?_getAll,ShardedMap.get_empty,ExtTreeMap.getElem?_empty]

@[simp] lemma getAll_set (m : ShardedMap) (k : Bytes) (kv : KeyValue) :
    (m.set k kv).getAll = m.getAll.insert k kv := by
  apply ExtTreeMap.ext_getElem?
  intro key
  rw [ShardedMap.getElem?_getAll,ShardedMap.get_set,ExtTreeMap.getElem?_insert,
    ShardedMap.getElem?_getAll]
  simp only [LawfulEqCmp.compare_eq_iff_eq,@eq_comm _ key]

/-- One record has one order. -/
theorem hash_of_states_one :
    let s : MemoryEtcd := { MemoryEtcd.empty with
      kvData := ShardedMap.empty.set [97] ⟨[97],[1],1,1,1,0⟩ }
    ∀ o o', hash true (fun _ => .error []) o s = hash true (fun _ => .error []) o' s := by
  intro s
  have hplain : plain s = ⟨0,(∅ : ExtTreeMap Bytes KeyValue).insert [97] ⟨[97],[1],1,1,1,0⟩,∅⟩ := by
    rw [plain,getAll_set,getAll_empty]
    rfl
  have hone : (plain s).OneOrder := by
    rw [hplain]
    exact ⟨by decide,by decide,by decide⟩
  have hfits : (plain s).Fits := by
    refine ⟨fun o => ?_,?_⟩
    · rw [marshal_eq_of_oneOrder hone o .ascending,hplain]
      decide +kernel
    · rw [hplain]
      decide
  exact (hash_of_states_iff true _ hfits).2 (fun _ _ => hone) s ⟨rfl,rfl,rfl⟩

/-- Two records: visited in one order and in the other, the hashes of one and the same state
differ. -/
theorem hash_depends_on_order :
    let kvData := (ShardedMap.empty.set [97] ⟨[97],[1],1,1,1,0⟩).set [98] ⟨[98],[1],2,2,1,0⟩
    let s : MemoryEtcd := { MemoryEtcd.empty with kvData, revision := 2 }
    hash true (fun _ => .error []) .ascending s ≠
      hash true (fun _ => .error []) (.descending true false false) s := by
  intro kvData s
  have hplain : plain s = ⟨2,((∅ : ExtTreeMap Bytes KeyValue).insert [97] ⟨[97],[1],1,1,1,0⟩).insert
      [98] ⟨[98],[1],2,2,1,0⟩,∅⟩ := by
    rw [plain,getAll_set,getAll_set,getAll_empty]
    rfl
  rw [hash,hash,hplain]
  decide +kernel

end MetaStore.Memory
