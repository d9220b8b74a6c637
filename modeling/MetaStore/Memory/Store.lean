import MetaStore.Memory.ShardedMap

/-! The state of the memory engine and its operations (internal/memory/store.go and
store_direct.go). Watch subscriptions are left out: notifying them reads the state and
changes none of these fields. -/
namespace MetaStore.Memory
open Std

abbrev Clock := ℕ → ℤ

/-- `ticks` counts the clock readings taken so far. -/
structure MemoryEtcd where
  kvData : ShardedMap
  revision : ℤ
  leases : ExtTreeMap ℤ Lease
  ticks : ℕ

def updateKeys (leases : ExtTreeMap ℤ Lease) (leaseID : ℤ)
    (f : ExtTreeSet Bytes → ExtTreeSet Bytes) : ExtTreeMap ℤ Lease :=
  if leaseID ≠ 0 then
    match leases[leaseID]? with
    | some l => leases.insert leaseID { l with keys := f l.keys }
    | none => leases
  else leases

/-- `lease.Keys[key] = true`. -/
def attachKey (leases : ExtTreeMap ℤ Lease) (leaseID : ℤ) (key : Bytes) : ExtTreeMap ℤ Lease :=
  updateKeys leases leaseID (·.insert key)

/-- `delete(lease.Keys, key)`. -/
def detachKey (leases : ExtTreeMap ℤ Lease) (leaseID : ℤ) (key : Bytes) : ExtTreeMap ℤ Lease :=
  updateKeys leases leaseID (·.erase key)

theorem getElem?_updateKeys (leases : ExtTreeMap ℤ Lease) (leaseID id : ℤ)
    (f : ExtTreeSet Bytes → ExtTreeSet Bytes) :
    (updateKeys leases leaseID f)[id]? =
      if leaseID ≠ 0 ∧ id = leaseID then
        leases[id]?.map fun l : Lease => { l with keys := f l.keys }
      else leases[id]? := by
  unfold updateKeys
  by_cases h0 : leaseID = 0
  · simp [h0]
  by_cases hid : id = leaseID
  · subst hid
    cases hl : leases[id]? <;> simp [h0,hl]
  · cases hl : leases[leaseID]? with
    | none => simp [h0,hid]
    | some l => simp [h0,hid,ExtTreeMap.getElem?_insert,Ne.symm hid]

namespace MemoryEtcd

/-- `NewMemoryEtcd`. -/
def empty : MemoryEtcd := ⟨.empty,0,∅,0⟩

def putDirect (s : MemoryEtcd) (key value : Bytes) (leaseID : ℤ) :
    MemoryEtcd × ℤ × Option KeyValue :=
  let newRevision := s.revision+1
  let prevKv := s.kvData.get key
  ({ s with
      kvData := s.kvData.set key (putRecord prevKv newRevision key value leaseID)
      revision := newRevision
      leases := attachKey s.leases leaseID key },newRevision,prevKv)

def removeKey (s : MemoryEtcd) (key : Bytes) (kv : KeyValue) : MemoryEtcd :=
  { s with
    kvData := s.kvData.delete key
    revision := s.revision+1
    leases := detachKey s.leases kv.lease key }

def deleteDirect (s : MemoryEtcd) (key rangeEnd : Bytes) :
    MemoryEtcd × ℤ × List KeyValue × ℤ :=
  if rangeEnd = [] then
    match s.kvData.get key with
    | some kv => (s.removeKey key kv,1,[kv],s.revision+1)
    | none => (s,0,[],s.revision)
  else
    let keysToDelete := s.kvData.range key rangeEnd 0
    let t := keysToDelete.foldl (fun t kv => t.removeKey kv.key kv) s
    (t,keysToDelete.length,keysToDelete,t.revision)

def rangeUnlocked (s : MemoryEtcd) (key rangeEnd : Bytes) (limit : ℤ) : RangeResponse :=
  let kvs := if rangeEnd = [] then (s.kvData.get key).toList
    else s.kvData.range key rangeEnd limit
  if 0 < limit ∧ limit < kvs.length then
    ⟨kvs.take limit.toNat,true,kvs.length,s.revision⟩
  else ⟨kvs,false,kvs.length,s.revision⟩

/-- Unlike `putDirect`, refuses a lease that is missing or, by the local clock, expired. -/
def putUnlocked (clock : Clock) (s : MemoryEtcd) (key value : Bytes) (leaseID : ℤ) :
    MemoryEtcd × Except String (ℤ × Option KeyValue) :=
  if leaseID ≠ 0 then
    match s.leases[leaseID]? with
    | none => (s,.error "invalid lease")
    | some l =>
      -- `time.Since` reads the clock once
      let s' := { s with ticks := s.ticks+1 }
      if l.isExpired (clock s.ticks) then (s',.error "invalid lease")
      else
        let r := s'.putDirect key value leaseID
        (r.1,.ok r.2)
  else
    let r := s.putDirect key value leaseID
    (r.1,.ok r.2)

/-- The body of the deletion loop of `deleteUnlocked`, which draws no revision. -/
def eraseKey (s : MemoryEtcd) (key : Bytes) : MemoryEtcd :=
  { s with
    kvData := s.kvData.delete key
    leases := match s.kvData.get key with
      | some kv => detachKey s.leases kv.lease key
      | none => s.leases }

/-- Unlike `deleteDirect`, draws one revision for the whole range. -/
def deleteUnlocked (s : MemoryEtcd) (key rangeEnd : Bytes) :
    MemoryEtcd × ℤ × List KeyValue × ℤ :=
  let prevKvs := if rangeEnd = [] then (s.kvData.get key).toList
    else s.kvData.range key rangeEnd 0
  let keysToDelete := if rangeEnd = [] then prevKvs.map fun _ => key
    else prevKvs.map KeyValue.key
  if keysToDelete = [] then (s,0,[],s.revision)
  else
    let newRevision := s.revision+1
    (keysToDelete.foldl eraseKey { s with revision := newRevision },
      keysToDelete.length,prevKvs,newRevision)

/-- `DeleteRange` of the standalone engine: the steps of `deleteUnlocked`, then the watch events. -/
def deleteRange (s : MemoryEtcd) (key rangeEnd : Bytes) : MemoryEtcd × ℤ × List KeyValue × ℤ :=
  s.deleteUnlocked key rangeEnd

def txnOp (clock : Clock) (s : MemoryEtcd) (op : Op) : MemoryEtcd × Except String OpResponse :=
  match op.type with
  | .range =>
    (s,.ok { type := .range, rangeResp := some (s.rangeUnlocked op.key op.rangeEnd op.limit) })
  | .put =>
    let r := s.putUnlocked clock op.key op.value op.leaseID
    (r.1,r.2.map fun (revision,prevKv) => { type := .put, putResp := some ⟨prevKv,revision⟩ })
  | .delete =>
    let r := s.deleteUnlocked op.key op.rangeEnd
    (r.1,.ok { type := .delete, deleteResp := some ⟨r.2.1,r.2.2.1,r.2.2.2⟩ })
  | .txn => (s,.ok {})

def txnOps (clock : Clock) : MemoryEtcd → List Op → MemoryEtcd × Except String (List OpResponse)
  | s,[] => (s,.ok [])
  | s,op :: ops =>
    let r := txnOp clock s op
    match r.2 with
    | .error e => (r.1,.error e)
    | .ok response =>
      let rest := txnOps clock r.1 ops
      (rest.1,rest.2.map (response :: ·))

def compares (s : MemoryEtcd) (cmps : List Compare) : Bool :=
  cmps.all fun cmp => evaluateCompare (s.kvData.get cmp.key) cmp

def txnUnlocked (clock : Clock) (s : MemoryEtcd) (cmps : List Compare) (thenOps elseOps : List Op) :
    MemoryEtcd × Except String TxnResponse :=
  let succeeded := s.compares cmps
  let r := txnOps clock s (if succeeded then thenOps else elseOps)
  (r.1,r.2.map fun responses => ⟨succeeded,responses,r.1.revision⟩)

/-- `applyTxnWithShardLocks`: the transaction under the global lock. -/
def applyTxnWithShardLocks := txnUnlocked

/-- Grants and revokes. A revoke deletes the attached keys one by one, each with a revision
of its own; Go visits them in any order, see `foldl_deleteOne_congr`. -/
def applyLeaseOperationDirect (clock : Clock) (s : MemoryEtcd) (opType : RaftOpType)
    (leaseID ttl : ℤ) : MemoryEtcd :=
  match opType with
  | .leaseGrant =>
    { s with
      leases := s.leases.insert leaseID ⟨leaseID,ttl,clock s.ticks,∅⟩
      ticks := s.ticks+1 }
  | .leaseRevoke =>
    match s.leases[leaseID]? with
    | none => s
    | some lease =>
      lease.keys.toList.foldl (fun t key => (t.deleteDirect key []).1)
        { s with leases := s.leases.erase leaseID }
  | _ => s

/-- `LeaseRenew`, called outside the replicated log. -/
def leaseRenew (clock : Clock) (s : MemoryEtcd) (id : ℤ) : MemoryEtcd × Except String Lease :=
  match s.leases[id]? with
  | none => (s,.error s!"lease not found: {id}")
  | some l =>
    let l' := { l with grantTime := clock s.ticks }
    ({ s with leases := s.leases.insert id l', ticks := s.ticks+1 },.ok l')

end MemoryEtcd
end MetaStore.Memory
