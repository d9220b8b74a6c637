import MetaStore.Memory.Batch
import MetaStore.Memory.Deletes

/-! A rule for invariants of the memory engine. A property that the single changes of the state keep
is kept by every operation, and, if it is kept by PUTs that run in parallel, by every batch. -/
namespace MetaStore.Memory
open Std Interleaving

/-- What is kept when a clock is read, a revision drawn, a key deleted or detached from a lease, a put
of an admitted key stored and attached, and a lease granted or erased. -/
structure Stable (clock : Clock) (Q : Bytes → Prop) (P : MemoryEtcd → Prop) : Prop where
  tick : ∀ {s}, P s → P { s with ticks := s.ticks+1 }
  draw : ∀ {s}, P s → P { s with revision := s.revision+1 }
  delete : ∀ {s} (key : Bytes), P s → P { s with kvData := s.kvData.delete key }
  detach : ∀ {s} (leaseID : ℤ) (key : Bytes), P s →
    P { s with leases := detachKey s.leases leaseID key }
  put : ∀ {s} {key : Bytes} (value : Bytes) (leaseID : ℤ), Q key → P s →
    P (s.putDirect key value leaseID).1
  grant : ∀ {s} (leaseID ttl : ℤ), P s →
    P (s.applyLeaseOperationDirect clock .leaseGrant leaseID ttl)
  eraseLease : ∀ {s} (leaseID : ℤ), P s → P { s with leases := s.leases.erase leaseID }

structure Admits (Q : Bytes → Prop) (op : RaftOperation) : Prop where
  key : Q op.key
  ops : ∀ o ∈ op.thenOps ++ op.elseOps, Q o.key

lemma Admits.of_forall {Q : Bytes → Prop} (h : ∀ k, Q k) (op : RaftOperation) : Admits Q op :=
  ⟨h _,fun o _ => h o.key⟩

namespace Stable
variable {clock : Clock} {Q : Bytes → Prop} {P : MemoryEtcd → Prop} (hP : Stable clock Q P)
  {s : MemoryEtcd} (hs : P s)
include hP hs

theorem removeKey (key : Bytes) (kv : KeyValue) : P (s.removeKey key kv) :=
  hP.draw (hP.detach kv.lease key (hP.delete key hs))

theorem deleteDirect (key rangeEnd : Bytes) : P (s.deleteDirect key rangeEnd).1 := by
  unfold MemoryEtcd.deleteDirect
  split_ifs
  · split
    · exact hP.removeKey hs key _
    · exact hs
  · exact List.foldlRecOn (motive := P) _ _ hs fun t ht kv _ => hP.removeKey ht kv.key kv

theorem deleteUnlocked (key rangeEnd : Bytes) : P (s.deleteUnlocked key rangeEnd).1 := by
  rw [MemoryEtcd.deleteUnlocked_fst]
  split_ifs
  · exact hs
  · refine List.foldlRecOn (motive := P) _ _ (hP.draw hs) fun t ht key _ => ?_
    unfold MemoryEtcd.eraseKey
    split
    · exact hP.detach _ key (hP.delete key ht)
    · exact hP.delete key ht

theorem putUnlocked {key : Bytes} (hkey : Q key) (value : Bytes) (leaseID : ℤ) :
    P (s.putUnlocked clock key value leaseID).1 := by
  unfold MemoryEtcd.putUnlocked
  split_ifs
  · split
    · exact hs
    · split_ifs
      · exact hP.tick hs
      · exact hP.put value leaseID hkey (hP.tick hs)
  · exact hP.put value leaseID hkey hs

theorem txnOp {op : Op} (hop : Q op.key) : P (s.txnOp clock op).1 := by
  unfold MemoryEtcd.txnOp
  split
  · exact hs
  · exact hP.putUnlocked hs hop _ _
  · exact hP.deleteUnlocked hs _ _
  · exact hs

theorem txnOps {ops : List Op} (hops : ∀ op ∈ ops, Q op.key) : P (s.txnOps clock ops).1 := by
  induction ops generalizing s with
  | nil => exact hs
  | cons op ops ih =>
    have hop := hP.txnOp hs (hops op List.mem_cons_self)
    rw [MemoryEtcd.txnOps]
    split
    · exact hop
    · exact ih hop fun o ho => hops o (List.mem_cons_of_mem op ho)

theorem txnUnlocked {op : RaftOperation} (hop : Admits Q op) :
    P (s.txnUnlocked clock op.compares op.thenOps op.elseOps).1 := by
  refine hP.txnOps hs fun o ho => hop.ops o ?_
  rw [List.mem_append]
  split_ifs at ho
  · exact .inl ho
  · exact .inr ho

theorem applyLease (opType : RaftOpType) (leaseID ttl : ℤ) :
    P (s.applyLeaseOperationDirect clock opType leaseID ttl) := by
  cases opType with
  | leaseGrant => exact hP.grant leaseID ttl hs
  | leaseRevoke =>
    rw [MemoryEtcd.applyLeaseOperationDirect]
    cases s.leases[leaseID]? with
    | none => exact hs
    | some lease =>
      exact List.foldlRecOn (motive := P) _ _ (hP.eraseLease leaseID hs) fun t ht key _ =>
        hP.deleteDirect ht key []
  | _ => exact hs

theorem batchApplyDelete {ops : List RaftOperation} {t : MemoryEtcd}
    (h : BatchApplyDelete ops s t) : P t := by
  obtain ⟨s',hsingle,rfl⟩ := h
  refine List.foldlRecOn (motive := P) _ _ ?_ fun t ht op _ => hP.deleteDirect ht _ _
  split_ifs at hsingle
  · exact hsingle ▸ hs
  · refine hsingle.invariant (P := P) (fun a s hs => ?_) hs
    cases a with
    | check key =>
      rw [DeleteStep.exec]
      split <;> exact hs
    | count key kv => exact hP.draw hs
    | erase key kv => exact hP.delete key hs
    | unlink key kv => exact hP.detach kv.lease key hs

omit hs in
theorem applyEffect {m : Memory} (hm : P m.etcd) {op : RaftOperation} (hop : Admits Q op) :
    P (m.applyEffect clock op).etcd := by
  unfold Memory.applyEffect
  split
  · exact hP.put _ _ hop.key hm
  · exact hP.deleteDirect hm _ _
  · exact hP.applyLease hm _ _ _
  · exact hP.applyLease hm _ _ _
  · exact hP.txnUnlocked hm hop
  · exact hm

end Stable

theorem etcd_foldl_notify (ops : List RaftOperation) (m : Memory) :
    (ops.foldl notify m).etcd = m.etcd :=
  List.foldlRecOn (motive := fun m' : Memory => m'.etcd = m.etcd) ops _ rfl fun _ h _ _ => h

structure Kept (clock : Clock) (Q : Bytes → Prop) (P : MemoryEtcd → Prop) : Prop
    extends Stable clock Q P where
  batchApplyPut : ∀ {ops : List RaftOperation} {s t : MemoryEtcd}, (∀ op ∈ ops, Q op.key) → P s →
    BatchApplyPut ops s t → P t

namespace Kept
variable {clock : Clock} {Q : Bytes → Prop} {P : MemoryEtcd → Prop} (hP : Kept clock Q P)
  {m m' : Memory} (hm : P m.etcd)
variable {batch ops : List RaftOperation} {currentType : RaftOpType}
include hP hm

theorem flushBatch
    (hops : ∀ op ∈ batch, Admits Q op) (h : FlushBatch clock currentType batch m m') :
    P m'.etcd := by
  have hfold : ∀ f : Memory → RaftOperation → Memory,
      (∀ op ∈ batch, ∀ m, P m.etcd → P (f m op).etcd) → P (batch.foldl f m).etcd := fun f hf =>
    List.foldlRecOn (motive := fun m : Memory => P m.etcd) _ _ hm fun m hm op hop => hf op hop m hm
  unfold FlushBatch at h
  split_ifs at h
  · rwa [h]
  cases currentType with
  | put => exact hP.batchApplyPut (fun op hop => (hops op hop).key) hm h.1
  | delete => exact hP.batchApplyDelete hm h.1
  | txn =>
    rw [h]
    exact hfold _ fun op hop m hm => hP.txnUnlocked hm (hops op hop)
  | leaseGrant =>
    rw [h]
    exact hfold _ fun op _ m hm => hP.applyLease hm _ _ _
  | leaseRevoke =>
    rw [h]
    exact hfold _ fun op _ m hm => hP.applyLease hm _ _ _
  | other name => rwa [h]

theorem batchLoop
    (hops : ∀ op ∈ batch ++ ops, Admits Q op) (h : BatchLoop clock currentType batch ops m m') :
    P m'.etcd := by
  induction ops generalizing currentType batch m with
  | nil => exact hP.flushBatch hm (by simpa using hops) h
  | cons op ops ih =>
    rw [BatchLoop] at h
    split_ifs at h
    · obtain ⟨m₁,hflush,hloop⟩ := h
      have hbatch := hP.flushBatch hm (fun o ho => hops o (List.mem_append_left _ ho)) hflush
      exact ih hbatch (fun o ho => hops o (List.mem_append_right batch ho)) hloop
    · exact ih hm (by simpa using hops) h

theorem applyBatch (hops : ∀ op ∈ ops, Admits Q op)
    (h : ApplyBatch clock ops m m') : P m'.etcd := by
  unfold ApplyBatch at h
  split at h
  · rwa [h]
  · rw [h]
    exact hP.applyEffect hm (hops _ List.mem_cons_self)
  · obtain ⟨m₁,hloop,rfl⟩ := h
    rw [etcd_foldl_notify]
    exact hP.batchLoop hm hops hloop

end Kept

/-- What every clock keeps, and does not depend on leases, holds in every reachable state. -/
theorem Reachable.holds {P : ShardedMap → ℤ → Prop}
    (hP : ∀ clock, Kept clock (fun _ => True) fun s => P s.kvData s.revision) (hempty : P .empty 0)
    {s : MemoryEtcd} (h : Reachable s) : P s.kvData s.revision := by
  induction h with
  | new => exact hempty
  | @batch _ _ w w' clock ops _ hbatch ih =>
    exact (hP clock).applyBatch (m := ⟨_,w⟩) ih (fun op _ => .of_forall (fun _ => trivial) op) hbatch
  | legacy key val _ ih => exact (hP fun _ => 0).put val 0 trivial ih
  | renew clock id _ ih =>
    unfold MemoryEtcd.leaseRenew
    split <;> exact ih
  | restore _ _ _ ih => exact ih

theorem Keyed.empty : Keyed ShardedMap.empty := by simp [Keyed]

theorem Keyed.set {m : ShardedMap} (hm : Keyed m) {key : Bytes} {kv : KeyValue} (h : kv.key = key) :
    Keyed (m.set key kv) := by
  intro k kv' hkv
  rw [ShardedMap.get_set] at hkv
  split_ifs at hkv with hk
  · rw [← Option.some.inj hkv,h,hk]
  · exact hm k kv' hkv

theorem Keyed.delete {m : ShardedMap} (hm : Keyed m) (key : Bytes) : Keyed (m.delete key) := by
  intro k kv hkv
  rw [ShardedMap.get_delete] at hkv
  split_ifs at hkv
  exact hm k kv hkv

theorem Keyed.kept (clock : Clock) : Kept clock (fun _ => True) fun s => Keyed s.kvData where
  tick h := h
  draw h := h
  delete key h := h.delete key
  detach _ _ h := h
  put _ _ _ h := h.set rfl
  grant _ _ h := h
  eraseLease _ h := h
  batchApplyPut _ hs h := by
    refine h.invariant (P := fun s => Keyed s.kvData) (fun a s hs => ?_) hs
    cases a with
    | draw op => exact hs
    | store op newRevision => exact hs.set rfl
    | link op => exact hs

theorem Reachable.keyed {s : MemoryEtcd} (h : Reachable s) : Keyed s.kvData :=
  h.holds (P := fun m _ => Keyed m) Keyed.kept Keyed.empty

theorem keyed_applyEffect {m : Memory} (hm : Keyed m.etcd.kvData) (clock : Clock)
    (op : RaftOperation) : Keyed (m.applyEffect clock op).etcd.kvData :=
  (Keyed.kept clock).applyEffect hm (.of_forall (fun _ => trivial) op)

theorem keyed_foldl_applyEffect {m : Memory} (hm : Keyed m.etcd.kvData) (clock : Clock)
    (ops : List RaftOperation) : Keyed (ops.foldl (Memory.applyEffect clock) m).etcd.kvData :=
  List.foldlRecOn (motive := fun m : Memory => Keyed m.etcd.kvData) ops _ hm fun _ hm op _ =>
    keyed_applyEffect hm clock op

end MetaStore.Memory
