import MetaStore.Library.Commuting
import MetaStore.Memory.BatchRefinement
import MetaStore.Memory.ReadCommits
import MetaStore.Memory.TimeRuns

/-! The order of the entries of a commit in the memory engine. `readCommits` applies the
old-format entries while it collects the operations, so each of them overtakes the operations
before it in the log. -/
namespace MetaStore.Memory
open Std Commuting
variable {s : MemoryEtcd} {data : List Datum} {key : Bytes}

lemma apply_eq (clock : Clock) (s : MemoryEtcd) (op : RaftOperation) :
    s.apply clock op = match op.type with
      | .put => s.applyPut op
      | .delete => s.applyDelete op
      | .leaseGrant => s.applyLeaseOperationDirect clock .leaseGrant op.leaseID op.ttl
      | .leaseRevoke => s.applyLeaseOperationDirect clock .leaseRevoke op.leaseID 0
      | .txn => (s.txnUnlocked clock op.compares op.thenOps op.elseOps).1
      | .other _ => s := by
  unfold MemoryEtcd.apply applyEffect
  cases htype : op.type <;> simp only [applyLease,htype]
  rfl

def applyDatum (clock : Clock) (s : MemoryEtcd) : Datum → MemoryEtcd
  | .operation op => s.apply clock op
  | .legacy key val => s.applyLegacyOp key val

def legacyKeys (data : List Datum) : List Bytes := (data.filterMap Datum.legacy?).map Prod.fst

/-- Old-format entries for the keys may be moved in front of the operation: it draws no
revision and none of the records it reads or deletes is live or written by them. -/
def Passable (s : MemoryEtcd) (op : RaftOperation) (keys : List Bytes) : Prop :=
  match op.type with
  | .put => False
  | .delete => ∀ k, Selects op.key op.rangeEnd k → s.kvData.get k = none ∧ k ∉ keys
  | .leaseGrant => True
  | .leaseRevoke => ∀ l, s.leases[op.leaseID]? = some l → ∀ k ∈ l.keys,
      s.kvData.get k = none ∧ k ∉ keys
  | .txn => ∀ o ∈ op.thenOps ++ op.elseOps, o.type = .range ∨ o.type = .txn
  | .other _ => True

def InOrder (clock : Clock) : MemoryEtcd → List Datum → Prop
  | _,[] => True
  | s,datum :: data =>
    (∀ op, datum = .operation op → legacyKeys data ≠ [] → Passable s op (legacyKeys data)) ∧
      InOrder clock (applyDatum clock s datum) data

lemma applyLegacyOp_eq (s : MemoryEtcd) (key val : Bytes) :
    s.applyLegacyOp key val =
      { s with kvData := s.kvData.set key (putRecord (s.kvData.get key) (s.revision+1) key val 0)
               revision := s.revision+1 } := by
  simp [MemoryEtcd.applyLegacyOp,MemoryEtcd.putDirect,attachKey,updateKeys]

lemma deleteDirect_of_none {rangeEnd : Bytes}
    (h : ∀ k, Selects key rangeEnd k → s.kvData.get k = none) :
    (s.deleteDirect key rangeEnd).1 = s := by
  unfold Selects at h
  unfold MemoryEtcd.deleteDirect
  split_ifs with hend
  · rw [h key (by rw [if_pos hend])]
  · have hempty : s.kvData.range key rangeEnd 0 = [] := by
      rw [List.eq_nil_iff_forall_not_mem]
      intro kv hkv
      obtain ⟨k,hk,hin⟩ := (ShardedMap.mem_range ..).mp hkv
      cases hk.symm.trans (h k (by rwa [if_neg hend]))
    simp [hempty]

lemma txnOps_of_readOnly (clock : Clock) {ops : List Op}
    (h : ∀ o ∈ ops, o.type = .range ∨ o.type = .txn) : (s.txnOps clock ops).1 = s := by
  induction ops with
  | nil => rfl
  | cons op ops ih =>
    have hop : (s.txnOp clock op).1 = s ∧ ∃ r, (s.txnOp clock op).2 = .ok r := by
      unfold MemoryEtcd.txnOp
      obtain htype|htype := h op List.mem_cons_self <;> rw [htype]
      · exact ⟨rfl,_,rfl⟩
      · exact ⟨rfl,_,rfl⟩
    obtain ⟨hsame,r,hr⟩ := hop
    rw [MemoryEtcd.txnOps,hr,hsame]
    exact ih fun o ho => h o (List.mem_cons_of_mem op ho)

lemma revoke_of_none (clock : Clock) {leaseID : ℤ}
    (h : ∀ l, s.leases[leaseID]? = some l → ∀ k ∈ l.keys, s.kvData.get k = none) :
    s.applyLeaseOperationDirect clock .leaseRevoke leaseID 0 =
      { s with leases := s.leases.erase leaseID } := by
  unfold MemoryEtcd.applyLeaseOperationDirect
  cases hl : s.leases[leaseID]? with
  | none =>
    have hleases : s.leases.erase leaseID = s.leases := by
      apply ExtTreeMap.ext_getElem?
      intro id
      rw [ExtTreeMap.getElem?_erase]
      split_ifs with hid
      · rw [← LawfulEqCmp.eq_of_compare hid,hl]
      · rfl
    simp [hleases]
  | some l =>
    refine (MemoryEtcd.foldl_deleteOne_congr (m := []) fun k hk => ?_).trans rfl
    exact ⟨fun hmem => absurd (h l hl k (ExtTreeSet.mem_toList.mp hmem)) hk,
      fun hmem => absurd hmem List.not_mem_nil⟩

lemma apply_applyLegacyOp (clock : Clock) {op : RaftOperation} {keys : List Bytes}
    (h : Passable s op keys) (hkey : key ∈ keys) (val : Bytes) :
    Passable (s.applyLegacyOp key val) op keys ∧
      (s.apply clock op).applyLegacyOp key val = (s.applyLegacyOp key val).apply clock op := by
  have hget : ∀ k, s.kvData.get k = none ∧ k ∉ keys →
      (s.applyLegacyOp key val).kvData.get k = none ∧ k ∉ keys := by
    rintro k ⟨hk,hmem⟩
    refine ⟨?_,hmem⟩
    have hne : k ≠ key := fun he => hmem (he ▸ hkey)
    rw [applyLegacyOp_eq,ShardedMap.get_set,if_neg hne]
    exact hk
  have hleases : (s.applyLegacyOp key val).leases = s.leases := by rw [applyLegacyOp_eq]
  unfold Passable at h ⊢
  rw [apply_eq,apply_eq]
  cases htype : op.type with
  | put =>
    rw [htype] at h
    exact h.elim
  | delete =>
    rw [htype] at h
    refine ⟨fun k hk => hget k (h k hk),?_⟩
    simp only [MemoryEtcd.applyDelete]
    rw [deleteDirect_of_none fun k hk => (h k hk).1,
      deleteDirect_of_none fun k hk => (hget k (h k hk)).1]
  | leaseGrant =>
    refine ⟨trivial,?_⟩
    simp only [MemoryEtcd.applyLeaseOperationDirect,applyLegacyOp_eq]
  | leaseRevoke =>
    rw [htype] at h
    have hafter : ∀ l, (s.applyLegacyOp key val).leases[op.leaseID]? = some l → ∀ k ∈ l.keys,
        (s.applyLegacyOp key val).kvData.get k = none ∧ k ∉ keys := by
      intro l hl k hk
      rw [hleases] at hl
      exact hget k (h l hl k hk)
    refine ⟨hafter,?_⟩
    dsimp only
    rw [revoke_of_none clock fun l hl k hk => (h l hl k hk).1,
      revoke_of_none clock fun l hl k hk => (hafter l hl k hk).1]
    simp only [applyLegacyOp_eq]
  | txn =>
    rw [htype] at h
    have hbranch : ∀ b : Bool, ∀ o ∈ (if b then op.thenOps else op.elseOps),
        o.type = .range ∨ o.type = .txn := by
      intro b o ho
      cases b with
      | true => exact h o (List.mem_append_left _ ho)
      | false => exact h o (List.mem_append_right _ ho)
    refine ⟨h,?_⟩
    simp only [MemoryEtcd.txnUnlocked]
    rw [txnOps_of_readOnly clock (hbranch _),txnOps_of_readOnly clock (hbranch _)]
  | other t => exact ⟨trivial,rfl⟩

def Datum.isLegacy : Datum → Bool
  | operation _ => false
  | legacy _ _ => true

lemma mem_legacyKeys {val : Bytes} (h : Datum.legacy key val ∈ data) :
    key ∈ legacyKeys data :=
  List.mem_map.mpr ⟨(key,val),List.mem_filterMap.mpr ⟨_,h,rfl⟩,rfl⟩

lemma overtaken_of_inOrder {clock : Clock}
    (h : InOrder clock s data) : Overtaken (applyDatum clock) Datum.isLegacy s data := by
  induction data generalizing s with
  | nil => trivial
  | cons datum data ih =>
    refine ⟨fun hfirst => ?_,ih h.2⟩
    cases datum with
    | legacy key val => cases hfirst
    | operation op =>
      by_cases hnone : legacyKeys data = []
      · -- no old-format entry is left
        have hfilter : data.filter Datum.isLegacy = [] := by
          rw [List.filter_eq_nil_iff]
          intro d hd
          cases d with
          | operation op => exact Bool.false_ne_true
          | legacy key val => exact absurd (mem_legacyKeys hd) (by simp [hnone])
        rw [hfilter]
        rfl
      · refine foldl_comm (P := fun s => Passable s op (legacyKeys data)) ?_ (h.1 op rfl hnone)
        intro s hs d hd
        obtain ⟨hmem,hlegacy⟩ := List.mem_filter.mp hd
        cases d with
        | operation op => cases hlegacy
        | legacy key val => exact apply_applyLegacyOp clock hs (mem_legacyKeys hmem) val

lemma foldl_legacy (clock : Clock) (data : List Datum) (s : MemoryEtcd) :
    (data.filter Datum.isLegacy).foldl (applyDatum clock) s =
      (data.filterMap Datum.legacy?).foldl (fun s kv => s.applyLegacyOp kv.1 kv.2) s := by
  induction data generalizing s with
  | nil => rfl
  | cons datum data ih => cases datum <;> exact ih _

lemma foldl_operation (clock : Clock) (data : List Datum) (s : MemoryEtcd) :
    (data.filter fun d => !d.isLegacy).foldl (applyDatum clock) s =
      (data.filterMap Datum.operation?).foldl (MemoryEtcd.apply clock) s := by
  induction data generalizing s with
  | nil => rfl
  | cons datum data ih => cases datum <;> exact ih _

lemma keyed_foldl_legacy (l : List (Bytes × Bytes)) (h : Keyed s.kvData) :
    Keyed (l.foldl (fun s kv => s.applyLegacyOp kv.1 kv.2) s).kvData := by
  induction l generalizing s with
  | nil => exact h
  | cons kv l ih =>
    refine ih ?_
    change Keyed (s.applyLegacyOp kv.1 kv.2).kvData
    rw [applyLegacyOp_eq]
    exact h.set rfl

/-- A commit in which old-format entries only pass operations that let them, and neighbouring
PUTs go to one shard, has one outcome: its entries applied one at a time. -/
theorem readCommit_inOrder {clock : Clock} {m : Memory}
    (hkeyed : Keyed m.etcd.kvData) (horder : InOrder clock m.etcd data)
    (hputs : (data.filterMap Datum.operation?).IsChain PutsTogether) :
    (∃ m', ReadCommit clock data m m') ∧
      ∀ m', ReadCommit clock data m m' → m'.etcd = data.foldl (applyDatum clock) m.etcd := by
  let etcd := (data.filterMap Datum.legacy?).foldl (fun s kv => s.applyLegacyOp kv.1 kv.2) m.etcd
  have hiff : ∀ m', ApplyBatch clock (data.filterMap Datum.operation?) ⟨etcd,m.waiters⟩ m' ↔ _ :=
    fun m' => applyBatch_eq_foldl hputs (keyed_foldl_legacy _ hkeyed)
  refine ⟨⟨_,(hiff _).mpr rfl⟩,fun m' hm' => ?_⟩
  rw [(hiff m').mp hm',etcd_foldl_applyOperation,foldl_eq_phases (overtaken_of_inOrder horder),
    foldl_legacy,foldl_operation]

end MetaStore.Memory
