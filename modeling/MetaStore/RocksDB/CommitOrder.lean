import MetaStore.Library.Commuting
import MetaStore.RocksDB.BatchAgreement
import MetaStore.RocksDB.Restart

/-! The order of the entries of a commit in the RocksDB engine. Old-format entries are written
while the operations are collected, so each of them overtakes the operations before it in the
log; the operations of all entries share one batch and read the database below it. -/
namespace MetaStore.RocksDB
open Std WriteBatch Commuting

/-! ### The loop over operations, on the records alone -/

section Loop
variable (env : Env) (r : Records) (op : RaftOperation)

def below : Records := (prepareRecords env r [] op).1

def added : Batch := (prepareRecords env r [] op).2

lemma prepareRecords_eq (batch : Batch) :
    prepareRecords env r batch op = (below env r op,batch ++ added env r op) := by
  unfold below added prepareRecords
  cases op.type with
  | put =>
    simp only [preparePutBatch]
    split <;> simp
  | delete =>
    simp only [prepareDeleteBatch]
    split_ifs <;> simp
  | leaseGrant => simp [prepareLeaseGrantBatch]
  | leaseRevoke =>
    simp only [prepareLeaseRevokeBatch]
    split <;> simp
  | txn => simp
  | other name => simp

def prepareAll : Records × Batch → List RaftOperation → Records × Batch :=
  List.foldl fun p op => (below env p.1 op,p.2 ++ added env p.1 op)

end Loop

variable {env : Env}

lemma prepareOperations_eq (env : Env) (ops : List RaftOperation) (e : Engine) (batch : Batch) :
    (prepareOperations env (e,batch) ops).1.records = (prepareAll env (e.records,batch) ops).1 ∧
      (prepareOperations env (e,batch) ops).2 = (prepareAll env (e.records,batch) ops).2 := by
  induction ops generalizing e batch with
  | nil => exact ⟨rfl,rfl⟩
  | cons op ops ih =>
    rw [prepareOperations,prepareRecords_eq]
    exact ih _ _

def applyEntry (env : Env) (r : Records) (ops : List RaftOperation) : Records :=
  merged (prepareAll env (r,[]) ops).1 (prepareAll env (r,[]) ops).2

lemma applyOperationsBatch_records (e : Engine) (ops : List RaftOperation) :
    (applyOperationsBatch env true e ops).records = applyEntry env e.records ops := by
  obtain ⟨hrecords,hbatch⟩ := prepareOperations_eq env ops e []
  simp only [applyOperationsBatch,if_true,hrecords,hbatch,applyEntry,merged]

def applyDatum (env : Env) (r : Records) : Datum → Records
  | .operations ops => applyEntry env r ops
  | .legacy key val => (putUnlocked env r key val 0).1

def Datum.isLegacy : Datum → Bool
  | operations _ => false
  | legacy _ _ => true

def Datum.entry : Datum → List RaftOperation
  | operations ops => ops
  | legacy _ _ => []

lemma collect_eq (data : List Datum) (r : Records) :
    collect env r data =
      ((data.filter Datum.isLegacy).foldl (applyDatum env) r,data.flatMap Datum.entry) := by
  induction data generalizing r with
  | nil => rfl
  | cons datum data ih =>
    cases datum with
    | operations ops => simp [collect,ih,Datum.isLegacy,Datum.entry]
    | legacy key val =>
      rw [collect,ih]
      rfl

/-! ### Entries that share a batch -/

/-- What an operation reads, or a transaction writes, is not among the records that earlier
entries left in the batch `outer`; `inner` is what the entry itself has added so far. -/
def ClearAbove (r : Records) (outer inner : Batch) (op : RaftOperation) : Prop :=
  match op.type with
  | .put => Settled r outer (kvKey op.key) ∧ (op.leaseID ≠ 0 → Settled r outer (leaseKey op.leaseID))
  | .delete => op.rangeEnd ≠ [] → ∀ k, op.key ≤ k → k < op.rangeEnd →
      (kvKey k ∈ (merged r outer).db → kvKey k ∈ r.db) ∧
      (kvKey k ∈ r.db → kvKey k ∈ (merged r outer).db ∨
        ∀ v, pending inner (kvKey k) ≠ some (some v))
  | .leaseGrant => True
  | .leaseRevoke => Settled r outer (leaseKey op.leaseID)
  | .txn => (∀ cmp ∈ op.compares, Settled r outer (kvKey cmp.key)) ∧
      ∀ o ∈ branch r.db op.compares op.thenOps op.elseOps, ClearOp outer o
  | .other _ => True

def ClearEntry (env : Env) (outer : Batch) : Records → Batch → List RaftOperation → Prop
  | _,_,[] => True
  | r,inner,op :: ops => ClearAbove r outer inner op ∧
      ClearEntry env outer (below env r op) (inner ++ added env (merged r outer) op) ops

def ClearEntries (env : Env) : Records × Batch → List (List RaftOperation) → Prop
  | _,[] => True
  | p,ops :: entries => ClearEntry env p.2 p.1 [] ops ∧
      ClearEntries env (prepareAll env p ops) entries

lemma pending_scanBelow (db : Database) (key rangeEnd x : Bytes) :
    pending (((scanBelow db key rangeEnd).map fun k => k.drop kvPrefix.length).map fun k =>
      (.delete (kvKey k) : BatchOp Bytes Value)) x =
      if x ∈ scanBelow db key rangeEnd then some none else none := by
  have hdeletes : ∀ l : List Bytes, (l.map fun k => BatchOp.delete (kvKey k) : Batch) =
      (l.map kvKey).map .delete := fun l => by rw [List.map_map]; rfl
  rw [hdeletes,pending_map_delete]
  simp only [mem_scanBelow_keys]

lemma pending_deletes_above {r : Records} {outer inner : Batch} {key rangeEnd : Bytes}
    (h : ∀ k, key ≤ k → k < rangeEnd → (kvKey k ∈ (merged r outer).db → kvKey k ∈ r.db) ∧
      (kvKey k ∈ r.db → kvKey k ∈ (merged r outer).db ∨
        ∀ v, pending inner (kvKey k) ≠ some (some v))) (x : Bytes) :
    (if x ∈ scanBelow (merged r outer).db key rangeEnd then some none else none).or
        ((pending inner x).or (pending outer x)) =
      (if x ∈ scanBelow r.db key rangeEnd then some none else none).or
        ((pending inner x).or (pending outer x)) := by
  by_cases habove : x ∈ scanBelow (merged r outer).db key rangeEnd
  · obtain ⟨hmem,k,rfl,hlow,hhigh⟩ := mem_scanBelow.mp habove
    have hbelow := mem_scanBelow.mpr ⟨(h k hlow hhigh).1 hmem,k,rfl,hlow,hhigh⟩
    rw [if_pos habove,if_pos hbelow]
  · rw [if_neg habove]
    by_cases hbelow : x ∈ scanBelow r.db key rangeEnd
    · -- the key is gone in the batch already
      obtain ⟨hmem,k,rfl,hlow,hhigh⟩ := mem_scanBelow.mp hbelow
      have hgone : kvKey k ∉ (merged r outer).db := fun hk =>
        habove (mem_scanBelow.mpr ⟨hk,k,rfl,hlow,hhigh⟩)
      have hinner := ((h k hlow hhigh).2 hmem).resolve_left hgone
      have hdeleted : pending outer (kvKey k) = some none := by
        have hnone : (merged r outer).db[kvKey k]? = none := by simpa using hgone
        rw [merged,getElem?_write] at hnone
        cases hp : pending outer (kvKey k) with
        | some v =>
          rw [hp] at hnone
          exact congrArg some hnone
        | none =>
          rw [hp] at hnone
          rw [ExtTreeMap.mem_iff_isSome_getElem?,show r.db[kvKey k]? = none from hnone] at hmem
          cases hmem
      rw [if_pos hbelow,hdeleted]
      cases hp : pending inner (kvKey k) with
      | none => rfl
      | some v =>
        cases v with
        | none => rfl
        | some v => exact absurd hp (hinner v)
    · rw [if_neg hbelow]

/-- What an operation adds above a batch it is clear of, as the reader of the batch sees it. -/
lemma added_merged (env : Env) {r : Records} {outer inner : Batch} {op : RaftOperation}
    (hrev : RevisionFree outer) (h : ClearAbove r outer inner op) :
    below env (merged r outer) op = merged (below env r op) outer ∧
      ∀ x, pending (outer ++ inner ++ added env (merged r outer) op) x =
        pending (outer ++ inner ++ added env r op) x := by
  have hinc := merged_incrementRevision hrev r
  unfold ClearAbove at h
  unfold below added prepareRecords
  cases htype : op.type with
  | put =>
    rw [htype] at h
    obtain ⟨hkv,hlease⟩ := h
    have hattach : attachKey env (incrementRevision (merged r outer)).db op.key op.leaseID =
        attachKey env (incrementRevision r).db op.key op.leaseID := by
      refine attachKey_congr fun hid => ?_
      rw [getElem?_incrementRevision_of_ne (leaseKey_ne_revisionKey op.leaseID),
        getElem?_incrementRevision_of_ne (leaseKey_ne_revisionKey op.leaseID)]
      exact hlease hid
    simp only [preparePutBatch,hattach,putKeyValue_congr hkv]
    split
    · exact ⟨hinc,fun _ => rfl⟩
    · exact ⟨hinc,fun _ => rfl⟩
  | delete =>
    rw [htype] at h
    by_cases hend : op.rangeEnd = []
    · simp only [prepareDeleteBatch,hend,if_true]
      exact ⟨hinc,fun _ => trivial⟩
    · have hdb : ∀ s : Records, scanBelow (incrementRevision s).db op.key op.rangeEnd =
          scanBelow s.db op.key op.rangeEnd := by
        intro s
        have hsame : SameRecords ⟨(incrementRevision s).db,s.cachedRevision,s.ticks⟩ s :=
          ⟨fun x hx => getElem?_incrementRevision_of_ne hx.ne_revisionKey,rfl,rfl⟩
        exact hsame.scanBelow op.key op.rangeEnd
      simp only [prepareDeleteBatch,hend,if_false,List.nil_append,pending_append,
        pending_scanBelow,hdb]
      exact ⟨hinc,pending_deletes_above (h hend)⟩
  | leaseGrant => exact ⟨rfl,fun _ => rfl⟩
  | leaseRevoke =>
    rw [htype] at h
    have hget : getLease (merged r outer).db op.leaseID = getLease r.db op.leaseID := by
      rw [getLease,getLease,h]
    refine ⟨rfl,fun x => ?_⟩
    simp only [prepareLeaseRevokeBatch,hget]
  | txn =>
    rw [htype] at h
    exact ⟨txnUnlocked_merged hrev h.1 h.2,fun _ => rfl⟩
  | other name => exact ⟨rfl,fun _ => rfl⟩

lemma revisionFree_prepareAll {ops : List RaftOperation} {p : Records × Batch}
    (h : RevisionFree p.2) : RevisionFree (prepareAll env p ops).2 := by
  induction ops generalizing p with
  | nil => exact h
  | cons op ops ih =>
    refine ih ?_
    have hstep : RevisionFree (prepareRecords env p.1 p.2 op).2 := revisionFree_prepareRecords h
    rwa [prepareRecords_eq] at hstep

lemma prepareAll_merged {outer : Batch} (hrev : RevisionFree outer) {ops : List RaftOperation}
    {r : Records} {batch inner : Batch} (hbatch : ∀ x, pending batch x = pending (outer ++ inner) x)
    (h : ClearEntry env outer r inner ops) :
    (prepareAll env (merged r outer,inner) ops).1 = merged (prepareAll env (r,batch) ops).1 outer ∧
      ∀ x, pending (prepareAll env (r,batch) ops).2 x =
        pending (outer ++ (prepareAll env (merged r outer,inner) ops).2) x := by
  induction ops generalizing r batch inner with
  | nil => exact ⟨rfl,hbatch⟩
  | cons op ops ih =>
    obtain ⟨hbelow,hadded⟩ := added_merged env hrev h.1
    have hnext : ∀ x, pending (batch ++ added env r op) x =
        pending (outer ++ (inner ++ added env (merged r outer) op)) x := by
      intro x
      rw [← List.append_assoc,hadded,pending_append,pending_append (outer ++ inner),hbatch]
    have hrest := ih hnext h.2
    rw [← hbelow] at hrest
    exact hrest

theorem applyEntry_flatten {entries : List (List RaftOperation)} {p : Records × Batch}
    (hrev : RevisionFree p.2) (h : ClearEntries env p entries) :
    merged (prepareAll env p entries.flatten).1 (prepareAll env p entries.flatten).2 =
      entries.foldl (applyEntry env) (merged p.1 p.2) := by
  induction entries generalizing p with
  | nil => rfl
  | cons ops entries ih =>
    have hempty : ∀ x, pending p.2 x = pending (p.2 ++ []) x := fun x => by rw [List.append_nil]
    obtain ⟨hstate,hpending⟩ := prepareAll_merged hrev hempty h.1
    have hone : merged (prepareAll env p ops).1 (prepareAll env p ops).2 =
        applyEntry env (merged p.1 p.2) ops := by
      rw [applyEntry,hstate]
      refine Records.ext ?_ rfl rfl
      ext1 x
      rw [merged,merged,merged,getElem?_write,getElem?_write,getElem?_write,hpending,pending_append]
      cases pending (prepareAll env (merged p.1 p.2,[]) ops).2 x <;> rfl
    have happend : prepareAll env p (ops :: entries).flatten =
        prepareAll env (prepareAll env p ops) entries.flatten := List.foldl_append
    rw [happend,ih (revisionFree_prepareAll hrev) h.2,hone]
    rfl

/-! ### Operations that old-format entries may overtake -/

def legacyKeys (data : List Datum) : List Bytes :=
  data.filterMap fun d => match d with
    | .legacy key _ => some key
    | .operations _ => none

/-- Old-format entries for the keys may be moved in front of the operation: it draws no
revision and touches none of their records. -/
def Passable (r : Records) (keys : List Bytes) (op : RaftOperation) : Prop :=
  match op.type with
  | .put => False
  | .delete => False
  | .leaseGrant => True
  | .leaseRevoke => ∀ l, getLease r.db op.leaseID = .ok (some l) → ∀ k ∈ l.keys, k ∉ keys
  | .txn => ∀ o ∈ op.thenOps ++ op.elseOps, o.type = .range ∨ o.type = .txn
  | .other _ => True

def InOrder (env : Env) : Records → List Datum → Prop
  | _,[] => True
  | r,datum :: data =>
    (legacyKeys data ≠ [] → ∀ op ∈ datum.entry, Passable r (legacyKeys data) op) ∧
      InOrder env (applyDatum env r datum) data

lemma txnOps_of_readOnly (env : Env) {r : Records} {ops : List Op}
    (h : ∀ o ∈ ops, o.type = .range ∨ o.type = .txn) : (txnOps env r ops).1 = r := by
  induction ops with
  | nil => rfl
  | cons op ops ih =>
    have hop : (txnOp env r op).1 = r ∧ ∃ resp, (txnOp env r op).2 = .ok resp := by
      unfold txnOp
      obtain htype|htype := h op List.mem_cons_self <;> rw [htype]
      · exact ⟨rfl,_,rfl⟩
      · exact ⟨rfl,_,rfl⟩
    obtain ⟨hsame,resp,hresp⟩ := hop
    rw [txnOps,hresp,hsame]
    exact ih fun o ho => h o (List.mem_cons_of_mem op ho)

lemma Passable.congr {r s : Records} {keys : List Bytes} {op : RaftOperation}
    (h : Passable r keys op) (hleases : ∀ id, getLease s.db id = getLease r.db id) :
    Passable s keys op := by
  unfold Passable at h ⊢
  cases htype : op.type <;> rw [htype] at h <;> first | exact h | exact hleases op.leaseID ▸ h

lemma legacy_eq (env : Env) (r : Records) (key val : Bytes) :
    (putUnlocked env r key val 0).1 =
      { incrementRevision r with
        db := write (incrementRevision r).db
          [putKeyValue r.db (r.cachedRevision+1) key val 0] } := by
  simp [putUnlocked,attachKey,incrementRevision]

lemma getLease_legacy (env : Env) (r : Records) (key val : Bytes) (id : ℤ) :
    getLease (putUnlocked env r key val 0).1.db id = getLease r.db id := by
  have hx := (storeKey_leaseKey id).ne_revisionKey
  have hdb : (putUnlocked env r key val 0).1.db[leaseKey id]? = r.db[leaseKey id]? := by
    rw [legacy_eq,getElem?_write,pending_cons]
    simp [putKeyValue,BatchOp.key,(leaseKey_ne_kvKey id key).symm,getElem?_incrementRevision_of_ne hx]
  rw [getLease,getLease,hdb]

lemma passable_legacy (env : Env) {r : Records} {keys : List Bytes} {op : RaftOperation}
    (h : Passable r keys op) {key : Bytes} (hkey : key ∈ keys) (val : Bytes) :
    below env (putUnlocked env r key val 0).1 op = (putUnlocked env (below env r op) key val 0).1 ∧
      added env (putUnlocked env r key val 0).1 op = added env r op ∧
      pending (added env r op) (kvKey key) = none ∧
      ∀ id, getLease (below env r op).db id = getLease r.db id := by
  unfold Passable at h
  unfold below added prepareRecords
  cases htype : op.type with
  | put =>
    rw [htype] at h
    exact h.elim
  | delete =>
    rw [htype] at h
    exact h.elim
  | leaseGrant =>
    refine ⟨?_,?_,?_,fun _ => rfl⟩
    · simp only [prepareLeaseGrantBatch,legacy_eq]
      rfl
    · simp only [prepareLeaseGrantBatch,legacy_eq]
      rfl
    · simp [prepareLeaseGrantBatch,pending_cons,BatchOp.key,leaseKey_ne_kvKey]
  | leaseRevoke =>
    rw [htype] at h
    refine ⟨rfl,?_,?_,fun _ => rfl⟩
    · simp only [prepareLeaseRevokeBatch,getLease_legacy]
    · simp only [prepareLeaseRevokeBatch]
      cases hl : getLease r.db op.leaseID with
      | error err => rfl
      | ok lease =>
        cases lease with
        | none => rfl
        | some l =>
          refine pending_eq_none fun o ho => ?_
          simp only [List.nil_append,List.mem_append,List.mem_map,List.mem_singleton] at ho
          obtain ⟨k,hk,rfl⟩|rfl := ho
          · intro hx
            exact h l hl k (ExtTreeSet.mem_toList.mp hk) (kvKey_injective hx ▸ hkey)
          · exact leaseKey_ne_kvKey op.leaseID key
  | txn =>
    rw [htype] at h
    have hsame : ∀ s : Records, (txnUnlocked env s op.compares op.thenOps op.elseOps).1 = s := by
      intro s
      simp only [txnUnlocked]
      refine txnOps_of_readOnly env fun o ho => h o ?_
      split_ifs at ho
      · exact List.mem_append_left _ ho
      · exact List.mem_append_right _ ho
    simp only [hsame,pending_nil,and_self,implies_true]
  | other name => exact ⟨rfl,rfl,rfl,fun _ => rfl⟩

lemma prepareAll_legacy (env : Env) {keys : List Bytes} {key : Bytes} (hkey : key ∈ keys) (val : Bytes)
    {ops : List RaftOperation} {r : Records} {batch : Batch}
    (h : ∀ op ∈ ops, Passable r keys op) (hbatch : pending batch (kvKey key) = none) :
    prepareAll env ((putUnlocked env r key val 0).1,batch) ops =
        ((putUnlocked env (prepareAll env (r,batch) ops).1 key val 0).1,
          (prepareAll env (r,batch) ops).2) ∧
      pending (prepareAll env (r,batch) ops).2 (kvKey key) = none := by
  induction ops generalizing r batch with
  | nil => exact ⟨rfl,hbatch⟩
  | cons op ops ih =>
    obtain ⟨hbelow,hadded,hpending,hleases⟩ :=
      passable_legacy env (h op List.mem_cons_self) hkey val
    have hcons : ∀ s b, prepareAll env (s,b) (op :: ops) =
        prepareAll env (below env s op,b ++ added env s op) ops := fun _ _ => rfl
    rw [hcons,hcons,hbelow,hadded]
    refine ih (fun o ho => (h o (List.mem_cons_of_mem op ho)).congr hleases) ?_
    rw [pending_append,hpending,hbatch]
    rfl

lemma applyEntry_legacy {r : Records} {keys : List Bytes} {ops : List RaftOperation}
    (h : ∀ op ∈ ops, Passable r keys op) {key : Bytes} (hkey : key ∈ keys) (val : Bytes) :
    (putUnlocked env (applyEntry env r ops) key val 0).1 =
      applyEntry env (putUnlocked env r key val 0).1 ops := by
  obtain ⟨hlegacy,hpending⟩ := prepareAll_legacy env hkey val h (pending_nil (kvKey key))
  have hrev : RevisionFree (prepareAll env (r,[]) ops).2 :=
    revisionFree_prepareAll fun _ ho => absurd ho List.not_mem_nil
  rw [applyEntry,applyEntry,hlegacy,putUnlocked_merged hrev ⟨hpending,fun h0 => absurd rfl h0⟩]

lemma mem_legacyKeys {data : List Datum} {key val : Bytes} (h : Datum.legacy key val ∈ data) :
    key ∈ legacyKeys data := List.mem_filterMap.mpr ⟨_,h,rfl⟩

lemma overtaken_of_inOrder {data : List Datum} {r : Records} (h : InOrder env r data) :
    Overtaken (applyDatum env) Datum.isLegacy r data := by
  induction data generalizing r with
  | nil => trivial
  | cons datum data ih =>
    refine ⟨fun hfirst => ?_,ih h.2⟩
    cases datum with
    | legacy key val => cases hfirst
    | operations ops =>
      by_cases hnone : legacyKeys data = []
      · have hfilter : data.filter Datum.isLegacy = [] := by
          rw [List.filter_eq_nil_iff]
          intro d hd
          cases d with
          | operations ops => exact Bool.false_ne_true
          | legacy key val => exact absurd (mem_legacyKeys hd) (by simp [hnone])
        rw [hfilter]
        rfl
      · refine foldl_comm (P := fun r => ∀ op ∈ ops, Passable r (legacyKeys data) op) ?_
          (h.1 hnone)
        intro s hs d hd
        obtain ⟨hmem,hlegacy⟩ := List.mem_filter.mp hd
        cases d with
        | operations ops => cases hlegacy
        | legacy key val =>
          exact ⟨fun op hop => (hs op hop).congr (getLease_legacy env s key val),
            applyEntry_legacy hs (mem_legacyKeys hmem) val⟩

lemma foldl_operations (data : List Datum) (r : Records) :
    (data.filter fun d => !d.isLegacy).foldl (applyDatum env) r =
      ((data.filter fun d => !d.isLegacy).map Datum.entry).foldl (applyEntry env) r := by
  induction data generalizing r with
  | nil => rfl
  | cons datum data ih => cases datum <;> exact ih _

lemma flatMap_entry (data : List Datum) :
    data.flatMap Datum.entry = ((data.filter fun d => !d.isLegacy).map Datum.entry).flatten := by
  induction data with
  | nil => rfl
  | cons datum data ih =>
    cases datum with
    | operations ops => exact congrArg (ops ++ ·) ih
    | legacy key val => exact ih

/-- A commit in which old-format entries only pass entries that let them, and every entry is
clear of those before it, leaves the records of its entries applied one at a time. -/
theorem readCommit_inOrder {e : Engine} {data : List Datum} (horder : InOrder env e.records data)
    (hclear : ClearEntries env ((data.filter Datum.isLegacy).foldl (applyDatum env) e.records,[])
      ((data.filter fun d => !d.isLegacy).map Datum.entry)) :
    (readCommit env e data).records = data.foldl (applyDatum env) e.records := by
  rw [readCommit,applyOperationsBatch_records,collect_eq,foldl_eq_phases (overtaken_of_inOrder horder),
    foldl_operations,applyEntry,flatMap_entry]
  exact applyEntry_flatten (fun _ ho => absurd ho List.not_mem_nil) hclear

end MetaStore.RocksDB
