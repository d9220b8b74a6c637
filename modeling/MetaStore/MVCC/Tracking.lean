import MetaStore.MVCC.Compaction
import MetaStore.MVCC.IndexAgreement
import MetaStore.MVCC.RocksDBStore

/-! The index of the store over RocksDB. What a call does to the index depends on the index
alone, and is what the store in memory does to its own. What holds of every index in memory
therefore holds here as well. -/
namespace MetaStore.MVCC
open Std

namespace KeyItem

lemma newest_of_live {ki : KeyItem} (hlive : ki.isDeleted = false) {atRev : Revision}
    (h : ∀ rev ∈ ki.revisions, rev.lessThanOrEqual atRev = true) :
    newest atRev ki.generations = some ki.lastRevision := by
  rw [newest_eq_latest]
  exact (latest_of_forall_le h).trans (getLast?_revisions hlive)

lemma exists_newest {ki : KeyItem} {atRev : Revision} (hne : ki.revisions ≠ [])
    (h : ∀ rev ∈ ki.revisions, rev.lessThanOrEqual atRev = true) :
    ∃ rev, newest atRev ki.generations = some rev := by
  rw [newest_eq_latest]
  exact ⟨_,(latest_of_forall_le h).trans (List.getLast?_eq_some_getLast hne)⟩

end KeyItem

namespace MemoryStore
variable {m : MemoryStore}

lemma WellFormed.isZero_eq_false (h : m.WellFormed) {key : Bytes} {rev : Revision}
    (hrev : rev ∈ m.recorded key) : rev.isZero = false := by
  rw [recorded_eq] at hrev
  exact Revision.isZero_of_main_pos (h.bounds key rev hrev).1

lemma WellFormed.lastRevision_ne_zero (h : m.WellFormed) (key : Bytes) (ki : KeyItem)
    (hki : m.liveItem key = some ki) : ki.lastRevision.isZero = false :=
  h.isZero_eq_false (lastRevision_mem hki)

end MemoryStore

namespace RocksDBStore

def shadow (s : RocksDBStore) : MemoryStore := ⟨s.keyIndex,∅,s.currentRev,s.compactedRev,s.closed⟩

def item (s : RocksDBStore) (key : Bytes) : KeyItem := s.shadow.item key

def live (s : RocksDBStore) : Set Bytes := s.shadow.live

variable {s : RocksDBStore} {m : MemoryStore}

section Items
variable (s : RocksDBStore) (rev : Revision) {key k : Bytes}

lemma item_put_self : { s with keyIndex := s.keyIndex.put key rev : RocksDBStore }.item key =
    (s.item key).put rev :=
  s.shadow.item_putAt_self rev key [] 0

lemma item_put_of_ne (h : k ≠ key) :
    { s with keyIndex := s.keyIndex.put key rev : RocksDBStore }.item k = s.item k :=
  s.shadow.item_putAt_of_ne rev [] 0 h

lemma item_delete_self : { s with keyIndex := s.keyIndex.delete key rev : RocksDBStore }.item key =
    (s.item key).delete rev :=
  MemoryStore.item_tombstone_self (s := s.shadow) ⟨[],.zero⟩ rev

lemma item_delete_of_ne (h : k ≠ key) :
    { s with keyIndex := s.keyIndex.delete key rev : RocksDBStore }.item k = s.item k :=
  s.shadow.item_tombstone_of_ne rev ⟨[],.zero⟩ h

end Items

lemma liveItem_of_index (h : s.keyIndex = m.keyIndex) (key : Bytes) :
    s.liveItem key = m.liveItem key := by
  obtain ⟨index,records,current,compacted,closed⟩ := m
  obtain rfl : s.keyIndex = index := h
  rfl

lemma keysToDelete_of_index (h : s.keyIndex = m.keyIndex) (start : Bytes) (stop : Option Bytes) :
    s.keysToDelete start stop = m.keysToDelete start stop := by
  rw [keysToDelete,MemoryStore.keysToDelete,h]

lemma liveItem_eq (s : RocksDBStore) (key : Bytes) :
    s.liveItem key = if (s.item key).isDeleted then none else some (s.item key) :=
  MemoryStore.liveItem_eq s.shadow key

lemma liveItem_eq_some {key : Bytes} {ki : KeyItem} :
    s.liveItem key = some ki ↔ (s.item key).isDeleted = false ∧ s.item key = ki :=
  MemoryStore.liveItem_eq_some (s := s.shadow)

lemma liveItem_eq_none {key : Bytes} : s.liveItem key = none ↔ (s.item key).isDeleted = true :=
  MemoryStore.liveItem_eq_none (s := s.shadow)

/-- The loop of a range deletion leaves the index of the loop in memory, and nothing else of the
store has changed. -/
lemma deleteKeys_index (base : Revision) (keys : List Bytes) {f : Filling}
    (h : f.store.keyIndex = m.keyIndex) (i deleted last : ℤ) :
    (deleteKeys base i keys (f,deleted)).1.store = { f.store with
      keyIndex := (MemoryStore.deleteKeys base i keys (m,deleted,last)).1.keyIndex } ∧
    (deleteKeys base i keys (f,deleted)).2 =
      (MemoryStore.deleteKeys base i keys (m,deleted,last)).2.1 := by
  induction keys generalizing f m i deleted last with
  | nil => exact ⟨by rw [deleteKeys,MemoryStore.deleteKeys,← h],rfl⟩
  | cons key keys ih =>
    rw [deleteKeys,MemoryStore.deleteKeys,liveItem_of_index h]
    cases m.liveItem key with
    | none => exact ih h _ _ _
    | some ki =>
      refine ih (f := f.delete ⟨base.main,base.sub+i⟩ key ki)
        (m := m.tombstone ⟨base.main,base.sub+i⟩ key ki) ?_ _ _ _
      rw [Filling.delete,h]
      rfl

lemma executeOp_index {f : Filling} (h : f.store.keyIndex = m.keyIndex) (op : Op) (rev : Revision) :
    (executeOp f op rev).1.store =
      { f.store with keyIndex := (m.executeOp op rev).1.keyIndex } := by
  obtain ⟨type,key,stop,value,lease⟩ := op
  cases type with
  | put =>
    simp only [executeOp,executePut,MemoryStore.executeOp,MemoryStore.putAt,h]
  | get => simp only [executeOp,MemoryStore.executeOp,← h]
  | delete =>
    simp only [executeOp,executeDelete,MemoryStore.executeOp,MemoryStore.executeDelete,
      liveItem_of_index h]
    cases m.liveItem key with
    | none => simp only [← h]
    | some ki => simp only [Filling.delete,MemoryStore.tombstone,h]
  | deleteRange =>
    simp only [executeOp,executeDeleteRange,MemoryStore.executeOp,MemoryStore.executeDeleteRange,
      keysToDelete_of_index h]
    exact (deleteKeys_index rev _ h 0 0 0).1
  | other code => simp only [executeOp,MemoryStore.executeOp,← h]

lemma executeOps_index (txnRev : Revision) (ops : List Op) {f : Filling}
    (h : f.store.keyIndex = m.keyIndex) (i : ℤ) :
    (executeOps txnRev i ops f).1.store =
      { f.store with keyIndex := (MemoryStore.executeOps txnRev i ops m).1.keyIndex } := by
  induction ops generalizing f m i with
  | nil => rw [executeOps,MemoryStore.executeOps,← h]
  | cons op ops ih =>
    have hop := executeOp_index h op ⟨txnRev.main,i⟩
    rw [executeOps,MemoryStore.executeOps]
    dsimp only
    rw [ih (m := (m.executeOp op ⟨txnRev.main,i⟩).1) (by rw [hop]) (i+1),hop]

def Filling.overlay (f : Filling) (key : Bytes) (rev : Revision) : Option KeyValue :=
  (WriteBatch.write f.store.db.records f.records)[(⟨key,rev⟩ : StorageKey)]?

lemma Filling.overlay_append (f : Filling) {t : RocksDBStore} (h : t.db = f.store.db)
    (key k : Bytes) (rev r : Revision) (kv : KeyValue) :
    (⟨t,f.records ++ [.put ⟨key,rev⟩ kv]⟩ : Filling).overlay k r =
      if key = k ∧ rev = r then some kv else f.overlay k r := by
  have hkey : (⟨key,rev⟩ : StorageKey) = ⟨k,r⟩ ↔ key = k ∧ rev = r := by
    rw [StorageKey.mk.injEq]
  simp only [overlay,h,WriteBatch.write_append]
  rw [WriteBatch.write,List.foldl_cons,List.foldl_nil,WriteBatch.getElem?_step]
  simp only [BatchOp.key,BatchOp.value,hkey]

lemma Filling.overlay_of_old {f : Filling} {key : Bytes} {rev : Revision}
    (h : ∀ op ∈ f.records, op.key.rev.main ≠ rev.main) :
    f.overlay key rev = f.store.record key rev := by
  rw [overlay,WriteBatch.getElem?_write,WriteBatch.pending_eq_none]
  · rfl
  · rintro op hop heq
    exact h op hop (by rw [heq])

def WellIndexed (s : RocksDBStore) : Prop := s.shadow.WellFormed

lemma wellIndexed_of_index (hm : m.WellFormed) (hindex : s.keyIndex = m.keyIndex)
    (hmain : s.currentRev.main = m.current.main) (hsub : 0 ≤ s.currentRev.sub)
    (hcompacted : s.compactedRev = m.compactedRev) : s.WellIndexed where
  layered key := by
    have hitem : s.shadow.item key = m.item key := by
      simp only [MemoryStore.item,shadow,hindex]
    rw [hitem]
    exact hm.layered key
  bounds key rev hrev := by
    have hitem : s.shadow.item key = m.item key := by
      simp only [MemoryStore.item,shadow,hindex]
    rw [hitem] at hrev
    change _ ∧ _ ∧ rev.main ≤ s.currentRev.main
    rw [hmain]
    exact hm.bounds key rev hrev
  stored rev kv hkv := absurd hkv (by simp [shadow])
  current := ⟨by have := hm.current.1; change 0 ≤ s.currentRev.main; omega,hsub⟩
  compacted := by
    change 0 ≤ s.compactedRev.main ∧ s.compactedRev.sub = 0
    rw [hcompacted]
    exact hm.compacted

lemma wellIndexed_empty : empty.WellIndexed :=
  wellIndexed_of_index MemoryStore.wellFormed_new rfl rfl le_rfl rfl

lemma WellIndexed.put (h : s.WellIndexed) (key value : Bytes) (lease : ℤ) :
    (s.put true key value lease).2.WellIndexed := by
  by_cases hkey : key = []
  · rw [RocksDBStore.put,if_pos hkey]
    exact h
  cases hclosed : s.closed with
  | true =>
    rw [RocksDBStore.put,if_neg hkey,hclosed]
    exact h
  | false =>
    have hm := MemoryStore.WellFormed.step h (.put key value lease)
    have hstep : s.shadow.step (.put key value lease) =
        s.shadow.next.putAt s.shadow.next.current key value lease := by
      simp [MemoryStore.step,MemoryStore.put,written,hkey,hclosed,shadow]
    rw [hstep] at hm
    simp only [RocksDBStore.put,if_neg hkey,hclosed,Bool.false_eq_true,if_false,if_true]
    exact wellIndexed_of_index hm rfl rfl le_rfl rfl

lemma WellIndexed.delete (h : s.WellIndexed) (key : Bytes) :
    (s.delete true key).2.WellIndexed := by
  by_cases hkey : key = []
  · rw [RocksDBStore.delete,if_pos hkey]
    exact h
  cases hclosed : s.closed with
  | true =>
    rw [RocksDBStore.delete,if_neg hkey,hclosed]
    exact h
  | false =>
    cases hki : s.liveItem key with
    | none =>
      simp only [RocksDBStore.delete,if_neg hkey,hclosed,Bool.false_eq_true,if_false,hki]
      exact h
    | some ki =>
      have hki' : s.shadow.liveItem key = some ki := hki
      have hm := MemoryStore.WellFormed.step h (.delete key)
      have hstep : s.shadow.step (.delete key) =
          s.shadow.next.tombstone s.shadow.next.current key ki := by
        simp only [MemoryStore.step,MemoryStore.delete,if_neg hkey,hki']
        simp [written,hclosed,shadow]
      rw [hstep] at hm
      simp only [RocksDBStore.delete,if_neg hkey,hclosed,Bool.false_eq_true,if_false,hki,if_true]
      exact wellIndexed_of_index hm rfl rfl le_rfl rfl

lemma deleteRange_of_idle (ok : Bool) {start : Bytes} {stop : Option Bytes}
    (h : start = [] ∨ s.closed = true ∨ s.keysToDelete start stop = []) :
    (s.deleteRange ok start stop).2 = s := by
  by_cases hstart : start = []
  · rw [RocksDBStore.deleteRange,if_pos hstart]
  by_cases hclosed : s.closed = true
  · rw [RocksDBStore.deleteRange,if_neg hstart,if_pos hclosed]
  have hkeys := (h.resolve_left hstart).resolve_left hclosed
  simp only [RocksDBStore.deleteRange,if_neg hstart,if_neg hclosed,if_pos hkeys]

lemma deleteRange_of_found {start : Bytes} {stop : Option Bytes}
    (h : ¬ (start = [] ∨ s.closed = true ∨ s.keysToDelete start stop = [])) :
    let done := deleteKeys s.next.currentRev 0 (s.keysToDelete start stop) (⟨s.next,[]⟩,0)
    let rev : Revision := ⟨done.1.store.currentRev.main,
      if 0 < done.2 then (s.keysToDelete start stop).length-1 else 0⟩
    s.deleteRange true start stop = (.ok (s.currentRev.main+1,done.2),{ done.1.store with
      currentRev := rev
      db := done.1.store.db.write { records := done.1.records, currentRevision := some rev } }) := by
  simp only [not_or] at h
  obtain ⟨hstart,hclosed,hkeys⟩ := h
  simp only [RocksDBStore.deleteRange,if_neg hstart,if_neg hclosed,if_neg hkeys]
  rfl

lemma WellIndexed.deleteRange (h : s.WellIndexed) (start : Bytes) (stop : Option Bytes) :
    (s.deleteRange true start stop).2.WellIndexed := by
  by_cases hidle : start = [] ∨ s.closed = true ∨ s.keysToDelete start stop = []
  · rw [deleteRange_of_idle true hidle]
    exact h
  obtain ⟨hwf,-,hcurrent,-⟩ := MemoryStore.WellFormed.deleteKeys h.next
    (s.keysToDelete start stop) 0 h.below_next rfl h.next_pos le_rfl le_rfl le_rfl
  have hcompacted := (MemoryStore.deleteKeys_fields s.shadow.next.current
    (s.keysToDelete start stop) s.shadow.next 0 0 0).2.1
  obtain ⟨hstore,-⟩ := deleteKeys_index s.next.currentRev (s.keysToDelete start stop)
    (show (⟨s.next,[]⟩ : Filling).store.keyIndex = s.shadow.next.keyIndex from rfl) 0 0 0
  rw [deleteRange_of_found hidle]
  dsimp only
  rw [hstore]
  refine wellIndexed_of_index hwf rfl ?_ ?_ ?_
  · rw [hcurrent]
    rfl
  · have hpos : 0 < (s.keysToDelete start stop).length := List.length_pos_iff.mpr
      fun hnil => hidle (Or.inr (Or.inr hnil))
    dsimp only
    split_ifs <;> omega
  · rw [hcompacted]
    rfl

lemma commit_of_idle (ok : Bool) {txn : Txn}
    (h : s.closed = true ∨ succeeded s.liveRecord txn.conditions = none) :
    (s.commit ok txn).2 = s := by
  by_cases hclosed : s.closed = true
  · rw [RocksDBStore.commit,if_pos hclosed]
  · simp only [RocksDBStore.commit,if_neg hclosed,h.resolve_left hclosed]

lemma commit_of_some {txn : Txn} (hclosed : s.closed = false) {b : Bool}
    (hb : succeeded s.liveRecord txn.conditions = some b) :
    let ops := if b then txn.thenOps else txn.elseOps
    let done := executeOps s.next.currentRev 0 ops ⟨s.next,[]⟩
    let rev : Revision := ⟨done.1.store.currentRev.main,
      if 0 < ops.length then ops.length-1 else 0⟩
    s.commit true txn = (.ok ⟨b,s.currentRev.main+1,done.2⟩,{ done.1.store with
      currentRev := rev
      db := done.1.store.db.write { records := done.1.records, currentRevision := some rev } }) := by
  simp only [RocksDBStore.commit,hclosed,Bool.false_eq_true,if_false,hb]
  rfl

lemma WellIndexed.commit (h : s.WellIndexed) (txn : Txn) : (s.commit true txn).2.WellIndexed := by
  by_cases hidle : s.closed = true ∨ succeeded s.liveRecord txn.conditions = none
  · rw [commit_of_idle true hidle]
    exact h
  simp only [not_or,Bool.not_eq_true] at hidle
  obtain ⟨b,hb⟩ := Option.ne_none_iff_exists'.mp hidle.2
  have hwf := MemoryStore.WellFormed.executeOps (if b then txn.thenOps else txn.elseOps)
    (MemoryStore.WellFormed.next h) h.below_next rfl h.next_pos le_rfl
  obtain ⟨hcurrent,hcompacted,-⟩ := MemoryStore.executeOps_fields s.shadow.next.current
    (if b then txn.thenOps else txn.elseOps) s.shadow.next 0
  have hstore := executeOps_index s.next.currentRev (if b then txn.thenOps else txn.elseOps)
    (show (⟨s.next,[]⟩ : Filling).store.keyIndex = s.shadow.next.keyIndex from rfl) 0
  rw [commit_of_some hidle.1 hb]
  dsimp only
  rw [hstore]
  refine wellIndexed_of_index hwf rfl ?_ ?_ ?_
  · rw [hcurrent]
    rfl
  · dsimp only
    split_ifs <;> omega
  · rw [hcompacted]
    rfl

end RocksDBStore

end MetaStore.MVCC
