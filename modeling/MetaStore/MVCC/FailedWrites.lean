import MetaStore.MVCC.Tracking

/-! Writes that the database refuses. Every call takes its revision, and the calls that fill a
batch change the index, before the batch is written, and nothing of it is taken back. -/
namespace MetaStore.MVCC

def Reply.failed : Reply → Bool
  | .revision (.error _) => true
  | .deleted (.error _) => true
  | .committed (.error _) => true
  | .compacted (.error _) => true
  | .record (.error _) => true
  | .records (.error _) => true
  | _ => false

namespace RocksDBStore

def Attempts (s : RocksDBStore) : Request → Prop
  | .put key _ _ => ¬ (key = [] ∨ s.closed = true)
  | .delete key => ¬ (key = [] ∨ s.closed = true ∨ s.liveItem key = none)
  | .deleteRange start stop => ¬ (start = [] ∨ s.closed = true ∨ s.keysToDelete start stop = [])
  | .commit txn => ¬ (s.closed = true ∨ succeeded s.liveRecord txn.conditions = none)
  | .compact rev => ¬ (s.closed = true ∨ (⟨rev,0⟩ : Revision).lessThanOrEqual s.compactedRev = true ∨
      (⟨rev,0⟩ : Revision).greaterThan s.currentRev = true)
  | .get .. => False
  | .range .. => False
  | .currentRevision => False
  | .compactedRevision => False

structure Unchanged (s s' : RocksDBStore) : Prop where
  currentRev : s'.currentRev = s.currentRev
  compactedRev : s'.compactedRev = s.compactedRev
  keyIndex : s'.keyIndex = s.keyIndex

def TakesBack (s : RocksDBStore) (request : Request) : Prop :=
  s.Attempts request →
    (s.serve false request).1.failed = true ∧ s.Unchanged (s.serve false request).2

variable {s : RocksDBStore}

lemma currentRev_deleteKeys (base : Revision) (keys : List Bytes) (f : Filling) (i deleted : ℤ) :
    (deleteKeys base i keys (f,deleted)).1.store.currentRev = f.store.currentRev := by
  rw [(deleteKeys_index (m := f.store.shadow) base keys rfl i deleted 0).1]

lemma currentRev_executeOps (txnRev : Revision) (ops : List Op) (f : Filling) (i : ℤ) :
    (executeOps txnRev i ops f).1.store.currentRev = f.store.currentRev := by
  rw [executeOps_index (m := f.store.shadow) txnRev ops rfl i]

lemma put_of_refused {key : Bytes} (h : ¬ (key = [] ∨ s.closed = true)) (value : Bytes) (lease : ℤ) :
    s.put false key value lease = (.error .database,s.next) := by
  obtain ⟨hkey,hclosed⟩ := not_or.mp h
  simp only [RocksDBStore.put,if_neg hkey,if_neg hclosed,Bool.false_eq_true,if_false]

lemma delete_of_refused {key : Bytes} (h : ¬ (key = [] ∨ s.closed = true ∨ s.liveItem key = none)) :
    s.delete false key = (.error .database,s.next) := by
  simp only [not_or] at h
  obtain ⟨hkey,hclosed,hlive⟩ := h
  obtain ⟨ki,hki⟩ := Option.ne_none_iff_exists'.mp hlive
  simp only [RocksDBStore.delete,if_neg hkey,if_neg hclosed,hki,Bool.false_eq_true,if_false]

lemma deleteRange_of_refused {start : Bytes} {stop : Option Bytes}
    (h : ¬ (start = [] ∨ s.closed = true ∨ s.keysToDelete start stop = [])) :
    (s.deleteRange false start stop).1 = .error .database ∧
      (s.deleteRange false start stop).2.currentRev.main = s.currentRev.main+1 := by
  simp only [not_or] at h
  obtain ⟨hstart,hclosed,hkeys⟩ := h
  simp only [RocksDBStore.deleteRange,if_neg hstart,if_neg hclosed,if_neg hkeys,Filling.finish,
    Bool.false_eq_true,if_false,currentRev_deleteKeys]
  exact ⟨trivial,rfl⟩

lemma commit_of_refused {txn : Txn}
    (h : ¬ (s.closed = true ∨ succeeded s.liveRecord txn.conditions = none)) :
    (s.commit false txn).1 = .error .database ∧
      (s.commit false txn).2.currentRev.main = s.currentRev.main+1 := by
  obtain ⟨hclosed,hsome⟩ := not_or.mp h
  obtain ⟨b,hb⟩ := Option.ne_none_iff_exists'.mp hsome
  simp only [RocksDBStore.commit,if_neg hclosed,hb,Filling.finish,Bool.false_eq_true,if_false,
    currentRev_executeOps]
  exact ⟨trivial,rfl⟩

lemma compact_of_refused {rev : ℤ}
    (h : ¬ (s.closed = true ∨ (⟨rev,0⟩ : Revision).lessThanOrEqual s.compactedRev = true ∨
      (⟨rev,0⟩ : Revision).greaterThan s.currentRev = true)) :
    s.compact false rev = (.error .database,{ s with compactedRev := ⟨rev,0⟩ }) := by
  simp only [not_or] at h
  simp only [RocksDBStore.compact,if_neg h.1,if_neg h.2.1,if_neg h.2.2,Bool.false_eq_true,if_false]

lemma serve_of_refused {request : Request} (h : s.Attempts request) :
    (s.serve false request).1.failed = true ∧
      ((s.serve false request).2.currentRev ≠ s.currentRev ∨
        (s.serve false request).2.compactedRev ≠ s.compactedRev) := by
  have hmain : ∀ rev : Revision, rev.main = s.currentRev.main+1 → rev ≠ s.currentRev := by
    rintro rev hrev rfl
    omega
  cases request with
  | put key value lease =>
    simp only [RocksDBStore.serve,put_of_refused h]
    exact ⟨rfl,Or.inl (hmain _ rfl)⟩
  | delete key =>
    simp only [RocksDBStore.serve,delete_of_refused h]
    exact ⟨rfl,Or.inl (hmain _ rfl)⟩
  | deleteRange start stop =>
    obtain ⟨herr,hrev⟩ := deleteRange_of_refused h
    refine ⟨?_,Or.inl (hmain _ hrev)⟩
    simp only [RocksDBStore.serve,Prod.map,herr]
    rfl
  | commit txn =>
    obtain ⟨herr,hrev⟩ := commit_of_refused h
    refine ⟨?_,Or.inl (hmain _ hrev)⟩
    simp only [RocksDBStore.serve,Prod.map,herr]
    rfl
  | compact rev =>
    simp only [RocksDBStore.serve,compact_of_refused h]
    refine ⟨rfl,Or.inr fun heq => ?_⟩
    have hlow := (not_or.mp (not_or.mp h).2).1
    rw [Revision.lessThanOrEqual_iff] at hlow
    have heq : (⟨rev,0⟩ : Revision) = s.compactedRev := heq
    rw [← heq] at hlow
    exact hlow (by dsimp only; omega)
  | get key rev => exact absurd h id
  | range start stop rev limit => exact absurd h id
  | currentRevision => exact absurd h id
  | compactedRevision => exact absurd h id

/-- The error is always returned, but only requests that do not get to the database leave
revisions and index as they were. -/
theorem takesBack_iff (s : RocksDBStore) (request : Request) :
    (s.Attempts request → (s.serve false request).1.failed = true) ∧
      (s.TakesBack request ↔ ¬ s.Attempts request) := by
  refine ⟨fun h => (serve_of_refused h).1,fun h hattempts => ?_,fun h hattempts => absurd hattempts h⟩
  obtain ⟨-,hsame⟩ := h hattempts
  obtain hcurrent | hcompacted := (serve_of_refused hattempts).2
  · exact hcurrent hsame.currentRev
  · exact hcompacted hsame.compactedRev

/-- A refused put costs a revision, a refused transaction leaves its key in the index, where a
deletion then finds it, and a refused compaction makes its history unreadable. -/
theorem refused_writes_remain :
    let refusedPut := (empty.put false [97] [1] 0).2
    let refusedTxn := (empty.commit false ⟨[],[{ type := .put, key := [97], value := [1] }],[]⟩).2
    let written := ((empty.put true [97] [1] 0).2.put true [98] [2] 0).2
    let refusedCompaction := (written.compact false 2).2
    (empty.put true [97] [1] 0).1 = .ok 1 ∧ (refusedPut.put true [97] [1] 0).1 = .ok 2 ∧
      (empty.delete true [97]).1 = .ok (0,0) ∧ (refusedTxn.delete true [97]).1 = .ok (2,1) ∧
      written.get [97] 1 = .ok ⟨[97],[1],1,1,1,0⟩ ∧
      refusedCompaction.get [97] 1 = .error (.store .compacted) := by
  refine ⟨?_,?_,?_,?_,?_,?_⟩ <;> decide +kernel

end RocksDBStore

end MetaStore.MVCC
