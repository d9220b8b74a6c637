import MetaStore.MVCC.MemoryStore

/-! What an MVCC store is for: one snapshot of all live keys for every main revision. A call
that changes something makes the next snapshot out of the latest one, as a whole. -/
namespace MetaStore.MVCC

abbrev Snapshot := Bytes → Option KeyValue

namespace Snapshot

def put (m : Snapshot) (main : ℤ) (key value : Bytes) (lease : ℤ) : Snapshot :=
  Function.update m key <| some <|
    match m key with
    | none => ⟨key,value,main,main,1,lease⟩
    | some prev => ⟨key,value,prev.createRevision,main,prev.version+1,lease⟩

def delete (m : Snapshot) (key : Bytes) : Snapshot := Function.update m key none

def deleteRange (m : Snapshot) (start : Bytes) (stop : Option Bytes) : Snapshot :=
  fun key => if inSpan start stop key then none else m key

def execute (main : ℤ) (m : Snapshot) (op : Op) : Snapshot :=
  match op.type with
  | .put => m.put main op.key op.value op.lease
  | .delete => m.delete op.key
  | .deleteRange => m.deleteRange op.key op.stop
  | .get => m
  | .other _ => m

def live (m : Snapshot) : Set Bytes := {key | m key ≠ none}

end Snapshot

/-- `view r` is the snapshot of main revision `r`. -/
structure Timeline where
  current : ℤ
  view : ℤ → Snapshot

namespace Timeline

def empty : Timeline := ⟨0,fun _ _ => none⟩

def latest (t : Timeline) : Snapshot := t.view t.current

def advance (t : Timeline) (m : Snapshot) : Timeline :=
  ⟨t.current+1,Function.update t.view (t.current+1) m⟩

open Classical in
/-- Deletions that find nothing take no revision; a transaction always takes one. -/
noncomputable def step (t : Timeline) : Call → Timeline
  | .put key value lease =>
    if key = [] then t else t.advance (t.latest.put (t.current+1) key value lease)
  | .delete key =>
    if key = [] ∨ t.latest key = none then t else t.advance (t.latest.delete key)
  | .deleteRange start stop =>
    if start = [] ∨ ∀ key, inSpan start stop key = true → t.latest key = none then t
    else t.advance (t.latest.deleteRange start stop)
  | .commit txn =>
    match succeeded t.latest txn.conditions with
    | none => t
    | some b =>
      let ops := if b then txn.thenOps else txn.elseOps
      t.advance (ops.foldl (Snapshot.execute (t.current+1)) t.latest)

noncomputable def run (calls : List Call) : Timeline := calls.foldl step empty

def amend (t : Timeline) (m : Snapshot) : Timeline :=
  { t with view := Function.update t.view t.current m }

@[simp] lemma latest_advance (t : Timeline) (m : Snapshot) : (t.advance m).latest = m :=
  Function.update_self ..

@[simp] lemma latest_amend (t : Timeline) (m : Snapshot) : (t.amend m).latest = m :=
  Function.update_self ..

lemma view_amend {t : Timeline} {r : ℤ} (h : r ≠ t.current) (m : Snapshot) :
    (t.amend m).view r = t.view r :=
  Function.update_of_ne h ..

lemma amend_latest (t : Timeline) : t.amend t.latest = t := by
  rw [amend,latest,Function.update_eq_self]

lemma amend_advance (t : Timeline) (m m' : Snapshot) :
    (t.advance m).amend m' = t.advance m' := by
  rw [amend,advance,advance,Function.update_idem]

lemma view_advance {t : Timeline} {r : ℤ} (h : r ≤ t.current) (m : Snapshot) :
    (t.advance m).view r = t.view r :=
  Function.update_of_ne (by omega) ..

end Timeline

namespace Op

/-- The keys that an operation writes when the keys of `live` are live. -/
def writes (live : Set Bytes) (op : Op) : Set Bytes :=
  match op.type with
  | .put => {op.key}
  | .delete => live ∩ {op.key}
  | .deleteRange => live ∩ {key | inSpan op.key op.stop key = true}
  | .get => ∅
  | .other _ => ∅

def liveAfter (live : Set Bytes) (op : Op) : Set Bytes :=
  match op.type with
  | .put => insert op.key live
  | _ => live \ op.writes live

end Op

namespace Snapshot

lemma live_execute (main : ℤ) (m : Snapshot) (op : Op) :
    (m.execute main op).live = op.liveAfter m.live := by
  obtain ⟨type,key,stop,value,lease⟩ := op
  ext k
  cases type with
  | put => by_cases h : k = key <;> simp [execute,put,live,Op.liveAfter,h]
  | get => simp [execute,live,Op.liveAfter,Op.writes]
  | delete =>
    by_cases h : k = key <;> simp [execute,delete,live,Op.liveAfter,Op.writes,h]
  | deleteRange =>
    by_cases h : inSpan key stop k = true <;>
      simp [execute,deleteRange,live,Op.liveAfter,Op.writes,h]
  | other code => simp [execute,live,Op.liveAfter,Op.writes]

lemma execute_of_quiet {m : Snapshot} {op : Op} (h : op.writes m.live = ∅) (main : ℤ) :
    m.execute main op = m := by
  obtain ⟨type,key,stop,value,lease⟩ := op
  cases type with
  | put => exact absurd h (Set.singleton_ne_empty key)
  | get => rfl
  | delete =>
    have hkey : m key = none := by
      by_contra hlive
      exact Set.notMem_empty key (h ▸ ⟨hlive,rfl⟩)
    exact Function.update_eq_self_iff.mpr hkey.symm
  | deleteRange =>
    funext k
    simp only [execute,deleteRange]
    split
    · next hspan =>
      by_contra hlive
      exact Set.notMem_empty k (h ▸ ⟨fun hnone => hlive hnone.symm,hspan⟩)
    · rfl
  | other code => rfl

end Snapshot

end MetaStore.MVCC
