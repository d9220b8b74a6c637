import MetaStore.RocksDB.SameRecords
import MetaStore.RocksDB.Snapshot

/-! A node on RocksDB that crashes and starts again. The database survives the crash but does
not say how far the log has been applied to it; the raft node starts from its newest
snapshot and publishes the committed entries after it again. The log is a list of commits,
which are applied and written as a whole and are cut the same way when they are published
again. The clock readings belong to the commits, so that a commit applied again sees the
same times. -/
namespace MetaStore.RocksDB
open Std

inductive Datum
  | operations (ops : List RaftOperation)
  | legacy (key val : Bytes)

/-- The loop over the strings of a commit: legacy puts are applied on the way, operations
are collected. -/
def collect (env : Env) : Records → List Datum → Records × List RaftOperation
  | r,[] => (r,[])
  | r,.operations ops :: data =>
    let rest := collect env r data
    (rest.1,ops ++ rest.2)
  | r,.legacy key val :: data => collect env (putUnlocked env r key val 0).1 data

/-- The body of `readCommits`. -/
def readCommit (env : Env) (e : Engine) (data : List Datum) : Engine :=
  let s := collect env e.records data
  applyOperationsBatch env true ⟨s.1,e.waiters⟩ s.2

/-- The revision is stored as eight little-endian bytes and read back by gob, which accepts
no such bytes, so that every failure gives 0. -/
def loadCurrentRevision (db : Database) : ℤ :=
  match db[revisionKey]? with
  | none => 0
  | some _ => 0

/-- `NewRocksDB` on a surviving database, with the newest snapshot file if there is one. -/
def newRocksDB (db : Database) (snapshot : Option Database) : Records :=
  let db := match snapshot with
    | some data => recoverFromSnapshot db data
    | none => db
  ⟨db,loadCurrentRevision db,0⟩

/-- A node: its store, the number of commits it has applied, and its newest snapshot with
the number of commits in it. -/
structure Node where
  records : Records
  applied : ℕ
  snapshot : Option (ℕ × Database)

inductive Event
  | commit | snapshot | restart
  deriving DecidableEq, Repr

section Runs
variable (clock : ℕ → ℕ → ℤ) (log : List (List Datum))
variable {n : Node} {events : List Event} {T : ℤ → ℤ → Prop} {r s : Records}

/-- The effect of the `n`-th commit, which takes its clock readings from `clock n`. -/
def applyCommit (n : ℕ) (r : Records) (data : List Datum) : Records :=
  { (readCommit { clock := clock n } ⟨r,.empty⟩ data).records with ticks := 0 }

def Node.new : Node := ⟨⟨∅,0,0⟩,0,none⟩

def Node.step (n : Node) : Event → Node
  | .commit =>
    match log[n.applied]? with
    | some data => { n with records := applyCommit clock n.applied n.records data,
                            applied := n.applied+1 }
    | none => n
  | .snapshot => { n with snapshot := some (n.applied,getSnapshot n.records.db) }
  | .restart =>
    { n with records := newRocksDB n.records.db (n.snapshot.map Prod.snd),
             applied := (n.snapshot.map Prod.fst).getD 0 }

def Node.run (events : List Event) : Node := events.foldl (Node.step clock log) .new

def once : ℕ → Records
  | 0 => Node.new.records
  | n+1 =>
    match log[n]? with
    | some data => applyCommit clock n (once n) data
    | none => once n

def ExactlyOnce (n : Node) : Prop := SameRecords n.records (once clock log n.applied)

/-- A restart starts from the right records and revision: no operation up to the newest
snapshot has drawn a revision, or, without a snapshot, the operations applied so far have
left no record and no lease. -/
def Recoverable (n : Node) : Prop :=
  match n.snapshot with
  | some (i,_) => (once clock log i).cachedRevision = 0
  | none => ∀ x, StoreKey x → n.records.db[x]? = none

lemma Alike.collect {env env' : Env} {d : ℤ}
    (h : Alike T env env' d r s) (data : List Datum) :
    Alike T env env' d (collect env r data).1 (RocksDB.collect env' s data).1 ∧
      (RocksDB.collect env r data).2 = (RocksDB.collect env' s data).2 := by
  induction data generalizing r s with
  | nil => exact ⟨h,rfl⟩
  | cons datum data ih =>
    cases datum with
    | operations ops =>
      obtain ⟨hrecords,hops⟩ := ih h
      exact ⟨hrecords,congrArg (ops ++ ·) hops⟩
    | legacy key val => exact ih (h.putUnlocked key val 0).1

theorem Alike.readCommit {env env' : Env} {d : ℤ}
    (h : Alike T env env' d r s) (w w' : Waiters) (data : List Datum) :
    Alike T env env' d (readCommit env ⟨r,w⟩ data).records
      (RocksDB.readCommit env' ⟨s,w'⟩ data).records := by
  obtain ⟨hrecords,hops⟩ := h.collect data
  unfold RocksDB.readCommit
  dsimp only
  rw [hops]
  exact hrecords.applyOperationsBatch w w' _

lemma applyCommit_same (h : SameRecords r s) (n : ℕ) (data : List Datum) :
    SameRecords (applyCommit clock n r data) (applyCommit clock n s data) := by
  have halike := ((sameRecords_iff_alike { clock := clock n }).mp h).readCommit .empty .empty data
  have hsame := (sameRecords_iff_alike { clock := clock n }).mpr halike
  exact ⟨hsame.db,hsame.revision,rfl⟩

def SnapshotExact (n : Node) : Prop :=
  ∀ i data, n.snapshot = some (i,data) →
    ∀ x, StoreKey x → data[x]? = (once clock log i).db[x]?

lemma loadCurrentRevision_eq_zero (db : Database) : loadCurrentRevision db = 0 := by
  unfold loadCurrentRevision
  split <;> rfl

lemma ticks_once (n : ℕ) : (once clock log n).ticks = 0 := by
  induction n with
  | zero => rfl
  | succ n ih =>
    rw [once]
    split
    · rfl
    · exact ih

variable {clock log} in
lemma exactlyOnce_commit (h : ExactlyOnce clock log n) :
    ExactlyOnce clock log (n.step clock log .commit) := by
  unfold ExactlyOnce Node.step
  cases hdata : log[n.applied]? with
  | none => exact h
  | some data =>
    simp only [once,hdata]
    exact applyCommit_same clock h n.applied data

variable {clock log} in
lemma exactlyOnce_restart_iff (hsnap : SnapshotExact clock log n) :
    ExactlyOnce clock log (n.step clock log .restart) ↔ Recoverable clock log n := by
  unfold ExactlyOnce Node.step Recoverable
  cases hs : n.snapshot with
  | none =>
    simp only [Option.map_none,Option.getD_none,newRocksDB,loadCurrentRevision_eq_zero,once]
    constructor
    · intro h x hx
      rw [h.db x hx]
      rfl
    · exact fun h => ⟨fun x hx => (h x hx).trans rfl,rfl,rfl⟩
  | some snap =>
    obtain ⟨i,data⟩ := snap
    simp only [Option.map_some,Option.getD_some,newRocksDB,loadCurrentRevision_eq_zero,
      recoverFromSnapshot_eq]
    exact ⟨fun h => h.revision.symm,
      fun h => ⟨hsnap i data hs,h.symm,(ticks_once clock log i).symm⟩⟩

variable {clock log} in
lemma snapshotExact_step (h : ExactlyOnce clock log n)
    (hsnap : SnapshotExact clock log n) (e : Event) : SnapshotExact clock log (n.step clock log e) := by
  cases e with
  | commit =>
    unfold Node.step
    cases log[n.applied]? with
    | none => exact hsnap
    | some data => exact hsnap
  | snapshot =>
    intro i data hs x hx
    simp only [Node.step,getSnapshot_eq,Option.some.injEq,Prod.mk.injEq] at hs
    obtain ⟨rfl,rfl⟩ := hs
    exact h.db x hx
  | restart => exact hsnap

lemma run_append_singleton (es : List Event) (e : Event) :
    Node.run clock log (es ++ [e]) = (Node.run clock log es).step clock log e := by
  simp [Node.run]

lemma exact_of_recoverable
    (h : ∀ es, es ++ [.restart] <+: events → Recoverable clock log (Node.run clock log es))
    (es : List Event) (hes : es <+: events) :
    ExactlyOnce clock log (Node.run clock log es) ∧ SnapshotExact clock log (Node.run clock log es) := by
  induction es using List.reverseRecOn with
  | nil => exact ⟨.refl _,fun i data hs => by cases hs⟩
  | append_singleton es e ih =>
    obtain ⟨hexact,hsnap⟩ := ih ((List.prefix_append es [e]).trans hes)
    rw [run_append_singleton]
    refine ⟨?_,snapshotExact_step hexact hsnap e⟩
    cases e with
    | commit => exact exactlyOnce_commit hexact
    | snapshot => exact hexact
    | restart => exact (exactlyOnce_restart_iff hsnap).mpr (h es hes)

lemma snapshotExact_of_exact
    (h : ∀ es, es <+: events → ExactlyOnce clock log (Node.run clock log es))
    (es : List Event) (hes : es <+: events) : SnapshotExact clock log (Node.run clock log es) := by
  induction es using List.reverseRecOn with
  | nil => exact fun i data hs => by cases hs
  | append_singleton es e ih =>
    have hes' := (List.prefix_append es [e]).trans hes
    rw [run_append_singleton]
    exact snapshotExact_step (h es hes') (ih hes') e

end Runs

end MetaStore.RocksDB
