import MetaStore.Memory.ReadCommits
import MetaStore.Raft.SnapshotRuns

/-! The memory engine behind its raft node: which snapshots are complete, and one that is
not. -/
namespace MetaStore.Raft
open Transition Memory

/-- The memory engine, with the decoder for the strings of a commit (a string that cannot be
decoded ends the process). The clock of every commit is free. -/
def memoryEngine (decode : Bytes → Option Datum) : Engine MemoryEtcd SnapshotData where
  init := .empty
  Applies data s t := ∃ clock ds w w',
    data.mapM decode = some ds ∧ ReadCommit clock ds ⟨s,w⟩ ⟨t,w'⟩
  getSnapshot := MemoryEtcd.getSnapshot
  recoverFromSnapshot := MemoryEtcd.recoverFromSnapshot
  getSnapshot_recover _ _ := rfl

/-- Every snapshot that the memory raft node stores in a careful run has the effect of every
entry up to its index and of no other. -/
theorem memoryEngine_snapshots_complete (cfg : Config) (decode : Bytes → Option Datum)
    (log : List Entry) (hlog : Indexed log) (index : ℕ) (store : MemoryEtcd)
    (hstart : Complete cfg (memoryEngine decode) log (index,store.getSnapshot))
    (events : List (Event MemoryEtcd SnapshotData)) (s : Node MemoryEtcd SnapshotData)
    (hrun : Run (Step cfg (memoryEngine decode)) (Allowed cfg (memoryEngine decode) log)
      (.start index store) events s) :
    ∀ snapshot ∈ s.taken, Complete cfg (memoryEngine decode) log snapshot :=
  complete_of_mem_taken cfg (memoryEngine decode) log hlog hstart hrun

def plainConfig (snapCount : ℕ) : Config where
  id := 1
  unmarshal _ := ⟨.other,0⟩
  snapCount := snapCount

/-- A put of key `a`. -/
def putA : RaftOperation where
  type := .put
  key := [97]
  value := [49]

def decodePutA (_ : Bytes) : Option Datum := some (.operation putA)

lemma allowed_of_internal {σ τ : Type*} {cfg : Config} {E : Engine σ τ} {log : List Entry}
    {s : Node σ τ} {event : Event σ τ} (hready : ∀ rd, event ≠ .ready rd)
    (hcareful : Careful cfg s event) : Allowed cfg E log s event :=
  ⟨fun rd hrd => absurd hrd (hready rd),hcareful⟩

theorem memoryEngine_snapshot_after_put :
    let log : List Entry := [⟨1,.normal,[1]⟩]
    let E := memoryEngine decodePutA
    let after : MemoryEtcd := MemoryEtcd.empty.applyPut putA
    Indexed log ∧ ∃ s : Node MemoryEtcd SnapshotData,
      Run (Step (plainConfig 0) E) (Allowed (plainConfig 0) E log) (.start 0 .empty)
        [.ready ⟨none,log⟩,.receive,.finish after,.close,.snapshot] s ∧
      s.taken = [(1,after.getSnapshot)] ∧
      ∀ snapshot ∈ s.taken, Complete (plainConfig 0) E log snapshot := by
  intro log E after
  have hlog : Indexed log := by
    intro p e he
    cases p with
    | zero => rw [← Option.some.inj he]
    | succ p => exact absurd he (by simp [log])
  have hstart : Complete (plainConfig 0) E log (0,MemoryEtcd.empty.getSnapshot) :=
    ⟨[],.nil,rfl⟩
  have hready : Allowed (plainConfig 0) E log (.start 0 .empty) (.ready ⟨none,log⟩) := by
    refine ⟨fun rd hrd => ?_,fun h => absurd h (by decide)⟩
    cases hrd
    exact ⟨⟨0,1,rfl⟩,fun _ h => absurd h (by simp)⟩
  have houtcome : E.Applies [[1]] .empty after :=
    ⟨fun _ => 0,[.operation putA],.empty,Waiters.empty.notify [],rfl,rfl⟩
  have hrun : Run (Step (plainConfig 0) E) (Allowed (plainConfig 0) E log) (.start 0 .empty)
      [.ready ⟨none,log⟩,.receive,.finish after,.close,.snapshot] _ :=
    .cons hready (.ready _ _ rfl) <|
    .cons (allowed_of_internal (by simp) trivial) (.receiveCommit _ [[1]] 1 rfl rfl) <|
    .cons (allowed_of_internal (by simp) trivial) (.finish _ .empty [[1]] rfl after houtcome) <|
    .cons (allowed_of_internal (by simp) trivial) (.close _ rfl) <|
    .cons (allowed_of_internal (by simp) fun _ => trivial)
      (.snapshot _ (some 1) rfl fun c hc => (Option.some.inj hc).ge) <|
    .nil _
  exact ⟨hlog,_,hrun,rfl,
    memoryEngine_snapshots_complete (plainConfig 0) decodePutA log hlog 0 .empty hstart _ _ hrun⟩

/-- One entry with data and `n` empty ones, as after changes of the leader. -/
def lateLog (n : ℕ) : List Entry :=
  ⟨1,.normal,[1]⟩ :: (List.range n).map fun p => ⟨p+2,.normal,[]⟩

lemma indexed_lateLog (n : ℕ) : Indexed (lateLog n) := by
  intro p e he
  cases p with
  | zero => rw [← Option.some.inj he]
  | succ p =>
    rw [lateLog,List.getElem?_cons_succ,List.getElem?_map] at he
    obtain ⟨q,hq,rfl⟩ := Option.map_eq_some_iff.mp he
    obtain ⟨hlt,rfl⟩ := List.getElem?_eq_some_iff.mp hq
    simp

lemma proposals_empty (cfg : Config) (index : ℕ) :
    (⟨index,.normal,[]⟩ : Entry).proposals cfg = [] := by
  simp [Entry.proposals]

lemma collectData_empty (cfg : Config) {ents : List Entry}
    (h : ∀ e ∈ ents, ∃ index, e = ⟨index,.normal,[]⟩) : collectData cfg ents = some [] := by
  induction ents with
  | nil => rfl
  | cons e ents ih =>
    obtain ⟨index,rfl⟩ := h _ List.mem_cons_self
    rw [collectData,if_neg (by simp [Entry.removesSelf]),
      ih fun e he => h e (List.mem_cons_of_mem _ he),proposals_empty]
    rfl

section Late
variable (k : ℕ)

lemma take_lateLog : (lateLog (k+1)).take (k+1) =
    ⟨1,.normal,[1]⟩ :: ((List.range (k+1)).map fun p => (⟨p+2,.normal,[]⟩ : Entry)).take k := rfl

lemma drop_lateLog : (lateLog (k+1)).drop (k+1) = [⟨k+2,.normal,[]⟩] := by
  rw [lateLog,List.drop_succ_cons,List.range_succ,List.map_append,List.drop_left' (by simp)]
  rfl

lemma proposalsUpTo_lateLog (c : ℕ) :
    proposalsUpTo (plainConfig c) (lateLog (k+1)) (k+2) = [[1]] := by
  have htail : ((List.range (k+1)).map fun p => (⟨p+2,.normal,[]⟩ : Entry)).flatMap
      (Entry.proposals (plainConfig c)) = [] := by
    rw [List.flatMap_eq_nil_iff]
    intro e he
    obtain ⟨p,-,rfl⟩ := List.mem_map.mp he
    exact proposals_empty _ _
  rw [proposalsUpTo,List.take_of_length_le (by simp [lateLog]),lateLog,List.flatMap_cons,htail]
  rfl

variable {σ τ : Type*} (E : Engine σ τ)

lemma publishEntries_first :
    (Node.start 0 E.init : Node σ τ).publishEntries (plainConfig (k+1))
      ((lateLog (k+1)).take (k+1)) =
    { (Node.start 0 E.init : Node σ τ) with loop := .sendCommit [[1]] (k+1) } := by
  have hlast := lastIndex_eq (indexed_lateLog (k+1))
    (show _ :: _ = ((lateLog (k+1)).drop 0).take (k+1) from (take_lateLog k).symm)
  have hdata : collectData (plainConfig (k+1)) ((lateLog (k+1)).take (k+1)) = some [[1]] := by
    rw [take_lateLog,collectData,if_neg (by simp [Entry.removesSelf]),collectData_empty]
    · rfl
    · intro e he
      obtain ⟨p,-,rfl⟩ := List.mem_map.mp (List.mem_of_mem_take he)
      exact ⟨_,rfl⟩
  have hlen : ((lateLog (k+1)).take (k+1)).length = k+1 := by simp [lateLog]
  rw [Node.publishEntries_of_data rfl hdata (by simp [plainConfig]),hlast,Nat.zero_add]
  exact congrArg (fun n => { (Node.start 0 E.init : Node σ τ) with loop := .sendCommit [[1]] n }) hlen

lemma publishEntries_second (s : Node σ τ) (happlied : s.appliedIndex = k+1)
    (hsnapshot : s.snapshotIndex = 0) :
    s.publishEntries (plainConfig (k+1)) ((lateLog (k+1)).drop (k+1)) =
      { s with appliedIndex := k+2, loop := .trigger none } := by
  have hdata : collectData (plainConfig (k+1)) [⟨k+2,.normal,[]⟩] = some [] :=
    collectData_empty _ fun e he => ⟨_,List.mem_singleton.mp he⟩
  have hents : entriesToApply s.appliedIndex [⟨k+2,.normal,[]⟩] = some [⟨k+2,.normal,[]⟩] := by
    simp [entriesToApply,happlied]
  rw [drop_lateLog,Node.publishEntries_of_empty hents hdata (Or.inr rfl),
    Node.maybeTriggerSnapshot_of_lt]
  · rfl
  · simp [hsnapshot,plainConfig]

lemma late_run : ∃ s : Node σ τ,
    Run (Step (plainConfig (k+1)) E)
      (fun _ event => ∀ rd, event = .ready rd → rd.Valid (plainConfig (k+1)) E (lateLog (k+1)))
      (.start 0 E.init)
      [.ready ⟨none,(lateLog (k+1)).take (k+1)⟩,.receive,
        .ready ⟨none,(lateLog (k+1)).drop (k+1)⟩,.snapshot] s ∧
    s.taken = [(k+2,E.getSnapshot E.init)] := by
  have hfirst : ∀ rd, Event.ready ⟨none,(lateLog (k+1)).take (k+1)⟩ =
      (Event.ready rd : Event σ τ) → rd.Valid (plainConfig (k+1)) E (lateLog (k+1)) := by
    intro rd hrd
    cases hrd
    exact ⟨⟨0,k+1,rfl⟩,fun _ h => absurd h (by simp)⟩
  have hsecond : ∀ rd, Event.ready ⟨none,(lateLog (k+1)).drop (k+1)⟩ =
      (Event.ready rd : Event σ τ) → rd.Valid (plainConfig (k+1)) E (lateLog (k+1)) := by
    intro rd hrd
    cases hrd
    refine ⟨⟨k+1,1,?_⟩,fun _ h => absurd h (by simp)⟩
    rw [drop_lateLog]
    rfl
  let s₁ : Node σ τ := { (.start 0 E.init : Node σ τ) with loop := .sendCommit [[1]] (k+1) }
  let s₂ : Node σ τ :=
    { s₁ with applier := .working E.init [[1]], commits := 1, appliedIndex := k+1, loop := .idle }
  let s₃ : Node σ τ := { s₂ with appliedIndex := k+2, loop := .trigger none }
  have hready₁ : Step (plainConfig (k+1)) E (.start 0 E.init)
      (.ready ⟨none,(lateLog (k+1)).take (k+1)⟩) s₁ := by
    rw [show s₁ = _ from (publishEntries_first k E).symm]
    exact .ready _ _ rfl
  have hreceive : Step (plainConfig (k+1)) E s₁ .receive s₂ := by
    have hstep : Step (plainConfig (k+1)) E s₁ .receive _ := .receiveCommit s₁ [[1]] (k+1) rfl rfl
    rwa [Node.maybeTriggerSnapshot_of_le (show k+1-0 ≤ k+1 from le_rfl)] at hstep
  have hready₂ : Step (plainConfig (k+1)) E s₂ (.ready ⟨none,(lateLog (k+1)).drop (k+1)⟩) s₃ := by
    rw [show s₃ = _ from (publishEntries_second k s₂ rfl rfl).symm]
    exact .ready _ _ rfl
  have hsnapshot : Step (plainConfig (k+1)) E s₃ .snapshot (s₃.storeSnapshot E) :=
    .snapshot s₃ none rfl fun c hc => absurd hc (by simp)
  exact ⟨_,.cons hfirst hready₁ <| .cons (by simp) hreceive <| .cons hsecond hready₂ <|
    .cons (by simp) hsnapshot <| .nil _,rfl⟩

end Late

lemma revision_of_effects {commits : List (List Bytes)} {d : SnapshotData}
    (h : Effects (memoryEngine decodePutA) commits d) (hone : commits.flatten.length ≤ 1) :
    d.revision = commits.flatten.length := by
  induction h with
  | nil => rfl
  | @commit commits data s t _ outcome ih =>
    simp only [List.flatten_append,List.flatten_singleton,List.length_append] at hone ⊢
    have hbefore := ih (by omega)
    obtain ⟨clock,ds,w,w',hds,hread⟩ := outcome
    cases data with
    | nil =>
      obtain rfl : [] = ds := Option.some.inj hds
      obtain rfl : t = s := congrArg Memory.etcd hread
      exact hbefore.trans (by simp)
    | cons x rest =>
      obtain rfl : rest = [] := List.length_eq_zero_iff.mp (by rw [List.length_cons] at hone; omega)
      obtain rfl : [.operation putA] = ds := Option.some.inj hds
      obtain rfl : t = s.applyPut putA := congrArg Memory.etcd hread
      exact (congrArg (·+1) hbefore).trans (by simp)

/-- With the default of 10000 entries between snapshots: the put of the first Ready is still
being applied when the second Ready, without data, passes the limit. The snapshot at index
10001 is the empty one. -/
theorem memoryEngine_snapshot_misses_commit :
    let E := memoryEngine decodePutA
    let cfg := plainConfig 10000
    let log := lateLog 10000
    Indexed log ∧
    (∃ events s, Run (Step cfg E) (fun _ event => ∀ rd, event = .ready rd → rd.Valid cfg E log)
        (.start 0 .empty) events s ∧ (10001,MemoryEtcd.empty.getSnapshot) ∈ s.taken) ∧
    ¬ Complete cfg E log (10001,MemoryEtcd.empty.getSnapshot) := by
  intro E cfg log
  obtain ⟨s,hrun,htaken⟩ := late_run 9999 E
  refine ⟨indexed_lateLog 10000,⟨_,s,hrun,?_⟩,?_⟩
  · rw [htaken]
    exact List.mem_cons_self
  · rintro ⟨commits,heffects,hflatten⟩
    have hstrings : commits.flatten = [[1]] := hflatten.trans (proposalsUpTo_lateLog 9999 10000)
    have hrevision := revision_of_effects heffects (by rw [hstrings]; rfl)
    rw [hstrings] at hrevision
    exact absurd hrevision (by decide)

end MetaStore.Raft
