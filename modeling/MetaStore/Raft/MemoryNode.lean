import MetaStore.Batch.Codec

/-! The raft node of the memory engine and its apply goroutine (internal/raft/node_memory.go,
`readCommits` of internal/memory/kvstore.go). The raft loop hands commits over an unbuffered
channel and goes on; whether a commit has been applied shows in its done channel only. The
raft library is represented by the Ready batches it delivers. -/
namespace MetaStore.Raft

inductive EntryType
  | normal | confChange | other
  deriving DecidableEq, Repr

structure Entry where
  index : ℕ
  type : EntryType
  data : Bytes
  deriving DecidableEq, Repr

inductive ConfChangeType
  | addNode | removeNode | other
  deriving DecidableEq, Repr

structure ConfChange where
  type : ConfChangeType
  nodeID : ℕ

/-- The configuration of a node, with the decoder of the raft library for membership changes. -/
structure Config where
  id : ℕ
  unmarshal : Bytes → ConfChange
  witness : Bool := false
  batchEnable : Bool := false
  snapCount : ℕ := 10000

def Entry.proposals (cfg : Config) (e : Entry) : List Bytes :=
  if e.type = .normal ∧ e.data ≠ [] then
    if cfg.batchEnable then (Batch.decodeBatch e.data).toOption.getD [] else [e.data]
  else []

def Entry.removesSelf (cfg : Config) (e : Entry) : Prop :=
  e.type = .confChange ∧ (cfg.unmarshal e.data).type = .removeNode ∧
    (cfg.unmarshal e.data).nodeID = cfg.id

instance (cfg : Config) (e : Entry) : Decidable (e.removesSelf cfg) :=
  inferInstanceAs (Decidable (_ ∧ _ ∧ _))

/-- The loop over the entries; it ends the node when an entry removes it from the cluster. -/
def collectData (cfg : Config) : List Entry → Option (List Bytes)
  | [] => some []
  | e :: ents =>
    if e.removesSelf cfg then none
    else (collectData cfg ents).map (e.proposals cfg ++ ·)

def entriesToApply (appliedIndex : ℕ) : List Entry → Option (List Entry)
  | [] => some []
  | e :: ents =>
    if appliedIndex+1 < e.index then none else some ((e :: ents).drop (appliedIndex+1-e.index))

/-- A key-value engine as the node sees it: the outcomes of a commit, and snapshots that
replace its data. -/
structure Engine (σ τ : Type*) where
  init : σ
  Applies : List Bytes → σ → σ → Prop
  getSnapshot : σ → τ
  recoverFromSnapshot : σ → τ → σ
  getSnapshot_recover : ∀ s d, getSnapshot (recoverFromSnapshot s d) = d

/-- Where the raft loop stands: waiting for a Ready, handing over nil or a commit, or about
to take a snapshot once the done channel of the given commit is closed. -/
inductive Loop
  | idle
  | sendNil (index : ℕ) (ents : List Entry)
  | sendCommit (data : List Bytes) (lastIndex : ℕ)
  | trigger (applyDoneC : Option ℕ)
  | stopped

/-- The loop stands in a `select` that the stop channel can end. -/
def Loop.Selects : Loop → Prop
  | idle => True
  | sendNil _ _ => False
  | sendCommit _ _ => True
  | trigger applyDoneC => applyDoneC ≠ none
  | stopped => False

/-- Where the apply goroutine stands. `base` is the data it found. -/
inductive Applier (σ : Type*)
  | idle
  | working (base : σ) (data : List Bytes)
  | finished
  | reloading

/-- Commits are numbered in the order of their hand-over. The goroutine closes their done
channels in this order, so that `closed` says which are closed. `saved` is the newest
snapshot file and `taken` has the snapshots that the loop has stored. -/
structure Node (σ τ : Type*) where
  appliedIndex : ℕ
  snapshotIndex : ℕ
  loop : Loop
  applier : Applier σ
  store : σ
  commits : ℕ
  closed : ℕ
  saved : Option (ℕ × τ)
  taken : List (ℕ × τ)

structure Ready (τ : Type*) where
  snapshot : Option (ℕ × τ)
  committedEntries : List Entry

namespace Node
variable {σ τ : Type*} (cfg : Config)

/-- The start of `serveChannels`, with the engine's data up to a snapshot. -/
def start (index : ℕ) (store : σ) : Node σ τ :=
  ⟨index,index,.idle,.idle,store,0,0,none,[]⟩

/-- `maybeTriggerSnapshot` up to its wait for the done channel. -/
def maybeTriggerSnapshot (s : Node σ τ) (applyDoneC : Option ℕ) : Node σ τ :=
  if s.appliedIndex-s.snapshotIndex ≤ cfg.snapCount then { s with loop := .idle }
  else { s with loop := .trigger applyDoneC }

/-- `publishEntries` on the entries to apply, up to its hand-over. Without data there is none
and no done channel. -/
def publishEntries (s : Node σ τ) (ents : List Entry) : Node σ τ :=
  match entriesToApply s.appliedIndex ents with
  | none => { s with loop := .stopped }
  | some [] => s.maybeTriggerSnapshot cfg none
  | some (e :: es) =>
    match collectData cfg (e :: es) with
    | none => { s with loop := .stopped }
    | some data =>
      let lastIndex := ((e :: es).getLast?.map Entry.index).getD 0
      if cfg.witness ∨ data = [] then
        { s with appliedIndex := lastIndex }.maybeTriggerSnapshot cfg none
      else { s with loop := .sendCommit data lastIndex }

variable {cfg} in
lemma maybeTriggerSnapshot_of_le {s : Node σ τ} (h : s.appliedIndex-s.snapshotIndex ≤ cfg.snapCount)
    (applyDoneC : Option ℕ) : s.maybeTriggerSnapshot cfg applyDoneC = { s with loop := .idle } :=
  if_pos h

variable {cfg} in
lemma maybeTriggerSnapshot_of_lt {s : Node σ τ} (h : cfg.snapCount < s.appliedIndex-s.snapshotIndex)
    (applyDoneC : Option ℕ) :
    s.maybeTriggerSnapshot cfg applyDoneC = { s with loop := .trigger applyDoneC } :=
  if_neg (Nat.not_le.mpr h)

section Publish
variable {cfg} {s : Node σ τ} {ents es : List Entry} {e : Entry} {data : List Bytes}

lemma publishEntries_of_data (hents : entriesToApply s.appliedIndex ents = some (e :: es))
    (hdata : collectData cfg (e :: es) = some data) (hne : ¬ (cfg.witness ∨ data = [])) :
    s.publishEntries cfg ents =
      { s with loop := .sendCommit data (((e :: es).getLast?.map Entry.index).getD 0) } := by
  simp only [publishEntries,hents,hdata,if_neg hne]

lemma publishEntries_of_empty (hents : entriesToApply s.appliedIndex ents = some (e :: es))
    (hdata : collectData cfg (e :: es) = some data) (hempty : cfg.witness ∨ data = []) :
    s.publishEntries cfg ents =
      { s with appliedIndex := ((e :: es).getLast?.map Entry.index).getD 0
        }.maybeTriggerSnapshot cfg none := by
  simp only [publishEntries,hents,hdata,if_pos hempty]

end Publish

/-- The loop body up to its first hand-over. A received snapshot is saved before anything else
and must be ahead of the applied index. -/
def handleReady (s : Node σ τ) (rd : Ready τ) : Node σ τ :=
  match rd.snapshot with
  | none => s.publishEntries cfg rd.committedEntries
  | some (index,data) =>
    if index ≤ s.appliedIndex then { s with saved := some (index,data), loop := .stopped }
    else { s with saved := some (index,data), loop := .sendNil index rd.committedEntries }

/-- The rest of `maybeTriggerSnapshot`: the data as it is goes into a snapshot at the applied
index. -/
def storeSnapshot (E : Engine σ τ) (s : Node σ τ) : Node σ τ :=
  { s with
    saved := some (s.appliedIndex,E.getSnapshot s.store)
    taken := (s.appliedIndex,E.getSnapshot s.store) :: s.taken
    snapshotIndex := s.appliedIndex
    loop := .idle }

end Node

inductive Event (σ τ : Type*)
  | ready (rd : Ready τ)
  | receive
  | work (store : σ)
  | finish (store : σ)
  | close
  | reload
  | snapshot
  | stop

/-- The steps of the raft loop and of the apply goroutine. While the goroutine works on a
commit, the data may pass through any states. -/
inductive Step {σ τ : Type*} (cfg : Config) (E : Engine σ τ) :
    Node σ τ → Event σ τ → Node σ τ → Prop
  | ready (s : Node σ τ) (rd : Ready τ) (h : s.loop = .idle) :
      Step cfg E s (.ready rd) (s.handleReady cfg rd)
  | receiveNil (s : Node σ τ) (index : ℕ) (ents : List Entry) (h : s.loop = .sendNil index ents)
      (idle : s.applier = .idle) :
      Step cfg E s .receive
        ({ s with applier := .reloading, snapshotIndex := index,
                  appliedIndex := index }.publishEntries cfg ents)
  | receiveCommit (s : Node σ τ) (data : List Bytes) (lastIndex : ℕ)
      (h : s.loop = .sendCommit data lastIndex) (idle : s.applier = .idle) :
      Step cfg E s .receive
        ({ s with applier := .working s.store data, commits := s.commits+1,
                  appliedIndex := lastIndex }.maybeTriggerSnapshot cfg (some (s.commits+1)))
  | work (s : Node σ τ) (base : σ) (data : List Bytes) (h : s.applier = .working base data)
      (store : σ) : Step cfg E s (.work store) { s with store := store }
  | finish (s : Node σ τ) (base : σ) (data : List Bytes) (h : s.applier = .working base data)
      (store : σ) (outcome : E.Applies data base store) :
      Step cfg E s (.finish store) { s with store := store, applier := .finished }
  | close (s : Node σ τ) (h : s.applier = .finished) :
      Step cfg E s .close { s with applier := .idle, closed := s.closed+1 }
  | reload (s : Node σ τ) (h : s.applier = .reloading) (index : ℕ) (data : τ)
      (newest : s.saved = some (index,data)) :
      Step cfg E s .reload
        { s with applier := .idle, store := E.recoverFromSnapshot s.store data }
  | snapshot (s : Node σ τ) (applyDoneC : Option ℕ) (h : s.loop = .trigger applyDoneC)
      (done : ∀ c ∈ applyDoneC, c ≤ s.closed) : Step cfg E s .snapshot (s.storeSnapshot E)
  | stop (s : Node σ τ) (h : s.loop.Selects) :
      Step cfg E s .stop { s with loop := .stopped }

end MetaStore.Raft
