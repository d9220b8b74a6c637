import MetaStore.LeaseRead.ReadIndex
import MetaStore.Raft.MemorySnapshots

/-! The memory raft node with the reads that wait for its applied index. The loop announces an
index as soon as the commit is handed over (`publishEntries`), which is right for the reads
only when the apply goroutine has done its work by then. -/
namespace MetaStore.Raft
open Transition Memory LeaseRead

variable {σ τ : Type*}

/-- The index that `publishEntries` announces when it has nothing to hand over. A witness
announces nothing. -/
def announced (cfg : Config) (appliedIndex : ℕ) (ents : List Entry) : Option ℕ :=
  match entriesToApply appliedIndex ents with
  | some (e :: es) =>
    if cfg.witness = false ∧ collectData cfg (e :: es) = some [] then
      some (((e :: es).getLast?.map Entry.index).getD 0)
    else none
  | _ => none

def Node.announces (cfg : Config) (s : Node σ τ) : Event σ τ → Option ℕ
  | .ready rd =>
    match rd.snapshot with
    | none => announced cfg s.appliedIndex rd.committedEntries
    | some _ => none
  | .receive =>
    match s.loop with
    | .sendNil index ents => announced cfg index ents
    | .sendCommit _ lastIndex => some lastIndex
    | _ => none
  | _ => none

def Event.ofLoop : Event σ τ → Bool
  | .ready _ => true
  | .receive => true
  | .snapshot => true
  | .stop => true
  | _ => false

def Node.Survives (s : Node σ τ) : Event σ τ → Prop
  | .ready rd => ∀ snapshot ∈ rd.snapshot, s.appliedIndex < snapshot.1
  | _ => True

/-- The node and its readers. The loop is about to call `NotifyApplied` when `notifying` has
an index. -/
structure Served (σ τ : Type*) where
  node : Node σ τ
  notifying : Option ℕ
  reads : Reads

inductive ServedEvent (σ τ : Type*)
  | node (event : Event σ τ)
  | notifyApplied
  | read (event : ReadEvent)

/-- The steps of the loop, the apply goroutine and the readers, `leaseRead` being the setting
that turns the notifications on. -/
inductive ServedStep (cfg : Config) (E : Engine σ τ) (leaseRead : Bool) :
    Served σ τ → ServedEvent σ τ → Served σ τ → Prop
  | loop (s : Served σ τ) (event : Event σ τ) (node : Node σ τ) (ofLoop : event.ofLoop = true)
      (free : s.notifying = none) (survives : s.node.Survives event)
      (step : Step cfg E s.node event node) :
      ServedStep cfg E leaseRead s (.node event)
        { s with node := node
                 notifying := if leaseRead then s.node.announces cfg event else none }
  | applier (s : Served σ τ) (event : Event σ τ) (node : Node σ τ)
      (ofLoop : event.ofLoop = false) (step : Step cfg E s.node event node) :
      ServedStep cfg E leaseRead s (.node event) { s with node := node }
  | notifyApplied (s : Served σ τ) (appliedIndex : ℕ) (h : s.notifying = some appliedIndex) :
      ServedStep cfg E leaseRead s .notifyApplied
        { s with notifying := none, reads := s.reads.notifyApplied appliedIndex }
  | read (s : Served σ τ) (event : ReadEvent) (reads : Reads)
      (call : ∀ appliedIndex, event ≠ .notifyApplied appliedIndex)
      (step : s.reads.step event = some reads) :
      ServedStep cfg E leaseRead s (.read event) { s with reads := reads }

def Served.start (index : ℕ) (store : σ) : Served σ τ := ⟨.start index store,none,.new⟩

def Node.settled (s : Node σ τ) : σ :=
  match s.applier with
  | .working base _ => base
  | _ => s.store

variable (cfg : Config) (E : Engine σ τ) (log : List Entry)

/-- The data have the effect of the log up to `index` or further. -/
def Reaches (index : ℕ) (d : τ) : Prop :=
  ∃ n, index ≤ n ∧ Holds E (proposalsUpTo cfg log n) d

/-- Reads are confirmed only when the apply goroutine has nothing left to do, and no snapshot is
taken without a done channel while it has. -/
def Patient (s : Served σ τ) : ServedEvent σ τ → Prop
  | .node event => event = .snapshot → s.node.loop = .trigger none → s.node.applier.Settled
  | .notifyApplied => s.node.applier.Settled
  | .read _ => True

def Delivered : ServedEvent σ τ → Prop
  | .node (.ready rd) => rd.Valid cfg E log
  | _ => True

def Loop.Published : Loop → Prop
  | idle => True
  | trigger _ => True
  | _ => False

def Node.Ahead (s : Node σ τ) : Prop :=
  match s.loop with
  | .sendNil index _ => s.appliedIndex ≤ index
  | .sendCommit _ lastIndex => s.appliedIndex ≤ lastIndex
  | _ => True

section Loop
variable {cfg E log} {s t : Node σ τ}

lemma Node.published_maybeTriggerSnapshot (s : Node σ τ) (applyDoneC : Option ℕ) :
    (s.maybeTriggerSnapshot cfg applyDoneC).loop.Published := by
  rw [Node.maybeTriggerSnapshot]
  split <;> trivial

lemma Loop.Published.cases {loop : Loop} (h : loop.Published) :
    loop = .idle ∨ ∃ applyDoneC, loop = .trigger applyDoneC := by
  cases loop with
  | idle => exact .inl rfl
  | trigger applyDoneC => exact .inr ⟨applyDoneC,rfl⟩
  | sendNil index ents => exact h.elim
  | sendCommit data lastIndex => exact h.elim
  | stopped => exact h.elim

lemma Loop.Published.ahead (h : s.loop.Published) : s.Ahead := by
  rw [Node.Ahead]
  rcases h.cases with hloop | ⟨applyDoneC,hloop⟩
  · rw [hloop]
    trivial
  · rw [hloop]
    trivial

lemma Applier.Settled.cases {applier : Applier σ} (h : applier.Settled) :
    applier = .idle ∨ applier = .finished := by
  cases applier with
  | idle => exact .inl rfl
  | finished => exact .inr rfl
  | working base data => exact h.elim
  | reloading => exact h.elim

@[simp] lemma Node.maybeTriggerSnapshot_appliedIndex (s : Node σ τ) (applyDoneC : Option ℕ) :
    (s.maybeTriggerSnapshot cfg applyDoneC).appliedIndex = s.appliedIndex := by
  rw [Node.maybeTriggerSnapshot]
  split <;> rfl

def Node.view (s : Node σ τ) : Applier σ × σ × Option (ℕ × τ) := (s.applier,s.store,s.saved)

@[simp] lemma Node.maybeTriggerSnapshot_view (s : Node σ τ) (applyDoneC : Option ℕ) :
    (s.maybeTriggerSnapshot cfg applyDoneC).view = s.view := by
  rw [Node.maybeTriggerSnapshot]
  split <;> rfl

structure Publishes (cfg : Config) (s : Node σ τ) (ents : List Entry) (t : Node σ τ) : Prop where
  le : s.appliedIndex ≤ t.appliedIndex
  ahead : t.Ahead
  view : t.view = s.view
  announced : ∀ a ∈ announced cfg s.appliedIndex ents, a = t.appliedIndex ∧ t.loop.Published

variable (cfg s) in
lemma publishes (hlog : Indexed log) (a n : ℕ) :
    Publishes cfg s ((log.drop a).take n) (s.publishEntries cfg ((log.drop a).take n)) := by
  cases hents : entriesToApply s.appliedIndex ((log.drop a).take n) with
  | none =>
    simp only [Node.publishEntries,hents]
    exact ⟨le_rfl,trivial,rfl,by simp [announced,hents]⟩
  | some ents =>
    obtain ⟨m,hm⟩ := entriesToApply_eq hlog hents
    cases ents with
    | nil =>
      simp only [Node.publishEntries,hents]
      exact ⟨by simp,(s.published_maybeTriggerSnapshot none).ahead,by simp,
        by simp [announced,hents]⟩
    | cons e es =>
      have hlast := lastIndex_eq hlog hm
      have hle : s.appliedIndex ≤ ((e :: es).getLast?.map Entry.index).getD 0 := by omega
      cases hdata : collectData cfg (e :: es) with
      | none =>
        simp only [Node.publishEntries,hents,hdata]
        exact ⟨le_rfl,trivial,rfl,by simp [announced,hents,hdata]⟩
      | some data =>
        by_cases hempty : cfg.witness ∨ data = []
        · rw [Node.publishEntries_of_empty hents hdata hempty]
          refine ⟨?_,(Node.published_maybeTriggerSnapshot _ _).ahead,?_,?_⟩
          · rwa [Node.maybeTriggerSnapshot_appliedIndex]
          · rw [Node.maybeTriggerSnapshot_view]
            rfl
          · intro index hindex
            simp only [announced,hents] at hindex
            split at hindex
            · refine ⟨?_,Node.published_maybeTriggerSnapshot _ _⟩
              rw [Node.maybeTriggerSnapshot_appliedIndex]
              exact (Option.some.inj hindex).symm
            · cases hindex
        · rw [Node.publishEntries_of_data hents hdata hempty]
          refine ⟨le_rfl,hle,rfl,?_⟩
          have hne : data ≠ [] := fun h => hempty (Or.inr h)
          simp [announced,hents,hdata,hne]

end Loop

/-- What the apply goroutine is working on reaches `index` as well. -/
def Applier.Reaches (index : ℕ) (saved : Option (ℕ × τ)) : Applier σ → Prop
  | idle => True
  | finished => True
  | working base data =>
    ∀ store, E.Applies data base store → Raft.Reaches cfg E log index (E.getSnapshot store)
  | reloading => ∀ snapshot ∈ saved, Raft.Reaches cfg E log index snapshot.2

/-- The data have reached `index` and will not fall behind it. -/
structure Follows (index : ℕ) (s : Node σ τ) : Prop where
  le : index ≤ s.appliedIndex
  ahead : s.Ahead
  settled : Reaches cfg E log index (E.getSnapshot s.settled)
  applier : s.applier.Reaches cfg E log index s.saved

section Follows
variable {cfg E log} {s t : Node σ τ} {index : ℕ}

lemma Complete.reaches {snapshot : ℕ × τ} (h : Complete cfg E log snapshot)
    (hle : index ≤ snapshot.1) : Reaches cfg E log index snapshot.2 := ⟨_,hle,h⟩

lemma Node.eq_of_view (h : t.view = s.view) :
    t.applier = s.applier ∧ t.store = s.store ∧ t.saved = s.saved := by
  simpa [Node.view] using h

lemma Follows.of_view (h : Follows cfg E log index s) (hview : t.view = s.view)
    (hle : s.appliedIndex ≤ t.appliedIndex) (hahead : t.Ahead) : Follows cfg E log index t := by
  obtain ⟨happlier,hstore,hsaved⟩ := Node.eq_of_view hview
  have hsettled : t.settled = s.settled := by
    rw [Node.settled,Node.settled,happlier,hstore]
  refine ⟨h.le.trans hle,hahead,?_,?_⟩
  · rw [hsettled]
    exact h.settled
  · rw [happlier,hsaved]
    exact h.applier

lemma Follows.save (h : Follows cfg E log index s) {snapshot : ℕ × τ}
    (hcomplete : Complete cfg E log snapshot) (hle : s.appliedIndex ≤ snapshot.1) :
    s.applier.Reaches cfg E log index (some snapshot) := by
  have happlier := h.applier
  cases hs : s.applier with
  | idle => trivial
  | finished => trivial
  | working base data =>
    rw [hs] at happlier
    exact happlier
  | reloading =>
    intro snapshot' hmem
    cases Option.some.inj hmem
    exact hcomplete.reaches (h.le.trans hle)

lemma Follows.ready (hlog : Indexed log) (h : Follows cfg E log index s) {rd : Ready τ}
    (hvalid : rd.Valid cfg E log) (hsurvives : s.Survives (.ready rd : Event σ τ)) :
    Follows cfg E log index (s.handleReady cfg rd) := by
  obtain ⟨snapshot,ents⟩ := rd
  obtain ⟨⟨a,n,rfl⟩,hcomplete⟩ := hvalid
  cases snapshot with
  | none =>
    have hpublishes := publishes cfg s hlog a n
    exact h.of_view hpublishes.view hpublishes.le hpublishes.ahead
  | some snapshot =>
    have hlt : s.appliedIndex < snapshot.1 := hsurvives snapshot rfl
    simp only [Node.handleReady,if_neg (Nat.not_le.mpr hlt)]
    exact ⟨h.le,hlt.le,h.settled,h.save (hcomplete _ rfl) hlt.le⟩

lemma Follows.receiveNil (hlog : Indexed log) (hinv : Inv cfg E log s)
    (h : Follows cfg E log index s) {snapshotIndex : ℕ} {ents : List Entry}
    (hloop : s.loop = .sendNil snapshotIndex ents) (hidle : s.applier = .idle) :
    Follows cfg E log index
      ({ s with applier := .reloading, snapshotIndex := snapshotIndex,
                appliedIndex := snapshotIndex }.publishEntries cfg ents) := by
  have hold := hinv.loop
  rw [LoopInv,hloop] at hold
  obtain ⟨⟨d,hsaved,hcomplete⟩,⟨a,n,rfl⟩,-⟩ := hold
  have hahead : s.appliedIndex ≤ snapshotIndex := by
    have h := h.ahead
    rwa [Node.Ahead,hloop] at h
  let s' : Node σ τ := { s with applier := .reloading, snapshotIndex := snapshotIndex,
                                appliedIndex := snapshotIndex, loop := .idle }
  have hsettled : s'.settled = s.settled := by
    rw [Node.settled,Node.settled,hidle]
  have hreload : s'.applier.Reaches cfg E log index s'.saved := by
    intro snapshot hmem
    obtain rfl : (snapshotIndex,d) = snapshot := Option.some.inj (hsaved.symm.trans hmem)
    exact hcomplete.reaches (h.le.trans hahead)
  have hs' : Follows cfg E log index s' :=
    ⟨h.le.trans hahead,trivial,hsettled ▸ h.settled,hreload⟩
  have hpublishes := publishes cfg
    { s with applier := .reloading, snapshotIndex := snapshotIndex,
             appliedIndex := snapshotIndex } hlog a n
  exact hs'.of_view hpublishes.view hpublishes.le hpublishes.ahead

lemma Follows.receiveCommit (hinv : Inv cfg E log s) (h : Follows cfg E log index s)
    {data : List Bytes} {lastIndex : ℕ} (hloop : s.loop = .sendCommit data lastIndex)
    (hidle : s.applier = .idle) :
    Follows cfg E log index
      ({ s with applier := .working s.store data, commits := s.commits+1,
                appliedIndex := lastIndex }.maybeTriggerSnapshot cfg (some (s.commits+1))) := by
  have hold := hinv.loop
  rw [LoopInv,hloop] at hold
  obtain ⟨hstore,hlast⟩ := hold
  rw [Node.Consistent,hidle] at hstore
  obtain ⟨commits,heffects,hcommits⟩ := hstore
  have hahead : s.appliedIndex ≤ lastIndex := by
    have h := h.ahead
    rwa [Node.Ahead,hloop] at h
  let s' : Node σ τ := { s with applier := .working s.store data, commits := s.commits+1,
                                appliedIndex := lastIndex, loop := .idle }
  have hsettled : s'.settled = s.settled := by
    rw [Node.settled,Node.settled,hidle]
  have hwork : s'.applier.Reaches cfg E log index s'.saved := by
    intro store outcome
    refine ⟨lastIndex,h.le.trans hahead,commits ++ [data],.commit heffects outcome,?_⟩
    rw [hlast,List.flatten_append,hcommits,List.flatten_singleton]
  have hs' : Follows cfg E log index s' :=
    ⟨h.le.trans hahead,trivial,hsettled ▸ h.settled,hwork⟩
  refine hs'.of_view ?_ ?_ (Node.published_maybeTriggerSnapshot _ _).ahead
  · rw [Node.maybeTriggerSnapshot_view]
    rfl
  · rw [Node.maybeTriggerSnapshot_appliedIndex]

lemma Follows.work (h : Follows cfg E log index s) {base : σ} {data : List Bytes}
    (happlier : s.applier = .working base data) (store : σ) :
    Follows cfg E log index { s with store := store } := by
  refine ⟨h.le,h.ahead,?_,h.applier⟩
  have hsettled := h.settled
  rw [Node.settled,happlier] at hsettled ⊢
  exact hsettled

lemma Follows.finish (h : Follows cfg E log index s) {base store : σ} {data : List Bytes}
    (happlier : s.applier = .working base data) (outcome : E.Applies data base store) :
    Follows cfg E log index { s with store := store, applier := .finished } := by
  refine ⟨h.le,h.ahead,?_,trivial⟩
  have hnext := h.applier
  rw [happlier] at hnext
  exact hnext store outcome

lemma Follows.close (h : Follows cfg E log index s) (happlier : s.applier = .finished) :
    Follows cfg E log index { s with applier := .idle, closed := s.closed+1 } := by
  refine ⟨h.le,h.ahead,?_,trivial⟩
  have hsettled := h.settled
  rw [Node.settled,happlier] at hsettled
  exact hsettled

lemma Follows.reload (h : Follows cfg E log index s) (happlier : s.applier = .reloading)
    {snapshotIndex : ℕ} {d : τ} (hsaved : s.saved = some (snapshotIndex,d)) :
    Follows cfg E log index
      { s with applier := .idle, store := E.recoverFromSnapshot s.store d } := by
  refine ⟨h.le,h.ahead,?_,trivial⟩
  have hnext := h.applier
  rw [happlier] at hnext
  change Reaches cfg E log index (E.getSnapshot (E.recoverFromSnapshot s.store d))
  rw [E.getSnapshot_recover]
  exact hnext _ hsaved

lemma Follows.snapshot (h : Follows cfg E log index s)
    (hinv : Inv cfg E log (s.storeSnapshot E)) : Follows cfg E log index (s.storeSnapshot E) :=
  ⟨h.le,trivial,h.settled,h.save (hinv.taken _ List.mem_cons_self) le_rfl⟩

lemma Follows.step (hlog : Indexed log) {event : Event σ τ} (hinv : Inv cfg E log s)
    (h : Follows cfg E log index s) (hallowed : Allowed cfg E log s event)
    (hsurvives : s.Survives event) (hstep : Step cfg E s event t) :
    Follows cfg E log index t := by
  have hinv' := hinv.step hlog hallowed hstep
  cases hstep with
  | ready rd hidle => exact h.ready hlog (hallowed.1 rd rfl) hsurvives
  | receiveNil snapshotIndex ents hloop hidle => exact h.receiveNil hlog hinv hloop hidle
  | receiveCommit data lastIndex hloop hidle => exact h.receiveCommit hinv hloop hidle
  | work base data happlier store => exact h.work happlier store
  | finish base data happlier store outcome => exact h.finish happlier outcome
  | close happlier => exact h.close happlier
  | reload happlier snapshotIndex d hsaved => exact h.reload happlier hsaved
  | snapshot applyDoneC hloop hdone => exact h.snapshot hinv'
  | stop hselects => exact ⟨h.le,trivial,h.settled,h.applier⟩

lemma announces_step (hlog : Indexed log) {event : Event σ τ} (hinv : Inv cfg E log s)
    (hallowed : Allowed cfg E log s event) (hstep : Step cfg E s event t) :
    ∀ a ∈ s.announces cfg event, a = t.appliedIndex ∧ t.loop.Published := by
  cases hstep with
  | ready rd hidle =>
    obtain ⟨snapshot,ents⟩ := rd
    obtain ⟨⟨a,n,rfl⟩,-⟩ := hallowed.1 _ rfl
    cases snapshot with
    | none => exact (publishes cfg s hlog a n).announced
    | some snapshot => simp [Node.announces]
  | receiveNil snapshotIndex ents hloop hidle =>
    have hold := hinv.loop
    rw [LoopInv,hloop] at hold
    obtain ⟨-,⟨a,n,rfl⟩,-⟩ := hold
    simp only [Node.announces,hloop]
    let s' : Node σ τ :=
      { s with applier := .reloading, snapshotIndex := snapshotIndex,
               appliedIndex := snapshotIndex }
    exact (publishes cfg s' hlog a n).announced
  | receiveCommit data lastIndex hloop hidle =>
    intro a ha
    simp only [Node.announces,hloop] at ha
    refine ⟨?_,Node.published_maybeTriggerSnapshot _ _⟩
    rw [Node.maybeTriggerSnapshot_appliedIndex]
    exact (Option.some.inj ha).symm
  | _ => simp [Node.announces]

lemma Follows.settle (hinv : Inv cfg E log s) (h : Follows cfg E log index s)
    (hloop : s.loop.Published) (hsettled : s.applier.Settled) :
    Follows cfg E log s.appliedIndex s := by
  have hstore : s.Consistent cfg E log := by
    have hold := hinv.loop
    rw [LoopInv] at hold
    rcases hloop.cases with hs | ⟨applyDoneC,hs⟩
    · rw [hs] at hold
      exact hold
    · rw [hs] at hold
      cases applyDoneC with
      | none => exact hold
      | some c => exact hold.1
  have hholds := (hsettled.consistent_iff _ _ _).mp hstore
  have hstill : s.settled = s.store ∧ s.applier.Reaches cfg E log s.appliedIndex s.saved := by
    rw [Node.settled]
    rcases hsettled.cases with hs | hs
    · rw [hs]
      exact ⟨rfl,trivial⟩
    · rw [hs]
      exact ⟨rfl,trivial⟩
  exact ⟨le_rfl,h.ahead,⟨_,le_rfl,hstill.1 ▸ hholds⟩,hstill.2⟩

end Follows

/-- The node that hands data over: its data have reached the applied index of the readers. -/
structure Served.Inv (s : Served σ τ) : Prop where
  node : Raft.Inv cfg E log s.node
  follows : Follows cfg E log s.reads.manager.lastApplied s.node
  confirmed : s.reads.Confirmed
  notifying : ∀ a ∈ s.notifying, a = s.node.appliedIndex ∧ s.node.loop.Published

structure Served.Mute (s : Served σ τ) : Prop where
  lastApplied : s.reads.manager.lastApplied = 0
  confirmed : s.reads.Confirmed
  notifying : s.notifying = none
  loop : ∀ data lastIndex, s.node.loop ≠ .sendCommit data lastIndex

section Served
variable {cfg E log} {leaseRead : Bool} {s t : Served σ τ} {event : ServedEvent σ τ}

lemma Step.of_applier {s t : Node σ τ} {event : Event σ τ} (h : event.ofLoop = false)
    (hstep : Step cfg E s event t) : t.loop = s.loop ∧ t.appliedIndex = s.appliedIndex := by
  cases hstep with
  | ready => cases h
  | receiveNil => cases h
  | receiveCommit => cases h
  | snapshot => cases h
  | stop => cases h
  | _ => exact ⟨rfl,rfl⟩

lemma allowed_of_patient (hwitness : cfg.witness = false) {event : Event σ τ}
    (hdelivered : Delivered cfg E log (.node event)) (hpatient : Patient s (.node event)) :
    Allowed cfg E log s.node event := by
  constructor
  · rintro rd rfl
    exact hdelivered
  · cases event with
    | snapshot => exact hpatient rfl
    | ready rd => exact fun h => absurd (hwitness.symm.trans h) (by decide)
    | _ => trivial

lemma Served.Inv.step (hlog : Indexed log) (hwitness : cfg.witness = false)
    (h : s.Inv cfg E log) (hdelivered : Delivered cfg E log event) (hpatient : Patient s event)
    (hstep : ServedStep cfg E leaseRead s event t) : t.Inv cfg E log := by
  cases hstep with
  | loop event node ofLoop free survives step =>
    have hallowed := allowed_of_patient hwitness hdelivered hpatient
    refine ⟨h.node.step hlog hallowed step,h.follows.step hlog h.node hallowed survives step,
      h.confirmed,?_⟩
    intro a ha
    cases leaseRead with
    | false => cases ha
    | true => exact announces_step hlog h.node hallowed step a ha
  | applier event node ofLoop step =>
    have hallowed := allowed_of_patient hwitness hdelivered hpatient
    have hsurvives : s.node.Survives event := by
      cases event with
      | ready rd => cases ofLoop
      | _ => trivial
    obtain ⟨hloop,hindex⟩ := step.of_applier ofLoop
    refine ⟨h.node.step hlog hallowed step,h.follows.step hlog h.node hallowed hsurvives step,
      h.confirmed,?_⟩
    intro a ha
    rw [hloop,hindex]
    exact h.notifying a ha
  | notifyApplied appliedIndex hnotifying =>
    obtain ⟨rfl,hpublished⟩ := h.notifying appliedIndex hnotifying
    refine ⟨h.node,?_,h.confirmed.notifyApplied _,by simp⟩
    rw [Reads.lastApplied_notifyApplied,max_eq_right h.follows.le]
    exact h.follows.settle h.node hpublished hpatient
  | read event reads call step =>
    obtain ⟨hconfirmed,hlast⟩ := h.confirmed.step step call
    exact ⟨h.node,hlast ▸ h.follows,hconfirmed,h.notifying⟩

lemma publishEntries_loop_of_witness (hwitness : cfg.witness = true) (s : Node σ τ)
    (ents : List Entry) (data : List Bytes) (lastIndex : ℕ) :
    (s.publishEntries cfg ents).loop ≠ .sendCommit data lastIndex := by
  have htrigger : ∀ (s : Node σ τ) applyDoneC,
      (s.maybeTriggerSnapshot cfg applyDoneC).loop ≠ .sendCommit data lastIndex := by
    intro s applyDoneC hs
    have hpublished : (s.maybeTriggerSnapshot cfg applyDoneC).loop.Published :=
      s.published_maybeTriggerSnapshot applyDoneC
    rw [hs] at hpublished
    exact hpublished
  rw [Node.publishEntries]
  split
  · simp
  · exact htrigger _ _
  · split
    · simp
    · rw [if_pos (Or.inl hwitness)]
      exact htrigger _ _

lemma announced_of_witness (hwitness : cfg.witness = true) (appliedIndex : ℕ)
    (ents : List Entry) : announced cfg appliedIndex ents = none := by
  rw [announced]
  split
  · rw [if_neg]
    simp [hwitness]
  · rfl

lemma loop_step_of_witness (hwitness : cfg.witness = true) {s t : Node σ τ} {event : Event σ τ}
    (h : ∀ data lastIndex, s.loop ≠ .sendCommit data lastIndex) (hstep : Step cfg E s event t) :
    s.announces cfg event = none ∧ ∀ data lastIndex, t.loop ≠ .sendCommit data lastIndex := by
  cases hstep with
  | ready rd hidle =>
    obtain ⟨snapshot,ents⟩ := rd
    cases snapshot with
    | none =>
      exact ⟨announced_of_witness hwitness _ _,publishEntries_loop_of_witness hwitness _ _⟩
    | some snapshot =>
      refine ⟨rfl,fun data lastIndex => ?_⟩
      simp only [Node.handleReady]
      split <;> simp
  | receiveNil snapshotIndex ents hloop hidle =>
    refine ⟨?_,publishEntries_loop_of_witness hwitness _ _⟩
    simp only [Node.announces,hloop]
    exact announced_of_witness hwitness _ _
  | receiveCommit data lastIndex hloop hidle => exact absurd hloop (h data lastIndex)
  | snapshot applyDoneC hloop hdone => exact ⟨rfl,by simp [Node.storeSnapshot]⟩
  | stop hselects => exact ⟨rfl,by simp⟩
  | _ => exact ⟨rfl,h⟩

lemma Served.Mute.step (hwitness : cfg.witness = true) (h : s.Mute)
    (hstep : ServedStep cfg E leaseRead s event t) : t.Mute := by
  cases hstep with
  | loop event node ofLoop free survives step =>
    obtain ⟨hnone,hloop⟩ := loop_step_of_witness hwitness h.loop step
    refine ⟨h.lastApplied,h.confirmed,?_,hloop⟩
    rw [hnone,ite_self]
  | applier event node ofLoop step =>
    exact ⟨h.lastApplied,h.confirmed,h.notifying,(loop_step_of_witness hwitness h.loop step).2⟩
  | notifyApplied appliedIndex hnotifying => cases h.notifying.symm.trans hnotifying
  | read event reads call step =>
    obtain ⟨hconfirmed,hlast⟩ := h.confirmed.step step call
    exact ⟨hlast.trans h.lastApplied,hconfirmed,h.notifying,h.loop⟩

lemma reaches_of_returned (hlog : Indexed log) {index : ℕ} {store : σ}
    (hstart : Complete cfg E log (index,E.getSnapshot store)) {events : List (ServedEvent σ τ)}
    (hrun : Run (ServedStep cfg E leaseRead)
      (fun s event => Delivered cfg E log event ∧ Patient s event) (.start index store) events s)
    {reader ri index' : ℕ} (hreturned : s.reads.calls reader = .returned ri index')
    {e : Entry} (he : e ∈ log) (hle : e.index ≤ index') :
    Reaches cfg E log e.index (E.getSnapshot s.node.settled) := by
  cases hwitness : cfg.witness with
  | true =>
    have hstep : ∀ s event t, Served.Mute s → Delivered cfg E log event ∧ Patient s event →
        ServedStep cfg E leaseRead s event t → t.Mute :=
      fun _ _ _ h _ hstep => h.step hwitness hstep
    have hmute := Run.invariant hstep hrun ⟨rfl,Reads.confirmed_new,rfl,by simp [Served.start,
      Node.start]⟩
    have hzero := hmute.confirmed.returned reader ri index' hreturned
    rw [hmute.lastApplied] at hzero
    obtain ⟨p,hp⟩ := List.getElem?_of_mem he
    have hindex := hlog p e hp
    omega
  | false =>
    have hstep : ∀ s event t, Served.Inv cfg E log s →
        Delivered cfg E log event ∧ Patient s event →
        ServedStep cfg E leaseRead s event t → t.Inv cfg E log :=
      fun _ _ _ h hallowed hstep => h.step hlog hwitness hallowed.1 hallowed.2 hstep
    have hfollows : Follows cfg E log 0 (.start index store : Node σ τ) :=
      ⟨Nat.zero_le _,trivial,⟨index,Nat.zero_le _,hstart⟩,trivial⟩
    have hinv := Run.invariant hstep hrun
      ⟨inv_start cfg E log hstart,hfollows,Reads.confirmed_new,by simp [Served.start]⟩
    obtain ⟨n,hn,hholds⟩ := hinv.follows.settled
    have hlast := hinv.confirmed.returned reader ri index' hreturned
    exact ⟨n,by omega,hholds⟩

end Served

/-- In every run in which the loop confirms reads and takes snapshots only when the apply
goroutine has nothing left to do, a call that has returned its read index finds every entry up
to it in the data. -/
theorem memoryEngine_applied_of_returned (cfg : Config) (decode : Bytes → Option Datum)
    (log : List Entry) (hlog : Indexed log) (leaseRead : Bool) (index : ℕ) (store : MemoryEtcd)
    (hstart : Complete cfg (memoryEngine decode) log (index,store.getSnapshot))
    (events : List (ServedEvent MemoryEtcd SnapshotData)) (s : Served MemoryEtcd SnapshotData)
    (hrun : Run (ServedStep cfg (memoryEngine decode) leaseRead)
      (fun s event => Delivered cfg (memoryEngine decode) log event ∧ Patient s event)
      (.start index store) events s)
    (reader ri : ℕ) (hreturned : s.reads.calls reader = .returned ri ri) :
    ∀ e ∈ log, e.index ≤ ri →
      Reaches cfg (memoryEngine decode) log e.index s.node.settled.getSnapshot :=
  fun _ he hle => reaches_of_returned hlog hstart hrun hreturned he hle

lemma indexed_singleton (e : Entry) (he : e.index = 1) : Indexed [e] := by
  intro p e' he'
  cases p with
  | zero => rw [← Option.some.inj he',he]
  | succ p => exact absurd he' (by simp)

section Put
variable {σ τ : Type*} (E : Engine σ τ)

def putLog : List Entry := [⟨1,.normal,[1]⟩]

lemma delivered_putLog : Delivered (plainConfig 10000) E putLog (.node (.ready ⟨none,putLog⟩)) :=
  ⟨⟨0,1,rfl⟩,fun _ h => absurd h (by simp)⟩

lemma proposalsUpTo_putLog {n : ℕ} (hn : 1 ≤ n) :
    proposalsUpTo (plainConfig 10000) putLog n = [[1]] := by
  rw [proposalsUpTo,List.take_of_length_le hn]
  rfl

end Put

theorem memoryEngine_applied_of_returned_put :
    let E := memoryEngine decodePutA
    let after : MemoryEtcd := MemoryEtcd.empty.applyPut putA
    ∃ s : Served MemoryEtcd SnapshotData,
      Run (ServedStep (plainConfig 10000) E true)
        (fun s event => Delivered (plainConfig 10000) E putLog event ∧ Patient s event)
        (.start 0 .empty)
        [.node (.ready ⟨none,putLog⟩),.node .receive,.read (.call 0 1),.read (.check 0),
          .read (.register 0),.node (.finish after),.notifyApplied,.read (.receive 0)] s ∧
      s.reads.calls 0 = .returned 1 1 ∧
      ∀ e ∈ putLog, e.index ≤ 1 →
        Reaches (plainConfig 10000) E putLog e.index s.node.settled.getSnapshot := by
  intro E after
  have hstart : Complete (plainConfig 10000) E putLog (0,MemoryEtcd.empty.getSnapshot) :=
    ⟨[],.nil,rfl⟩
  have houtcome : E.Applies [[1]] .empty after :=
    ⟨fun _ => 0,[.operation putA],.empty,Waiters.empty.notify [],rfl,rfl⟩
  have hrun : Run (ServedStep (plainConfig 10000) E true)
      (fun s event => Delivered (plainConfig 10000) E putLog event ∧ Patient s event)
      (.start 0 .empty)
      [.node (.ready ⟨none,putLog⟩),.node .receive,.read (.call 0 1),.read (.check 0),
        .read (.register 0),.node (.finish after),.notifyApplied,.read (.receive 0)] _ :=
    .cons ⟨delivered_putLog E,by simp [Patient]⟩
      (.loop _ _ _ rfl rfl (by simp [Node.Survives]) (.ready _ _ rfl)) <|
    .cons ⟨trivial,by simp [Patient]⟩
      (.loop _ _ _ rfl rfl trivial (.receiveCommit _ [[1]] 1 rfl rfl)) <|
    .cons ⟨trivial,trivial⟩ (.read _ (.call 0 1) _ (by simp) rfl) <|
    .cons ⟨trivial,trivial⟩ (.read _ (.check 0) _ (by simp) rfl) <|
    .cons ⟨trivial,trivial⟩ (.read _ (.register 0) _ (by simp) rfl) <|
    .cons ⟨trivial,by simp [Patient]⟩
      (.applier _ _ _ rfl (.finish _ .empty [[1]] rfl after houtcome)) <|
    .cons ⟨trivial,trivial⟩ (.notifyApplied _ 1 rfl) <|
    .cons ⟨trivial,trivial⟩ (.read _ (.receive 0) _ (by simp) rfl) <|
    .nil _
  exact ⟨_,hrun,rfl,memoryEngine_applied_of_returned (plainConfig 10000) decodePutA putLog
    (indexed_singleton _ rfl) true 0 .empty hstart _ _ hrun 0 1 rfl⟩

/-- The loop announces index 1 while the put of entry 1 is still to be applied, so that a call
for index 1 returns before it. -/
theorem memoryEngine_returned_before_applied :
    let E := memoryEngine decodePutA
    Indexed putLog ∧ Complete (plainConfig 10000) E putLog (0,MemoryEtcd.empty.getSnapshot) ∧
    ∃ s : Served MemoryEtcd SnapshotData,
      Run (ServedStep (plainConfig 10000) E true)
        (fun _ event => Delivered (plainConfig 10000) E putLog event) (.start 0 .empty)
        [.node (.ready ⟨none,putLog⟩),.node .receive,.notifyApplied,.read (.call 0 1),
          .read (.check 0)] s ∧
      s.reads.calls 0 = .returned 1 1 ∧ s.node.store = .empty ∧
      ¬ Reaches (plainConfig 10000) E putLog 1 s.node.settled.getSnapshot := by
  intro E
  have hrun : Run (ServedStep (plainConfig 10000) E true)
      (fun _ event => Delivered (plainConfig 10000) E putLog event) (.start 0 .empty)
      [.node (.ready ⟨none,putLog⟩),.node .receive,.notifyApplied,.read (.call 0 1),
        .read (.check 0)] _ :=
    .cons (delivered_putLog E)
      (.loop _ _ _ rfl rfl (by simp [Node.Survives]) (.ready _ _ rfl)) <|
    .cons trivial (.loop _ _ _ rfl rfl trivial (.receiveCommit _ [[1]] 1 rfl rfl)) <|
    .cons trivial (.notifyApplied _ 1 rfl) <|
    .cons trivial (.read _ (.call 0 1) _ (by simp) rfl) <|
    .cons trivial (.read _ (.check 0) _ (by simp) rfl) <|
    .nil _
  refine ⟨indexed_singleton _ rfl,⟨[],.nil,rfl⟩,_,hrun,rfl,rfl,?_⟩
  rintro ⟨n,hn,commits,heffects,hflatten⟩
  rw [proposalsUpTo_putLog hn] at hflatten
  have hrevision := revision_of_effects heffects (by rw [hflatten]; rfl)
  rw [hflatten] at hrevision
  exact absurd hrevision (by decide)

end MetaStore.Raft
