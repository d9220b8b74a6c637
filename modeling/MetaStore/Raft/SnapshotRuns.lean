import MetaStore.Library.Transition
import MetaStore.Raft.MemoryNode

/-! Snapshots of the memory raft node against the log. The data at any time are the outcome
of the commits handed over so far, except for the one the apply goroutine is working on. A
snapshot is complete when the loop does not take it over the goroutine's head. -/
namespace MetaStore.Raft
open Transition

variable {σ τ : Type*} (cfg : Config) (E : Engine σ τ) (log : List Entry)

/-- The data after a sequence of commits, from the empty engine on. Snapshots stand for the
data they were made of. -/
inductive Effects : List (List Bytes) → τ → Prop
  | nil : Effects [] (E.getSnapshot E.init)
  | commit {commits : List (List Bytes)} {data : List Bytes} {s t : σ}
      (h : Effects commits (E.getSnapshot s)) (outcome : E.Applies data s t) :
      Effects (commits ++ [data]) (E.getSnapshot t)

def proposalsUpTo (index : ℕ) : List Bytes := (log.take index).flatMap (Entry.proposals cfg)

/-- The data have the effect of exactly these strings, in some division into commits. -/
def Holds (proposals : List Bytes) (d : τ) : Prop :=
  ∃ commits, Effects E commits d ∧ commits.flatten = proposals

def Complete (snapshot : ℕ × τ) : Prop := Holds E (proposalsUpTo cfg log snapshot.1) snapshot.2

/-- What the raft library delivers: stretches of one log, and snapshots of other nodes that are
complete. -/
structure Ready.Valid (rd : Ready τ) : Prop where
  entries : ∃ a n, rd.committedEntries = (log.drop a).take n
  snapshot : ∀ snapshot ∈ rd.snapshot, Complete cfg E log snapshot

def Applier.Settled : Applier σ → Prop
  | idle => True
  | finished => True
  | working _ _ => False
  | reloading => False

/-- No snapshot is taken without a done channel while the apply goroutine is at work, and a
witness is handed no data. -/
def Careful (s : Node σ τ) : Event σ τ → Prop
  | .snapshot => s.loop = .trigger none → s.applier.Settled
  | .ready rd => cfg.witness = true → ∀ e ∈ rd.committedEntries,
      (rd.snapshot.map Prod.fst).getD s.appliedIndex < e.index → e.proposals cfg = []
  | _ => True

def Allowed (s : Node σ τ) (event : Event σ τ) : Prop :=
  (∀ rd, event = .ready rd → rd.Valid cfg E log) ∧ Careful cfg s event

/-- Entry number `p` of the log has index `p+1`. -/
def Indexed : Prop := ∀ p e, log[p]? = some e → e.index = p+1

section Entries
variable {cfg log}
variable {ents : List Entry} {e : Entry} {applied : ℕ}

lemma collectData_eq {data : List Bytes} (h : collectData cfg ents = some data) :
    data = ents.flatMap (Entry.proposals cfg) := by
  induction ents generalizing data with
  | nil => exact (Option.some.inj h).symm
  | cons e ents ih =>
    rw [collectData] at h
    split at h
    · exact absurd h (by simp)
    · obtain ⟨rest,hrest,rfl⟩ := Option.map_eq_some_iff.mp h
      rw [List.flatMap_cons,ih hrest]

/-- What is left to apply of a stretch is a stretch that starts at the applied index. -/
lemma entriesToApply_eq (hlog : Indexed log) {a n : ℕ}
    (h : entriesToApply applied ((log.drop a).take n) = some ents) :
    ∃ m, ents = (log.drop applied).take m := by
  cases hents : (log.drop a).take n with
  | nil =>
    rw [hents] at h
    exact ⟨0,(Option.some.inj h).symm⟩
  | cons e rest =>
    have hindex : e.index = a+1 := by
      apply hlog a
      have hget : ((log.drop a).take n)[0]? = some e := by rw [hents]; rfl
      rw [List.getElem?_take] at hget
      split at hget
      · rwa [List.getElem?_drop] at hget
      · exact absurd hget (by simp)
    rw [hents,entriesToApply,hindex] at h
    split at h
    · exact absurd h (by simp)
    · next hgap =>
      refine ⟨n-(applied-a),?_⟩
      rw [← Option.some.inj h,← hents,List.drop_take,List.drop_drop]
      congr 2 <;> omega

lemma mem_of_mem_entriesToApply {rest : List Entry}
    (h : entriesToApply applied ents = some rest) (he : e ∈ rest) : e ∈ ents := by
  cases ents with
  | nil => exact Option.some.inj h ▸ he
  | cons e' ents =>
    rw [entriesToApply] at h
    split at h
    · exact absurd h (by simp)
    · rw [← Option.some.inj h] at he
      exact List.mem_of_mem_drop he

lemma lt_index_of_mem (hlog : Indexed log) {m : ℕ}
    (he : e ∈ (log.drop applied).take m) : applied < e.index := by
  obtain ⟨p,hp⟩ := List.getElem?_of_mem (List.mem_of_mem_take he)
  rw [List.getElem?_drop] at hp
  rw [hlog _ e hp]
  omega

lemma lastIndex_eq (hlog : Indexed log) {m : ℕ} {es : List Entry}
    (h : e :: es = (log.drop applied).take m) :
    ((e :: es).getLast?.map Entry.index).getD 0 = applied+(e :: es).length := by
  have hpos : 0 < (e :: es).length := Nat.succ_pos _
  have hlen : (e :: es).length = min m (log.length-applied) := by
    rw [h,List.length_take,List.length_drop]
  obtain ⟨last,hlast⟩ := Option.ne_none_iff_exists'.mp
    (mt List.getLast?_eq_none_iff.mp (List.cons_ne_nil e es))
  rw [hlast,Option.map_some,Option.getD_some]
  rw [List.getLast?_eq_getElem?,h,List.getElem?_take,if_pos (by rw [← h]; omega),
    List.getElem?_drop] at hlast
  rw [hlog _ last hlast,← h]
  omega

variable (cfg) in
lemma proposalsUpTo_last (hlog : Indexed log) {m : ℕ} {es : List Entry}
    (h : e :: es = (log.drop applied).take m) :
    proposalsUpTo cfg log (((e :: es).getLast?.map Entry.index).getD 0) =
      proposalsUpTo cfg log applied ++ (e :: es).flatMap (Entry.proposals cfg) := by
  have htake : (log.drop applied).take (e :: es).length = e :: es := by
    rw [h,List.take_eq_take_iff,List.length_take]
    omega
  rw [lastIndex_eq hlog h,proposalsUpTo,proposalsUpTo,List.take_add,List.flatMap_append,htake]

end Entries

def Consistent (proposals : List Bytes) (store : σ) (saved : Option (ℕ × τ)) :
    Applier σ → Prop
  | .idle => Holds E proposals (E.getSnapshot store)
  | .finished => Holds E proposals (E.getSnapshot store)
  | .working base data =>
    ∃ before, Holds E before (E.getSnapshot base) ∧ before ++ data = proposals
  | .reloading => ∃ snapshot ∈ saved, Holds E proposals snapshot.2

def Node.Consistent (s : Node σ τ) : Prop :=
  Raft.Consistent E (proposalsUpTo cfg log s.appliedIndex) s.store s.saved s.applier

def Applier.pending : Applier σ → ℕ
  | idle => 0
  | working _ _ => 1
  | finished => 1
  | reloading => 0

/-- What holds where the loop stands. A loop that is about to replace the data asks nothing of
them. -/
def LoopInv (s : Node σ τ) : Prop :=
  match s.loop with
  | .stopped => True
  | .sendNil index ents =>
    (∃ d, s.saved = some (index,d) ∧ Complete cfg E log (index,d)) ∧
      (∃ a n, ents = (log.drop a).take n) ∧
      (cfg.witness = true → ∀ e ∈ ents, index < e.index → e.proposals cfg = [])
  | .sendCommit data lastIndex =>
    s.Consistent cfg E log ∧
      proposalsUpTo cfg log lastIndex = proposalsUpTo cfg log s.appliedIndex ++ data
  | .trigger (some c) =>
    s.Consistent cfg E log ∧ c = s.commits ∧
      s.applier ≠ .reloading
  | .trigger none => s.Consistent cfg E log
  | .idle => s.Consistent cfg E log

structure Inv (s : Node σ τ) : Prop where
  taken : ∀ snapshot ∈ s.taken, Complete cfg E log snapshot
  channels : s.closed+s.applier.pending = s.commits
  loop : LoopInv cfg E log s

section Steps
variable {cfg E log} {s t : Node σ τ}
variable {applyDoneC : Option ℕ} {data : List Bytes}

lemma Applier.Settled.consistent_iff {applier : Applier σ} (h : applier.Settled)
    (ps : List Bytes) (store : σ) (saved : Option (ℕ × τ)) :
    Consistent E ps store saved applier ↔ Holds E ps (E.getSnapshot store) := by
  cases applier with
  | idle => rfl
  | finished => rfl
  | working base data => exact h.elim
  | reloading => exact h.elim

variable (s) in
lemma inv_maybeTriggerSnapshot (htaken : ∀ snapshot ∈ s.taken, Complete cfg E log snapshot)
    (hchannels : s.closed+s.applier.pending = s.commits)
    (hstore : s.Consistent cfg E log)
    (hdone : ∀ c ∈ applyDoneC, c = s.commits ∧ s.applier ≠ .reloading) :
    Inv cfg E log (s.maybeTriggerSnapshot cfg applyDoneC) := by
  rw [Node.maybeTriggerSnapshot]
  split
  · exact ⟨htaken,hchannels,hstore⟩
  · refine ⟨htaken,hchannels,?_⟩
    cases applyDoneC with
    | none => exact hstore
    | some c => exact ⟨hstore,hdone c rfl⟩

variable (s) in
lemma inv_publishEntries (hlog : Indexed log)
    (htaken : ∀ snapshot ∈ s.taken, Complete cfg E log snapshot)
    (hchannels : s.closed+s.applier.pending = s.commits)
    (hstore : s.Consistent cfg E log) {a n : ℕ}
    (hwitness : cfg.witness = true → ∀ e ∈ (log.drop a).take n,
      s.appliedIndex < e.index → e.proposals cfg = []) :
    Inv cfg E log (s.publishEntries cfg ((log.drop a).take n)) := by
  rw [Node.publishEntries]
  cases hents : entriesToApply s.appliedIndex ((log.drop a).take n) with
  | none => exact ⟨htaken,hchannels,trivial⟩
  | some ents =>
    obtain ⟨m,hm⟩ := entriesToApply_eq hlog hents
    cases ents with
    | nil => exact inv_maybeTriggerSnapshot s htaken hchannels hstore (by simp)
    | cons e es =>
      have hlast := proposalsUpTo_last cfg hlog hm
      dsimp only
      cases hdata : collectData cfg (e :: es) with
      | none => exact ⟨htaken,hchannels,trivial⟩
      | some data =>
        rw [← collectData_eq hdata] at hlast
        dsimp only
        split
        · next hnone =>
          have hempty : data = [] := by
            rcases hnone with hwit | hempty
            · rw [collectData_eq hdata,List.flatMap_eq_nil_iff]
              intro e' he'
              exact hwitness hwit e' (mem_of_mem_entriesToApply hents he')
                (lt_index_of_mem hlog (hm ▸ he'))
            · exact hempty
          rw [hempty,List.append_nil] at hlast
          let s' : Node σ τ :=
            { s with appliedIndex := ((e :: es).getLast?.map Entry.index).getD 0 }
          have hstore' : s'.Consistent cfg E log := by
            rw [Node.Consistent,hlast]
            exact hstore
          exact inv_maybeTriggerSnapshot s' htaken hchannels hstore' (by simp)
        · exact ⟨htaken,hchannels,hstore,hlast⟩

lemma Inv.of_applier (h : Inv cfg E log s) (htaken : t.taken = s.taken)
    (hloop : t.loop = s.loop) (hindex : t.appliedIndex = s.appliedIndex)
    (hcommits : t.commits = s.commits) (hsaved : t.saved = s.saved)
    (hchannels : t.closed+t.applier.pending = t.commits)
    (hreload : s.applier ≠ .reloading → t.applier ≠ .reloading)
    (hstore : ∀ ps, Consistent E ps s.store s.saved s.applier →
      Consistent E ps t.store s.saved t.applier) : Inv cfg E log t := by
  refine ⟨htaken ▸ h.taken,hchannels,?_⟩
  have hconsistent : s.Consistent cfg E log → t.Consistent cfg E log := by
    rw [Node.Consistent,Node.Consistent,hindex,hsaved]
    exact hstore _
  have hold := h.loop
  rw [LoopInv] at hold ⊢
  rw [hloop,hindex,hcommits,hsaved]
  cases hs : s.loop with
  | idle => rw [hs] at hold; exact hconsistent hold
  | stopped => trivial
  | sendNil index ents => rw [hs] at hold; exact hold
  | sendCommit data lastIndex => rw [hs] at hold; exact ⟨hconsistent hold.1,hold.2⟩
  | trigger applyDoneC =>
    cases applyDoneC with
    | none => rw [hs] at hold; exact hconsistent hold
    | some c => rw [hs] at hold; exact ⟨hconsistent hold.1,hold.2.1,hreload hold.2.2⟩

lemma Inv.work (h : Inv cfg E log s) {base : σ}
    (happlier : s.applier = .working base data) (store : σ) :
    Inv cfg E log { s with store := store } := by
  refine h.of_applier rfl rfl rfl rfl rfl h.channels id fun ps hps => ?_
  dsimp only
  rw [happlier] at hps ⊢
  exact hps

lemma Inv.finish (h : Inv cfg E log s) {base store : σ}
    (happlier : s.applier = .working base data) (outcome : E.Applies data base store) :
    Inv cfg E log { s with store := store, applier := .finished } := by
  have hchannels := h.channels
  rw [happlier] at hchannels
  refine h.of_applier rfl rfl rfl rfl rfl hchannels (fun _ => by simp) fun ps hps => ?_
  rw [happlier] at hps
  obtain ⟨before,⟨commits,heffects,rfl⟩,rfl⟩ := hps
  exact ⟨commits ++ [data],.commit heffects outcome,by simp⟩

lemma Inv.close (h : Inv cfg E log s) (happlier : s.applier = .finished) :
    Inv cfg E log { s with applier := .idle, closed := s.closed+1 } := by
  have hchannels := h.channels
  rw [happlier] at hchannels
  refine h.of_applier rfl rfl rfl rfl rfl hchannels (fun _ => by simp) fun ps hps => ?_
  rw [happlier] at hps
  exact hps

lemma Inv.reload (h : Inv cfg E log s) (happlier : s.applier = .reloading) {index : ℕ} {d : τ}
    (hsaved : s.saved = some (index,d)) :
    Inv cfg E log { s with applier := .idle, store := E.recoverFromSnapshot s.store d } := by
  have hchannels := h.channels
  rw [happlier] at hchannels
  refine h.of_applier rfl rfl rfl rfl rfl hchannels (fun _ => by simp) fun ps hps => ?_
  rw [happlier] at hps
  obtain ⟨snapshot,hmem,hholds⟩ := hps
  obtain rfl : (index,d) = snapshot := Option.some.inj (hsaved.symm.trans hmem)
  change Holds E ps (E.getSnapshot (E.recoverFromSnapshot s.store d))
  rw [E.getSnapshot_recover]
  exact hholds

lemma Inv.ready (hlog : Indexed log) (h : Inv cfg E log s) (hidle : s.loop = .idle)
    {rd : Ready τ} (hvalid : rd.Valid cfg E log) (hcareful : Careful cfg s (.ready rd)) :
    Inv cfg E log (s.handleReady cfg rd) := by
  obtain ⟨snapshot,ents⟩ := rd
  obtain ⟨⟨a,n,rfl⟩,hcomplete⟩ := hvalid
  have hstore := h.loop
  rw [LoopInv,hidle] at hstore
  rw [Node.handleReady]
  cases snapshot with
  | none => exact inv_publishEntries s hlog h.taken h.channels hstore hcareful
  | some snapshot =>
    obtain ⟨index,d⟩ := snapshot
    dsimp only
    split
    · exact ⟨h.taken,h.channels,trivial⟩
    · exact ⟨h.taken,h.channels,⟨d,rfl,hcomplete _ rfl⟩,⟨a,n,rfl⟩,hcareful⟩

lemma Inv.receiveNil (hlog : Indexed log) (h : Inv cfg E log s) {index : ℕ} {ents : List Entry}
    (hloop : s.loop = .sendNil index ents) (hidle : s.applier = .idle) :
    Inv cfg E log ({ s with applier := .reloading, snapshotIndex := index,
                            appliedIndex := index }.publishEntries cfg ents) := by
  have hold := h.loop
  rw [LoopInv,hloop] at hold
  obtain ⟨⟨d,hsaved,hcomplete⟩,⟨a,n,rfl⟩,hwitness⟩ := hold
  have hchannels := h.channels
  rw [hidle] at hchannels
  let s' : Node σ τ :=
    { s with applier := .reloading, snapshotIndex := index, appliedIndex := index }
  exact inv_publishEntries s' hlog h.taken hchannels ⟨(index,d),hsaved,hcomplete⟩ hwitness

lemma Inv.receiveCommit (h : Inv cfg E log s) {lastIndex : ℕ}
    (hloop : s.loop = .sendCommit data lastIndex) (hidle : s.applier = .idle) :
    Inv cfg E log ({ s with applier := .working s.store data, commits := s.commits+1,
                            appliedIndex := lastIndex }.maybeTriggerSnapshot cfg
                              (some (s.commits+1))) := by
  have hold := h.loop
  rw [LoopInv,hloop] at hold
  obtain ⟨hstore,hlast⟩ := hold
  rw [Node.Consistent,hidle] at hstore
  have hchannels := h.channels
  rw [hidle] at hchannels
  let s' : Node σ τ :=
    { s with applier := .working s.store data, commits := s.commits+1, appliedIndex := lastIndex }
  refine inv_maybeTriggerSnapshot s' h.taken (congrArg (·+1) hchannels) ⟨_,hstore,hlast.symm⟩ ?_
  intro c hc
  exact ⟨(Option.mem_some_iff.mp hc).symm,by simp⟩

lemma Inv.settled_of_closed (h : Inv cfg E log s) {c : ℕ} (hloop : s.loop = .trigger (some c))
    (hdone : c ≤ s.closed) : s.applier.Settled := by
  have hold := h.loop
  rw [LoopInv,hloop] at hold
  obtain ⟨-,rfl,hreload⟩ := hold
  have hchannels := h.channels
  cases happlier : s.applier with
  | idle => trivial
  | finished => trivial
  | working base data =>
    rw [happlier,Applier.pending] at hchannels
    omega
  | reloading => exact absurd happlier hreload

lemma Inv.snapshot (h : Inv cfg E log s)
    (hloop : s.loop = .trigger applyDoneC) (hdone : ∀ c ∈ applyDoneC, c ≤ s.closed)
    (hcareful : s.loop = .trigger none → s.applier.Settled) :
    Inv cfg E log (s.storeSnapshot E) := by
  have hold := h.loop
  rw [LoopInv,hloop] at hold
  obtain ⟨hstore,hsettled⟩ : s.Consistent cfg E log ∧ s.applier.Settled := by
    cases applyDoneC with
    | none => exact ⟨hold,hcareful hloop⟩
    | some c => exact ⟨hold.1,h.settled_of_closed hloop (hdone c rfl)⟩
  have hholds := (hsettled.consistent_iff _ _ _).mp hstore
  refine ⟨?_,h.channels,(hsettled.consistent_iff _ _ _).mpr hholds⟩
  intro snapshot hmem
  rcases List.mem_cons.mp hmem with rfl | hmem
  · exact hholds
  · exact h.taken snapshot hmem

theorem Inv.step (hlog : Indexed log) {event : Event σ τ} (h : Inv cfg E log s)
    (hallowed : Allowed cfg E log s event) (hstep : Step cfg E s event t) : Inv cfg E log t := by
  obtain ⟨hvalid,hcareful⟩ := hallowed
  cases hstep with
  | ready rd hidle => exact h.ready hlog hidle (hvalid rd rfl) hcareful
  | receiveNil index ents hloop hidle => exact h.receiveNil hlog hloop hidle
  | receiveCommit data lastIndex hloop hidle => exact h.receiveCommit hloop hidle
  | work base data happlier store => exact h.work happlier store
  | finish base data happlier store outcome => exact h.finish happlier outcome
  | close happlier => exact h.close happlier
  | reload happlier index d hsaved => exact h.reload happlier hsaved
  | snapshot applyDoneC hloop hdone => exact h.snapshot hloop hdone hcareful
  | stop hselects => exact ⟨h.taken,h.channels,trivial⟩

end Steps

lemma inv_start {index : ℕ} {store : σ} (h : Complete cfg E log (index,E.getSnapshot store)) :
    Inv cfg E log (Node.start index store) :=
  ⟨fun _ hmem => absurd hmem List.not_mem_nil,rfl,h⟩

theorem complete_of_mem_taken (hlog : Indexed log) {index : ℕ} {store : σ}
    (hstart : Complete cfg E log (index,E.getSnapshot store)) {events : List (Event σ τ)}
    {s : Node σ τ} (hrun : Run (Step cfg E) (Allowed cfg E log) (.start index store) events s) :
    ∀ snapshot ∈ s.taken, Complete cfg E log snapshot :=
  (hrun.invariant (fun _ _ _ h hallowed hstep => h.step hlog hallowed hstep)
    (inv_start cfg E log hstart)).taken

end MetaStore.Raft
