import MetaStore.Library.Transition
import MetaStore.MVCC.Tracking

/-! The automatic compaction (internal/mvcc/compaction.go). A compactor reads the current and
the compacted revision, each under the lock of the store, and compacts in a third call, so that
writes and other compactors come in between. -/
namespace MetaStore.MVCC
open Std

inductive CompactionMode
  | revision | periodic | other
  deriving DecidableEq, Repr

structure CompactorConfig where
  mode : CompactionMode
  retention : ℤ
  deriving DecidableEq, Repr

/-- The retention that `NewCompactor` settles on. -/
def newCompactor (config : CompactorConfig) : CompactorConfig :=
  if config.retention ≤ 0 then { config with retention := 1000 } else config

/-- The revision that `doCompact` hands to the store, if any. -/
def CompactorConfig.targetRev (config : CompactorConfig) (currentRev compactedRev : ℤ) :
    Option ℤ :=
  let target : Option ℤ := match config.mode with
    | .revision => some (currentRev-config.retention)
    | .periodic => some (currentRev-1)
    | .other => none
  target.filter fun targetRev => decide (compactedRev < targetRev ∧ 0 < targetRev)

structure Backend (σ ω : Type*) where
  currentRevision : σ → ℤ
  compactedRevision : σ → ℤ
  write : σ → ω → σ
  compact : σ → (ok : Bool) → (rev : ℤ) → Except Failure Unit × σ
  current_write (s : σ) (w : ω) : currentRevision s ≤ currentRevision (write s w)
  compacted_write (s : σ) (w : ω) : compactedRevision (write s w) = compactedRevision s
  current_compact (s : σ) (ok : Bool) (rev : ℤ) :
    currentRevision (compact s ok rev).2 = currentRevision s
  compacted_compact (s : σ) (ok : Bool) (rev : ℤ) :
    compactedRevision (compact s ok rev).2 = compactedRevision s ∨
      compactedRevision s ≤ rev ∧ compactedRevision (compact s ok rev).2 = rev
  not_future (s : σ) (ok : Bool) (rev : ℤ) (h : rev < currentRevision s) :
    (compact s ok rev).1 ≠ .error (.store .futureRevision)

namespace MemoryStore
variable (s : MemoryStore)

lemma step_fields (call : Call) :
    s.current.main ≤ (s.step call).current.main ∧ (s.step call).compactedRev = s.compactedRev := by
  have hnext : s.current.main ≤ s.next.current.main := by dsimp only [next]; omega
  cases call with
  | put key value lease =>
    simp only [step,put]
    split_ifs
    · exact ⟨le_rfl,rfl⟩
    · exact ⟨le_rfl,rfl⟩
    · exact ⟨hnext,rfl⟩
  | delete key =>
    simp only [step,delete]
    split_ifs
    · exact ⟨le_rfl,rfl⟩
    · exact ⟨le_rfl,rfl⟩
    · cases s.liveItem key with
      | none => exact ⟨le_rfl,rfl⟩
      | some ki => exact ⟨hnext,rfl⟩
  | deleteRange start stop =>
    obtain ⟨hcurrent,hcompacted,-⟩ :=
      deleteKeys_fields s.next.current (s.keysToDelete start stop) s.next 0 0 0
    simp only [step,deleteRange]
    split_ifs
    · exact ⟨le_rfl,rfl⟩
    · exact ⟨le_rfl,rfl⟩
    · exact ⟨le_rfl,rfl⟩
    · exact ⟨hnext.trans (congrArg Revision.main hcurrent).ge,hcompacted⟩
    · exact ⟨hnext.trans (congrArg Revision.main hcurrent).ge,hcompacted⟩
  | commit txn =>
    simp only [step,commit]
    split_ifs
    · exact ⟨le_rfl,rfl⟩
    · cases succeeded s.liveRecord txn.conditions with
      | none => exact ⟨le_rfl,rfl⟩
      | some b =>
        obtain ⟨hcurrent,hcompacted,-⟩ := executeOps_fields s.next.current
          (if b = true then txn.thenOps else txn.elseOps) s.next 0
        exact ⟨hnext.trans (congrArg Revision.main hcurrent).ge,hcompacted⟩

/-- The answer of `Compact` together with the store it leaves. -/
def tryCompact (rev : ℤ) : Except Failure Unit × MemoryStore :=
  match s.compact rev with
  | .error err => (.error (.store err),s)
  | .ok s' => (.ok (),s')

/-- The memory store never fails to write. -/
def backend : Backend MemoryStore Call where
  currentRevision := currentRevision
  compactedRevision s := s.compactedRev.main
  write := step
  compact s _ rev := s.tryCompact rev
  current_write s w := (s.step_fields w).1
  compacted_write s w := by rw [(s.step_fields w).2]
  current_compact s _ rev := by
    unfold tryCompact
    cases h : s.compact rev with
    | error err => rfl
    | ok s' =>
      obtain ⟨-,-,-,rfl⟩ := compact_eq_ok h
      rfl
  compacted_compact s _ rev := by
    unfold tryCompact
    cases h : s.compact rev with
    | error err => exact .inl rfl
    | ok s' =>
      obtain ⟨-,hlt,-,rfl⟩ := compact_eq_ok h
      have hlt := Revision.lessThan_iff.mp hlt
      exact .inr ⟨by dsimp only at hlt; omega,rfl⟩
  not_future s _ rev hrev := by
    have hfuture : ¬ (⟨rev,0⟩ : Revision).greaterThan s.current = true := fun h => by
      have h := Revision.greaterThan_iff.mp h
      dsimp only [currentRevision] at h hrev
      omega
    unfold tryCompact compact
    dsimp only
    rw [if_neg hfuture]
    split_ifs <;> exact fun h => by cases h

end MemoryStore

namespace RocksDBStore
variable (s : RocksDBStore)

def write (ok : Bool) : Call → RocksDBStore
  | .put key value lease => (s.put ok key value lease).2
  | .delete key => (s.delete ok key).2
  | .deleteRange start stop => (s.deleteRange ok start stop).2
  | .commit txn => (s.commit ok txn).2

lemma finish_fields {α : Type*} {f : Filling} (hcurrent : f.store.currentRev = s.next.currentRev)
    (hcompacted : f.store.compactedRev = s.compactedRev) (ok : Bool) (sub : ℤ)
    (done failed : Except Failure α) :
    let t := (if (f.finish ok sub).1 = true then (done,(f.finish ok sub).2)
      else (failed,(f.finish ok sub).2)).2
    s.currentRev.main ≤ t.currentRev.main ∧ t.compactedRev = s.compactedRev := by
  have hmain : s.currentRev.main ≤ f.store.currentRev.main := by
    rw [hcurrent]
    dsimp only [next]
    omega
  cases ok with
  | true => exact ⟨hmain,hcompacted⟩
  | false => exact ⟨hmain,hcompacted⟩

lemma write_fields (ok : Bool) (call : Call) :
    s.currentRev.main ≤ (s.write ok call).currentRev.main ∧
      (s.write ok call).compactedRev = s.compactedRev := by
  have hnext : s.currentRev.main ≤ s.next.currentRev.main := by dsimp only [next]; omega
  cases call with
  | put key value lease =>
    simp only [write,put]
    split_ifs
    · exact ⟨le_rfl,rfl⟩
    · exact ⟨le_rfl,rfl⟩
    · exact ⟨hnext,rfl⟩
    · exact ⟨hnext,rfl⟩
  | delete key =>
    simp only [write,delete]
    cases s.liveItem key with
    | none => split_ifs <;> exact ⟨le_rfl,rfl⟩
    | some ki =>
      split_ifs
      · exact ⟨le_rfl,rfl⟩
      · exact ⟨le_rfl,rfl⟩
      · exact ⟨hnext,rfl⟩
      · exact ⟨hnext,rfl⟩
  | deleteRange start stop =>
    by_cases hidle : start = [] ∨ s.closed = true ∨ s.keysToDelete start stop = []
    · rw [write,deleteRange_of_idle ok hidle]
      exact ⟨le_rfl,rfl⟩
    simp only [not_or] at hidle
    obtain ⟨hstore,-⟩ := deleteKeys_index (m := s.shadow.next) s.next.currentRev
      (s.keysToDelete start stop) (f := ⟨s.next,[]⟩) rfl 0 0 0
    simp only [write,deleteRange,if_neg hidle.1,if_neg hidle.2.1,if_neg hidle.2.2]
    exact finish_fields s (by rw [hstore]) (by rw [hstore]; rfl) ok _ _ _
  | commit txn =>
    simp only [write,commit]
    by_cases hclosed : s.closed = true
    · rw [if_pos hclosed]
      exact ⟨le_rfl,rfl⟩
    rw [if_neg hclosed]
    cases succeeded s.liveRecord txn.conditions with
    | none => exact ⟨le_rfl,rfl⟩
    | some b =>
      have hstore := executeOps_index (m := s.shadow.next) s.next.currentRev
        (if b = true then txn.thenOps else txn.elseOps) (f := ⟨s.next,[]⟩) rfl 0
      exact finish_fields s (by rw [hstore]) (by rw [hstore]; rfl) ok _ _ _

/-- A compaction is refused or takes effect, even if its database write fails. -/
lemma compact_cases (ok : Bool) (rev : ℤ) :
    (s.compact ok rev).2 = s ∨ s.compactedRev.main ≤ rev ∧
      (s.compact ok rev).2.currentRev = s.currentRev ∧
      (s.compact ok rev).2.compactedRev = ⟨rev,0⟩ := by
  unfold compact
  dsimp only
  split_ifs with hclosed hlow hfuture
  · exact .inl rfl
  · exact .inl rfl
  · exact .inl rfl
  all_goals
    have hlow := mt Revision.lessThanOrEqual_iff.mpr hlow
    exact .inr ⟨by dsimp only at hlow; omega,rfl,rfl⟩

def backend : Backend RocksDBStore (Bool × Call) where
  currentRevision := currentRevision
  compactedRevision := compactedRevision
  write s w := s.write w.1 w.2
  compact := compact
  current_write s w := (s.write_fields w.1 w.2).1
  compacted_write s w := congrArg Revision.main (s.write_fields w.1 w.2).2
  current_compact s ok rev := by
    obtain heq | ⟨-,hcurrent,-⟩ := s.compact_cases ok rev
    · rw [heq]
    · exact congrArg Revision.main hcurrent
  compacted_compact s ok rev := by
    obtain heq | ⟨hle,-,hcompacted⟩ := s.compact_cases ok rev
    · exact .inl (by rw [heq])
    · exact .inr ⟨hle,congrArg Revision.main hcompacted⟩
  not_future s ok rev hrev := by
    have hfuture : ¬ (⟨rev,0⟩ : Revision).greaterThan s.currentRev = true := fun h => by
      have h := Revision.greaterThan_iff.mp h
      dsimp only [currentRevision] at h hrev
      omega
    unfold compact
    dsimp only
    rw [if_neg hfuture]
    split_ifs <;> exact fun h => by cases h

end RocksDBStore

/-- Where a call of `doCompact` is, with what it has read. -/
inductive Progress
  | idle
  | current (currentRev : ℤ)
  | compacted (currentRev compactedRev : ℤ)

def Progress.currentRev : Progress → Option ℤ
  | .idle => none
  | .current currentRev => some currentRev
  | .compacted currentRev _ => some currentRev

section Work
variable {σ ω : Type*} {n : ℕ}

/-- Each of the `n+1` compactors may have any number of calls under way. -/
structure Work (σ : Type*) (n : ℕ) where
  store : σ
  calls : Fin (n+1) × ℕ → Progress
  returned : List (Except Failure Unit)

inductive Move (ω : Type*) (n : ℕ)
  | write (w : ω)
  | currentRevision (call : Fin (n+1) × ℕ)
  | compactedRevision (call : Fin (n+1) × ℕ)
  | compact (call : Fin (n+1) × ℕ) (ok : Bool)

/-- `doCompact` after its reads. A revision that is already compacted is not an error. -/
def doCompact (E : Backend σ ω) (config : CompactorConfig) (store : σ) (ok : Bool)
    (currentRev compactedRev : ℤ) : Except Failure Unit × σ :=
  match config.targetRev currentRev compactedRev with
  | none => (.ok (),store)
  | some targetRev =>
    let (result,store) := E.compact store ok targetRev
    (if result = .error (.store .compacted) then .ok () else result,store)

def Work.step (E : Backend σ ω) (config : Fin (n+1) → CompactorConfig) (s : Work σ n) :
    Move ω n → Option (Work σ n)
  | .write w => some { s with store := E.write s.store w }
  | .currentRevision call =>
    match s.calls call with
    | .idle => some { s with
        calls := Function.update s.calls call (.current (E.currentRevision s.store)) }
    | _ => none
  | .compactedRevision call =>
    match s.calls call with
    | .current currentRev => some { s with
        calls := Function.update s.calls call
          (.compacted currentRev (E.compactedRevision s.store)) }
    | _ => none
  | .compact call ok =>
    match s.calls call with
    | .compacted currentRev compactedRev =>
      let (result,store) := doCompact E (config call.1) s.store ok currentRev compactedRev
      some ⟨store,Function.update s.calls call .idle,result :: s.returned⟩
    | _ => none

def Work.start (store : σ) : Work σ n := ⟨store,fun _ => .idle,[]⟩

def minRetention (retention : Fin (n+1) → ℤ) : ℤ := Finset.univ.inf' Finset.univ_nonempty retention

/-- What `doCompact` is not to return. -/
def Complains (result : Except Failure Unit) : Prop :=
  result = .error (.store .compacted) ∨ result = .error (.store .futureRevision)

structure Keeps (E : Backend σ ω) (retention : Fin (n+1) → ℤ) (s : Work σ n) : Prop where
  history : E.compactedRevision s.store ≤ max 0 (E.currentRevision s.store-minRetention retention)
  quiet : ∀ result ∈ s.returned, ¬ Complains result

variable {E : Backend σ ω} {retention : Fin (n+1) → ℤ} {s t : Work σ n}

structure Work.Sound (E : Backend σ ω) (retention : Fin (n+1) → ℤ) (s : Work σ n) : Prop extends
    Keeps E retention s where
  read : ∀ call currentRev, (s.calls call).currentRev = some currentRev →
    currentRev ≤ E.currentRevision s.store

lemma targetRev_eq_some {config : CompactorConfig} (hmode : config.mode = .revision)
    {currentRev compactedRev targetRev : ℤ}
    (h : config.targetRev currentRev compactedRev = some targetRev) :
    targetRev = currentRev-config.retention := by
  rw [CompactorConfig.targetRev,hmode] at h
  exact (Option.some.inj (Option.filter_eq_some_iff.mp h).1).symm

lemma doCompact_spec (config : CompactorConfig) (hmode : config.mode = .revision)
    (hpos : 0 < config.retention) {store : σ} {currentRev : ℤ}
    (hread : currentRev ≤ E.currentRevision store) (ok : Bool) (compactedRev : ℤ) :
    let done := doCompact E config store ok currentRev compactedRev
    ¬ Complains done.1 ∧ E.currentRevision done.2 = E.currentRevision store ∧
    (E.compactedRevision done.2 = E.compactedRevision store ∨
      E.compactedRevision store ≤ E.compactedRevision done.2 ∧
        E.compactedRevision done.2 = currentRev-config.retention) := by
  have hok : ¬ Complains (.ok ()) := by simp [Complains]
  unfold doCompact
  cases htarget : config.targetRev currentRev compactedRev with
  | none => exact ⟨hok,rfl,.inl rfl⟩
  | some targetRev =>
    obtain rfl := targetRev_eq_some hmode htarget
    have hfuture := E.not_future store ok (currentRev-config.retention) (by omega)
    refine ⟨?_,E.current_compact store ok _,?_⟩
    · dsimp only
      split_ifs with hresult
      · exact hok
      · exact not_or.mpr ⟨hresult,hfuture⟩
    · obtain heq | ⟨hle,heq⟩ := E.compacted_compact store ok (currentRev-config.retention)
      · exact .inl heq
      · exact .inr ⟨hle.trans heq.ge,heq⟩

/-- A change of the store that moves no revision back keeps the reads, and one more call may
have read the present revision. -/
lemma Work.Sound.reads (h : s.Sound E retention) {store : σ}
    (hcurrent : E.currentRevision s.store ≤ E.currentRevision store) (call : Fin (n+1) × ℕ)
    {p : Progress} (hp : ∀ r, p.currentRev = some r → r ≤ E.currentRevision store)
    (other : Fin (n+1) × ℕ) (r : ℤ)
    (hr : (Function.update s.calls call p other).currentRev = some r) :
    r ≤ E.currentRevision store := by
  obtain rfl | hne := eq_or_ne other call
  · rw [Function.update_self] at hr
    exact hp r hr
  · rw [Function.update_of_ne hne] at hr
    exact (h.read other r hr).trans hcurrent

lemma Work.Sound.step (hpos : ∀ i, 0 < retention i) (h : s.Sound E retention)
    (move : Move ω n) (hstep : s.step E (fun i => newCompactor ⟨.revision,retention i⟩) move = some t) :
    t.Sound E retention ∧ E.compactedRevision s.store ≤ E.compactedRevision t.store := by
  cases move with
  | write w =>
    obtain rfl := Option.some.inj hstep
    have hcurrent := E.current_write s.store w
    have hcompacted := E.compacted_write s.store w
    refine ⟨⟨⟨?_,h.quiet⟩,fun call r hr => (h.read call r hr).trans hcurrent⟩,hcompacted.ge⟩
    have := h.history
    dsimp only
    omega
  | currentRevision call =>
    simp only [Work.step] at hstep
    split at hstep
    · obtain rfl := Option.some.inj hstep
      exact ⟨⟨⟨h.history,h.quiet⟩,h.reads le_rfl call fun r hr => (Option.some.inj hr).ge⟩,le_rfl⟩
    · cases hstep
  | compactedRevision call =>
    simp only [Work.step] at hstep
    split at hstep
    · next currentRev hcall =>
      obtain rfl := Option.some.inj hstep
      refine ⟨⟨⟨h.history,h.quiet⟩,h.reads le_rfl call fun r hr => h.read call r ?_⟩,le_rfl⟩
      rw [hcall]
      exact hr
    · cases hstep
  | compact call ok =>
    simp only [Work.step] at hstep
    split at hstep
    · next currentRev compactedRev hcall =>
      obtain rfl := Option.some.inj hstep
      have hconfig : newCompactor ⟨.revision,retention call.1⟩ = ⟨.revision,retention call.1⟩ :=
        if_neg (hpos call.1).not_ge
      have hread := h.read call currentRev (by rw [hcall]; rfl)
      obtain ⟨hquiet,hcurrent,hcompacted⟩ := doCompact_spec ⟨.revision,retention call.1⟩ rfl
        (hpos call.1) hread ok compactedRev
      have hmin : minRetention retention ≤ retention call.1 :=
        Finset.inf'_le retention (Finset.mem_univ call.1)
      have hhistory := h.history
      dsimp only at hcompacted ⊢
      rw [hconfig]
      refine ⟨⟨⟨?_,?_⟩,h.reads hcurrent.ge call fun r hr => by cases hr⟩,by omega⟩
      · dsimp only
        omega
      · rintro result (_ | ⟨_,hmem⟩)
        · exact hquiet
        · exact h.quiet result hmem
    · cases hstep

/-- Any number of compactors and any writes, in any order: the promised history is kept, the
compacted revision never goes back, and no call complains. -/
theorem compactors_keep_history (E : Backend σ ω) (retention : Fin (n+1) → ℤ)
    (hpos : ∀ i, 0 < retention i) (store : σ)
    (hstore : E.compactedRevision store ≤
      max 0 (E.currentRevision store-minRetention retention)) (moves : List (Move ω n)) :
    let step := Work.step E fun i => newCompactor ⟨.revision,retention i⟩
    Transition.EveryState step (Keeps E retention) (Work.start store) moves ∧
    Transition.EveryStep step
      (fun s _ t => E.compactedRevision s.store ≤ E.compactedRevision t.store)
      (Work.start store) moves := by
  have hstart : (Work.start store : Work σ n).Sound E retention :=
    ⟨⟨hstore,fun result hr => absurd hr List.not_mem_nil⟩,fun call r hr => by cases hr⟩
  have hall : Transition.EveryState _ (Work.Sound E retention) (Work.start store) moves :=
    Transition.everyState_of_invariant (fun s move _ t hs ht => (hs.step hpos move ht).1) hstart
  refine ⟨fun p hp t ht => (hall p hp t ht).toKeeps,fun p move hp s t hs ht => ?_⟩
  exact ((hall p ((List.prefix_append p [move]).trans hp) s hs).step hpos move ht).2

/-- Two compactors of the memory store, one of which compacts. -/
theorem compactors_keep_history_two :
    let step := Work.step MemoryStore.backend fun i : Fin 2 => newCompactor ⟨.revision,![2,1] i⟩
    Transition.EveryState step (Keeps MemoryStore.backend ![2,1]) (Work.start .new)
      [.write (.put [1] [1] 0),.write (.put [1] [2] 0),.currentRevision (1,0),.write (.delete [1]),
        .compactedRevision (1,0),.compact (1,0) true] :=
  (compactors_keep_history MemoryStore.backend ![2,1] (by decide) .new (le_max_left 0 _) _).1

end Work
end MetaStore.MVCC
