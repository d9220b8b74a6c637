import MetaStore.Library.CreationOrder
import MetaStore.Library.Transition

/-! Leader election over the keys of sessions (pkg/concurrency/election.go). Every session has one
`Election` on the prefix, and its key is named after its lease. The server executes a transaction,
a get or a deletion in one step. A pending `Campaign` can be cancelled at any time; its request is
then executed without an answer, or not at all, or some time later. -/
namespace MetaStore.Elections
open CreationOrder Transition

variable {ι : Type*} [DecidableEq ι]

/-- What a call waits for. `myRev` is the create revision of the session's key. -/
inductive PC (ι : Type*)
  | idle
  | txn
  | get (myRev : ℤ)
  | watch (myRev : ℤ) (lastKey : ι)
  | delete
  deriving DecidableEq

/-- `leaderKey` is the create revision of the key if the field of the source is not empty. -/
structure Election (ι : Type*) where
  pc : PC ι
  leaderKey : Option ℤ

def Election.isLeader (e : Election ι) : Bool := e.leaderKey.isSome

/-- What becomes of a request: it is answered, executed without an answer, never executed or
executed after the call has returned. -/
inductive Fate
  | answered | lost | dropped | late
  deriving DecidableEq, Repr

structure State (ι : Type*) where
  server : Server ι
  election : ι → Election ι
  late : List ι

inductive Action (ι : Type*)
  | campaign (i : ι)
  | resign (i : ι)
  | request (i : ι) (fate : Fate)
  | retry (i : ι)
  | fail (i : ι)
  | arrive (n : ℕ)

namespace State

def init (server : Server ι) : State ι := ⟨server,fun _ => ⟨.idle,none⟩,[]⟩

def set (s : State ι) (i : ι) (e : Election ι) : State ι :=
  { s with election := Function.update s.election i e }

@[simp] lemma election_set_self (s : State ι) (i : ι) (e : Election ι) :
    (s.set i e).election i = e := by simp [set]

lemma election_set_of_ne (s : State ι) {i j : ι} (e : Election ι) (h : j ≠ i) :
    (s.set i e).election j = s.election j := by simp [set,h]

def campaign (s : State ι) (i : ι) : Option (State ι) :=
  if (s.election i).pc = .idle then
    match (s.election i).leaderKey with
    | some _ => some s
    | none => some (s.set i ⟨.txn,none⟩)
  else none

/-- The local leadership ends before the deletion is requested. -/
def resign (s : State ι) (i : ι) : Option (State ι) :=
  if (s.election i).pc = .idle then
    match (s.election i).leaderKey with
    | some _ => some (s.set i ⟨.delete,none⟩)
    | none => some s
  else none

def requestTxn (s : State ι) (i : ι) : Fate → State ι
  | .answered => { s with server := (s.server.create i).1 }.set i ⟨.get (s.server.create i).2,none⟩
  | .lost => { s with server := (s.server.create i).1 }.set i ⟨.idle,none⟩
  | .dropped => s.set i ⟨.idle,none⟩
  | .late => { s with late := s.late ++ [i] }.set i ⟨.idle,none⟩

/-- The get of `waitLeader`, after which `Campaign` has won or watches an older key. -/
def requestGet (s : State ι) (i : ι) (myRev : ℤ) : Fate → State ι
  | .answered =>
    match s.server.before myRev with
    | none => s.set i ⟨.idle,some myRev⟩
    | some lastKey => s.set i ⟨.watch myRev lastKey,none⟩
  | _ => s.set i ⟨.idle,none⟩

/-- The deletion of `Resign`, which is not cancelled. -/
def requestDelete (s : State ι) (i : ι) : Fate → Option (State ι)
  | .answered | .lost => some ({ s with server := s.server.delete i }.set i ⟨.idle,none⟩)
  | .dropped => some (s.set i ⟨.idle,none⟩)
  | .late => none

def request (s : State ι) (i : ι) (fate : Fate) : Option (State ι) :=
  match (s.election i).pc with
  | .txn => some (s.requestTxn i fate)
  | .get myRev => some (s.requestGet i myRev fate)
  | .delete => s.requestDelete i fate
  | .idle | .watch _ _ => none

/-- The watched key is deleted or the channel closes: the loop of `waitLeader` goes on. -/
def retry (s : State ι) (i : ι) : Option (State ι) :=
  match (s.election i).pc with
  | .watch myRev _ => some (s.set i ⟨.get myRev,none⟩)
  | _ => none

/-- The watch or the context is cancelled, or the session has ended. -/
def fail (s : State ι) (i : ι) : Option (State ι) :=
  match (s.election i).pc with
  | .watch _ _ => some (s.set i ⟨.idle,none⟩)
  | _ => none

def arrive (s : State ι) (n : ℕ) : Option (State ι) :=
  s.late[n]?.map fun i => { s with server := (s.server.create i).1, late := s.late.eraseIdx n }

end State

def step (s : State ι) : Action ι → Option (State ι)
  | .campaign i => s.campaign i
  | .resign i => s.resign i
  | .request i fate => s.request i fate
  | .retry i => s.retry i
  | .fail i => s.fail i
  | .arrive n => s.arrive n

def Leads (s : State ι) (i : ι) : Prop :=
  (s.election i).isLeader ∧ (s.server.createRevision i).isSome

def Unique (s : State ι) : Prop := ∀ i j, Leads s i → Leads s j → i = j

def PC.rev : PC ι → Option ℤ
  | .get myRev => some myRev
  | .watch myRev _ => some myRev
  | _ => none

/-- A leader has the oldest key and no call pending, and a campaign that waits has its key. -/
structure Sound (s : State ι) : Prop where
  leads : ∀ i r, (s.election i).leaderKey = some r →
    s.server.Oldest i r ∧ (s.election i).pc = .idle
  waits : ∀ i r, (s.election i).pc.rev = some r → s.server.createRevision i = some r

lemma Sound.init (server : Server ι) : Sound (State.init server) where
  leads _ _ h := absurd h (by simp [State.init])
  waits _ _ h := absurd h (by simp [State.init,PC.rev])

lemma Sound.set {s : State ι} (h : Sound s) {i : ι} {e : Election ι}
    (hlead : ∀ r, e.leaderKey = some r → s.server.Oldest i r ∧ e.pc = .idle)
    (hwait : ∀ r, e.pc.rev = some r → s.server.createRevision i = some r) :
    Sound (s.set i e) := by
  constructor
  · intro j r hj
    by_cases hji : j = i
    · subst hji
      rw [State.election_set_self] at hj ⊢
      exact hlead r hj
    · rw [State.election_set_of_ne s e hji] at hj ⊢
      exact h.leads j r hj
  · intro j r hj
    by_cases hji : j = i
    · subst hji
      rw [State.election_set_self] at hj
      exact hwait r hj
    · rw [State.election_set_of_ne s e hji] at hj
      exact h.waits j r hj

lemma Sound.setWithout {s : State ι} (h : Sound s) (i : ι) {pc : PC ι} (hpc : pc.rev = none) :
    Sound (s.set i ⟨pc,none⟩) :=
  h.set (fun _ h => by cases h) (fun r h => by rw [hpc] at h; cases h)

lemma Sound.create {s : State ι} (h : Sound s) (j : ι) (late : List ι) :
    Sound { s with server := (s.server.create j).1, late := late } where
  leads i r hi := ⟨(h.leads i r hi).1.create j,(h.leads i r hi).2⟩
  waits i r hi := Server.createRevision_create.mpr (.inl (h.waits i r hi))

lemma Sound.requestTxn {s : State ι} (h : Sound s) (i : ι) (fate : Fate) :
    Sound (s.requestTxn i fate) := by
  cases fate with
  | answered =>
    refine (h.create i s.late).set (fun _ h => by cases h) fun r hr => ?_
    obtain rfl := Option.some.inj hr
    exact s.server.createRevision_create_self i
  | lost => exact (h.create i s.late).setWithout i rfl
  | dropped => exact h.setWithout i rfl
  | late => exact Sound.setWithout (s := { s with late := s.late ++ [i] }) ⟨h.leads,h.waits⟩ i rfl

lemma Sound.requestGet {s : State ι} (h : Sound s) {i : ι} {myRev : ℤ}
    (hpc : (s.election i).pc = .get myRev) (fate : Fate) : Sound (s.requestGet i myRev fate) := by
  have hkey : s.server.createRevision i = some myRev := h.waits i myRev (by rw [hpc]; rfl)
  cases fate with
  | answered =>
    unfold State.requestGet
    cases hb : s.server.before myRev with
    | none =>
      refine h.set (fun r hr => ?_) fun r hr => by cases hr
      obtain rfl := Option.some.inj hr
      exact ⟨⟨hkey,hb⟩,rfl⟩
    | some lastKey =>
      refine h.set (fun _ h => by cases h) fun r hr => ?_
      obtain rfl := Option.some.inj hr
      exact hkey
  | lost => exact h.setWithout i rfl
  | dropped => exact h.setWithout i rfl
  | late => exact h.setWithout i rfl

/-- Only the session itself deletes its key, when it is no leader and waits for nothing. -/
lemma Sound.delete {s : State ι} (h : Sound s) {i : ι} (hpc : (s.election i).pc = .delete) :
    Sound { s with server := s.server.delete i } where
  leads j r hj := by
    obtain ⟨hold,hidle⟩ := h.leads j r hj
    refine ⟨hold.delete ?_,hidle⟩
    rintro rfl
    rw [hpc] at hidle
    cases hidle
  waits j r hj := by
    refine Server.createRevision_delete.mpr ⟨h.waits j r hj,?_⟩
    rintro rfl
    rw [hpc] at hj
    cases hj

lemma Sound.requestDelete {s t : State ι} (h : Sound s) {i : ι}
    (hpc : (s.election i).pc = .delete) {fate : Fate} (ht : s.requestDelete i fate = some t) :
    Sound t := by
  have hdel : Sound ({ s with server := s.server.delete i }.set i ⟨.idle,none⟩) :=
    (h.delete hpc).setWithout i rfl
  cases fate with
  | answered => exact Option.some.inj ht ▸ hdel
  | lost => exact Option.some.inj ht ▸ hdel
  | dropped => exact Option.some.inj ht ▸ h.setWithout i rfl
  | late => cases ht

lemma Sound.request {s t : State ι} (h : Sound s) {i : ι} {fate : Fate}
    (ht : s.request i fate = some t) : Sound t := by
  unfold State.request at ht
  cases hpc : (s.election i).pc with
  | idle => rw [hpc] at ht; cases ht
  | txn =>
    rw [hpc] at ht
    exact Option.some.inj ht ▸ h.requestTxn i fate
  | get myRev =>
    rw [hpc] at ht
    exact Option.some.inj ht ▸ h.requestGet hpc fate
  | watch myRev lastKey => rw [hpc] at ht; cases ht
  | delete =>
    rw [hpc] at ht
    exact h.requestDelete hpc ht

lemma Sound.call {s t : State ι} (h : Sound s) {i : ι}
    (ht : s.campaign i = some t ∨ s.resign i = some t) : Sound t := by
  unfold State.campaign State.resign at ht
  by_cases hpc : (s.election i).pc = .idle
  · rw [if_pos hpc,if_pos hpc] at ht
    cases hl : (s.election i).leaderKey with
    | none =>
      rw [hl] at ht
      rcases ht with ht | ht
      · exact Option.some.inj ht ▸ h.setWithout i rfl
      · exact Option.some.inj ht ▸ h
    | some r =>
      rw [hl] at ht
      rcases ht with ht | ht
      · exact Option.some.inj ht ▸ h
      · exact Option.some.inj ht ▸ h.setWithout i rfl
  · rw [if_neg hpc,if_neg hpc] at ht
    rcases ht with ht | ht <;> cases ht

lemma Sound.watched {s t : State ι} (h : Sound s) {i : ι}
    (ht : s.retry i = some t ∨ s.fail i = some t) : Sound t := by
  unfold State.retry State.fail at ht
  cases hpc : (s.election i).pc with
  | watch myRev lastKey =>
    rw [hpc] at ht
    rcases ht with ht | ht
    · refine Option.some.inj ht ▸ h.set (fun _ h => by cases h) fun r hr => ?_
      exact h.waits i r (by rw [hpc]; exact hr)
    · exact Option.some.inj ht ▸ h.setWithout i rfl
  | _ => rw [hpc] at ht; rcases ht with ht | ht <;> cases ht

lemma Sound.step {s t : State ι} (h : Sound s) {a : Action ι} (ht : step s a = some t) :
    Sound t := by
  cases a with
  | campaign i => exact h.call (.inl ht)
  | resign i => exact h.call (.inr ht)
  | request i fate => exact h.request ht
  | retry i => exact h.watched (.inl ht)
  | fail i => exact h.watched (.inr ht)
  | arrive n =>
    obtain ⟨i,-,rfl⟩ := Option.map_eq_some_iff.mp ht
    exact h.create i _

lemma Sound.unique {s : State ι} (h : Sound s) : Unique s := by
  intro i j hi hj
  obtain ⟨q,hq⟩ := Option.isSome_iff_exists.mp hi.1
  obtain ⟨r,hr⟩ := Option.isSome_iff_exists.mp hj.1
  exact (h.leads i q hq).1.unique (h.leads j r hr).1

/-- Whatever the sessions do, in whatever order the server executes their requests and whichever
campaigns are cancelled, at most one election at a time is leader and has its key. -/
theorem leader_unique (server : Server ι) (actions : List (Action ι)) :
    EveryState step Unique (State.init server) actions := by
  have hsound : EveryState step Sound (State.init server) actions :=
    everyState_of_invariant (fun _ _ _ _ h ht => h.step ht) (Sound.init server)
  intro p hp t ht
  exact (hsound p hp t ht).unique

/-- The second session leads with the key of its cancelled campaign once the first resigns. -/
example : (([.campaign 1,.request 1 .answered,.request 1 .answered,.campaign 2,.request 2 .lost,
    .campaign 2,.request 2 .answered,.request 2 .answered,.resign 1,.request 1 .answered,.retry 2,
    .request 2 .answered] : List (Action ℕ)).foldlM step (.init .empty)).map
      (fun s => ((s.election 1).leaderKey,(s.election 2).leaderKey)) = some (none,some 2) := by
  decide

end MetaStore.Elections
