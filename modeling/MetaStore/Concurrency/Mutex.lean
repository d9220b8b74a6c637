import MetaStore.Library.CreationOrder
import MetaStore.Library.Transition

/-! Mutual exclusion over the keys of sessions (pkg/concurrency/mutex.go). Every session has one
`Mutex` on the prefix and calls it one call after the other; its key is named after its lease. The
server executes a transaction, a get or a deletion in one step. The context of a pending call can
be cancelled at any time; its request is then executed without an answer, or not at all, or some
time later. `Lock` records its key before it waits for the older ones, and a recorded key is all
that `IsOwner` and the next `Lock` look at. -/
namespace MetaStore.Mutexes
open CreationOrder Transition

variable {ι : Type*} [DecidableEq ι]

/-- What a call waits for. `myRev` is the create revision of the session's key. -/
inductive PC (ι : Type*)
  | idle
  | lockTxn
  | lockGet (myRev : ℤ)
  | lockWatch (myRev : ℤ) (lastKey : ι)
  | tryTxn
  | tryGet (myRev : ℤ)
  | tryDelete
  | unlockDelete
  deriving DecidableEq

/-- `myKey` is the create revision of the key if the field of the source is not empty. `acquired`
is no field of the source: it says that the latest call of `Lock` or `TryLock` has returned nil,
with no call of `Unlock` after it. -/
structure Mutex (ι : Type*) where
  pc : PC ι
  myKey : Option ℤ
  acquired : Bool

def Mutex.isOwner (m : Mutex ι) : Bool := m.myKey.isSome

/-- What becomes of a request: it is answered, executed without an answer, never executed or
executed after the call has returned. -/
inductive Fate
  | answered | lost | dropped | late
  deriving DecidableEq, Repr

inductive Request
  | create | delete
  deriving DecidableEq, Repr

structure State (ι : Type*) where
  server : Server ι
  mutex : ι → Mutex ι
  late : List (ι × Request)

inductive Action (ι : Type*)
  | lock (i : ι)
  | tryLock (i : ι)
  | unlock (i : ι)
  | request (i : ι) (fate : Fate)
  | retry (i : ι)
  | fail (i : ι)
  | arrive (n : ℕ)

namespace State

def init (server : Server ι) : State ι := ⟨server,fun _ => ⟨.idle,none,false⟩,[]⟩

def set (s : State ι) (i : ι) (m : Mutex ι) : State ι :=
  { s with mutex := Function.update s.mutex i m }

@[simp] lemma mutex_set_self (s : State ι) (i : ι) (m : Mutex ι) :
    (s.set i m).mutex i = m := by simp [set]

lemma mutex_set_of_ne (s : State ι) {i j : ι} (m : Mutex ι) (h : j ≠ i) :
    (s.set i m).mutex j = s.mutex j := by simp [set,h]

/-- `Lock` and `TryLock` begin alike: with a recorded key they return nil at once. -/
def start (s : State ι) (i : ι) (pc : PC ι) : Option (State ι) :=
  if (s.mutex i).pc = .idle then
    match (s.mutex i).myKey with
    | some myRev => some (s.set i ⟨.idle,some myRev,true⟩)
    | none => some (s.set i ⟨pc,none,false⟩)
  else none

def lock (s : State ι) (i : ι) : Option (State ι) := s.start i .lockTxn

def tryLock (s : State ι) (i : ι) : Option (State ι) := s.start i .tryTxn

/-- The record is gone before the deletion is requested. -/
def unlock (s : State ι) (i : ι) : Option (State ι) :=
  if (s.mutex i).pc = .idle then
    match (s.mutex i).myKey with
    | some _ => some (s.set i ⟨.unlockDelete,none,false⟩)
    | none => some (s.set i ⟨.idle,none,false⟩)
  else none

def giveUp (s : State ι) (i : ι) : State ι := s.set i ⟨.idle,(s.mutex i).myKey,false⟩

/-- The transaction that creates the key of the session, after which `next` happens. -/
def requestCreate (s : State ι) (i : ι) (next : ℤ → Mutex ι) : Fate → State ι
  | .answered => { s with server := (s.server.create i).1 }.set i (next (s.server.create i).2)
  | .lost => { s with server := (s.server.create i).1 }.giveUp i
  | .dropped => s.giveUp i
  | .late => { s with late := s.late ++ [(i,Request.create)] }.giveUp i

/-- The get for older keys, with what happens if there is none and if there is one. -/
def requestGet (s : State ι) (i : ι) (myRev : ℤ) (older : ι → Mutex ι) : Fate → State ι
  | .answered =>
    match s.server.before myRev with
    | none => s.set i ⟨.idle,some myRev,true⟩
    | some lastKey => s.set i (older lastKey)
  | _ => s.giveUp i

/-- The deletion of the own key. The call returns whatever becomes of it. -/
def requestDelete (s : State ι) (i : ι) : Fate → State ι
  | .answered | .lost => { s with server := s.server.delete i }.giveUp i
  | .dropped => s.giveUp i
  | .late => { s with late := s.late ++ [(i,Request.delete)] }.giveUp i

def request (s : State ι) (i : ι) (fate : Fate) : Option (State ι) :=
  match (s.mutex i).pc with
  -- `Lock` records the key as soon as the transaction is answered
  | .lockTxn => some (s.requestCreate i (fun myRev => ⟨.lockGet myRev,some myRev,false⟩) fate)
  | .lockGet myRev =>
    some (s.requestGet i myRev (fun j => ⟨.lockWatch myRev j,(s.mutex i).myKey,false⟩) fate)
  | .tryTxn => some (s.requestCreate i (fun myRev => ⟨.tryGet myRev,none,false⟩) fate)
  | .tryGet myRev => some (s.requestGet i myRev (fun _ => ⟨.tryDelete,none,false⟩) fate)
  | .tryDelete => some (s.requestDelete i fate)
  | .unlockDelete => some (s.requestDelete i fate)
  | .idle | .lockWatch _ _ => none

/-- The watched key is deleted or the channel closes: the loop of `waitDeletes` goes on. -/
def retry (s : State ι) (i : ι) : Option (State ι) :=
  match (s.mutex i).pc with
  | .lockWatch myRev _ => some (s.set i ⟨.lockGet myRev,(s.mutex i).myKey,false⟩)
  | _ => none

/-- The watch or the context is cancelled, or the session has ended. -/
def fail (s : State ι) (i : ι) : Option (State ι) :=
  match (s.mutex i).pc with
  | .lockWatch _ _ => some (s.giveUp i)
  | _ => none

def arrive (s : State ι) (n : ℕ) : Option (State ι) :=
  s.late[n]?.map fun e =>
    { s with
      server := match e.2 with
        | .create => (s.server.create e.1).1
        | .delete => s.server.delete e.1
      late := s.late.eraseIdx n }

end State

def step (s : State ι) : Action ι → Option (State ι)
  | .lock i => s.lock i
  | .tryLock i => s.tryLock i
  | .unlock i => s.unlock i
  | .request i fate => s.request i fate
  | .retry i => s.retry i
  | .fail i => s.fail i
  | .arrive n => s.arrive n

/-- At most one session has the lock, and a mutex that is asked between two calls says that it is
the owner only if its session has it. -/
structure Exclusive (s : State ι) : Prop where
  unique : ∀ i j, (s.mutex i).acquired → (s.mutex j).acquired → i = j
  owner : ∀ i, (s.mutex i).pc = .idle → (s.mutex i).isOwner → (s.mutex i).acquired

/-- What may become of the request a call waits for: the gets of `Lock` are answered, and no
deletion is executed after its call has returned. -/
def PC.Keeps (fate : Fate) : PC ι → Prop
  | .lockGet _ => fate = .answered
  | .tryDelete => fate ≠ .late
  | .unlockDelete => fate ≠ .late
  | _ => True

/-- No call of `Lock` ends with an error after it has recorded its key, and no deletion is executed
after its call has returned. -/
def Kept (s : State ι) : Action ι → Prop
  | .request i fate => (s.mutex i).pc.Keeps fate
  | .fail _ => False
  | _ => True

def PC.rev : PC ι → Option ℤ
  | .lockGet myRev => some myRev
  | .lockWatch myRev _ => some myRev
  | .tryGet myRev => some myRev
  | _ => none

/-- A call of `Lock` that waits for older keys. -/
def PC.waiting : PC ι → Bool
  | .lockGet _ => true
  | .lockWatch _ _ => true
  | _ => false

/-- How a mutex and the key of its session belong together: a recorded key is one that `Lock`
waits for or has got, and a session that has the lock has the oldest key. -/
structure Fitting (server : Server ι) (i : ι) (m : Mutex ι) : Prop where
  told : ∀ r, m.pc.rev = some r → server.createRevision i = some r
  recorded : ∀ r, m.myKey = some r → m.pc.waiting ∧ m.pc.rev = some r ∨ m.acquired
  holds : m.acquired → m.pc = .idle ∧ ∃ r, m.myKey = some r ∧ server.Oldest i r

namespace Fitting
variable {server : Server ι} {i : ι} {m : Mutex ι}

lemma blank {pc : PC ι} (hpc : pc.rev = none) : Fitting server i ⟨pc,none,false⟩ where
  told r h := by rw [hpc] at h; cases h
  recorded _ h := by cases h
  holds h := by cases h

lemma create (h : Fitting server i m) (j : ι) : Fitting (server.create j).1 i m where
  told r hr := Server.createRevision_create.mpr (.inl (h.told r hr))
  recorded := h.recorded
  holds ha := by
    obtain ⟨hpc,r,hr,hold⟩ := h.holds ha
    exact ⟨hpc,r,hr,hold.create j⟩

lemma delete (h : Fitting server i m) {j : ι} (hij : i ≠ j) : Fitting (server.delete j) i m where
  told r hr := Server.createRevision_delete.mpr ⟨h.told r hr,hij⟩
  recorded := h.recorded
  holds ha := by
    obtain ⟨hpc,r,hr,hold⟩ := h.holds ha
    exact ⟨hpc,r,hr,hold.delete hij⟩

/-- While another call is pending no key is recorded. -/
lemma myKey_eq_none (h : Fitting server i m) (hidle : m.pc ≠ .idle)
    (hwait : m.pc.waiting = false) : m.myKey = none := by
  cases hm : m.myKey with
  | none => rfl
  | some r =>
    rcases h.recorded r hm with hw | ha
    · rw [hwait] at hw
      cases hw.1
    · exact absurd (h.holds ha).1 hidle

lemma waiting {pc pc' : PC ι} {key : Option ℤ} {a : Bool} (h : Fitting server i ⟨pc,key,a⟩)
    (hidle : pc ≠ .idle) (hrev : pc'.rev = pc.rev) (hwait : pc'.waiting) :
    Fitting server i ⟨pc',key,false⟩ where
  told r hr := h.told r (hrev ▸ hr)
  recorded r hr := by
    rcases h.recorded r hr with hw | ha
    · exact .inl ⟨hwait,hrev.trans hw.2⟩
    · exact absurd (h.holds ha).1 hidle
  holds ha := by cases ha

/-- A call that finds no older key has the lock. -/
lemma won {myRev : ℤ} (h : Fitting server i m) (hrev : m.pc.rev = some myRev)
    (hbefore : server.before myRev = none) : Fitting server i ⟨.idle,some myRev,true⟩ where
  told r hr := by cases hr
  recorded _ _ := .inr rfl
  holds _ := ⟨rfl,myRev,rfl,h.told myRev hrev,hbefore⟩

end Fitting

structure Sound (s : State ι) : Prop where
  fitting : ∀ i, Fitting s.server i (s.mutex i)
  late : ∀ e ∈ s.late, e.2 = .create

namespace Sound
variable {s t : State ι} {i : ι}
variable {fate : Fate}

lemma init (server : Server ι) : Sound (State.init server) where
  fitting _ := .blank rfl
  late _ h := absurd h List.not_mem_nil

lemma set (h : Sound s) {m : Mutex ι} (hm : Fitting s.server i m) : Sound (s.set i m) where
  fitting j := by
    by_cases hji : j = i
    · subst hji
      rwa [State.mutex_set_self]
    · rw [State.mutex_set_of_ne s m hji]
      exact h.fitting j
  late := h.late

lemma create (h : Sound s) (i : ι) : Sound { s with server := (s.server.create i).1 } where
  fitting j := (h.fitting j).create i
  late := h.late

lemma giveUp (h : Sound s) (hkey : (s.mutex i).myKey = none) : Sound (s.giveUp i) := by
  unfold State.giveUp
  rw [hkey]
  exact h.set (.blank rfl)

lemma requestCreate (h : Sound s) (hkey : (s.mutex i).myKey = none) {next : ℤ → Mutex ι}
    (hnext : ∀ r, (s.server.create i).1.createRevision i = some r →
      Fitting (s.server.create i).1 i (next r)) (fate : Fate) :
    Sound (s.requestCreate i next fate) := by
  cases fate with
  | answered => exact (h.create i).set (hnext _ (s.server.createRevision_create_self i))
  | lost => exact (h.create i).giveUp hkey
  | dropped => exact h.giveUp hkey
  | late =>
    refine Sound.giveUp (s := { s with late := s.late ++ [(i,Request.create)] }) ⟨h.fitting,?_⟩ hkey
    intro e he
    rcases List.mem_append.mp he with he | he
    · exact h.late e he
    · rw [List.mem_singleton.mp he]

lemma requestGet (h : Sound s) {myRev : ℤ} (hrev : (s.mutex i).pc.rev = some myRev)
    {older : ι → Mutex ι} (holder : ∀ j, Fitting s.server i (older j))
    (hfate : fate ≠ .answered → (s.mutex i).myKey = none) :
    Sound (s.requestGet i myRev older fate) := by
  cases fate with
  | answered =>
    unfold State.requestGet
    cases hb : s.server.before myRev with
    | none => exact h.set ((h.fitting i).won hrev hb)
    | some lastKey => exact h.set (holder lastKey)
  | lost => exact h.giveUp (hfate (by decide))
  | dropped => exact h.giveUp (hfate (by decide))
  | late => exact h.giveUp (hfate (by decide))

/-- Only the session itself deletes its key, when it has recorded none. -/
lemma requestDelete (h : Sound s) (hkey : (s.mutex i).myKey = none)
    (hfate : fate ≠ .late) : Sound (s.requestDelete i fate) := by
  have hdel : Sound ({ s with server := s.server.delete i }.giveUp i) := by
    refine ⟨fun j => ?_,h.late⟩
    unfold State.giveUp
    by_cases hji : j = i
    · subst hji
      rw [State.mutex_set_self,hkey]
      exact .blank rfl
    · rw [State.mutex_set_of_ne _ _ hji]
      exact (h.fitting j).delete hji
  cases fate with
  | answered => exact hdel
  | lost => exact hdel
  | dropped => exact h.giveUp hkey
  | late => exact absurd rfl hfate

lemma request (h : Sound s) (hkept : (s.mutex i).pc.Keeps fate)
    (ht : s.request i fate = some t) : Sound t := by
  have hfit := h.fitting i
  have hkey := hfit.myKey_eq_none
  unfold State.request at ht
  cases hpc : (s.mutex i).pc with
  | idle => rw [hpc] at ht; cases ht
  | lockTxn =>
    rw [hpc] at ht hkey
    obtain rfl := Option.some.inj ht
    refine h.requestCreate (hkey (by simp) rfl) (fun r hr => ?_) fate
    exact ⟨fun q hq => hq ▸ hr,fun q hq => .inl ⟨rfl,hq⟩,fun ha => (by cases ha)⟩
  | lockGet myRev =>
    rw [hpc] at ht hkept
    obtain rfl := Option.some.inj ht
    refine h.requestGet (by rw [hpc]; rfl) (fun j => hfit.waiting ?_ ?_ rfl) fun hne => ?_
    · simp [hpc]
    · rw [hpc]; rfl
    · exact absurd hkept hne
  | lockWatch myRev lastKey => rw [hpc] at ht; cases ht
  | tryTxn =>
    rw [hpc] at ht hkey
    obtain rfl := Option.some.inj ht
    refine h.requestCreate (hkey (by simp) rfl) (fun r hr => ?_) fate
    exact ⟨fun q hq => hq ▸ hr,fun q hq => (by cases hq),fun ha => (by cases ha)⟩
  | tryGet myRev =>
    rw [hpc] at ht hkey
    obtain rfl := Option.some.inj ht
    exact h.requestGet (by rw [hpc]; rfl) (fun _ => .blank rfl) fun _ => hkey (by simp) rfl
  | tryDelete =>
    rw [hpc] at ht hkey hkept
    obtain rfl := Option.some.inj ht
    exact h.requestDelete (hkey (by simp) rfl) hkept
  | unlockDelete =>
    rw [hpc] at ht hkey hkept
    obtain rfl := Option.some.inj ht
    exact h.requestDelete (hkey (by simp) rfl) hkept

/-- A call that finds a recorded key returns at once, and its session has the lock already. -/
lemma start (h : Sound s) {pc : PC ι} (hrev : pc.rev = none) (ht : s.start i pc = some t) :
    Sound t := by
  unfold State.start at ht
  by_cases hpc : (s.mutex i).pc = .idle
  · rw [if_pos hpc] at ht
    cases hk : (s.mutex i).myKey with
    | none =>
      rw [hk] at ht
      exact Option.some.inj ht ▸ h.set (.blank hrev)
    | some r =>
      rw [hk] at ht
      obtain rfl := Option.some.inj ht
      refine h.set ⟨fun q hq => (by cases hq),fun _ _ => .inr rfl,fun _ => ⟨rfl,r,rfl,?_⟩⟩
      rcases (h.fitting i).recorded r hk with hw | ha
      · rw [hpc] at hw
        cases hw.1
      · obtain ⟨-,q,hq,hold⟩ := (h.fitting i).holds ha
        rwa [Option.some.inj (hk.symm.trans hq)]
  · rw [if_neg hpc] at ht
    cases ht

lemma unlock (h : Sound s) (ht : s.unlock i = some t) : Sound t := by
  unfold State.unlock at ht
  by_cases hpc : (s.mutex i).pc = .idle
  · rw [if_pos hpc] at ht
    cases hk : (s.mutex i).myKey with
    | none =>
      rw [hk] at ht
      exact Option.some.inj ht ▸ h.set (.blank rfl)
    | some r =>
      rw [hk] at ht
      exact Option.some.inj ht ▸ h.set (.blank rfl)
  · rw [if_neg hpc] at ht
    cases ht

lemma retry (h : Sound s) (ht : s.retry i = some t) : Sound t := by
  unfold State.retry at ht
  cases hpc : (s.mutex i).pc with
  | lockWatch myRev lastKey =>
    rw [hpc] at ht
    refine Option.some.inj ht ▸ h.set ((h.fitting i).waiting ?_ ?_ rfl)
    · simp [hpc]
    · rw [hpc]; rfl
  | _ => rw [hpc] at ht; cases ht

lemma arrive (h : Sound s) {n : ℕ} (ht : s.arrive n = some t) : Sound t := by
  obtain ⟨e,he,rfl⟩ := Option.map_eq_some_iff.mp ht
  have hlate : ∀ e' ∈ s.late.eraseIdx n, e'.2 = .create :=
    fun e' he' => h.late e' (List.mem_of_mem_eraseIdx he')
  rw [h.late e (List.mem_of_getElem? he)]
  exact ⟨fun j => (h.fitting j).create e.1,hlate⟩

lemma step (h : Sound s) {a : Action ι} (hkept : Kept s a) (ht : step s a = some t) :
    Sound t := by
  cases a with
  | lock i => exact h.start rfl ht
  | tryLock i => exact h.start rfl ht
  | unlock i => exact h.unlock ht
  | request i fate => exact h.request hkept ht
  | retry i => exact h.retry ht
  | fail i => cases hkept
  | arrive n => exact h.arrive ht

lemma exclusive (h : Sound s) : Exclusive s where
  unique i j hi hj := by
    obtain ⟨-,q,-,hq⟩ := (h.fitting i).holds hi
    obtain ⟨-,r,-,hr⟩ := (h.fitting j).holds hj
    exact hq.unique hr
  owner i hpc hown := by
    obtain ⟨r,hr⟩ := Option.isSome_iff_exists.mp hown
    rcases (h.fitting i).recorded r hr with hw | ha
    · rw [hpc] at hw
      cases hw.1
    · exact ha

end Sound

/-- In every run in which no call of `Lock` ends with an error after it has recorded its key, and
no deletion is executed after its call has returned, at most one session at a time has the lock,
and only its mutex says that it is the owner. -/
theorem mutual_exclusion (server : Server ι) (actions : List (Action ι))
    (h : EveryStep step (fun s a _ => Kept s a) (State.init server) actions) :
    EveryState step Exclusive (State.init server) actions := by
  have hsound : EveryState step Sound (State.init server) actions :=
    everyState_of_everyStep (fun _ _ _ _ hs ht hkept => hs.step hkept ht) (Sound.init server) h
  intro p hp t ht
  exact (hsound p hp t ht).exclusive

def Action.smooth : Action ι → Bool
  | .request _ fate => fate = .answered
  | .fail _ => false
  | _ => true

omit [DecidableEq ι] in
lemma PC.keeps_answered (pc : PC ι) : pc.Keeps .answered := by
  cases pc <;> simp [PC.Keeps]

omit [DecidableEq ι] in
lemma kept_of_smooth (s : State ι) {a : Action ι} (h : a.smooth) : Kept s a := by
  cases a with
  | request i fate =>
    obtain rfl : fate = .answered := of_decide_eq_true h
    exact (s.mutex i).pc.keeps_answered
  | fail i => cases h
  | _ => trivial

/-- Two sessions, of which the second waits until the first has unlocked. -/
theorem mutual_exclusion_two : EveryState step Exclusive (State.init (.empty : Server ℕ))
    [.lock 1,.request 1 .answered,.request 1 .answered,.lock 2,.request 2 .answered,
      .request 2 .answered,.unlock 1,.request 1 .answered,.retry 2,.request 2 .answered] := by
  apply mutual_exclusion
  intro p a hp s _ _ _
  have hsmooth : ∀ a ∈ ([.lock 1,.request 1 .answered,.request 1 .answered,.lock 2,
      .request 2 .answered,.request 2 .answered,.unlock 1,.request 1 .answered,.retry 2,
      .request 2 .answered] : List (Action ℕ)), a.smooth := by simp [Action.smooth]
  exact kept_of_smooth s (hsmooth a (hp.subset (by simp)))

/-- A `Lock` that is cancelled while it waits leaves its key recorded: its mutex says that it is
the owner, and the next `Lock` of the session returns nil while another session has the lock. -/
theorem cancelled_lock_acquired :
    (([.lock 1,.request 1 .answered,.request 1 .answered,.lock 2,.request 2 .answered,
      .request 2 .answered,.fail 2] : List (Action ℕ)).foldlM step (.init .empty)).map
        (fun s => ((s.mutex 1).acquired,(s.mutex 2).acquired,(s.mutex 2).isOwner)) =
      some (true,false,true) ∧
    (([.lock 1,.request 1 .answered,.request 1 .answered,.lock 2,.request 2 .answered,
      .request 2 .answered,.fail 2,.lock 2] : List (Action ℕ)).foldlM step (.init .empty)).map
        (fun s => ((s.mutex 1).acquired,(s.mutex 2).acquired)) = some (true,true) := by
  decide

end MetaStore.Mutexes
