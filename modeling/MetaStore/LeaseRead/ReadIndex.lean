import MetaStore.Library.Transition

/-! Reads that wait until an index of the log is applied (internal/lease/readindex_manager.go).
A call checks the applied index, registers its request and waits; each of these steps takes
the lock of the manager on its own. The time part of a request id is left out, its counter
part is unique. -/
namespace MetaStore.LeaseRead
open Transition

/-- `pendingReads` gives the read index of every registered request. -/
structure ReadIndexManager where
  pendingReads : ℕ → Option ℕ
  lastApplied : ℕ

/-- Where a call of `RequestReadIndex` stands. -/
inductive Call
  | idle
  | started (readIndex : ℕ)
  | checked (requestID readIndex : ℕ)
  | waiting (requestID readIndex : ℕ)
  | cancelled (requestID readIndex : ℕ)
  | returned (readIndex index : ℕ)
  | failed
  deriving DecidableEq, Repr

/-- The manager with the calls that use it; `responses` holds what stands in the response
channels, which have room for one index. -/
structure Reads where
  manager : ReadIndexManager
  requestCounter : ℕ
  responses : ℕ → Option ℕ
  calls : ℕ → Call

inductive ReadEvent
  | call (reader readIndex : ℕ)
  | check (reader : ℕ)
  | register (reader : ℕ)
  | receive (reader : ℕ)
  | cancel (reader : ℕ)
  | remove (reader : ℕ)
  | notifyApplied (appliedIndex : ℕ)
  deriving DecidableEq, Repr

namespace Reads
variable {s t : Reads} {e : ReadEvent}

/-- `NewReadIndexManager`, before the first call. -/
def new : Reads := ⟨⟨fun _ => none,0⟩,0,fun _ => none,fun _ => .idle⟩

def setCall (s : Reads) (reader : ℕ) (call : Call) : Reads :=
  { s with calls := Function.update s.calls reader call }

/-- `NotifyApplied`, which holds the lock to its end. A full channel is skipped. -/
def notifyApplied (s : Reads) (appliedIndex : ℕ) : Reads :=
  { s with
    manager := {
      pendingReads := fun id =>
        (s.manager.pendingReads id).filter fun ri => !decide (ri ≤ appliedIndex)
      lastApplied :=
        if s.manager.lastApplied < appliedIndex then appliedIndex else s.manager.lastApplied }
    responses := fun id => (s.responses id).or
      ((s.manager.pendingReads id).filter fun ri => decide (ri ≤ appliedIndex)) }

/-- The steps of the calls, which stand between two locks, and of the notifications. -/
def step (s : Reads) : ReadEvent → Option Reads
  | .call reader readIndex =>
    match s.calls reader with
    | .idle => some (s.setCall reader (.started readIndex))
    | _ => none
  | .check reader =>
    match s.calls reader with
    | .started readIndex =>
      if readIndex ≤ s.manager.lastApplied then
        some (s.setCall reader (.returned readIndex readIndex))
      else
        some { s.setCall reader (.checked (s.requestCounter+1) readIndex) with
          requestCounter := s.requestCounter+1 }
    | _ => none
  | .register reader =>
    match s.calls reader with
    | .checked requestID readIndex =>
      some { s.setCall reader (.waiting requestID readIndex) with
        manager := { s.manager with
          pendingReads := Function.update s.manager.pendingReads requestID (some readIndex) } }
    | _ => none
  | .receive reader =>
    match s.calls reader with
    | .waiting requestID readIndex =>
      (s.responses requestID).map fun index =>
        { s.setCall reader (.returned readIndex index) with
          responses := Function.update s.responses requestID none }
    | _ => none
  | .cancel reader =>
    match s.calls reader with
    | .waiting requestID readIndex => some (s.setCall reader (.cancelled requestID readIndex))
    | _ => none
  | .remove reader =>
    match s.calls reader with
    | .cancelled requestID _ =>
      some { s.setCall reader .failed with
        manager := { s.manager with
          pendingReads := Function.update s.manager.pendingReads requestID none } }
    | _ => none
  | .notifyApplied appliedIndex => some (s.notifyApplied appliedIndex)

inductive Steps (s : Reads) : ReadEvent → Reads → Prop
  | call (reader readIndex : ℕ) (idle : s.calls reader = .idle) :
      Steps s (.call reader readIndex) (s.setCall reader (.started readIndex))
  | applied (reader readIndex : ℕ) (started : s.calls reader = .started readIndex)
      (le : readIndex ≤ s.manager.lastApplied) :
      Steps s (.check reader) (s.setCall reader (.returned readIndex readIndex))
  | check (reader readIndex : ℕ) (started : s.calls reader = .started readIndex)
      (lt : s.manager.lastApplied < readIndex) :
      Steps s (.check reader)
        { s.setCall reader (.checked (s.requestCounter+1) readIndex) with
          requestCounter := s.requestCounter+1 }
  | register (reader requestID readIndex : ℕ)
      (checked : s.calls reader = .checked requestID readIndex) :
      Steps s (.register reader)
        { s.setCall reader (.waiting requestID readIndex) with
          manager := { s.manager with
            pendingReads := Function.update s.manager.pendingReads requestID (some readIndex) } }
  | receive (reader requestID readIndex index : ℕ)
      (waiting : s.calls reader = .waiting requestID readIndex)
      (response : s.responses requestID = some index) :
      Steps s (.receive reader)
        { s.setCall reader (.returned readIndex index) with
          responses := Function.update s.responses requestID none }
  | cancel (reader requestID readIndex : ℕ)
      (waiting : s.calls reader = .waiting requestID readIndex) :
      Steps s (.cancel reader) (s.setCall reader (.cancelled requestID readIndex))
  | remove (reader requestID readIndex : ℕ)
      (cancelled : s.calls reader = .cancelled requestID readIndex) :
      Steps s (.remove reader)
        { s.setCall reader .failed with
          manager := { s.manager with
            pendingReads := Function.update s.manager.pendingReads requestID none } }
  | notifyApplied (appliedIndex : ℕ) :
      Steps s (.notifyApplied appliedIndex) (s.notifyApplied appliedIndex)

lemma steps_of_step (h : s.step e = some t) : s.Steps e t := by
  cases e with
  | call reader readIndex =>
    simp only [step] at h
    split at h
    · next hidle =>
      cases h
      exact .call reader readIndex hidle
    · cases h
  | check reader =>
    simp only [step] at h
    split at h
    · next readIndex hstarted =>
      split_ifs at h with hle
      · cases h
        exact .applied reader readIndex hstarted hle
      · cases h
        exact .check reader readIndex hstarted (Nat.not_le.mp hle)
    · cases h
  | register reader =>
    simp only [step] at h
    split at h
    · next requestID readIndex hchecked =>
      cases h
      exact .register reader requestID readIndex hchecked
    · cases h
  | receive reader =>
    simp only [step] at h
    split at h
    · next requestID readIndex hwaiting =>
      obtain ⟨index,hindex,rfl⟩ := Option.map_eq_some_iff.mp h
      exact .receive reader requestID readIndex index hwaiting hindex
    · cases h
  | cancel reader =>
    simp only [step] at h
    split at h
    · next requestID readIndex hwaiting =>
      cases h
      exact .cancel reader requestID readIndex hwaiting
    · cases h
  | remove reader =>
    simp only [step] at h
    split at h
    · next requestID readIndex hcancelled =>
      cases h
      exact .remove reader requestID readIndex hcancelled
    · cases h
  | notifyApplied appliedIndex =>
    cases h
    exact .notifyApplied appliedIndex

def Unapplied (s : Reads) : Prop :=
  ∀ id ri, s.manager.pendingReads id = some ri → s.manager.lastApplied < ri

def Timely (s : Reads) : ReadEvent → Prop
  | .register reader => ∀ id ri, s.calls reader = .checked id ri → s.manager.lastApplied < ri
  | _ => True

lemma unapplied_new : Unapplied new := fun _ _ h => nomatch h

lemma Unapplied.notifyApplied (h : s.Unapplied) (appliedIndex : ℕ) :
    (s.notifyApplied appliedIndex).Unapplied := by
  intro id ri hri
  obtain ⟨hpending,hri⟩ := Option.filter_eq_some_iff.mp hri
  have hlast := h id ri hpending
  simp only [Bool.not_eq_true',decide_eq_false_iff_not,Nat.not_le] at hri
  simp only [Reads.notifyApplied]
  split_ifs
  · exact hri
  · exact hlast

lemma unapplied_step_iff (h : s.Unapplied)
    (hstep : s.step e = some t) : t.Unapplied ↔ s.Timely e := by
  cases steps_of_step hstep with
  | register reader requestID readIndex hchecked =>
    constructor
    · intro ht id ri hcall
      cases hchecked.symm.trans hcall
      exact ht requestID readIndex (Function.update_self ..)
    · intro htimely id ri hri
      have hnew := htimely requestID readIndex hchecked
      simp only [Function.update_apply] at hri
      split_ifs at hri
      · cases hri
        exact hnew
      · exact h id ri hri
  | remove reader requestID readIndex hcancelled =>
    refine iff_of_true (fun id ri hri => ?_) trivial
    simp only [Function.update_apply] at hri
    split_ifs at hri
    exact h id ri hri
  | notifyApplied appliedIndex => exact iff_of_true (h.notifyApplied appliedIndex) trivial
  | _ => exact iff_of_true h trivial

structure Confirmed (s : Reads) : Prop where
  responses : ∀ id index, s.responses id = some index → index ≤ s.manager.lastApplied
  returned : ∀ reader ri index, s.calls reader = .returned ri index →
    index ≤ s.manager.lastApplied

lemma confirmed_new : Confirmed new := ⟨by simp [new],by simp [new]⟩

lemma lastApplied_notifyApplied (s : Reads) (appliedIndex : ℕ) :
    (s.notifyApplied appliedIndex).manager.lastApplied =
      max s.manager.lastApplied appliedIndex := by
  simp only [notifyApplied]
  split_ifs <;> omega

lemma Confirmed.notifyApplied (h : s.Confirmed) (appliedIndex : ℕ) :
    (s.notifyApplied appliedIndex).Confirmed := by
  constructor
  · intro id index hindex
    rw [lastApplied_notifyApplied]
    rcases Option.or_eq_some_iff.mp hindex with hindex | ⟨-,hindex⟩
    · exact le_max_of_le_left (h.responses id index hindex)
    · exact le_max_of_le_right (of_decide_eq_true (Option.filter_eq_some_iff.mp hindex).2)
  · intro reader ri index hindex
    rw [lastApplied_notifyApplied]
    exact le_max_of_le_left (h.returned reader ri index hindex)

lemma Confirmed.setCall (h : s.Confirmed) {reader : ℕ} {call : Call}
    (hcall : ∀ ri index, call = .returned ri index → index ≤ s.manager.lastApplied)
    (hcalls : t.calls = (s.setCall reader call).calls)
    (hlast : t.manager.lastApplied = s.manager.lastApplied)
    (hresponses : ∀ id index, t.responses id = some index → s.responses id = some index) :
    t.Confirmed := by
  constructor
  · intro id index hindex
    exact hlast ▸ h.responses id index (hresponses id index hindex)
  · intro r ri index hindex
    rw [hcalls] at hindex
    simp only [Reads.setCall,Function.update_apply] at hindex
    rw [hlast]
    split_ifs at hindex
    · exact hcall ri index hindex
    · exact h.returned r ri index hindex

lemma Confirmed.step (h : s.Confirmed) (hstep : s.step e = some t)
    (hcall : ∀ appliedIndex, e ≠ .notifyApplied appliedIndex) :
    t.Confirmed ∧ t.manager.lastApplied = s.manager.lastApplied := by
  cases steps_of_step hstep with
  | applied reader readIndex hstarted hle =>
    refine ⟨h.setCall ?_ rfl rfl fun _ _ h => h,rfl⟩
    rintro ri index ⟨⟩
    exact hle
  | receive reader requestID readIndex index hwaiting hresponse =>
    refine ⟨h.setCall ?_ rfl rfl ?_,rfl⟩
    · rintro ri index ⟨⟩
      exact h.responses requestID _ hresponse
    · intro id index' hid
      simp only [Function.update_apply] at hid
      split_ifs at hid
      exact hid
  | notifyApplied appliedIndex => exact absurd rfl (hcall appliedIndex)
  | _ => exact ⟨h.setCall (by simp) rfl rfl fun _ _ h => h,rfl⟩

end Reads

/-- In every state of a run all registered requests wait for indices that are not applied,
exactly when every call of the run registers before its index is applied. -/
theorem pending_unapplied_iff (events : List ReadEvent) :
    (∀ p, p <+: events → ∀ s, p.foldlM Reads.step .new = some s →
      ∀ id ri, s.manager.pendingReads id = some ri → s.manager.lastApplied < ri) ↔
    ∀ p e, p ++ [e] <+: events → ∀ s t, p.foldlM Reads.step .new = some s → s.step e = some t →
      s.Timely e :=
  always_iff (fun _ _ _ h hstep => Reads.unapplied_step_iff h hstep) Reads.unapplied_new events

/-- The notification falls between the check and the registration of a call, which waits for
an applied index from then on. -/
theorem request_registered_too_late :
    let events : List ReadEvent := [.call 0 5,.check 0,.notifyApplied 5,.register 0]
    ∃ s, events.foldlM Reads.step .new = some s ∧ s.calls 0 = .waiting 1 5 ∧
      s.manager.pendingReads 1 = some 5 ∧ s.responses 1 = none ∧ s.manager.lastApplied = 5 :=
  ⟨_,rfl,rfl,rfl,rfl,rfl⟩

end MetaStore.LeaseRead
