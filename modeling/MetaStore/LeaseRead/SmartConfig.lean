import MetaStore.LeaseRead.Manager
import MetaStore.Library.Transition

/-! Concurrent calls of the smart lease configuration (internal/lease/smart_config.go). The fields
are atomics; every load, store and swap is a step of its own. The time of the last update and the
log lines, which nobody reads back, are left out. -/
namespace MetaStore.LeaseRead
open Transition

inductive ConfigCall
  | update (size : ℤ)
  | updateSwapped (size : ℤ)
  | updateDecided (shouldEnable : Bool)
  | set (enabled : Bool)
  | setChanged
  | setLoaded (size : ℤ)
  | setDecided (shouldEnable : Bool)
  deriving DecidableEq, Repr

/-- The conversion of an `int` to an `int32`. -/
def int32 (n : ℤ) : ℤ := n.bmod (2^32)

def FitsInt32 (n : ℤ) : Prop := -2^31 ≤ n ∧ n < 2^31

instance (n : ℤ) : Decidable (FitsInt32 n) := inferInstanceAs (Decidable (_ ∧ _))

lemma int32_eq {n : ℤ} (h : FitsInt32 n) : int32 n = n := by
  obtain ⟨hle,hlt⟩ := h
  exact Int.bmod_eq_of_le (by omega) (by omega)

namespace SmartLeaseConfig

def advance (slc : SmartLeaseConfig) : ConfigCall → SmartLeaseConfig × Option ConfigCall
  | .update size => ({ slc with clusterSize := int32 size },some (.updateSwapped size))
  | .updateSwapped size =>
    (slc,some (.updateDecided (shouldEnableLeaseRead slc.userEnabled size)))
  | .updateDecided shouldEnable => ({ slc with actualEnabled := shouldEnable },none)
  | .set enabled =>
    ({ slc with userEnabled := enabled },if slc.userEnabled ≠ enabled then some .setChanged else none)
  | .setChanged => (slc,some (.setLoaded slc.clusterSize))
  | .setLoaded size => (slc,some (.setDecided (shouldEnableLeaseRead slc.userEnabled size)))
  | .setDecided shouldEnable => ({ slc with actualEnabled := shouldEnable },none)

/-- `IsEnabled` is what the two fields say. -/
def Settled (slc : SmartLeaseConfig) : Prop :=
  slc.isEnabled = (slc.userEnabled && decide (1 ≤ slc.clusterSize))

instance (slc : SmartLeaseConfig) : Decidable slc.Settled :=
  inferInstanceAs (Decidable (_ = _))

def Holds (slc : SmartLeaseConfig) : ConfigCall → Prop
  | .update size => FitsInt32 size
  | .updateSwapped size => slc.clusterSize = size
  | .updateDecided shouldEnable =>
    shouldEnable = (slc.userEnabled && decide (1 ≤ slc.clusterSize))
  | .set _ => slc.Settled
  | .setChanged => True
  | .setLoaded size => slc.clusterSize = size
  | .setDecided shouldEnable => shouldEnable = (slc.userEnabled && decide (1 ≤ slc.clusterSize))

def Goes (slc : SmartLeaseConfig) : Option ConfigCall → Prop
  | some c => slc.Holds c
  | none => slc.Settled

lemma holds_advance {slc : SmartLeaseConfig} {c : ConfigCall} (h : slc.Holds c) :
    (slc.advance c).1.Goes (slc.advance c).2 := by
  cases c with
  | update size => exact int32_eq h
  | updateSwapped size =>
    obtain rfl : slc.clusterSize = size := h
    rfl
  | updateDecided shouldEnable => exact h
  | set enabled =>
    by_cases hsame : slc.userEnabled = enabled
    · subst hsame
      simp only [advance,ne_eq,not_true_eq_false,if_false]
      exact h
    · simp [advance,hsame,Goes,Holds]
  | setChanged => rfl
  | setLoaded size =>
    obtain rfl : slc.clusterSize = size := h
    rfl
  | setDecided shouldEnable => exact h

def finish : ℕ → SmartLeaseConfig × Option ConfigCall → SmartLeaseConfig
  | n+1,(slc,some c) => finish n (slc.advance c)
  | _,(slc,_) => slc

theorem finish_update (slc : SmartLeaseConfig) {size : ℤ} (h : FitsInt32 size) :
    finish 3 (slc,some (.update size)) = slc.updateClusterSize size := by
  simp only [finish,advance,int32_eq h,updateClusterSize]

theorem finish_set (slc : SmartLeaseConfig) (enabled : Bool) :
    finish 4 (slc,some (.set enabled)) = slc.setUserEnabled enabled := by
  by_cases hsame : slc.userEnabled = enabled
  · subst hsame
    simp [finish,advance,setUserEnabled]
  · simp [finish,advance,setUserEnabled,hsame]

end SmartLeaseConfig

/-- The configuration with the calls in progress, by the goroutines that make them. -/
structure Calling where
  slc : SmartLeaseConfig
  calls : ℕ → Option ConfigCall

inductive CallEvent
  | updateClusterSize (i : ℕ) (size : ℤ)
  | setUserEnabled (i : ℕ) (enabled : Bool)
  | advance (i : ℕ)

namespace Calling

def new (userEnabled : Bool) : Calling := ⟨.new userEnabled,fun _ => none⟩

def start (s : Calling) (i : ℕ) (c : ConfigCall) : Option Calling :=
  match s.calls i with
  | none => some { s with calls := Function.update s.calls i (some c) }
  | some _ => none

def step (s : Calling) : CallEvent → Option Calling
  | .updateClusterSize i size => s.start i (.update size)
  | .setUserEnabled i enabled => s.start i (.set enabled)
  | .advance i =>
    match s.calls i with
    | none => none
    | some c => some ⟨(s.slc.advance c).1,Function.update s.calls i (s.slc.advance c).2⟩

def Idle (s : Calling) : Prop := ∀ i, s.calls i = none

def Alone (s : Calling) : CallEvent → Prop
  | .updateClusterSize _ size => s.Idle ∧ FitsInt32 size
  | .setUserEnabled _ _ => s.Idle
  | .advance _ => True

structure Single (s : Calling) : Prop where
  idle : s.Idle → s.slc.Settled
  call : ∀ i c, s.calls i = some c → s.slc.Holds c ∧ ∀ j, j ≠ i → s.calls j = none

lemma single_update {slc : SmartLeaseConfig} {calls : ℕ → Option ConfigCall} {i : ℕ}
    {next : Option ConfigCall} (hothers : ∀ j, j ≠ i → calls j = none) (hnext : slc.Goes next) :
    Single ⟨slc,Function.update calls i next⟩ := by
  constructor
  · intro hidle
    have hi : Function.update calls i next i = none := hidle i
    rw [Function.update_self] at hi
    rwa [hi] at hnext
  · intro j c hj
    dsimp only at hj ⊢
    by_cases hji : j = i
    · subst hji
      rw [Function.update_self] at hj
      rw [hj] at hnext
      refine ⟨hnext,fun k hk => ?_⟩
      rw [Function.update_of_ne hk,hothers k hk]
    · rw [Function.update_of_ne hji,hothers j hji] at hj
      cases hj

lemma single_start {s t : Calling} (hidle : s.Idle) {i : ℕ} {c : ConfigCall} (hc : s.slc.Holds c)
    (ht : s.start i c = some t) : t.Single := by
  rw [start,hidle i] at ht
  obtain rfl := Option.some.inj ht
  exact single_update (fun j _ => hidle j) hc

lemma Single.step {s t : Calling} {e : CallEvent} (hs : s.Single) (halone : s.Alone e)
    (ht : s.step e = some t) : t.Single := by
  cases e with
  | updateClusterSize i size => exact single_start (c := .update size) halone.1 halone.2 ht
  | setUserEnabled i enabled => exact single_start (c := .set enabled) halone (hs.idle halone) ht
  | advance i =>
    rw [Calling.step] at ht
    cases hi : s.calls i with
    | none =>
      rw [hi] at ht
      cases ht
    | some c =>
      rw [hi] at ht
      obtain rfl := Option.some.inj ht
      obtain ⟨hholds,hothers⟩ := hs.call i c hi
      exact single_update hothers (SmartLeaseConfig.holds_advance hholds)

end Calling
end MetaStore.LeaseRead
