import MetaStore.LeaseRead.Manager

/-! How long a lease lasts (internal/lease/lease_manager.go) in the arithmetic of
`time.Duration`, a number of nanoseconds in an `int64`, for the durations that the validation
of the configuration accepts (pkg/config/config.go). Instants are not bounded. -/
namespace MetaStore.LeaseRead

/-- The value of an `int64` after an operation that may overflow. -/
def wrap (x : ℤ) : ℤ := x.bmod (2^64)

lemma wrap_eq {x : ℤ} (h : -2^63 ≤ x ∧ x < 2^63) : wrap x = x :=
  Int.bmod_eq_of_le (by omega) (by omega)

lemma wrap_of_ge {x : ℤ} (h : 2^63 ≤ x ∧ x < 2^64+2^63) : wrap x = x-2^64 := by
  simp only [wrap,Int.bmod]
  omega

lemma wrap_of_lt {x : ℤ} (h : -2^64 ≤ x ∧ x < -2^63) : wrap x = x+2^64 := by
  simp only [wrap,Int.bmod]
  omega

/-- The durations that `Validate` accepts. -/
structure LeaseConfig.Accepted (config : LeaseConfig) : Prop where
  heartbeatTick : 0 < config.heartbeatTick ∧ config.heartbeatTick < 2^63
  electionTimeout : 0 < config.electionTimeout ∧ config.electionTimeout < 2^63
  clockDrift : 0 < config.clockDrift ∧ config.clockDrift < config.electionTimeout

namespace LeaseManager

/-- The difference from which `RenewLease` starts. -/
def wrappedDifference (lm : LeaseManager) : ℤ :=
  wrap (min (lm.electionTimeout.tdiv 2) (wrap (lm.heartbeatTick*3))-lm.clockDrift)

/-- How long a renewed lease lasts, with 64-bit durations. -/
def wrappedDuration (lm : LeaseManager) : ℤ :=
  let leaseDuration := lm.wrappedDifference
  if leaseDuration ≤ 0 then minLeaseDuration
  else if leaseDuration < minLeaseDuration then minLeaseDuration
  else leaseDuration

/-- `RenewLease` with 64-bit durations. -/
def renewWrapped (lm : LeaseManager) (receivedAcks totalNodes now : ℕ) : LeaseManager × Bool :=
  if lm.renewable receivedAcks totalNodes then
    ({ lm with leaseExpireTime := now+lm.wrappedDuration },true)
  else (lm,false)

structure RunsWith (lm : LeaseManager) (config : LeaseConfig) : Prop where
  electionTimeout : lm.electionTimeout = config.electionTimeout
  heartbeatTick : lm.heartbeatTick = config.heartbeatTick
  clockDrift : lm.clockDrift = config.clockDrift

variable {lm : LeaseManager} {config : LeaseConfig}

lemma runsWith_new (h : config.Accepted) (smartConfig : Option SmartLeaseConfig) :
    (new config smartConfig).RunsWith config :=
  ⟨rfl,rfl,if_neg h.clockDrift.1.ne'⟩

/-- Three heartbeats that overflow and are cut short by the drift come out as a long time. -/
def Overflows (config : LeaseConfig) : Prop :=
  2^63 ≤ config.heartbeatTick*3 ∧ config.heartbeatTick*3 < 2^63+config.clockDrift

/-- Outside of that the difference is at most half of the election timeout less the drift. -/
lemma wrappedDifference_le (hlm : lm.RunsWith config) (h : config.Accepted)
    (hover : ¬ Overflows config) :
    lm.wrappedDifference ≤ config.electionTimeout-config.clockDrift := by
  obtain ⟨⟨hh,hh'⟩,⟨he,he'⟩,⟨hd,hd'⟩⟩ := h
  have hhalf : config.electionTimeout.tdiv 2 = config.electionTimeout/2 :=
    Int.tdiv_eq_ediv_of_nonneg he.le
  simp only [Overflows,not_and,not_lt] at hover
  rw [wrappedDifference,hlm.electionTimeout,hlm.heartbeatTick,hlm.clockDrift,hhalf]
  have hthree : -2^63+config.clockDrift ≤ wrap (config.heartbeatTick*3) := by
    obtain hlow | hhigh := lt_or_ge (config.heartbeatTick*3) (2^63)
    · rw [wrap_eq (by omega)]
      omega
    · rw [wrap_of_ge (by omega)]
      have := hover hhigh
      omega
  rw [wrap_eq (by omega)]
  omega

lemma wrappedDifference_of_overflows (hlm : lm.RunsWith config) (h : config.Accepted)
    (hover : Overflows config) : 2^63-config.clockDrift ≤ lm.wrappedDifference := by
  obtain ⟨⟨hh,hh'⟩,⟨he,he'⟩,⟨hd,hd'⟩⟩ := h
  obtain ⟨hlow,hhigh⟩ := hover
  have hhalf : config.electionTimeout.tdiv 2 = config.electionTimeout/2 :=
    Int.tdiv_eq_ediv_of_nonneg he.le
  rw [wrappedDifference,hlm.electionTimeout,hlm.heartbeatTick,hlm.clockDrift,hhalf,
    wrap_of_ge (x := config.heartbeatTick*3) (by omega),wrap_of_lt (by omega)]
  omega

theorem renewWrapped_eq_renewLease (hlm : lm.RunsWith config) (h : config.Accepted)
    (hthree : config.heartbeatTick*3 < 2^63) (receivedAcks totalNodes now : ℕ) :
    lm.renewWrapped receivedAcks totalNodes now = lm.renewLease receivedAcks totalNodes now := by
  obtain ⟨⟨hh,hh'⟩,⟨he,he'⟩,⟨hd,hd'⟩⟩ := h
  have hhalf : config.electionTimeout.tdiv 2 = config.electionTimeout/2 :=
    Int.tdiv_eq_ediv_of_nonneg he.le
  have hwrapped : lm.wrappedDifference =
      min (lm.electionTimeout.tdiv 2) (lm.heartbeatTick*3)-lm.clockDrift := by
    rw [wrappedDifference,hlm.electionTimeout,hlm.heartbeatTick,hlm.clockDrift,hhalf,
      wrap_eq (x := config.heartbeatTick*3) (by omega),wrap_eq (by omega)]
  rw [renewWrapped,renewLease,wrappedDuration,hwrapped]
  rfl

end LeaseManager
end MetaStore.LeaseRead
