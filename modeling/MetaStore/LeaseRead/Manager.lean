import Mathlib

/-! The lease of a leader (internal/lease/lease_manager.go and smart_config.go): while it is
valid the leader answers reads from its own data. Durations and instants are nanoseconds; an
instant is a reading of the local clock, counted from the Unix epoch. The counters of the
statistics are left out. -/
namespace MetaStore.LeaseRead

/-! ### Whether lease reads are on -/

structure SmartLeaseConfig where
  userEnabled : Bool
  actualEnabled : Bool
  clusterSize : ℤ
  deriving DecidableEq, Repr

namespace SmartLeaseConfig

/-- `NewSmartLeaseConfig`: off until the size of the cluster is known. -/
def new (userEnabled : Bool) : SmartLeaseConfig := ⟨userEnabled,false,0⟩

def shouldEnableLeaseRead (userEnabled : Bool) (clusterSize : ℤ) : Bool :=
  userEnabled && decide (1 ≤ clusterSize)

def updateClusterSize (slc : SmartLeaseConfig) (size : ℤ) : SmartLeaseConfig :=
  { slc with clusterSize := size, actualEnabled := shouldEnableLeaseRead slc.userEnabled size }

def setUserEnabled (slc : SmartLeaseConfig) (enabled : Bool) : SmartLeaseConfig :=
  if slc.userEnabled = enabled then slc
  else
    { slc with
      userEnabled := enabled
      actualEnabled := shouldEnableLeaseRead enabled slc.clusterSize }

def isEnabled (slc : SmartLeaseConfig) : Bool := slc.actualEnabled

end SmartLeaseConfig

/-! ### The manager -/

def millisecond : ℤ := 10^6

structure LeaseConfig where
  electionTimeout : ℤ
  heartbeatTick : ℤ
  clockDrift : ℤ
  deriving DecidableEq, Repr

/-- No `smartConfig` means always enabled. -/
structure LeaseManager where
  electionTimeout : ℤ
  heartbeatTick : ℤ
  clockDrift : ℤ
  leaseExpireTime : ℤ
  isLeader : Bool
  smartConfig : Option SmartLeaseConfig
  deriving DecidableEq, Repr

namespace LeaseManager

/-- `NewLeaseManager`. -/
def new (config : LeaseConfig) (smartConfig : Option SmartLeaseConfig) : LeaseManager where
  electionTimeout := config.electionTimeout
  heartbeatTick := config.heartbeatTick
  clockDrift := if config.clockDrift = 0 then 500*millisecond else config.clockDrift
  leaseExpireTime := 0
  isLeader := false
  smartConfig := smartConfig

def minLeaseDuration : ℤ := 50*millisecond

def leaseDuration (lm : LeaseManager) : ℤ :=
  let leaseDuration := min (lm.electionTimeout.tdiv 2) (lm.heartbeatTick*3)-lm.clockDrift
  if leaseDuration ≤ 0 then minLeaseDuration
  else if leaseDuration < minLeaseDuration then minLeaseDuration
  else leaseDuration

/-- The checks of a renewal: lease reads are on, this node leads, and a majority has
acknowledged. Up to one node counts as a single node, which is its own majority. -/
def renewable (lm : LeaseManager) (receivedAcks totalNodes : ℕ) : Bool :=
  if !(lm.smartConfig.all SmartLeaseConfig.isEnabled) then false
  else if !lm.isLeader then false
  else
    let p := if totalNodes ≤ 1 then (max receivedAcks 1,1) else (receivedAcks,totalNodes)
    !decide (p.1 < p.2/2+1)

/-- `RenewLease` at a reading of the clock. -/
def renewLease (lm : LeaseManager) (receivedAcks totalNodes now : ℕ) : LeaseManager × Bool :=
  if lm.renewable receivedAcks totalNodes then
    ({ lm with leaseExpireTime := now+lm.leaseDuration },true)
  else (lm,false)

/-- `HasValidLease` at a reading of the clock. -/
def hasValidLease (lm : LeaseManager) (now : ℕ) : Bool :=
  lm.isLeader && decide ((now : ℤ) < lm.leaseExpireTime)

/-- `OnBecomeLeader`. -/
def onBecomeLeader (lm : LeaseManager) : LeaseManager :=
  { lm with isLeader := true, leaseExpireTime := 0 }

/-- `OnBecomeFollower`. -/
def onBecomeFollower (lm : LeaseManager) : LeaseManager :=
  { lm with isLeader := false, leaseExpireTime := if lm.isLeader then 0 else lm.leaseExpireTime }

end LeaseManager
end MetaStore.LeaseRead
