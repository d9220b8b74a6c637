import MetaStore.Library.Transition
import MetaStore.LeaseRead.Manager

/-! A node with a lease: the raft library, the loop that takes its `Ready`s (`serveChannels` of
internal/raft/node_memory.go) and the lease manager. The library goes on while the loop works
on a `Ready`, so that the loop asks for the status of a library that may have moved. Beside the
state stands when each member has answered in the current leadership, which the code does not
keep. -/
namespace MetaStore.LeaseRead
open Transition

structure Cluster where
  self : ℕ
  voters : Finset ℕ
  learners : Finset ℕ

/-- Where the loop stands: waiting, or in front of the renewal that its timer or a `Ready`
asks for. -/
inductive Loop
  | select | timer | ready
  deriving DecidableEq, Repr

/-- `leading` is the role in the library and `reported` the role in its last soft state;
`answered` lists the instants of the answers of each member in the current leadership. -/
structure Node where
  leading : Bool
  recentActive : ℕ → Bool
  answered : ℕ → List ℕ
  reported : Bool
  loop : Loop
  manager : LeaseManager

inductive Event
  | becomeLeader
  | stepDown
  | answer (peer now : ℕ)
  | checkQuorum
  | timer
  | timerRenew (now : ℕ)
  | ready (soft : Bool)
  | readyRenew (now : ℕ)
  | updateClusterSize (size : ℤ)
  deriving DecidableEq, Repr

variable (c : Cluster)

/-- The members in `Status().Progress`: voters and learners, and nobody when the library does
not lead. -/
def Node.progress (n : Node) : Finset ℕ := if n.leading then c.voters ∪ c.learners else ∅

def Node.totalNodes (n : Node) : ℕ := (n.progress c).card

def Node.activeNodes (n : Node) : ℕ := {p ∈ n.progress c | n.recentActive p}.card

def Node.renewable (n : Node) : Bool := n.manager.renewable (n.activeNodes c) (n.totalNodes c)

def Node.tryRenewLease (n : Node) (now : ℕ) : Node :=
  { n with manager := (n.manager.renewLease (n.activeNodes c) (n.totalNodes c) now).1 }

def Node.new (config : LeaseConfig) (smartConfig : Option SmartLeaseConfig) : Node where
  leading := false
  recentActive := fun _ => false
  answered := fun _ => []
  reported := false
  loop := .select
  manager := .new config smartConfig

/-- The library starts a leadership, loses it, hears an answer, or checks that a majority of
the voters has answered since the last check. The loop takes a `Ready`, which holds a soft
state at least when the role has changed, or its timer, which is for single nodes only; each
then renews the lease by the status at that time. -/
def Node.step (n : Node) : Event → Option Node
  | .becomeLeader =>
    if n.leading then none
    else some { n with leading := true, recentActive := fun p => p = c.self, answered := fun _ => [] }
  | .stepDown => if n.leading then some { n with leading := false } else none
  | .answer peer now =>
    if n.leading ∧ peer ∈ n.progress c then
      some { n with
        recentActive := Function.update n.recentActive peer true
        answered := Function.update n.answered peer (now :: n.answered peer) }
    else none
  | .checkQuorum =>
    if n.leading then
      some { n with
        leading := decide (c.voters.card < 2*{p ∈ c.voters | n.recentActive p}.card)
        recentActive := fun p => p = c.self }
    else none
  | .timer =>
    if n.loop = .select then
      some (if n.manager.isLeader ∧ n.totalNodes c = 1 then { n with loop := .timer } else n)
    else none
  | .timerRenew now =>
    if n.loop = .timer then some { n.tryRenewLease c now with loop := .select } else none
  | .ready soft =>
    if n.loop = .select ∧ (soft ∨ n.leading = n.reported) then
      some { n with
        manager :=
          if soft then
            if n.leading then n.manager.onBecomeLeader else n.manager.onBecomeFollower
          else n.manager
        reported := n.leading
        loop := .ready }
    else none
  | .readyRenew now =>
    if n.loop = .ready then
      some { (if n.manager.isLeader then n.tryRenewLease c now else n) with loop := .select }
    else none
  | .updateClusterSize size =>
    some { n with manager := { n.manager with
      smartConfig := n.manager.smartConfig.map fun slc => slc.updateClusterSize size } }

/-- A strict majority of the voters, this node among them, has answered in the current
leadership later than `bound`. -/
def Node.HeardAfter (n : Node) (bound : ℤ) : Prop :=
  c.voters.card < 2*{v ∈ c.voters | v = c.self ∨ ∃ a ∈ n.answered v, bound < (a : ℤ)}.card

instance (n : Node) (bound : ℤ) : Decidable (n.HeardAfter c bound) :=
  inferInstanceAs (Decidable (_ < _))

def LeaseManager.window (lm : LeaseManager) : ℤ := lm.electionTimeout-lm.clockDrift

/-- A renewal that the code's check lets through is backed by answers that are recent enough
for the last instant of the renewed lease, and a leadership starts only when the library has
reported the end of the one before. -/
def Node.Backs (n : Node) : Event → Prop
  | .timerRenew now => n.renewable c = true →
      n.HeardAfter c (now+n.manager.leaseDuration-1-n.manager.window)
  | .readyRenew now => n.renewable c = true →
      n.HeardAfter c (now+n.manager.leaseDuration-1-n.manager.window)
  | .becomeLeader => n.reported = false
  | .stepDown | .answer _ _ | .checkQuorum | .timer | .ready _ | .updateClusterSize _ => True

instance (n : Node) : (e : Event) → Decidable (n.Backs c e)
  | .timerRenew _ => inferInstanceAs (Decidable (_ → _))
  | .readyRenew _ => inferInstanceAs (Decidable (_ → _))
  | .becomeLeader => inferInstanceAs (Decidable (_ = _))
  | .stepDown | .answer _ _ | .checkQuorum | .timer | .ready _ | .updateClusterSize _ =>
    inferInstanceAs (Decidable True)

variable {c}

lemma Node.HeardAfter.mono {n n' : Node} {bound bound' : ℤ} (h : n.HeardAfter c bound)
    (hbound : bound' ≤ bound) (hanswered : ∀ p, ∀ a ∈ n.answered p, a ∈ n'.answered p) :
    n'.HeardAfter c bound' := by
  refine lt_of_lt_of_le h (Nat.mul_le_mul_left 2 (Finset.card_le_card ?_))
  intro v hv
  simp only [Finset.mem_filter] at hv ⊢
  refine ⟨hv.1,hv.2.imp_right ?_⟩
  rintro ⟨a,ha,hlt⟩
  exact ⟨a,hanswered v a ha,hbound.trans_lt hlt⟩

/-- The manager knows the reported role, and its lease is backed to the last instant. -/
structure Node.Inv (c : Cluster) (n : Node) : Prop where
  role : n.manager.isLeader = n.reported
  backed : n.manager.isLeader = true → 0 < n.manager.leaseExpireTime →
    n.HeardAfter c (n.manager.leaseExpireTime-1-n.manager.window)

lemma Node.inv_new (config : LeaseConfig) (smartConfig : Option SmartLeaseConfig) :
    (Node.new config smartConfig).Inv c where
  role := rfl
  backed h := nomatch h

lemma Node.tryRenewLease_cases (c : Cluster) (n : Node) (now : ℕ) :
    n.tryRenewLease c now = n ∨ n.renewable c = true ∧
      n.tryRenewLease c now =
        { n with manager := { n.manager with leaseExpireTime := now+n.manager.leaseDuration } } := by
  unfold tryRenewLease LeaseManager.renewLease
  split_ifs with h
  · exact .inr ⟨h,rfl⟩
  · exact .inl rfl

lemma Node.Inv.tryRenewLease {n : Node} (h : n.Inv c) {now : ℕ}
    (hrenew : n.renewable c = true →
      n.HeardAfter c (now+n.manager.leaseDuration-1-n.manager.window)) :
    (n.tryRenewLease c now).Inv c := by
  obtain hsame|⟨hrenewable,hnew⟩ := n.tryRenewLease_cases c now
  · rwa [hsame]
  · rw [hnew]
    exact ⟨h.role,fun _ _ => hrenew hrenewable⟩

lemma Node.Inv.step {n n' : Node} {e : Event} (h : n.Inv c) (hback : n.Backs c e)
    (hstep : n.step c e = some n') : n'.Inv c := by
  cases e with
  | becomeLeader =>
    simp only [Node.step] at hstep
    split_ifs at hstep
    cases hstep
    refine ⟨h.role,fun hleader => ?_⟩
    rw [show n.manager.isLeader = false from h.role.trans hback] at hleader
    cases hleader
  | stepDown =>
    simp only [Node.step] at hstep
    split_ifs at hstep
    cases hstep
    exact ⟨h.role,h.backed⟩
  | answer peer now =>
    simp only [Node.step] at hstep
    split_ifs at hstep
    cases hstep
    refine ⟨h.role,fun hleader hexpire => (h.backed hleader hexpire).mono le_rfl ?_⟩
    intro p a ha
    by_cases hp : p = peer
    · subst hp
      simp [ha]
    · simpa [Function.update_of_ne hp] using ha
  | checkQuorum =>
    simp only [Node.step] at hstep
    split_ifs at hstep
    cases hstep
    exact ⟨h.role,h.backed⟩
  | timer =>
    simp only [Node.step] at hstep
    split_ifs at hstep <;> cases hstep
    · exact ⟨h.role,h.backed⟩
    · exact h
  | timerRenew now =>
    simp only [Node.step] at hstep
    split_ifs at hstep
    cases hstep
    have hrenew := h.tryRenewLease hback
    exact ⟨hrenew.role,hrenew.backed⟩
  | ready soft =>
    simp only [Node.step] at hstep
    split_ifs at hstep with hready hsoft hleading <;> cases hstep
    · exact ⟨hleading.symm,fun _ hexpire => absurd hexpire (lt_irrefl 0)⟩
    · exact ⟨(Bool.eq_false_of_not_eq_true hleading).symm,fun hleader => nomatch hleader⟩
    · exact ⟨h.role.trans (hready.2.resolve_left hsoft).symm,h.backed⟩
  | readyRenew now =>
    simp only [Node.step] at hstep
    split_ifs at hstep <;> cases hstep
    · have hrenew := h.tryRenewLease hback
      exact ⟨hrenew.role,hrenew.backed⟩
    · exact ⟨h.role,h.backed⟩
  | updateClusterSize size =>
    cases hstep
    exact ⟨h.role,h.backed⟩

end MetaStore.LeaseRead
