import MetaStore.Library.Transition
import MetaStore.KVStore.Types

/-! Renewals beside the expiry check (api/etcd/lease_manager.go, over the leases of the memory
engine). A check collects the expired leases in one critical section and revokes them one by one
in others; a renewal looks at the manager's map, at the store and at the map again. Leases are
objects on a heap: a grant leaves one in the store and a copy of it in the map, and a renewal puts
the object of the store into the map. Grants and explicit revocations are single steps here. -/
namespace MetaStore.Leases.Renewals
open Std Transition

/-- Where a call of `Renew` is. -/
inductive Phase
  | idle
  | checked (id : ℤ)
  | renewed (id : ℤ) (ref : ℕ) (time : ℤ)
  deriving DecidableEq, Repr

/-- `leases` is the manager's map. The check has collected `expired`, and has taken `revoking` out
of the map. `promises` has the ends of the renewals that were returned since the lease was last
granted, and `clock` the latest reading. -/
structure State where
  heap : ℕ → Lease
  next : ℕ
  store : ExtTreeMap ℤ ℕ
  leases : ExtTreeMap ℤ ℕ
  calls : ℕ → Phase
  expired : List ℤ
  revoking : Option ℤ
  promises : ℤ → List ℤ
  clock : ℤ

def State.init (clock : ℤ) : State where
  heap _ := ⟨0,0,clock,∅⟩
  next := 0
  store := ∅
  leases := ∅
  calls _ := .idle
  expired := []
  revoking := none
  promises _ := []
  clock := clock

def expiry (lease : Lease) : ℤ := lease.grantTime+lease.ttl*10^9

/-- The steps of the calls, with the readings of the clock. A grant reads it when it is applied
and when it returns. -/
inductive Event
  | grant (applied now id ttl : ℤ)
  | revoke (id : ℤ)
  | renewCheck (call : ℕ) (id : ℤ)
  | renewStore (call : ℕ) (now : ℤ)
  | renewReturn (call : ℕ)
  | collect (now : ℤ)
  | take
  | revokeExpired (now : ℤ)

def expiredIDs (s : State) (now : ℤ) : List ℤ :=
  (s.leases.toList.filter fun item => (s.heap item.2).isExpired now).map Prod.fst

def step (s : State) : Event → Option State
  | .grant applied now id ttl => some { s with
      heap := Function.update (Function.update s.heap s.next ⟨id,ttl,applied,∅⟩) (s.next+1)
        ⟨id,ttl,now,∅⟩
      next := s.next+2
      store := s.store.insert id s.next
      leases := s.leases.insert id (s.next+1)
      promises := Function.update s.promises id []
      clock := now }
  | .revoke id =>
    if id ∉ s.leases then some s
    else some { s with
      store := s.store.erase id
      leases := s.leases.erase id
      promises := Function.update s.promises id [] }
  | .renewCheck call id =>
    if s.calls call ≠ .idle then none
    else if id ∉ s.leases then some s
    else some { s with calls := Function.update s.calls call (.checked id) }
  | .renewStore call now =>
    match s.calls call with
    | .checked id =>
      match s.store[id]? with
      | none => some { s with calls := Function.update s.calls call .idle, clock := now }
      | some ref => some { s with
          heap := Function.update s.heap ref { s.heap ref with grantTime := now }
          calls := Function.update s.calls call (.renewed id ref now)
          clock := now }
    | _ => none
  | .renewReturn call =>
    match s.calls call with
    | .renewed id ref time => some { s with
        leases := s.leases.insert id ref
        calls := Function.update s.calls call .idle
        promises := Function.update s.promises id ((time+(s.heap ref).ttl*10^9) :: s.promises id) }
    | _ => none
  | .collect now =>
    if s.expired = [] ∧ s.revoking = none then
      some { s with expired := expiredIDs s now, clock := now }
    else none
  | .take =>
    match s.revoking,s.expired with
    | none,id :: ids =>
      if id ∈ s.leases then
        some { s with leases := s.leases.erase id, expired := ids, revoking := some id }
      else some { s with expired := ids }
    | _,_ => none
  | .revokeExpired now =>
    match s.revoking with
    | some id => some { s with store := s.store.erase id, revoking := none, clock := now }
    | none => none

/-- The expiry check revokes no lease before the end of a renewal that was returned. -/
def NotEarly (s : State) (event : Event) (_ : State) : Prop :=
  ∀ now id, event = .revokeExpired now → s.revoking = some id → ∀ time ∈ s.promises id, time ≤ now

def Settled (s : State) (id : ℤ) : Prop := ∀ call ref time, s.calls call ≠ .renewed id ref time

/-- The clock does not go back. No lease is renewed in the store after a check has collected it,
and none is collected, granted or revoked while a renewal has yet to return. -/
def Event.Safe (s : State) : Event → Prop
  | .grant applied now id _ => s.clock ≤ applied ∧ applied ≤ now ∧ Settled s id
  | .revoke id => Settled s id
  | .renewStore call now => s.clock ≤ now ∧
      ∀ id, s.calls call = .checked id → id ∉ s.expired ∧ s.revoking ≠ some id
  | .collect now => s.clock ≤ now ∧ ∀ id ∈ expiredIDs s now, Settled s id
  | .revokeExpired now => s.clock ≤ now
  | _ => True

/-- Renewals that were returned end no later than the leases they have renewed, and not after the
present if the lease is about to be revoked. -/
structure Sound (s : State) : Prop where
  times : ∀ ref, (s.heap ref).grantTime ≤ s.clock
  stored : ∀ id ref, s.store[id]? = some ref →
    ref < s.next ∧ ∀ time ∈ s.promises id, time ≤ expiry (s.heap ref)
  tracked : ∀ id ref, s.leases[id]? = some ref →
    ref < s.next ∧ ∀ time ∈ s.promises id, time ≤ expiry (s.heap ref)
  renewing : ∀ call id ref time, s.calls call = .renewed id ref time →
    s.store[id]? = some ref ∧ time ≤ (s.heap ref).grantTime ∧ id ∉ s.expired ∧ s.revoking ≠ some id
  doomed : ∀ id, id ∈ s.expired ∨ s.revoking = some id → ∀ time ∈ s.promises id, time ≤ s.clock

lemma expiry_le_of_isExpired {now : ℤ} {lease : Lease} (htime : lease.grantTime ≤ now)
    (h : lease.isExpired now = true) : expiry lease ≤ now := by
  have hsince : lease.ttl*10^9 ≤ since now lease.grantTime := of_decide_eq_true h
  have hle : since now lease.grantTime ≤ now-lease.grantTime := by
    rw [since,minDuration,maxDuration]
    omega
  rw [expiry]
  omega

lemma sound_init (clock : ℤ) : Sound (.init clock) where
  times _ := le_rfl
  stored id ref h := by simp [State.init] at h
  tracked id ref h := by simp [State.init] at h
  renewing call id ref time h := by cases h
  doomed id h := by simp [State.init] at h

namespace Sound
variable {s : State}
variable {id now : ℤ} {call : ℕ} {t : State}

lemma grant (h : Sound s) {applied ttl : ℤ} (hsafe : (Event.grant applied now id ttl).Safe s)
    (ht : step s (.grant applied now id ttl) = some t) : Sound t := by
  obtain ⟨hclock,hnow,hsettled⟩ := hsafe
  obtain rfl := Option.some.inj ht
  have hheap : ∀ ref, ref < s.next → Function.update (Function.update s.heap s.next
      ⟨id,ttl,applied,∅⟩) (s.next+1) ⟨id,ttl,now,∅⟩ ref = s.heap ref := by
    intro ref href
    rw [Function.update_of_ne (by omega),Function.update_of_ne (by omega)]
  -- the other leases have neither new objects nor new promises
  have hold : ∀ {m : ExtTreeMap ℤ ℕ} {r : ℕ}, (∀ k ref, m[k]? = some ref →
      ref < s.next ∧ ∀ time ∈ s.promises k, time ≤ expiry (s.heap ref)) → r < s.next+2 →
      ∀ k ref, (m.insert id r)[k]? = some ref → ref < s.next+2 ∧
        ∀ time ∈ Function.update s.promises id [] k, time ≤ expiry (Function.update
          (Function.update s.heap s.next ⟨id,ttl,applied,∅⟩) (s.next+1) ⟨id,ttl,now,∅⟩ ref) := by
    intro m r hm hr k ref hk
    rw [ExtTreeMap.getElem?_insert] at hk
    split_ifs at hk with heq
    · obtain rfl := LawfulEqCmp.compare_eq_iff_eq.mp heq
      obtain rfl := Option.some.inj hk
      rw [Function.update_self]
      exact ⟨hr,fun time htime => absurd htime List.not_mem_nil⟩
    · have hne : k ≠ id := fun hk' => heq (hk' ▸ ReflCmp.compare_self)
      obtain ⟨hlt,hpromises⟩ := hm k ref hk
      rw [Function.update_of_ne hne,hheap ref hlt]
      exact ⟨by omega,hpromises⟩
  refine ⟨fun ref => ?_,hold h.stored (by omega),hold h.tracked (by omega),?_,?_⟩
  · have := h.times ref
    dsimp only
    rw [Function.update_apply,Function.update_apply]
    split_ifs
    · exact le_rfl
    · exact hnow
    · omega
  · intro call k ref time hcall
    obtain ⟨hstore,htime,hrest⟩ := h.renewing call k ref time hcall
    have hne : k ≠ id := fun hk => hsettled call ref time (hk ▸ hcall)
    dsimp only
    rw [ExtTreeMap.getElem?_insert,if_neg fun heq => hne (LawfulEqCmp.compare_eq_iff_eq.mp heq).symm,
      hheap ref (h.stored k ref hstore).1]
    exact ⟨hstore,htime,hrest⟩
  · intro k hk time htime
    dsimp only at htime ⊢
    by_cases hne : k = id
    · rw [hne,Function.update_self] at htime
      exact absurd htime List.not_mem_nil
    · rw [Function.update_of_ne hne] at htime
      have := h.doomed k hk time htime
      omega

lemma revoke (h : Sound s) (hsafe : (Event.revoke id).Safe s)
    (ht : step s (.revoke id) = some t) : Sound t := by
  by_cases hid : id ∈ s.leases
  swap
  · rw [step,if_pos hid] at ht
    exact Option.some.inj ht ▸ h
  rw [step,if_neg (not_not.mpr hid)] at ht
  obtain rfl := Option.some.inj ht
  have hold : ∀ {m : ExtTreeMap ℤ ℕ}, (∀ k ref, m[k]? = some ref →
      ref < s.next ∧ ∀ time ∈ s.promises k, time ≤ expiry (s.heap ref)) →
      ∀ k ref, (m.erase id)[k]? = some ref → ref < s.next ∧
        ∀ time ∈ Function.update s.promises id [] k, time ≤ expiry (s.heap ref) := by
    intro m hm k ref hk
    rw [ExtTreeMap.getElem?_erase] at hk
    split_ifs at hk with heq
    have hne : k ≠ id := fun hk' => heq (hk' ▸ ReflCmp.compare_self)
    rw [Function.update_of_ne hne]
    exact hm k ref hk
  refine ⟨h.times,hold h.stored,hold h.tracked,?_,?_⟩
  · intro call k ref time hcall
    obtain ⟨hstore,hrest⟩ := h.renewing call k ref time hcall
    have hne : k ≠ id := fun hk => hsafe call ref time (hk ▸ hcall)
    dsimp only
    rw [ExtTreeMap.getElem?_erase,if_neg fun heq => hne (LawfulEqCmp.compare_eq_iff_eq.mp heq).symm]
    exact ⟨hstore,hrest⟩
  · intro k hk time htime
    dsimp only at htime
    by_cases hne : k = id
    · rw [hne,Function.update_self] at htime
      exact absurd htime List.not_mem_nil
    · rw [Function.update_of_ne hne] at htime
      exact h.doomed k hk time htime

lemma setCall (h : Sound s) {phase : Phase}
    (hphase : ∀ id ref time, phase ≠ .renewed id ref time) (hclock : s.clock ≤ now) :
    Sound { s with calls := Function.update s.calls call phase, clock := now } where
  times ref := (h.times ref).trans hclock
  stored := h.stored
  tracked := h.tracked
  renewing c id ref time hcall := by
    dsimp only at hcall
    by_cases hc : c = call
    · rw [hc,Function.update_self] at hcall
      exact absurd hcall (hphase id ref time)
    · rw [Function.update_of_ne hc] at hcall
      exact h.renewing c id ref time hcall
  doomed id hid time htime := (h.doomed id hid time htime).trans hclock

lemma renewCheck (h : Sound s)
    (ht : step s (.renewCheck call id) = some t) : Sound t := by
  rw [step] at ht
  split_ifs at ht with hidle hid
  · obtain rfl := Option.some.inj ht
    exact h.setCall (fun _ _ _ hphase => by cases hphase) le_rfl
  · exact Option.some.inj ht ▸ h

lemma renewStore (h : Sound s) (hsafe : (Event.renewStore call now).Safe s)
    (ht : step s (.renewStore call now) = some t) : Sound t := by
  obtain ⟨hclock,hspared⟩ := hsafe
  rw [step] at ht
  cases hcall : s.calls call with
  | idle => rw [hcall] at ht; cases ht
  | renewed id ref time => rw [hcall] at ht; cases ht
  | checked id =>
    rw [hcall] at ht
    dsimp only at ht
    cases hstore : s.store[id]? with
    | none =>
      rw [hstore] at ht
      obtain rfl := Option.some.inj ht
      exact h.setCall (fun _ _ _ hphase => by cases hphase) hclock
    | some ref =>
      rw [hstore] at ht
      obtain rfl := Option.some.inj ht
      -- an object that is renewed runs out later than before
      have hlater : ∀ r, (s.heap r).grantTime ≤ (Function.update s.heap ref
          { s.heap ref with grantTime := now } r).grantTime ∧ expiry (s.heap r) ≤
          expiry (Function.update s.heap ref { s.heap ref with grantTime := now } r) := by
        intro r
        have htime := (h.times r).trans hclock
        by_cases hr : r = ref
        · subst hr
          rw [Function.update_self,expiry,expiry]
          dsimp only
          omega
        · rw [Function.update_of_ne hr]
          exact ⟨le_rfl,le_rfl⟩
      refine ⟨fun r => ?_,?_,?_,?_,?_⟩
      · have := (h.times r).trans hclock
        dsimp only
        rw [Function.update_apply]
        split_ifs
        · exact le_rfl
        · exact this
      · intro k r hk
        obtain ⟨hlt,hpromises⟩ := h.stored k r hk
        exact ⟨hlt,fun time htime => (hpromises time htime).trans (hlater r).2⟩
      · intro k r hk
        obtain ⟨hlt,hpromises⟩ := h.tracked k r hk
        exact ⟨hlt,fun time htime => (hpromises time htime).trans (hlater r).2⟩
      · intro c k r time hc
        dsimp only at hc ⊢
        by_cases hsame : c = call
        · rw [hsame,Function.update_self] at hc
          obtain ⟨rfl,rfl,rfl⟩ := Phase.renewed.inj hc
          rw [Function.update_self]
          exact ⟨hstore,le_rfl,hspared id hcall⟩
        · rw [Function.update_of_ne hsame] at hc
          obtain ⟨hk,htime,hrest⟩ := h.renewing c k r time hc
          exact ⟨hk,htime.trans (hlater r).1,hrest⟩
      · intro k hk time htime
        exact (h.doomed k hk time htime).trans hclock

lemma renewReturn (h : Sound s)
    (ht : step s (.renewReturn call) = some t) : Sound t := by
  rw [step] at ht
  cases hcall : s.calls call with
  | idle => rw [hcall] at ht; cases ht
  | checked id => rw [hcall] at ht; cases ht
  | renewed id ref time =>
    rw [hcall] at ht
    obtain rfl := Option.some.inj ht
    obtain ⟨hstore,htime,hnot,hrevoking⟩ := h.renewing call id ref time hcall
    obtain ⟨hlt,hpromises⟩ := h.stored id ref hstore
    -- the new promise ends with the object that goes into the map
    have hself : ∀ until' ∈ (time+(s.heap ref).ttl*10^9) :: s.promises id,
        until' ≤ expiry (s.heap ref) := by
      intro until' hmem
      obtain rfl | hmem := List.mem_cons.mp hmem
      · rw [expiry]
        omega
      · exact hpromises until' hmem
    refine ⟨h.times,?_,?_,?_,?_⟩
    · intro k r hk
      dsimp only at hk ⊢
      by_cases hne : k = id
      · subst hne
        obtain rfl := Option.some.inj (hstore.symm.trans hk)
        rw [Function.update_self]
        exact ⟨hlt,hself⟩
      · rw [Function.update_of_ne hne]
        exact h.stored k r hk
    · intro k r hk
      dsimp only at hk ⊢
      rw [ExtTreeMap.getElem?_insert] at hk
      split_ifs at hk with heq
      · obtain rfl := LawfulEqCmp.compare_eq_iff_eq.mp heq
        obtain rfl := Option.some.inj hk
        rw [Function.update_self]
        exact ⟨hlt,hself⟩
      · have hne : k ≠ id := fun hk' => heq (hk' ▸ ReflCmp.compare_self)
        rw [Function.update_of_ne hne]
        exact h.tracked k r hk
    · intro c k r t hc
      dsimp only at hc
      by_cases hsame : c = call
      · rw [hsame,Function.update_self] at hc
        cases hc
      · rw [Function.update_of_ne hsame] at hc
        exact h.renewing c k r t hc
    · intro k hk t ht
      dsimp only at hk ht
      have hne : k ≠ id := by
        rintro rfl
        exact hk.elim hnot hrevoking
      rw [Function.update_of_ne hne] at ht
      exact h.doomed k hk t ht

lemma collect (h : Sound s) (hsafe : (Event.collect now).Safe s)
    (ht : step s (.collect now) = some t) : Sound t := by
  obtain ⟨hclock,hsettled⟩ := hsafe
  rw [step] at ht
  split_ifs at ht with hidle
  obtain rfl := Option.some.inj ht
  refine ⟨fun ref => (h.times ref).trans hclock,h.stored,h.tracked,?_,?_⟩
  · intro call id ref time hcall
    obtain ⟨hstore,htime,-,hrevoking⟩ := h.renewing call id ref time hcall
    exact ⟨hstore,htime,fun hmem => hsettled id hmem call ref time hcall,hrevoking⟩
  · intro id hid time htime
    obtain hid | hid := hid
    · obtain ⟨item,hitem,rfl⟩ := List.mem_map.mp hid
      obtain ⟨hmem,hexpired⟩ := List.mem_filter.mp hitem
      have hlease := (h.tracked item.1 item.2
        (ExtTreeMap.mem_toList_iff_getElem?_eq_some.mp hmem)).2 time htime
      exact hlease.trans (expiry_le_of_isExpired ((h.times item.2).trans hclock) hexpired)
    · have hnone : s.revoking = some id := hid
      rw [hidle.2] at hnone
      cases hnone

lemma take (h : Sound s) (ht : step s .take = some t) : Sound t := by
  rw [step] at ht
  split at ht
  · next id ids hrevoking hexpired =>
    have hrenewing : ∀ call k ref time, s.calls call = .renewed k ref time →
        s.store[k]? = some ref ∧ time ≤ (s.heap ref).grantTime ∧ k ∉ ids ∧ k ≠ id := by
      intro call k ref time hcall
      obtain ⟨hstore,htime,hnot,-⟩ := h.renewing call k ref time hcall
      rw [hexpired] at hnot
      exact ⟨hstore,htime,fun hk => hnot (List.mem_cons_of_mem id hk),
        fun hk => hnot (hk ▸ List.mem_cons_self)⟩
    have hdoomed : ∀ k, k ∈ ids ∨ k = id → ∀ time ∈ s.promises k, time ≤ s.clock := by
      intro k hk
      refine h.doomed k (Or.inl ?_)
      rw [hexpired]
      exact List.mem_cons.mpr hk.symm
    split_ifs at ht with hid
    · obtain rfl := Option.some.inj ht
      refine ⟨h.times,h.stored,?_,?_,?_⟩
      · intro k ref hk
        dsimp only at hk
        rw [ExtTreeMap.getElem?_erase] at hk
        split_ifs at hk
        exact h.tracked k ref hk
      · intro call k ref time hcall
        obtain ⟨hstore,htime,hnot,hne⟩ := hrenewing call k ref time hcall
        exact ⟨hstore,htime,hnot,fun hk => hne (Option.some.inj hk).symm⟩
      · intro k hk
        exact hdoomed k (hk.imp_right fun hk => (Option.some.inj hk).symm)
    · obtain rfl := Option.some.inj ht
      refine ⟨h.times,h.stored,h.tracked,?_,?_⟩
      · intro call k ref time hcall
        obtain ⟨hstore,htime,hnot,-⟩ := hrenewing call k ref time hcall
        exact ⟨hstore,htime,hnot,(h.renewing call k ref time hcall).2.2.2⟩
      · intro k hk
        refine hdoomed k (hk.imp_right fun hk => ?_)
        rw [hrevoking] at hk
        cases hk
  · cases ht

lemma revokeExpired (h : Sound s) (hsafe : (Event.revokeExpired now).Safe s)
    (ht : step s (.revokeExpired now) = some t) : Sound t := by
  have hclock : s.clock ≤ now := hsafe
  rw [step] at ht
  split at ht
  · next id hrevoking =>
    obtain rfl := Option.some.inj ht
    refine ⟨fun ref => (h.times ref).trans hclock,?_,h.tracked,?_,?_⟩
    · intro k ref hk
      dsimp only at hk
      rw [ExtTreeMap.getElem?_erase] at hk
      split_ifs at hk
      exact h.stored k ref hk
    · intro call k ref time hcall
      obtain ⟨hstore,htime,hnot,hne⟩ := h.renewing call k ref time hcall
      rw [hrevoking] at hne
      dsimp only
      rw [ExtTreeMap.getElem?_erase,if_neg fun heq =>
        hne (congrArg some (LawfulEqCmp.compare_eq_iff_eq.mp heq))]
      exact ⟨hstore,htime,hnot,fun hk => by cases hk⟩
    · intro k hk time htime
      have hk : k ∈ s.expired := hk.resolve_right fun hk => by cases hk
      exact (h.doomed k (Or.inl hk) time htime).trans hclock
  · cases ht

lemma step (h : Sound s) {event : Event} (hsafe : event.Safe s)
    (ht : step s event = some t) : Sound t := by
  cases event with
  | grant applied now id ttl => exact h.grant hsafe ht
  | revoke id => exact h.revoke hsafe ht
  | renewCheck call id => exact h.renewCheck ht
  | renewStore call now => exact h.renewStore hsafe ht
  | renewReturn call => exact h.renewReturn ht
  | collect now => exact h.collect hsafe ht
  | take => exact h.take ht
  | revokeExpired now => exact h.revokeExpired hsafe ht

end Sound

end MetaStore.Leases.Renewals
