import MetaStore.Auth.Storage

/-! Users, roles and tokens of the authentication manager refer to each other only where the other
exists (api/etcd/auth_manager.go), over operations, clean-ups of old tokens and restarts, while the
store works and the clock does not run backwards. -/
namespace MetaStore.Auth
open Std Transition Mirror

structure WellFormed (am : AuthManager Store) : Prop where
  root : am.isEnabled = true → Auth.root ∈ am.users
  roles : ∀ (name : Bytes) (user : UserInfo), am.users[name]? = some user →
    user.roles.Nodup ∧ ∀ role ∈ user.roles, role ∈ am.roles
  tokens : ∀ now token info, am.validateToken now token = .ok info → info.username ∈ am.users

lemma Consistent.wellFormed {am : AuthManager Store} (h : Consistent am) : WellFormed am where
  root := h.root
  roles := h.roles
  tokens now token info hok := by
    unfold AuthManager.validateToken at hok
    split at hok
    · cases hok
    · next info' hinfo =>
      split at hok
      · cases hok
      · exact h.tokens token info (Except.ok.inj hok ▸ hinfo)

structure Process where
  manager : AuthManager Store
  clock : ℤ

inductive Event
  | operation (op : AuthOp) (i : Inputs)
  | cleanup (now : ℤ)
  | restart (tokenTTL now : ℤ)

def Event.now : Event → ℤ
  | .operation _ i => i.now
  | .cleanup now => now
  | .restart _ now => now

def Event.Plain : Event → Prop
  | .operation op i => op.Plain i
  | _ => True

def Process.handle (C : Coding) (am : AuthManager Store) : Event → AuthManager Store
  | .operation op i => (am.call C ⟨op,i,[]⟩).2
  | .cleanup now => { am with store := { am.store with faults := [] } }.cleanupExpiredTokens C.platform now
  | .restart tokenTTL now => newAuthManager C am.store tokenTTL now

def Process.step (C : Coding) (s : Process) (e : Event) : Option Process :=
  if s.clock ≤ e.now then some ⟨Process.handle C s.manager e,e.now⟩ else none

lemma InSync.newAuthManager_eq_of {C : Coding} {t : ℤ} {am : AuthManager Store} (h : InSync C t am)
    {tokenTTL now : ℤ} (hnow : t ≤ unix now) : newAuthManager C am.store tokenTTL now =
      { am with tokens := am.tokens.filter fun _ info => info.live now, tokenTTL } :=
  congrArg (fun am : AuthManager Store => { am with tokenTTL }) (h.newAuthManager_eq hnow)

/-- A restart keeps the agreement of cache and store: the tokens that it leaves out have expired. -/
lemma InSync.restart {C : Coding} {t : ℤ} {am : AuthManager Store} (h : InSync C t am) {now : ℤ}
    (hnow : t ≤ unix now) (tokenTTL : ℤ) :
    InSync C (unix now) (newAuthManager C am.store tokenTTL now) := by
  rw [h.newAuthManager_eq_of hnow]
  exact ⟨h.enabled,h.users,h.roles,h.tokens.filter (fun info hle => hle.trans hnow)
    fun info hdead => Int.not_lt.mp (of_decide_eq_false hdead)⟩

def Process.Sound (C : Coding) (s : Process) : Prop :=
  Consistent s.manager ∧ ∃ t ≤ unix s.clock, InSync C t s.manager

lemma Process.sound_step {C : Coding} {s s' : Process} {e : Event} (h : s.Sound C) (hplain : e.Plain)
    (hstep : s.step C e = some s') : s'.Sound C := by
  obtain ⟨hcons,t,ht,hsync⟩ := h
  unfold Process.step at hstep
  split at hstep
  · next hclock =>
    obtain rfl := Option.some.inj hstep
    have hnow : t ≤ unix e.now := ht.trans (Int.ediv_le_ediv (by norm_num) hclock)
    cases e with
    | operation op i =>
      have htolerates : op.Tolerates [] := by cases op <;> simp [AuthOp.Tolerates]
      have hdone : Done C t s.manager (s.manager.call C ⟨op,i,[]⟩) := call_done hsync hplain htolerates
      exact ⟨hdone.consistent hcons,t,hnow,hdone.inSync⟩
    | cleanup now =>
      have hsync' : InSync C t { s.manager with store := { s.manager.store with faults := [] } } :=
        hsync.withFaults rfl
      exact ⟨(hcons.withStore _).filterTokens _ _,t,hnow,
        hsync'.deleteTokens (by simp [Store.Calm]) fun info => decide (info.expiresAt < unix now)⟩
    | restart tokenTTL now =>
      have hcons' := hcons.filterTokens s.manager.store fun _ info => info.live now
      refine ⟨?_,unix now,le_rfl,hsync.restart hnow tokenTTL⟩
      show Consistent (newAuthManager C s.manager.store tokenTTL now)
      rw [hsync.newAuthManager_eq_of (show t ≤ unix now from hnow)]
      exact ⟨hcons'.root,hcons'.roles,hcons'.tokens⟩
  · cases hstep

end MetaStore.Auth
