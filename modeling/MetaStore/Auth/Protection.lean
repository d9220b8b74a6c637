import MetaStore.Library.Transition
import MetaStore.Auth.Interceptor

/-! What calls without a token of root do to users, roles and the enabled flag. The interceptor
guards `AuthDisable` only; every other method of the Auth service goes straight to the manager,
which changes whatever its own checks let through. -/
namespace MetaStore.Auth
open Std Transition

variable {σ : Type*}

def AuthManager.authState (am : AuthManager σ) :
    Bool × ExtTreeMap Bytes UserInfo × ExtTreeMap Bytes RoleInfo :=
  (am.enabled,am.users,am.roles)

def carriesRoot (am : AuthManager σ) (rpc : Rpc) : Bool :=
  match tokenInfo am rpc.arrival rpc.metadata with
  | .ok info => info.username == root
  | .error _ => false

inductive ServerEvent
  | rpc (rpc : Rpc)
  | cleanupExpiredTokens (now : ℤ)

/-- A step of the server, as long as nobody comes with a token of root. -/
def rootless (B : Backend σ) (am : AuthManager σ) : ServerEvent → Option (AuthManager σ)
  | .rpc rpc => if carriesRoot am rpc then none else some (serve B am rpc).2
  | .cleanupExpiredTokens now => some (am.cleanupExpiredTokens B.toPlatform now)

def Refused (P : Platform σ) (am : AuthManager σ) (i : Inputs) : AuthRequest → Prop
  | .userAdd name password => name ∈ am.users ∨ ∀ hash, i.generateFromPassword password = .ok hash →
      (am.persistUser P name ⟨name,hash,[],unix i.now⟩).1.isOk = false
  | .userDelete name => name = root ∨ name ∉ am.users ∨
      (P.deleteRange am.store (authUserPrefix ++ name) []).1.isOk = false
  | .userChangePassword name password => ∀ user hash, am.users[name]? = some user →
      i.generateFromPassword password = .ok hash → hash = user.passwordHash
  | .userGrantRole username role => ∀ user, am.users[username]? = some user → role ∈ am.roles →
      role ∈ user.roles
  | .userRevokeRole username role => ∀ user, am.users[username]? = some user → role ∉ user.roles
  | .roleAdd name => name ∈ am.roles ∨ (am.persistRole P name ⟨name,[],unix i.now⟩).1.isOk = false
  | .roleDelete name => name = root ∨ name ∉ am.roles
  | .roleGrantPermission name perm => perm = none ∨ name ∉ am.roles
  | .roleRevokePermission name key rangeEnd => ∀ role, am.roles[name]? = some role →
      role.permissions.any (Permission.isFor key rangeEnd) = false
  | _ => True

def Harmless (B : Backend σ) (am : AuthManager σ) : ServerEvent → Prop
  | .rpc rpc =>
    match rpc.request with
    | .auth r => Refused B.toPlatform am rpc.inputs r
    | _ => True
  | .cleanupExpiredTokens _ => True

section Maps
variable {V : Type*} {m : ExtTreeMap Bytes V} {k : Bytes}

lemma insert_eq_self_iff {v : V} : m.insert k v = m ↔ m[k]? = some v := by
  constructor
  · intro h
    rw [← h]
    exact ExtTreeMap.getElem?_insert_self
  · intro h
    apply ExtTreeMap.ext_getElem?
    intro k'
    rw [ExtTreeMap.getElem?_insert]
    split_ifs with hk
    · rw [← LawfulEqCmp.compare_eq_iff_eq.mp hk,h]
    · rfl

lemma mem_of_getElem? {v : V} (h : m[k]? = some v) : k ∈ m := by
  rw [ExtTreeMap.mem_iff_isSome_getElem?,h]
  rfl

lemma erase_eq_self_iff : m.erase k = m ↔ k ∉ m := by
  constructor
  · intro h
    rw [← h]
    simp
  · intro h
    apply ExtTreeMap.ext_getElem?
    intro k'
    rw [ExtTreeMap.getElem?_erase]
    split_ifs with hk
    · rw [← LawfulEqCmp.compare_eq_iff_eq.mp hk,ExtTreeMap.getElem?_eq_none h]
    · rfl

end Maps

section Manager
variable (P : Platform σ) (am : AuthManager σ) (i : Inputs)
variable {key text value : Bytes} {t : AuthManager σ} {result : Except Bytes Unit}

lemma authState_put
    (h : am.put P text key value = (result,t)) : t.authState = am.authState := by
  rw [AuthManager.put] at h
  split at h <;> cases h <;> rfl

lemma authState_enable (henabled : am.enabled = true) :
    (am.enable P).2.authState = am.authState := by
  rw [AuthManager.enable]
  split_ifs <;> rfl

lemma authState_authenticate (username password : Bytes) :
    (am.authenticate P i username password).2.authState = am.authState := by
  rw [AuthManager.authenticate]
  split
  · rfl
  · split_ifs
    · split
      · rfl
      · dsimp only
        split
        · next hput => exact (authState_put P _ hput).trans rfl
        · next hput => exact (authState_put P _ hput).trans rfl
    · rfl

lemma hashPassword_eq_ok_iff {password hash : Bytes} :
    AuthManager.hashPassword i password = .ok hash ↔ i.generateFromPassword password = .ok hash := by
  rw [AuthManager.hashPassword]
  split
  · next h => simp [h]
  · next h => rw [h]

/-- The users or the roles differ after a change to the entry of one name. -/
lemma authState_eq_iff {s : AuthManager σ} :
    t.authState = s.authState ↔ t.enabled = s.enabled ∧ t.users = s.users ∧ t.roles = s.roles := by
  simp [AuthManager.authState]

lemma authState_addUser (name password : Bytes) :
    (am.addUser P i name password).2.authState = am.authState ↔
      name ∈ am.users ∨ ∀ hash, i.generateFromPassword password = .ok hash →
        (am.persistUser P name ⟨name,hash,[],unix i.now⟩).1.isOk = false := by
  rw [AuthManager.addUser]
  split_ifs with hname
  · exact iff_of_true rfl (.inl hname)
  · split
    · next err herr =>
      refine iff_of_true rfl (.inr fun hash hhash => ?_)
      rw [← hashPassword_eq_ok_iff,herr] at hhash
      cases hhash
    · next hash hhash =>
      dsimp only
      have hgenerate := (hashPassword_eq_ok_iff i).mp hhash
      split
      · next err t hput =>
        refine iff_of_true (authState_put P am hput) (.inr fun hash' hhash' => ?_)
        obtain rfl : hash = hash' := Except.ok.inj (hgenerate.symm.trans hhash')
        rw [hput]
        rfl
      · next u t hput =>
        have hstate := authState_eq_iff.mp (authState_put P am hput)
        refine iff_of_false (fun h => ?_) ?_
        · have husers := (authState_eq_iff.mp h).2.1
          dsimp only at husers
          rw [hstate.2.1,insert_eq_self_iff] at husers
          exact hname (mem_of_getElem? husers)
        · rintro (h | h)
          · exact hname h
          · have hok := h hash hgenerate
            rw [hput] at hok
            cases hok

lemma authState_deleteUser (name : Bytes) :
    (am.deleteUser P name).2.authState = am.authState ↔ name = root ∨ name ∉ am.users ∨
      (P.deleteRange am.store (authUserPrefix ++ name) []).1.isOk = false := by
  rw [AuthManager.deleteUser]
  by_cases hroot : name = root
  · rw [if_pos hroot]
    exact iff_of_true rfl (.inl hroot)
  by_cases hname : name ∈ am.users
  · rw [if_neg hroot,if_neg (not_not.mpr hname)]
    split
    · next err store hdelete =>
      refine iff_of_true rfl (.inr (.inr ?_))
      rw [hdelete]
      rfl
    · next u store hdelete =>
      refine iff_of_false (fun h => ?_) ?_
      · exact erase_eq_self_iff.mp (authState_eq_iff.mp h).2.1 hname
      · rintro (h | h | h)
        · exact hroot h
        · exact h hname
        · rw [hdelete] at h
          cases h
  · rw [if_neg hroot,if_pos hname]
    exact iff_of_true rfl (.inr (.inl hname))

lemma authState_changePassword (name password : Bytes) :
    (am.changePassword P i name password).2.authState = am.authState ↔
      ∀ user hash, am.users[name]? = some user →
        i.generateFromPassword password = .ok hash → hash = user.passwordHash := by
  rw [AuthManager.changePassword]
  split
  · next hname => exact iff_of_true rfl fun user hash huser => by simp [hname] at huser
  · next user huser =>
    split
    · next err herr =>
      refine iff_of_true rfl fun user' hash _ hhash => ?_
      rw [← hashPassword_eq_ok_iff,herr] at hhash
      cases hhash
    · next hash hhash =>
      dsimp only
      have hgenerate := (hashPassword_eq_ok_iff i).mp hhash
      have hcond : (∀ user' hash', am.users[name]? = some user' →
          i.generateFromPassword password = .ok hash' → hash' = user'.passwordHash) ↔
          am.users.insert name { user with passwordHash := hash } = am.users := by
        rw [insert_eq_self_iff]
        constructor
        · intro h
          rw [huser,h user hash huser hgenerate]
        · intro h user' hash' huser' hhash'
          rw [huser,Option.some.injEq] at h
          obtain rfl : user = user' := Option.some.inj (huser.symm.trans huser')
          obtain rfl : hash = hash' := Except.ok.inj (hgenerate.symm.trans hhash')
          exact congrArg UserInfo.passwordHash h.symm
      rw [hcond]
      split
      · next err t hput =>
        rw [authState_put P _ hput]
        simp [AuthManager.authState]
      · next u t hput =>
        change t.authState = am.authState ↔ _
        rw [authState_put P _ hput]
        simp [AuthManager.authState]

lemma users_insert_ne {name : Bytes} {user user' : UserInfo} (h : am.users[name]? = some user)
    (hne : user' ≠ user)
    (hput : { am with users := am.users.insert name user' }.put P text key value = (result,t)) :
    t.authState ≠ am.authState := by
  rw [authState_put P _ hput]
  intro hstate
  have husers := (authState_eq_iff.mp hstate).2.1
  rw [insert_eq_self_iff,h] at husers
  exact hne (Option.some.inj husers).symm

lemma roles_insert_ne {name : Bytes} {role role' : RoleInfo} (h : am.roles[name]? = some role)
    (hne : role' ≠ role)
    (hput : { am with roles := am.roles.insert name role' }.put P text key value = (result,t)) :
    t.authState ≠ am.authState := by
  rw [authState_put P _ hput]
  intro hstate
  have hroles := (authState_eq_iff.mp hstate).2.2
  rw [insert_eq_self_iff,h] at hroles
  exact hne (Option.some.inj hroles).symm

lemma authState_grantRole (username role : Bytes) :
    (am.grantRole P username role).2.authState = am.authState ↔
      ∀ user, am.users[username]? = some user → role ∈ am.roles → role ∈ user.roles := by
  rw [AuthManager.grantRole]
  split
  · next hname => exact iff_of_true rfl fun user huser => by simp [hname] at huser
  · next user huser =>
    by_cases hrole : role ∈ am.roles
    · rw [if_neg (not_not.mpr hrole)]
      split_ifs with hhas
      · refine iff_of_true rfl fun user' huser' _ => ?_
        obtain rfl : user = user' := Option.some.inj (huser.symm.trans huser')
        exact hhas
      · refine iff_of_false (users_insert_ne P am huser (fun h => ?_) rfl)
          fun h => hhas (h user huser hrole)
        have hroles := congrArg UserInfo.roles h
        simp at hroles
    · rw [if_pos hrole]
      exact iff_of_true rfl fun _ _ h => absurd h hrole

lemma authState_revokeRole (username role : Bytes) :
    (am.revokeRole P username role).2.authState = am.authState ↔
      ∀ user, am.users[username]? = some user → role ∉ user.roles := by
  rw [AuthManager.revokeRole]
  split
  · next hname => exact iff_of_true rfl fun user huser => by simp [hname] at huser
  · next user huser =>
    by_cases hhas : role ∈ user.roles
    · rw [if_neg (not_not.mpr hhas)]
      refine iff_of_false (users_insert_ne P am huser (fun h => ?_) rfl)
        fun h => h user huser hhas
      have hroles := congrArg UserInfo.roles h
      simp only [UserInfo.withoutRole,List.filter_eq_self] at hroles
      exact absurd (hroles role hhas) (by simp)
    · rw [if_pos hhas]
      refine iff_of_true rfl fun user' huser' => ?_
      obtain rfl : user = user' := Option.some.inj (huser.symm.trans huser')
      exact hhas

lemma authState_addRole (name : Bytes) :
    (am.addRole P i name).2.authState = am.authState ↔
      name ∈ am.roles ∨ (am.persistRole P name ⟨name,[],unix i.now⟩).1.isOk = false := by
  rw [AuthManager.addRole]
  split_ifs with hname
  · exact iff_of_true rfl (.inl hname)
  · dsimp only
    split
    · next err t hput =>
      refine iff_of_true (authState_put P am hput) (.inr ?_)
      rw [hput]
      rfl
    · next u t hput =>
      have hstate := authState_eq_iff.mp (authState_put P am hput)
      refine iff_of_false (fun h => ?_) ?_
      · have hroles := (authState_eq_iff.mp h).2.2
        dsimp only at hroles
        rw [hstate.2.2,insert_eq_self_iff] at hroles
        exact hname (mem_of_getElem? hroles)
      · rintro (h | h)
        · exact hname h
        · rw [hput] at h
          cases h

lemma authState_deleteRole (name : Bytes) :
    (am.deleteRole P name).2.authState = am.authState ↔ name = root ∨ name ∉ am.roles := by
  rw [AuthManager.deleteRole]
  by_cases hroot : name = root
  · rw [if_pos hroot]
    exact iff_of_true rfl (.inl hroot)
  by_cases hname : name ∈ am.roles
  · rw [if_neg hroot,if_neg (not_not.mpr hname)]
    refine iff_of_false (fun h => ?_) ?_
    · refine erase_eq_self_iff.mp ?_ hname
      have hroles := (authState_eq_iff.mp h).2.2
      dsimp only at hroles
      split at hroles <;> exact hroles
    · rintro (h | h)
      · exact hroot h
      · exact h hname
  · rw [if_neg hroot,if_pos hname]
    exact iff_of_true rfl (.inr hname)

lemma authState_grantPermission (name : Bytes) (perm : Permission) :
    (am.grantPermission P name perm).2.authState = am.authState ↔
      name ∉ am.roles := by
  rw [AuthManager.grantPermission]
  split
  · next hname =>
    refine iff_of_true rfl fun h => ?_
    rw [ExtTreeMap.mem_iff_isSome_getElem?,hname] at h
    cases h
  · next role hrole =>
    refine iff_of_false (roles_insert_ne P am hrole (fun h => ?_) rfl) fun h =>
      h (mem_of_getElem? hrole)
    have hperms := congrArg RoleInfo.permissions h
    simp at hperms

lemma authState_revokePermission (name key rangeEnd : Bytes) :
    (am.revokePermission P name key rangeEnd).2.authState = am.authState ↔
      ∀ role, am.roles[name]? = some role →
        role.permissions.any (Permission.isFor key rangeEnd) = false := by
  rw [AuthManager.revokePermission]
  split
  · next hname => exact iff_of_true rfl fun role hrole => by simp [hname] at hrole
  · next role hrole =>
    split_ifs with hfound
    · refine iff_of_false (roles_insert_ne P am hrole (fun h => ?_) rfl) fun h => ?_
      · have hperms := congrArg RoleInfo.permissions h
        obtain ⟨perm,hmem,hfor⟩ := List.any_eq_true.mp hfound
        have hkept := List.filter_eq_self.mp hperms perm hmem
        rw [hfor] at hkept
        cases hkept
      · rw [h role hrole] at hfound
        cases hfound
    · refine iff_of_true rfl fun role' hrole' => ?_
      obtain rfl : role = role' := Option.some.inj (hrole.symm.trans hrole')
      exact Bool.eq_false_iff.mpr hfound

end Manager

section Server
variable (B : Backend σ) (am : AuthManager σ)

@[simp] lemma respond_snd {α : Type*} (body : α → Body)
    (r : Except Bytes α × AuthManager σ) : (respond B body r).2 = r.2 := by
  obtain ⟨result,t⟩ := r
  cases result <;> rfl

lemma authState_authServer (henabled : am.enabled = true) (i : Inputs) (r : AuthRequest)
    (hdisable : r ≠ .authDisable) :
    (authServer B am i r).2.authState = am.authState ↔ Refused B.toPlatform am i r := by
  cases r with
  | authEnable =>
    rw [authServer,respond_snd]
    exact iff_of_true (authState_enable B.toPlatform am henabled) trivial
  | authDisable => exact absurd rfl hdisable
  | authenticate name password =>
    rw [authServer,respond_snd]
    exact iff_of_true (authState_authenticate B.toPlatform am i name password) trivial
  | userAdd name password =>
    rw [authServer,respond_snd]
    exact authState_addUser B.toPlatform am i name password
  | userDelete name =>
    rw [authServer,respond_snd]
    exact authState_deleteUser B.toPlatform am name
  | userChangePassword name password =>
    rw [authServer,respond_snd]
    exact authState_changePassword B.toPlatform am i name password
  | userGrantRole user role =>
    rw [authServer,respond_snd]
    exact authState_grantRole B.toPlatform am user role
  | userRevokeRole name role =>
    rw [authServer,respond_snd]
    exact authState_revokeRole B.toPlatform am name role
  | roleAdd name =>
    rw [authServer,respond_snd]
    exact authState_addRole B.toPlatform am i name
  | roleDelete role =>
    rw [authServer,respond_snd]
    exact authState_deleteRole B.toPlatform am role
  | roleGrantPermission name perm =>
    cases perm with
    | none => exact iff_of_true rfl (.inl rfl)
    | some perm =>
      rw [authServer,respond_snd]
      exact (authState_grantPermission B.toPlatform am name perm).trans (by simp [Refused])
  | roleRevokePermission role key rangeEnd =>
    rw [authServer,respond_snd]
    exact authState_revokePermission B.toPlatform am role key rangeEnd
  | authStatus => exact iff_of_true (by rw [authServer,respond_snd]) trivial
  | userGet name => exact iff_of_true (by rw [authServer,respond_snd]) trivial
  | userList => exact iff_of_true (by rw [authServer,respond_snd]) trivial
  | roleGet role => exact iff_of_true (by rw [authServer,respond_snd]) trivial
  | roleList => exact iff_of_true (by rw [authServer,respond_snd]) trivial

/-- Nobody but root gets through to `AuthDisable`. -/
lemma checkRootPermission_of_rootless {rpc : Rpc} (hroot : carriesRoot am rpc = false) :
    ∃ status, checkRootPermission am rpc.arrival rpc.metadata = .error status := by
  rw [carriesRoot] at hroot
  rw [checkRootPermission]
  cases h : tokenInfo am rpc.arrival rpc.metadata with
  | error status => exact ⟨status,rfl⟩
  | ok info =>
    rw [h] at hroot
    dsimp only at hroot ⊢
    rw [if_pos (by simpa using hroot)]
    exact ⟨_,rfl⟩

lemma authState_serve (henabled : am.enabled = true) {rpc : Rpc}
    (hroot : carriesRoot am rpc = false) :
    (serve B am rpc).2.authState = am.authState ↔ Harmless B am (.rpc rpc) := by
  obtain ⟨arrival,metadata,request,inputs⟩ := rpc
  cases request with
  | auth r =>
    by_cases hdisable : r = .authDisable
    · subst hdisable
      obtain ⟨status,hstatus⟩ := checkRootPermission_of_rootless am hroot
      have hrefused : authInterceptor am arrival metadata (.auth .authDisable) = .error status := by
        simpa [authInterceptor,AuthManager.isEnabled,henabled] using hstatus
      have hserve : (serve B am ⟨arrival,metadata,.auth .authDisable,inputs⟩).2 = am := by
        simp only [serve,hrefused]
      exact iff_of_true (congrArg AuthManager.authState hserve) trivial
    · have hcalled : authInterceptor am arrival metadata (.auth r) = .ok none := by
        simp [authInterceptor,AuthManager.isEnabled,henabled,hdisable]
      simp only [serve,hcalled]
      exact authState_authServer B am henabled inputs r hdisable
  | kv r =>
    refine iff_of_true ?_ trivial
    rw [serve]
    split <;> rfl
  | unread m message =>
    refine iff_of_true ?_ trivial
    rw [serve]
    split <;> rfl

lemma authState_rootless (henabled : am.enabled = true) {event : ServerEvent}
    {t : AuthManager σ} (hstep : rootless B am event = some t) :
    t.authState = am.authState ↔ Harmless B am event := by
  cases event with
  | rpc rpc =>
    rw [rootless] at hstep
    split_ifs at hstep with hroot
    cases hstep
    exact authState_serve B am henabled (Bool.eq_false_iff.mpr hroot)
  | cleanupExpiredTokens now =>
    cases hstep
    exact iff_of_true rfl trivial

end Server

/-- With authentication on and no call that has a valid token of root, users, roles and the flag
stay as they are along the whole run, exactly when the manager itself refuses every call of the
Auth service that would change them. -/
theorem auth_state_kept_iff (B : Backend σ) (am : AuthManager σ) (henabled : am.enabled = true)
    (events : List ServerEvent) :
    (∀ p, p <+: events → ∀ s, p.foldlM (rootless B) am = some s → s.authState = am.authState) ↔
    ∀ p event, p ++ [event] <+: events → ∀ s t, p.foldlM (rootless B) am = some s →
      rootless B s event = some t → Harmless B s event := by
  have hstep : ∀ s event t, s.authState = am.authState → rootless B s event = some t →
      (t.authState = am.authState ↔ Harmless B s event) := by
    intro s event t hs hstep
    have henabled' : s.enabled = true := (congrArg Prod.fst hs).trans henabled
    rw [← hs]
    exact authState_rootless B s henabled' hstep
  exact always_iff hstep rfl events

def plainBackend : Backend Unit where
  putWithLease _ _ _ _ := (.ok (),())
  deleteRange _ _ _ := (.ok (),())
  marshalUser _ := []
  marshalRole _ := []
  marshalToken _ := []
  compareHashAndPassword hash password := hash == password
  getResponseHeader _ := ⟨1,1,0,1⟩
  handle _ _ := (.ok ⟨⟨1,1,0,1⟩,.empty⟩,())

/-- Authentication is on and root has the password `p`. -/
def onlyRoot : AuthManager Unit where
  store := ()
  enabled := true
  users := (∅ : ExtTreeMap Bytes UserInfo).insert root ⟨root,[112],[],0⟩
  roles := ∅
  tokens := ∅
  tokenTTL := 0

def anonymous (r : AuthRequest) : Rpc where
  arrival := 0
  metadata := none
  request := .auth r
  inputs := ⟨0,.ok,.ok [116]⟩

theorem auth_state_kept_of_existing_user :
    let events : List ServerEvent := [.rpc (anonymous (.userAdd root [120]))]
    onlyRoot.enabled = true ∧ ∀ p, p <+: events → ∀ s,
      p.foldlM (rootless plainBackend) onlyRoot = some s →
        s.authState = onlyRoot.authState := by
  intro events
  refine ⟨rfl,(auth_state_kept_iff plainBackend onlyRoot rfl events).mpr ?_⟩
  intro p event hp s t hs _
  have hlength := hp.length_le
  rw [List.length_append] at hlength
  obtain rfl : p = [] := List.length_eq_zero_iff.mp (by simpa [events] using hlength)
  obtain rfl : event = .rpc (anonymous (.userAdd root [120])) := by
    simpa [events] using hp
  obtain rfl : onlyRoot = s := Option.some.inj hs
  exact .inl (ExtTreeMap.mem_insert_self)

/-- Anybody can give root a new password and log in with it. -/
theorem root_password_changed_without_token :
    let change := anonymous (.userChangePassword root [120])
    let login := anonymous (.authenticate root [120])
    let s := (serve plainBackend onlyRoot change).2
    carriesRoot onlyRoot change = false ∧ s.authState ≠ onlyRoot.authState ∧
      (serve plainBackend onlyRoot login).1 = .error ⟨.internal,ascii "invalid password"⟩ ∧
      (serve plainBackend s login).1 = .ok ⟨⟨1,1,0,1⟩,.token [116]⟩ := by
  intro change login s
  refine ⟨rfl,?_,rfl,rfl⟩
  intro h
  have huser := congrArg (fun state => state.2.1[root]?) h
  exact absurd huser (by decide)

end MetaStore.Auth
