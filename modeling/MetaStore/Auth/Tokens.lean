import MetaStore.Auth.Storage

/-! Where the tokens of a manager come from, whatever is called and whichever writes fail. -/
namespace MetaStore.Auth
open Std

variable {σ : Type*} (P : Platform σ) {am : AuthManager σ} {i : Inputs} {op : AuthOp} {info : TokenInfo}

def AuthManager.after (am : AuthManager σ) (calls : List (AuthOp × Inputs)) : AuthManager σ :=
  calls.foldl (fun am c => (am.perform P c.2 c.1).2) am

/-- The call gets as far as making the token, for a user whose password it was given. The token is good
even if it is not stored and the call returns an error. -/
def LogsIn (am : AuthManager σ) (c : AuthOp × Inputs) (info : TokenInfo) : Prop :=
  ∃ user password, c.1 = .authenticate info.username password ∧
    am.users[info.username]? = some user ∧ P.compareHashAndPassword user.passwordHash password = true ∧
    c.2.randomToken = .ok info.token ∧ info.expiresAt = unix (c.2.now+am.tokenTTL)

/-- The call succeeds, and the sessions of the user end. -/
def LogsOut (am : AuthManager σ) (c : AuthOp × Inputs) (username : Bytes) : Prop :=
  (am.perform P c.2 c.1).1 = .ok () ∧
    (c.1 = .disable ∨ c.1 = .deleteUser username ∨ ∃ password, c.1 = .changePassword username password)

lemma exists_put (am : AuthManager σ) (text key value : Bytes) :
    ∃ result store, am.put P text key value = (result,{ am with store }) := by
  unfold AuthManager.put
  split <;> exact ⟨_,_,rfl⟩

lemma tokens_put (am : AuthManager σ) (text key value : Bytes) :
    (am.put P text key value).2.tokens = am.tokens := by
  obtain ⟨result,store,h⟩ := exists_put P am text key value
  rw [h]

lemma tokens_authenticate {username password token : Bytes}
    (h : (am.authenticate P i username password).2.tokens[token]? = some info) :
    am.tokens[token]? = some info ∨
      info.token = token ∧ LogsIn P am (.authenticate username password,i) info := by
  unfold AuthManager.authenticate at h
  cases huser : am.users[username]? with
  | none => simp only [huser] at h; exact .inl h
  | some user =>
    simp only [huser] at h
    split_ifs at h with hpassword
    · cases htoken : i.randomToken with
      | error err => simp only [htoken] at h; exact .inl h
      | ok token' =>
        simp only [htoken] at h
        obtain ⟨result,store,hput⟩ := exists_put P
          { am with tokens := am.tokens.insert token' ⟨token',username,unix (i.now+am.tokenTTL)⟩ }
          (ascii "failed to persist token: ") (authTokenPrefix ++ token')
          (P.marshalToken ⟨token',username,unix (i.now+am.tokenTTL)⟩)
        rw [hput] at h
        have hinsert : (am.tokens.insert token' ⟨token',username,unix (i.now+am.tokenTTL)⟩)[token]? =
            some info := by cases result <;> exact h
        rw [ExtTreeMap.getElem?_insert] at hinsert
        split_ifs at hinsert with heq
        · obtain rfl := LawfulEqCmp.eq_of_compare heq
          obtain rfl := Option.some.inj hinsert
          exact .inr ⟨rfl,user,password,rfl,huser,hpassword,htoken,rfl⟩
        · exact .inl hinsert
    · exact .inl h

/-- Some tokens go. -/
lemma getElem?_deleteTokens {gone : TokenInfo → Bool} {token : Bytes}
    (h : (am.deleteTokens P gone).tokens[token]? = some info) :
    am.tokens[token]? = some info ∧ gone info = false := by
  simp only [AuthManager.deleteTokens,ExtTreeMap.getElem?_filter',Option.filter_eq_some_iff] at h
  exact ⟨h.1,by simpa using h.2⟩

lemma tokens_deleteUser {name token : Bytes}
    (h : (am.deleteUser P name).2.tokens[token]? = some info) : am.tokens[token]? = some info ∧
      ((am.deleteUser P name).1 = .ok () → info.username ≠ name) := by
  unfold AuthManager.deleteUser at h ⊢
  by_cases hroot : name = root
  · rw [if_pos hroot] at h ⊢
    exact ⟨h,by simp⟩
  by_cases hname : name ∈ am.users
  · rw [if_neg hroot,if_neg (not_not.mpr hname)] at h ⊢
    split at h
    · exact ⟨h,by simp⟩
    · obtain ⟨htoken,hgone⟩ := getElem?_deleteTokens P h
      exact ⟨htoken,fun _ => by simpa using hgone⟩
  · rw [if_neg hroot,if_pos hname] at h ⊢
    exact ⟨h,by simp⟩

lemma tokens_changePassword {name password token : Bytes}
    (h : (am.changePassword P i name password).2.tokens[token]? = some info) :
    am.tokens[token]? = some info ∧
      ((am.changePassword P i name password).1 = .ok () → info.username ≠ name) := by
  unfold AuthManager.changePassword at h ⊢
  split at h
  · exact ⟨h,by simp⟩
  · split at h
    · exact ⟨h,by simp⟩
    · next user _ _ hash _ =>
      obtain ⟨result,store,hput⟩ := exists_put P
        { am with users := am.users.insert name { user with passwordHash := hash } }
        (ascii "failed to persist user: ") (authUserPrefix ++ name)
        (P.marshalUser { user with passwordHash := hash })
      simp only [AuthManager.persistUser,hput] at h ⊢
      cases result with
      | error err => exact ⟨h,by simp⟩
      | ok u =>
        obtain ⟨htoken,hgone⟩ := getElem?_deleteTokens P h
        exact ⟨htoken,fun _ => by simpa using hgone⟩

lemma tokens_disable {token : Bytes} (h : (am.disable P).2.tokens[token]? = some info) :
    am.tokens[token]? = some info ∧ (am.disable P).1 ≠ .ok () := by
  unfold AuthManager.disable at h ⊢
  obtain ⟨result,store,hput⟩ := exists_put P { am with enabled := false } [] authEnabledKey
    (ascii "false")
  simp only [hput] at h ⊢
  cases result with
  | error err => exact ⟨h,by simp⟩
  | ok u => simp at h

/-- A token of the manager was there before and outlives the call, or the call has made it. -/
lemma tokens_perform {token : Bytes} (h : (am.perform P i op).2.tokens[token]? = some info) :
    am.tokens[token]? = some info ∧ ¬ LogsOut P am (op,i) info.username ∨
      info.token = token ∧ LogsIn P am (op,i) info := by
  have hother : (am.perform P i op).2.tokens = am.tokens →
      (∀ name password, op ≠ .disable ∧ op ≠ .deleteUser name ∧ op ≠ .changePassword name password) →
      am.tokens[token]? = some info ∧ ¬ LogsOut P am (op,i) info.username := by
    intro hsame hop
    refine ⟨hsame ▸ h,?_⟩
    rintro ⟨-,rfl|rfl|⟨password,rfl⟩⟩ <;> simp at hop
  cases op with
  | authenticate username password =>
    refine (tokens_authenticate P h).imp_left fun htoken => ⟨htoken,?_⟩
    simp [LogsOut]
  | disable =>
    obtain ⟨htoken,hfailed⟩ := tokens_disable P h
    exact .inl ⟨htoken,fun hout => hfailed hout.1⟩
  | deleteUser name =>
    obtain ⟨htoken,hname⟩ := tokens_deleteUser P h
    exact .inl ⟨htoken,fun hout => hname hout.1 (by simpa [eq_comm] using hout.2)⟩
  | changePassword name password =>
    obtain ⟨htoken,hname⟩ := tokens_changePassword P h
    exact .inl ⟨htoken,fun hout => hname hout.1 (by simpa [eq_comm] using hout.2)⟩
  | enable | addUser | grantRole | revokeRole | addRole | deleteRole | grantPermission
  | revokePermission =>
    -- the other calls write to the store and leave the tokens alone
    refine .inl (hother ?_ (by simp))
    simp only [AuthManager.perform,AuthManager.enable,AuthManager.addUser,AuthManager.grantRole,
      AuthManager.revokeRole,AuthManager.addRole,AuthManager.deleteRole,AuthManager.grantPermission,
      AuthManager.revokePermission,AuthManager.persistUser,AuthManager.persistRole]
    repeat' split
    all_goals first
      | rfl
      | exact tokens_put ..
      | next hput => exact (congrArg (·.2.tokens) hput).symm.trans (tokens_put ..)

/-- A token that is accepted was made in a login of its user, and it is no older than the time to live.
Since then no call has succeeded that changes their password, deletes them or disables
authentication. -/
theorem token_since_login (ham : am.tokens = ∅) (calls : List (AuthOp × Inputs)) {now : ℤ}
    {token : Bytes} (h : (am.after P calls).validateToken now token = .ok info) :
    unix now ≤ info.expiresAt ∧ ∃ before c later, calls = before ++ c :: later ∧
      info.token = token ∧ LogsIn P (am.after P before) c info ∧
      ∀ p d q, later = p ++ d :: q → ¬ LogsOut P (am.after P (before ++ c :: p)) d info.username := by
  obtain ⟨htoken,hexpires⟩ : (am.after P calls).tokens[token]? = some info ∧
      unix now ≤ info.expiresAt := by
    unfold AuthManager.validateToken at h
    split at h
    · cases h
    · next hget =>
      split_ifs at h with hexpired
      obtain rfl := Except.ok.inj h
      exact ⟨hget,Int.not_lt.mp hexpired⟩
  refine ⟨hexpires,?_⟩
  clear h
  induction calls using List.reverseRecOn with
  | nil => simp [AuthManager.after,ham] at htoken
  | append_singleton calls d ih =>
    rw [AuthManager.after,List.foldl_append] at htoken
    rcases tokens_perform P htoken with ⟨hold,hstays⟩|hlogin
    · obtain ⟨before,c,later,rfl,hname,hlogin,hlater⟩ := ih hold
      refine ⟨before,c,later ++ [d],by simp,hname,hlogin,fun p e q hsplit => ?_⟩
      rcases List.eq_nil_or_concat q with rfl|⟨q,x,rfl⟩
      · obtain ⟨rfl,heq⟩ := List.append_inj' hsplit rfl
        cases heq
        exact hstays
      · rw [List.concat_eq_append,← List.cons_append,← List.append_assoc] at hsplit
        exact hlater p e q (List.append_inj' hsplit rfl).1
    · exact ⟨calls,d,[],rfl,hlogin.1,hlogin.2,by simp⟩

theorem token_since_login_one :
    let P : Platform Unit := ⟨fun _ _ _ _ => (.ok (),()),fun _ _ _ => (.ok (),()),fun _ => [],fun _ => [],
      fun _ => [],fun hash password => hash == password⟩
    let am : AuthManager Unit := ⟨(),true,∅,∅,∅,0⟩
    let calls : List (AuthOp × Inputs) := [(.addUser [97] [1],⟨0,.ok,.ok [2]⟩),
      (.authenticate [97] [1],⟨0,.ok,.ok [2]⟩)]
    ∃ before c later, calls = before ++ c :: later ∧ LogsIn P (am.after P before) c ⟨[2],[97],0⟩ := by
  intro P am calls
  have hvalid : (am.after P calls).validateToken 0 [2] = .ok ⟨[2],[97],0⟩ := by decide
  obtain ⟨-,before,c,later,hsplit,-,hlogin,-⟩ := token_since_login P rfl calls hvalid
  exact ⟨before,c,later,hsplit,hlogin⟩

end MetaStore.Auth
