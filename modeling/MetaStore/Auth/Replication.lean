import MetaStore.Auth.Storage

/-! Several authentication managers, each over its node's copy of one replicated store. A call
changes the cache of its manager and has its writes committed one after the other; every node
applies the log to its own copy, and no manager is told. A call is atomic on the cache it works
on, and no write fails. -/
namespace MetaStore.Auth
open Std Transition

inductive Write
  | put (key value : Bytes)
  | delete (key rangeEnd : Bytes)

def Write.apply (data : ExtTreeMap Bytes Bytes) : Write → ExtTreeMap Bytes Bytes
  | .put key value => data.insert key value
  | .delete key rangeEnd => if rangeEnd = [] then data.erase key
    else data.filter fun k _ => !inRange key rangeEnd k

def Coding.recorder (C : Coding) : Platform (List Write) where
  putWithLease ws key value _ := (.ok (),ws ++ [.put key value])
  deleteRange ws key rangeEnd := (.ok (),ws ++ [.delete key rangeEnd])
  marshalUser := C.marshalUser
  marshalRole := C.marshalRole
  marshalToken := C.marshalToken
  compareHashAndPassword := C.compareHashAndPassword

def AuthManager.replayed (am : AuthManager (List Write)) (data : ExtTreeMap Bytes Bytes) :
    AuthManager Store :=
  { am with store := ⟨am.store.foldl Write.apply data,[]⟩ }

variable {C : Coding} {t : ℤ}

section Recording
open AuthManager
variable (am : AuthManager (List Write)) (data : ExtTreeMap Bytes Bytes)

lemma foldl_replayed {β : Type*} (write : β → Write) (l : List β) (ws : List Write) :
    l.foldl (fun (s : Store) b => (s.write ((write b).apply s.data)).2)
        ⟨ws.foldl Write.apply data,[]⟩ =
      ⟨(l.foldl (fun ws b => ws ++ [write b]) ws).foldl Write.apply data,[]⟩ := by
  induction l generalizing ws with
  | nil => rfl
  | cons b l ih =>
    rw [List.foldl_cons,List.foldl_cons,← ih,List.foldl_append]
    rfl

lemma deleteTokens_replayed (gone : TokenInfo → Bool) : (am.replayed data).deleteTokens C.platform gone =
    (am.deleteTokens C.recorder gone).replayed data := by
  have hloop := foldl_replayed data (fun e : Bytes × TokenInfo => .delete (authTokenPrefix ++ e.1) [])
    (am.tokens.toList.filter fun e => gone e.2) am.store
  simp only [deleteTokens,replayed,Coding.recorder,Coding.platform]
  rw [← hloop]
  rfl

theorem perform_replayed (i : Inputs) (op : AuthOp) :
    (am.replayed data).perform C.platform i op =
      ((am.perform C.recorder i op).1,(am.perform C.recorder i op).2.replayed data) := by
  have hwrite : ∀ data', Store.write ⟨data',[]⟩ = fun data => (.ok (),⟨data,[]⟩) := fun _ => rfl
  cases op with
  | deleteUser name =>
    have htokens := deleteTokens_replayed (C := C) { am with
      store := am.store ++ [.delete (authUserPrefix ++ name) []], users := am.users.erase name } data
    simp only [perform,deleteUser]
    simp only [replayed,List.foldl_append,List.foldl_cons,List.foldl_nil,Write.apply] at htokens ⊢
    simp only [Coding.platform,hwrite] at htokens ⊢
    (repeat' split) <;> simp_all [Coding.recorder]
  | changePassword name newPassword =>
    cases huser : am.users[name]? with
    | none => simp [perform,changePassword,replayed,huser]
    | some user =>
      cases hhash : hashPassword i newPassword with
      | error err => simp [perform,changePassword,replayed,huser,hhash]
      | ok hash =>
        let user' := { user with passwordHash := hash }
        have htokens := deleteTokens_replayed (C := C) { am with
          store := am.store ++ [.put (authUserPrefix ++ name) (C.marshalUser user')]
          users := am.users.insert name user' } data
        simp only [replayed,List.foldl_append,List.foldl_cons,List.foldl_nil,Write.apply] at htokens
        simp only [Coding.platform] at htokens
        simp only [perform,changePassword,persistUser,put,replayed,huser,hhash,Coding.platform,hwrite]
        simp [htokens,user',Coding.recorder]
  | deleteRole name =>
    have hloop := foldl_replayed data (fun e : Bytes × UserInfo =>
      .put (authUserPrefix ++ e.1) (C.marshalUser (e.2.withoutRole name)))
      (am.users.toList.filter fun e => name ∈ e.2.roles) am.store
    simp only [Write.apply] at hloop
    simp only [perform,deleteRole,replayed,Coding.platform,Coding.recorder,hloop,hwrite]
    (repeat' split) <;> simp_all [Write.apply]
  -- the other calls have no loop: both sides take the same branches
  | _ =>
    simp only [perform,enable,disable,authenticate,addUser,grantRole,revokeRole,addRole,
      grantPermission,revokePermission,persistUser,persistRole,put,replayed,Coding.recorder,
      Coding.platform,hwrite]
    (repeat' split) <;> simp_all [Write.apply]

end Recording

/-- A node: its manager, its copy of the store with the number of writes applied to it, and for each
goroutine the writes that its call has yet to make. -/
structure Replica where
  am : AuthManager (List Write)
  data : ExtTreeMap Bytes Bytes
  applied : ℕ
  calls : ℕ → List Write

structure Replicated (ι : Type) where
  log : List ((ι × ℕ) × Write)
  nodes : ι → Replica

inductive ReplicaEvent (ι : Type)
  | call (i : ι) (g : ℕ) (op : AuthOp) (inputs : Inputs)
  | propose (i : ι) (g : ℕ)
  | apply (i : ι)

namespace Replicated
variable {ι : Type} [DecidableEq ι]

def outstanding (c : Replicated ι) (i : ι) : List ((ι × ℕ) × Write) :=
  (c.log.drop (c.nodes i).applied).filter fun e => e.1.1 = i

def setNode (c : Replicated ι) (i : ι) (n : Replica) : Replicated ι :=
  { c with nodes := Function.update c.nodes i n }

def step (C : Coding) (c : Replicated ι) : ReplicaEvent ι → Option (Replicated ι)
  | .call i g op inputs =>
    let n := c.nodes i
    let am := ({ n.am with store := [] }.perform C.recorder inputs op).2
    if n.calls g = [] ∧ ∀ e ∈ c.outstanding i, e.1.2 ≠ g then
      some (c.setNode i { n with am, calls := Function.update n.calls g am.store })
    else none
  | .propose i g =>
    let n := c.nodes i
    match n.calls g with
    | [] => none
    | w :: ws =>
      if ∀ e ∈ c.outstanding i, e.1.2 ≠ g then
        some { c.setNode i { n with calls := Function.update n.calls g ws } with
          log := c.log ++ [((i,g),w)] }
      else none
  | .apply i =>
    let n := c.nodes i
    match c.log[n.applied]? with
    | none => none
    | some e => some (c.setNode i { n with data := e.2.apply n.data, applied := n.applied+1 })

def Rest (c : Replicated ι) (i : ι) : Prop :=
  (∀ g, (c.nodes i).calls g = []) ∧ c.outstanding i = []

/-- The calls of one node do not overlap, new strings are UTF-8, and a write of another node changes
nothing in the copy of this one. -/
def Undisturbed (c : Replicated ι) : ReplicaEvent ι → Prop
  | .call i _ op inputs => c.Rest i ∧ op.Plain inputs
  | .propose _ _ => True
  | .apply i => ∀ e, c.log[(c.nodes i).applied]? = some e → e.1.1 ≠ i →
    e.2.apply (c.nodes i).data = (c.nodes i).data

def manager (c : Replicated ι) (i : ι) : AuthManager Store :=
  { (c.nodes i).am with store := ⟨(c.nodes i).data,[]⟩ }

/-- The manager over the copy as it will be when the call of `g` has returned. -/
def ahead (c : Replicated ι) (i : ι) (g : ℕ) : AuthManager Store :=
  { (c.nodes i).am with store :=
    ⟨((c.outstanding i).map Prod.snd ++ (c.nodes i).calls g).foldl Write.apply (c.nodes i).data,[]⟩ }

structure Inv (C : Coding) (t : ℤ) (c : Replicated ι) (i : ι) : Prop where
  applied : (c.nodes i).applied ≤ c.log.length
  sync : ∃ g, (∀ g', g' ≠ g → (c.nodes i).calls g' = []) ∧ InSync C t (c.ahead i g)

variable {c c' : Replicated ι} {i j : ι}

lemma Inv.frame (h : Inv C t c j) (hnode : c'.nodes j = c.nodes j) {es : List ((ι × ℕ) × Write)}
    (hlog : c'.log = c.log ++ es) (hes : ∀ e ∈ es, e.1.1 ≠ j) : Inv C t c' j := by
  have hout : c'.outstanding j = c.outstanding j := by
    have hnone : es.filter (fun e => e.1.1 = j) = [] := by simpa using hes
    rw [outstanding,outstanding,hnode,hlog,List.drop_append_of_le_length h.applied,
      List.filter_append,hnone,List.append_nil]
  obtain ⟨happlied,g,hg,hsync⟩ := h
  refine ⟨?_,g,?_,?_⟩
  · rw [hnode,hlog,List.length_append]
    omega
  · rwa [hnode]
  · rwa [ahead,hout,hnode]

lemma Inv.call (h : Inv C t c i) {g : ℕ} {op : AuthOp} {inputs : Inputs} (hrest : c.Rest i)
    (hplain : op.Plain inputs) (hc' : c.step C (.call i g op inputs) = some c') :
    Inv C t c' i := by
  obtain ⟨happlied,g₀,-,hsync⟩ := h
  obtain ⟨hcalls,hout⟩ := hrest
  have hstart : InSync C t (AuthManager.replayed { (c.nodes i).am with store := [] } (c.nodes i).data) := by
    rw [ahead,hout,hcalls g₀] at hsync
    exact hsync
  have htolerates : op.Tolerates [] := by cases op <;> simp [AuthOp.Tolerates]
  have hdone := (perform_done hstart inputs hplain htolerates).inSync
  rw [perform_replayed] at hdone
  simp only [step] at hc'
  split_ifs at hc'
  obtain rfl := Option.some.inj hc'
  rw [outstanding] at hout
  refine ⟨?_,g,fun g' hg' => ?_,?_⟩
  · simpa [setNode] using happlied
  · simpa [setNode,Function.update_of_ne hg'] using hcalls g'
  · simpa [ahead,outstanding,setNode,hout,AuthManager.replayed] using hdone

lemma Inv.propose (h : Inv C t c i) {g : ℕ} (hc' : c.step C (.propose i g) = some c') :
    Inv C t c' i := by
  obtain ⟨happlied,g₀,hg₀,hsync⟩ := h
  simp only [step] at hc'
  cases hg : (c.nodes i).calls g with
  | nil =>
    rw [hg] at hc'
    cases hc'
  | cons w ws =>
    rw [hg] at hc'
    dsimp only at hc'
    split_ifs at hc'
    obtain rfl := Option.some.inj hc'
    -- it is the one call in progress that goes on
    obtain rfl : g = g₀ := by
      by_contra hne
      cases hg.symm.trans (hg₀ g hne)
    refine ⟨?_,g,fun g' hg' => ?_,?_⟩
    · simp only [setNode,Function.update_self,List.length_append]
      omega
    · simpa [setNode,Function.update_of_ne hg'] using hg₀ g' hg'
    · simpa [ahead,outstanding,setNode,hg,List.drop_append_of_le_length happlied] using hsync

lemma Inv.apply (h : Inv C t c i) (hquiet : c.Undisturbed (.apply i))
    (hc' : c.step C (.apply i) = some c') : Inv C t c' i := by
  obtain ⟨happlied,g,hg,hsync⟩ := h
  simp only [step] at hc'
  cases he : c.log[(c.nodes i).applied]? with
  | none =>
    rw [he] at hc'
    cases hc'
  | some e =>
    rw [he] at hc'
    obtain rfl := Option.some.inj hc'
    obtain ⟨hlt,he'⟩ := List.getElem?_eq_some_iff.mp he
    refine ⟨?_,g,fun g' hg' => ?_,?_⟩
    · simpa [setNode] using hlt
    · simpa [setNode] using hg g' hg'
    · rw [ahead,outstanding,List.drop_eq_getElem_cons hlt,he'] at hsync
      by_cases hown : e.1.1 = i
      · simpa [ahead,outstanding,setNode,hown] using hsync
      · simpa [ahead,outstanding,setNode,hown,hquiet e he hown] using hsync

lemma inv_step {e : ReplicaEvent ι} (h : ∀ j, Inv C t c j) (hquiet : c.Undisturbed e)
    (hc' : c.step C e = some c') (j : ι) : Inv C t c' j := by
  cases e with
  | call i g op inputs =>
    by_cases hj : j = i
    · exact hj ▸ (h i).call hquiet.1 hquiet.2 hc'
    · simp only [step] at hc'
      split_ifs at hc'
      obtain rfl := Option.some.inj hc'
      exact (h j).frame (Function.update_of_ne hj ..) (List.append_nil _).symm (by simp)
  | propose i g =>
    by_cases hj : j = i
    · exact hj ▸ (h i).propose hc'
    · simp only [step] at hc'
      split at hc'
      · cases hc'
      · split_ifs at hc'
        obtain rfl := Option.some.inj hc'
        exact (h j).frame (Function.update_of_ne hj ..) rfl (by simpa using Ne.symm hj)
  | apply i =>
    by_cases hj : j = i
    · exact hj ▸ (h i).apply hquiet hc'
    · simp only [step] at hc'
      split at hc'
      · cases hc'
      · obtain rfl := Option.some.inj hc'
        exact (h j).frame (Function.update_of_ne hj ..) (List.append_nil _).symm (by simp)

/-- The manager answers like one that is loaded from its store. A token is not asked about in the
second of its expiry, in which it is still accepted and no longer loaded. -/
structure AnswersAsLoaded (C : Coding) (am : AuthManager Store) (now : ℤ) : Prop where
  isEnabled : am.isEnabled = (newAuthManager C am.store am.tokenTTL now).isEnabled
  checkPermission : ∀ username key permType, am.checkPermission username key permType =
    (newAuthManager C am.store am.tokenTTL now).checkPermission username key permType
  validateToken : ∀ token, (∀ info, am.tokens[token]? = some info → info.expiresAt ≠ unix now) →
    (am.validateToken now token).toOption =
      ((newAuthManager C am.store am.tokenTTL now).validateToken now token).toOption

lemma answersAsLoaded {am : AuthManager Store} (h : InSync C t am) {now : ℤ} (hnow : t ≤ unix now) :
    AnswersAsLoaded C am now := by
  have hload := h.newAuthManager_eq hnow
  refine ⟨?_,fun username key permType => ?_,fun token hexpiry => ?_⟩
  · rw [hload]
    rfl
  · rw [hload]
    rfl
  · rw [hload,AuthManager.validateToken,AuthManager.validateToken,ExtTreeMap.getElem?_filter']
    cases htoken : am.tokens[token]? with
    | none => rfl
    | some info =>
      have hne := hexpiry info htoken
      by_cases hlive : unix now < info.expiresAt
      · simp [Option.filter,TokenInfo.live,hlive]
      · have hexpired : info.expiresAt < unix now := by omega
        simp [Option.filter,TokenInfo.live,hlive,hexpired,Except.toOption]

structure Starts (C : Coding) (t : ℤ) (c : Replicated ι) : Prop where
  log : c.log = []
  applied : ∀ i, (c.nodes i).applied = 0
  calls : ∀ i g, (c.nodes i).calls g = []
  sync : ∀ i, InSync C t (c.manager i)

def pair (am : AuthManager Store) : Replicated Bool :=
  ⟨[],fun _ => ⟨{ am with store := [] },am.store.data,0,fun _ => []⟩⟩

end Replicated
end MetaStore.Auth
