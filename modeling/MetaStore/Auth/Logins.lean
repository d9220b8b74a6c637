import MetaStore.Library.Transition
import MetaStore.Auth.Manager

/-! Logins beside changes of passwords (api/etcd/auth_manager.go). The calls `Authenticate`,
`AddUser`, `ChangePassword` and `DeleteUser` run without a lock, so the steps of a run are their
single accesses to the maps and to the store. Users are objects on a heap: a call keeps the object
that it has found, and `ChangePassword` writes to it. Going through the tokens visits every token
that is in the map all the time, and maybe others. -/
namespace MetaStore.Auth.Logins
open Std Transition

/-- Where a call is. Passwords are told apart by the time at which they were set: `basis` is that
of the password that was checked, and `time` that of the password or deletion of the call, which
may still fail to be `saved`. A loop over the tokens has some that are still `due`, and one in hand
that has left the map but not the store. -/
inductive Phase
  | idle
  | found (name password : Bytes) (ref : ℕ)
  | checked (name : Bytes) (basis : ℕ)
  | issued (token : Bytes) (info : TokenInfo)
  | adding (name : Bytes)
  | changing (name : Bytes) (ref : ℕ)
  | deleting (name : Bytes)
  | changed (name : Bytes) (time : ℕ) (saved : Bool)
  | sweeping (name : Bytes) (time : ℕ) (due : List Bytes) (hand : Option Bytes)

namespace Phase

def sweeps : Phase → Option Bytes
  | .sweeping name _ _ _ => some name
  | _ => none

def user : Phase → Option Bytes
  | .found name _ _ => some name
  | .checked name _ => some name
  | .issued _ info => some info.username
  | phase => phase.sweeps

def hand : Phase → Option (Bytes × Bytes)
  | .sweeping name _ _ (some token) => some (name,token)
  | _ => none

/-- What is next may fail without an effect: the random source, bcrypt or a write of the user. -/
def mayFail : Phase → Bool
  | .checked _ _ => true
  | .adding _ => true
  | .changing _ _ => true
  | .deleting _ => true
  | .changed _ _ saved => !saved
  | _ => false

end Phase

/-- `tokens` is the map and `stored` the tokens in the store. The last four fields are there to
tell passwords apart: `clock` counts their changes, `setAt` has the time at which the password of
an object was set, `issued` the user and the time of the password that a token was issued for, and
`returned` the latest change or deletion of a user that has returned. -/
structure State where
  heap : ℕ → UserInfo
  next : ℕ
  users : ExtTreeMap Bytes ℕ
  tokens : ExtTreeMap Bytes TokenInfo
  stored : ExtTreeMap Bytes TokenInfo
  calls : ℕ → Phase
  clock : ℕ
  setAt : ℕ → ℕ
  issued : Bytes → Option (Bytes × ℕ)
  returned : Bytes → ℕ

namespace State

def init (heap : ℕ → UserInfo) (next : ℕ) (users : ExtTreeMap Bytes ℕ)
    (tokens : ExtTreeMap Bytes TokenInfo) : State where
  heap := heap
  next := next
  users := users
  tokens := tokens
  stored := tokens
  calls _ := .idle
  clock := 0
  setAt _ := 0
  issued token := tokens[token]?.map fun info => (info.username,0)
  returned _ := 0

def set (s : State) (call : ℕ) (phase : Phase) : State :=
  { s with calls := Function.update s.calls call phase }

def manager (s : State) (tokenTTL : ℤ) : AuthManager (ExtTreeMap Bytes TokenInfo) where
  store := s.stored
  enabled := true
  users := s.users.map fun _ ref => s.heap ref
  roles := ∅
  tokens := s.tokens
  tokenTTL := tokenTTL

end State

/-- The tokens that `loadState` finds in the store. -/
def loadTokens (am : AuthManager (ExtTreeMap Bytes TokenInfo)) (now : ℤ) :
    AuthManager (ExtTreeMap Bytes TokenInfo) :=
  { am with tokens := am.store.filter fun _ info => decide (unix now < info.expiresAt) }

/-- The steps of a call. A write of a token may take place although it is reported as failed. -/
inductive Action
  | authenticate (name password : Bytes)
  | check
  | issue (now : ℤ) (token : Bytes)
  | persist (written : Bool)
  | addUser (name : Bytes)
  | cacheUser (now : ℤ) (passwordHash : Bytes)
  | changePassword (name : Bytes)
  | setPassword (passwordHash : Bytes)
  | deleteUser (name : Bytes)
  | uncacheUser
  | fail
  | startSweep
  | visit (token : Bytes)
  | unstore (done : Bool)
  | endSweep

section Machine
variable (compareHashAndPassword : Bytes → Bytes → Bool) (tokenTTL : ℤ)

def act (s : State) (call : ℕ) : Action → Phase → Option State
  | .authenticate name password,.idle =>
    match s.users[name]? with
    | none => some s
    | some ref => some (s.set call (.found name password ref))
  | .check,.found name password ref =>
    if compareHashAndPassword (s.heap ref).passwordHash password then
      some (s.set call (.checked name (s.setAt ref)))
    else some (s.set call .idle)
  | .issue now token,.checked name basis =>
    let info : TokenInfo := ⟨token,name,unix (now+tokenTTL)⟩
    some ({ s with
      tokens := s.tokens.insert token info
      issued := Function.update s.issued token (some (name,basis)) }.set call (.issued token info))
  | .persist written,.issued token info =>
    some ({ s with stored := if written then s.stored.insert token info else s.stored }.set call
      .idle)
  | .addUser name,.idle =>
    if name ∈ s.users then some s else some (s.set call (.adding name))
  | .cacheUser now passwordHash,.adding name =>
    some ({ s with
      heap := Function.update s.heap s.next ⟨name,passwordHash,[],unix now⟩
      next := s.next+1
      users := s.users.insert name s.next
      clock := s.clock+1
      setAt := Function.update s.setAt s.next (s.clock+1) }.set call .idle)
  | .changePassword name,.idle =>
    match s.users[name]? with
    | none => some s
    | some ref => some (s.set call (.changing name ref))
  | .setPassword passwordHash,.changing name ref =>
    some ({ s with
      heap := Function.update s.heap ref { s.heap ref with passwordHash }
      clock := s.clock+1
      setAt := Function.update s.setAt ref (s.clock+1) }.set call (.changed name (s.clock+1) false))
  | .deleteUser name,.idle =>
    if name = root ∨ name ∉ s.users then some s else some (s.set call (.deleting name))
  | .uncacheUser,.deleting name =>
    some ({ s with
      users := s.users.erase name
      clock := s.clock+1 }.set call (.changed name (s.clock+1) true))
  | .fail,phase => if phase.mayFail then some (s.set call .idle) else none
  | .startSweep,.changed name time _ => some (s.set call (.sweeping name time s.tokens.keys none))
  | .visit token,.sweeping name time due none =>
    if s.tokens[token]?.any (·.username == name) then
      some ({ s with tokens := s.tokens.erase token }.set call
        (.sweeping name time (due.filter (· ≠ token)) (some token)))
    else some (s.set call (.sweeping name time (due.filter (· ≠ token)) none))
  | .unstore done,.sweeping name time due (some token) =>
    some ({ s with stored := if done then s.stored.erase token else s.stored }.set call
      (.sweeping name time due none))
  | .endSweep,.sweeping name time [] none =>
    some ({ s with returned := Function.update s.returned name (max (s.returned name) time) }.set
      call .idle)
  | _,_ => none

def step (s : State) (event : ℕ × Action) : Option State :=
  act compareHashAndPassword tokenTTL s event.1 event.2 (s.calls event.1)

/-- A token that was issued for a password from before a change or deletion that has returned
passes neither now nor after a restart. -/
def OldLoginsRejected (s : State) : Prop :=
  ∀ token name basis, s.issued token = some (name,basis) → basis < s.returned name →
    ∀ now info, (s.manager tokenTTL).validateToken now token ≠ .ok info ∧
      ∀ start, (loadTokens (s.manager tokenTTL) start).validateToken now token ≠ .ok info

end Machine

/-- While the tokens of a user are gone through there is no login of the user on the way, and no
other such loop. A password is written to the object that is still the user. The store deletes the
tokens, and no token is drawn twice. -/
def Action.Safe (s : State) (call : ℕ) : Action → Prop
  | .authenticate name _ => ∀ c, (s.calls c).sweeps ≠ some name
  | .issue _ token => s.issued token = none
  | .setPassword _ => ∀ name ref, s.calls call = .changing name ref → s.users[name]? = some ref
  | .startSweep => ∀ name time saved, s.calls call = .changed name time saved →
      ∀ c, (s.calls c).user ≠ some name
  | .unstore done => done = true
  | _ => True

namespace State

def SetSince (s : State) (name : Bytes) (time : ℕ) : Prop :=
  time ≤ s.clock ∧ ∀ ref, s.users[name]? = some ref → time ≤ s.setAt ref

def Current (s : State) (name token : Bytes) : Prop :=
  ∃ basis, s.issued token = some (name,basis) ∧ s.returned name ≤ basis

def Backs (s : State) : Phase → Prop
  | .found name _ ref => s.returned name ≤ s.setAt ref
  | .checked name basis => s.returned name ≤ basis
  | .issued token info => s.tokens[token]? = some info
  | .changed name time _ => s.SetSince name time
  | .sweeping name time due _ => s.SetSince name time ∧ ∀ token ∈ s.tokens, ∀ basis,
      s.issued token = some (name,basis) → basis < time → token ∈ due
  | _ => True

/-- Every token is current. A token that is only in the store is in the hand of a loop. -/
structure Sound (s : State) : Prop where
  cached : ∀ token info, s.tokens[token]? = some info → s.Current info.username token
  stored : ∀ token info, s.stored[token]? = some info → s.Current info.username token ∧
    (token ∈ s.tokens ∨ ∃ call, (s.calls call).hand = some (info.username,token))
  users : ∀ name, s.SetSince name (s.returned name)
  backed : ∀ call, s.Backs (s.calls call)
  alone : ∀ call call' name, (s.calls call).sweeps = some name →
    (s.calls call').user = some name → call' = call

end State

lemma Phase.sweeps_of_hand {p : Phase} {name token : Bytes} (h : p.hand = some (name,token)) :
    p.sweeps = some name := by
  unfold Phase.hand at h
  split at h
  · exact congrArg some (Prod.mk.inj (Option.some.inj h)).1
  · cases h

lemma Phase.user_of_sweeps {p : Phase} {name : Bytes} (h : p.sweeps = some name) :
    p.user = some name := by
  cases p <;> first | exact h | cases h

lemma mem_of_getElem? {V : Type} {m : ExtTreeMap Bytes V} {key : Bytes} {v : V}
    (h : m[key]? = some v) : key ∈ m :=
  ExtTreeMap.mem_iff_isSome_getElem?.mpr (Option.isSome_of_mem h)

open State

lemma sound_init (heap : ℕ → UserInfo) (next : ℕ) (users : ExtTreeMap Bytes ℕ)
    (tokens : ExtTreeMap Bytes TokenInfo) : Sound (.init heap next users tokens) := by
  have hcurrent : ∀ token info, tokens[token]? = some info →
      (State.init heap next users tokens).Current info.username token := fun token info h =>
    ⟨0,by simp [State.init,h],le_rfl⟩
  exact ⟨hcurrent,fun token info h => ⟨hcurrent token info h,Or.inl (mem_of_getElem? h)⟩,
    fun name => ⟨le_rfl,fun ref _ => le_rfl⟩,fun call => trivial,fun call call' name h => by cases h⟩

namespace State.Sound
variable {s : State} {call : ℕ}
variable {name token : Bytes} {time : ℕ} {due : List Bytes} {info : TokenInfo} {old new : Phase}

lemma set (h : Sound s) {p : Phase} (hcall : s.calls call = old) (hbacks : s.Backs p)
    (huser : ∀ name, p.user = some name →
      old.user = some name ∨ ∀ c, (s.calls c).sweeps ≠ some name)
    (hsweep : ∀ name, p.sweeps = some name →
      old.sweeps = some name ∨ ∀ c, (s.calls c).user ≠ some name)
    (hhand : ∀ name token, old.hand = some (name,token) →
      p.hand = some (name,token) ∨ token ∉ s.stored) : Sound (s.set call p) := by
  subst hcall
  have hself : (s.set call p).calls call = p := Function.update_self ..
  have hother : ∀ c, c ≠ call → (s.set call p).calls c = s.calls c := fun c hc =>
    Function.update_of_ne hc ..
  refine ⟨h.cached,fun token info htoken => ?_,h.users,fun c => ?_,fun c c' name hc hc' => ?_⟩
  · obtain ⟨hcurrent,hmem | ⟨c,hc⟩⟩ := h.stored token info htoken
    · exact ⟨hcurrent,Or.inl hmem⟩
    refine ⟨hcurrent,Or.inr ⟨c,?_⟩⟩
    obtain rfl | hne := eq_or_ne c call
    · rw [hself]
      exact (hhand _ _ hc).resolve_right fun hnone => hnone (mem_of_getElem? htoken)
    · rw [hother c hne,hc]
  · obtain rfl | hne := eq_or_ne c call
    · rw [hself]
      exact hbacks
    · rw [hother c hne]
      exact h.backed c
  · obtain rfl | hne := eq_or_ne c call
    · obtain rfl | hne' := eq_or_ne c' c
      · rfl
      rw [hself] at hc
      rw [hother c' hne'] at hc'
      obtain hold | hfree := hsweep name hc
      · exact h.alone c c' name hold hc'
      · exact absurd hc' (hfree c')
    · rw [hother c hne] at hc
      obtain rfl | hne' := eq_or_ne c' call
      · rw [hself] at hc'
        obtain hold | hfree := huser name hc'
        · exact h.alone c c' name hc hold
        · exact absurd hc (hfree c)
      · rw [hother c' hne'] at hc'
        exact h.alone c c' name hc hc'

lemma login (h : Sound s) (hcall : s.calls call = old) (hhand : old.hand = none)
    (hsweep : new.sweeps = none) (hbacks : s.Backs new)
    (huser : ∀ name, new.user = some name →
      old.user = some name ∨ ∀ c, (s.calls c).sweeps ≠ some name) : Sound (s.set call new) :=
  h.set hcall hbacks huser (fun name hname => by rw [hsweep] at hname; cases hname)
    fun name token hold => by rw [hhand] at hold; cases hold

lemma quiet (h : Sound s) (hcall : s.calls call = old) (hhand : old.hand = none)
    (hsweep : new.sweeps = none) (hnew : new.user = none) (hbacks : s.Backs new) :
    Sound (s.set call new) :=
  h.login hcall hhand hsweep hbacks fun name hname => by rw [hnew] at hname; cases hname

lemma issue (h : Sound s) {basis : ℕ}
    (hname : info.username = name) (hcall : s.calls call = .checked name basis)
    (hfresh : s.issued token = none) :
    Sound { s with
      tokens := s.tokens.insert token info
      issued := Function.update s.issued token (some (name,basis)) } := by
  have hbasis := h.backed call
  rw [hcall] at hbasis
  have hne : ∀ {t : Bytes} {x : Bytes × ℕ}, s.issued t = some x → t ≠ token := by
    rintro t x hx rfl
    rw [hfresh] at hx
    cases hx
  have hcurrent : ∀ {n t : Bytes}, s.Current n t → ∃ b,
      Function.update s.issued token (some (name,basis)) t = some (n,b) ∧ s.returned n ≤ b :=
    fun ⟨b,hb,hle⟩ => ⟨b,by rw [Function.update_of_ne (hne hb),hb],hle⟩
  refine ⟨fun t i ht => ?_,fun t i ht => ?_,h.users,fun c => ?_,h.alone⟩
  · dsimp only at ht
    rw [ExtTreeMap.getElem?_insert] at ht
    split_ifs at ht with heq
    · obtain rfl := LawfulEqCmp.compare_eq_iff_eq.mp heq
      obtain rfl := Option.some.inj ht
      exact ⟨basis,by rw [hname]; exact Function.update_self ..,by rw [hname]; exact hbasis⟩
    · exact hcurrent (h.cached t i ht)
  · obtain ⟨hold,hwhere⟩ := h.stored t i ht
    exact ⟨hcurrent hold,hwhere.imp_left fun hmem => ExtTreeMap.mem_insert.mpr (Or.inr hmem)⟩
  · have hback := h.backed c
    cases hp : s.calls c with
    | issued t i =>
      rw [hp] at hback
      obtain ⟨b,hb,-⟩ := h.cached t i hback
      change (s.tokens.insert token info)[t]? = some i
      rw [ExtTreeMap.getElem?_insert,if_neg fun heq =>
        hne hb (LawfulEqCmp.compare_eq_iff_eq.mp heq).symm]
      exact hback
    | sweeping n time due hand =>
      rw [hp] at hback
      refine ⟨hback.1,fun t ht b hb hlt => ?_⟩
      change Function.update s.issued token (some (name,basis)) t = _ at hb
      have ht' : t ≠ token := by
        -- the token is of another user, since no login is on the way during the loop
        rintro rfl
        rw [Function.update_self] at hb
        obtain ⟨rfl,-⟩ := Prod.mk.inj (Option.some.inj hb)
        have hc := h.alone c call name (by rw [hp]; rfl) (by rw [hcall]; rfl)
        rw [← hc,hcall] at hp
        cases hp
      rw [Function.update_of_ne ht'] at hb
      refine hback.2 t ((ExtTreeMap.mem_insert.mp ht).resolve_left fun heq => ht' ?_) b hb hlt
      exact (LawfulEqCmp.compare_eq_iff_eq.mp heq).symm
    | _ => rw [hp] at hback; exact hback

lemma persist (h : Sound s)
    (htoken : s.tokens[token]? = some info) :
    Sound { s with stored := s.stored.insert token info } := by
  refine ⟨h.cached,fun t i ht => ?_,h.users,h.backed,h.alone⟩
  dsimp only at ht
  rw [ExtTreeMap.getElem?_insert] at ht
  split_ifs at ht with heq
  · obtain rfl := LawfulEqCmp.compare_eq_iff_eq.mp heq
    obtain rfl := Option.some.inj ht
    exact ⟨h.cached token info htoken,Or.inl (mem_of_getElem? htoken)⟩
  · exact h.stored t i ht

lemma credentials (h : Sound s) {heap : ℕ → UserInfo} {next : ℕ} {users : ExtTreeMap Bytes ℕ}
    {setAt : ℕ → ℕ} (hsetAt : ∀ ref, setAt ref = s.setAt ref ∨ setAt ref = s.clock+1)
    (husers : ∀ (name : Bytes) ref, users[name]? = some ref →
      s.users[name]? = some ref ∨ setAt ref = s.clock+1) :
    Sound { s with heap, next, users, clock := s.clock+1, setAt } := by
  have hset : ∀ {name : Bytes} {time : ℕ}, s.SetSince name time →
      time ≤ s.clock+1 ∧ ∀ ref, users[name]? = some ref → time ≤ setAt ref := by
    rintro name time ⟨hclock,hrefs⟩
    refine ⟨hclock.trans (Nat.le_succ _),fun ref href => ?_⟩
    obtain hnew | hnew := hsetAt ref
    · obtain hold | htime := husers name ref href
      · rw [hnew]
        exact hrefs ref hold
      · omega
    · omega
  refine ⟨h.cached,h.stored,fun name => hset (h.users name),fun c => ?_,h.alone⟩
  have hback := h.backed c
  generalize s.calls c = p at hback ⊢
  cases p with
  | found name password ref =>
    have hle := (h.users name).1
    change s.returned name ≤ s.setAt ref at hback
    change s.returned name ≤ setAt ref
    obtain hnew | hnew := hsetAt ref <;> omega
  | changed name time saved => exact hset hback
  | sweeping name time due hand => exact ⟨hset hback.1,hback.2⟩
  | _ => exact hback

lemma take (h : Sound s) (hcall : (s.calls call).hand = some (name,token))
    (howner : ∃ basis, s.issued token = some (name,basis)) :
    Sound { s with tokens := s.tokens.erase token } := by
  have hsweeps := Phase.sweeps_of_hand hcall
  obtain ⟨basis,hissued⟩ := howner
  have hname : ∀ {n : Bytes}, s.Current n token → n = name := by
    rintro n ⟨b,hb,-⟩
    rw [hissued] at hb
    exact (Prod.mk.inj (Option.some.inj hb)).1.symm
  refine ⟨fun t i ht => ?_,fun t i ht => ?_,h.users,fun c => ?_,h.alone⟩
  · dsimp only at ht
    rw [ExtTreeMap.getElem?_erase] at ht
    split_ifs at ht
    exact h.cached t i ht
  · obtain ⟨hcurrent,hwhere⟩ := h.stored t i ht
    refine ⟨hcurrent,?_⟩
    obtain rfl | hne := eq_or_ne t token
    · exact Or.inr ⟨call,by rw [hname hcurrent]; exact hcall⟩
    · refine hwhere.imp_left fun hmem => ExtTreeMap.mem_erase.mpr ⟨fun heq => hne ?_,hmem⟩
      exact (LawfulEqCmp.compare_eq_iff_eq.mp heq).symm
  · have hback := h.backed c
    cases hp : s.calls c with
    | issued t i =>
      rw [hp] at hback
      change (s.tokens.erase token)[t]? = some i
      rw [ExtTreeMap.getElem?_erase,if_neg fun heq => ?_]
      · exact hback
      · obtain rfl := LawfulEqCmp.compare_eq_iff_eq.mp heq
        have hc := h.alone call c name hsweeps (by rw [hp,← hname (h.cached token i hback)]; rfl)
        rw [← hc,hp] at hsweeps
        cases hsweeps
    | sweeping n time due hand =>
      rw [hp] at hback
      exact ⟨hback.1,fun t ht => hback.2 t (ExtTreeMap.mem_erase.mp ht).2⟩
    | _ => rw [hp] at hback; exact hback

lemma visit (h : Sound s)
    (hcall : s.calls call = .sweeping name time due none)
    (hinfo : s.tokens[token]? = some info) (hname : info.username = name) :
    Sound ({ s with tokens := s.tokens.erase token }.set call
      (.sweeping name time (due.filter (· ≠ token)) (some token))) := by
  have hback := h.backed call
  rw [hcall] at hback
  have hheld : Sound (s.set call (.sweeping name time due (some token))) :=
    h.set hcall hback (fun _ hn => Or.inl hn) (fun _ hn => Or.inl hn) fun _ _ hn => by cases hn
  have hself : (s.set call (.sweeping name time due (some token))).calls call =
      .sweeping name time due (some token) := Function.update_self ..
  obtain ⟨basis,hissued,-⟩ := h.cached token info hinfo
  have htaken := hheld.take (by rw [hself]; rfl) ⟨basis,by rw [← hname]; exact hissued⟩
  have hdone := htaken.set (p := .sweeping name time (due.filter (· ≠ token)) (some token)) hself
    ⟨hback.1,fun t ht b hb hlt => ?_⟩ (fun _ hn => Or.inl hn) (fun _ hn => Or.inl hn)
    fun _ _ hn => Or.inl hn
  · simpa only [State.set,Function.update_idem] using hdone
  · obtain ⟨hne,hmem⟩ := ExtTreeMap.mem_erase.mp ht
    refine List.mem_filter.mpr ⟨hback.2 t hmem b hb hlt,decide_eq_true ?_⟩
    rintro rfl
    exact hne ReflCmp.compare_self

lemma skip (h : Sound s)
    (hcall : s.calls call = .sweeping name time due none)
    (hother : ∀ info, s.tokens[token]? = some info → info.username ≠ name) :
    Sound (s.set call (.sweeping name time (due.filter (· ≠ token)) none)) := by
  have hback := h.backed call
  rw [hcall] at hback
  refine h.set hcall ⟨hback.1,fun t ht b hb hlt => ?_⟩ (fun _ hn => Or.inl hn)
    (fun _ hn => Or.inl hn) fun _ _ hn => by cases hn
  refine List.mem_filter.mpr ⟨hback.2 t ht b hb hlt,decide_eq_true ?_⟩
  rintro rfl
  obtain ⟨info,hinfo⟩ := Option.isSome_iff_exists.mp (ExtTreeMap.mem_iff_isSome_getElem?.mp ht)
  obtain ⟨b',hb',-⟩ := h.cached t info hinfo
  exact hother info hinfo (Prod.mk.inj (Option.some.inj (hb'.symm.trans hb))).1

lemma unstore (h : Sound s)
    (hcall : s.calls call = .sweeping name time due (some token)) :
    Sound ({ s with stored := s.stored.erase token }.set call (.sweeping name time due none)) := by
  have hback := h.backed call
  rw [hcall] at hback
  have herased : Sound { s with stored := s.stored.erase token } := by
    refine ⟨h.cached,fun t i ht => ?_,h.users,h.backed,h.alone⟩
    dsimp only at ht
    rw [ExtTreeMap.getElem?_erase] at ht
    split_ifs at ht
    exact h.stored t i ht
  refine herased.set hcall hback (fun _ hn => Or.inl hn) (fun _ hn => Or.inl hn) fun n t hn =>
    Or.inr fun hmem => ?_
  obtain ⟨-,rfl⟩ := Prod.mk.inj (Option.some.inj hn)
  exact (ExtTreeMap.mem_erase.mp hmem).1 ReflCmp.compare_self

/-- A loop that has visited everything returns: the tokens that it has left are for passwords from
after the change. -/
lemma finish (h : Sound s)
    (hcall : s.calls call = .sweeping name time [] none) :
    Sound { s with returned := Function.update s.returned name (max (s.returned name) time) } := by
  have hsweeps : (s.calls call).sweeps = some name := by rw [hcall]; rfl
  have hback := h.backed call
  rw [hcall] at hback
  obtain ⟨hset,hdue⟩ := hback
  have hcurrent : ∀ n token, (n = name → token ∈ s.tokens) → s.Current n token → ∃ b,
      s.issued token = some (n,b) ∧
        Function.update s.returned name (max (s.returned name) time) n ≤ b := by
    rintro n token hmem ⟨b,hb,hle⟩
    refine ⟨b,hb,?_⟩
    obtain rfl | hne := eq_or_ne n name
    · rw [Function.update_self]
      refine max_le hle (Nat.le_of_not_lt fun hlt => ?_)
      exact List.not_mem_nil (hdue token (hmem rfl) b hb hlt)
    · rw [Function.update_of_ne hne]
      exact hle
  refine ⟨fun t i ht => hcurrent _ t (fun _ => mem_of_getElem? ht) (h.cached t i ht),
    fun t i ht => ?_,fun n => ?_,fun c => ?_,h.alone⟩
  · obtain ⟨hold,hwhere⟩ := h.stored t i ht
    refine ⟨hcurrent _ t (fun heq => hwhere.resolve_right ?_) hold,hwhere⟩
    -- this loop has nothing in hand, and there is no other one
    rintro ⟨c,hc⟩
    rw [heq] at hc
    have hcc := h.alone c call name (Phase.sweeps_of_hand hc) (by rw [hcall]; rfl)
    rw [← hcc,hcall] at hc
    cases hc
  · change s.SetSince n (Function.update s.returned name (max (s.returned name) time) n)
    obtain rfl | hne := eq_or_ne n name
    · rw [Function.update_self]
      obtain ⟨hclock,hrefs⟩ := h.users n
      exact ⟨max_le hclock hset.1,fun ref href => max_le (hrefs ref href) (hset.2 ref href)⟩
    · rw [Function.update_of_ne hne]
      exact h.users n
  · have hold := h.backed c
    have hother : ∀ n, (s.calls c).user = some n → (s.calls c).sweeps = none →
        Function.update s.returned name (max (s.returned name) time) n = s.returned n := by
      intro n hn hnone
      refine Function.update_of_ne ?_ ..
      rintro rfl
      rw [h.alone call c n hsweeps hn,hsweeps] at hnone
      cases hnone
    cases hp : s.calls c with
    | found n password ref =>
      rw [hp] at hold hother
      exact (hother n rfl rfl).trans_le hold
    | checked n basis =>
      rw [hp] at hold hother
      exact (hother n rfl rfl).trans_le hold
    | _ => rw [hp] at hold; exact hold

end State.Sound

section Runs
variable {compareHashAndPassword : Bytes → Bytes → Bool} {tokenTTL : ℤ} {s t : State}

lemma sound_step (h : Sound s) {event : ℕ × Action} (hsafe : event.2.Safe s event.1)
    (ht : step compareHashAndPassword tokenTTL s event = some t) : Sound t := by
  obtain ⟨call,action⟩ := event
  have hback := h.backed call
  unfold step act at ht
  dsimp only at ht hsafe hback
  split at ht
  · next name password hp =>
    split at ht
    · exact Option.some.inj ht ▸ h
    · next ref href =>
      exact Option.some.inj ht ▸ h.login hp rfl rfl ((h.users name).2 ref href) fun n hn =>
        Or.inr (Option.some.inj hn ▸ hsafe)
  · next name password ref hp =>
    rw [hp] at hback
    split_ifs at ht
    · exact Option.some.inj ht ▸ h.login hp rfl rfl hback fun n hn => Or.inl hn
    · exact Option.some.inj ht ▸ h.quiet hp rfl rfl rfl trivial
  · next now token name basis hp =>
    exact Option.some.inj ht ▸ (h.issue rfl hp hsafe).login hp rfl rfl
      ExtTreeMap.getElem?_insert_self fun n hn => Or.inl hn
  · next written token info hp =>
    rw [hp] at hback
    cases written with
    | false => exact Option.some.inj ht ▸ h.quiet hp rfl rfl rfl trivial
    | true => exact Option.some.inj ht ▸ (h.persist hback).quiet hp rfl rfl rfl trivial
  · next name hp =>
    split_ifs at ht
    · exact Option.some.inj ht ▸ h
    · exact Option.some.inj ht ▸ h.quiet hp rfl rfl rfl trivial
  · next now passwordHash name hp =>
    refine Option.some.inj ht ▸ (h.credentials (fun ref => ?_) fun n ref href => ?_).quiet hp rfl rfl
      rfl trivial
    · rw [Function.update_apply]
      split_ifs <;> simp
    · rw [ExtTreeMap.getElem?_insert] at href
      split_ifs at href
      · obtain rfl := Option.some.inj href
        exact Or.inr (Function.update_self ..)
      · exact Or.inl href
  · next name hp =>
    split at ht
    · exact Option.some.inj ht ▸ h
    · exact Option.some.inj ht ▸ h.quiet hp rfl rfl rfl trivial
  · next passwordHash name ref hp =>
    refine Option.some.inj ht ▸ (h.credentials (fun r => ?_) fun n r hr => Or.inl hr).quiet hp rfl rfl
      rfl ⟨le_rfl,fun r hr => ?_⟩
    · rw [Function.update_apply]
      split_ifs <;> simp
    · obtain rfl := Option.some.inj ((hsafe name ref hp).symm.trans hr)
      change s.clock+1 ≤ Function.update s.setAt ref (s.clock+1) ref
      rw [Function.update_self]
  · next name hp =>
    split_ifs at ht
    · exact Option.some.inj ht ▸ h
    · exact Option.some.inj ht ▸ h.quiet hp rfl rfl rfl trivial
  · next name hp =>
    refine Option.some.inj ht ▸ (h.credentials (fun ref => Or.inl rfl) fun n ref href =>
      Or.inl ?_).quiet hp rfl rfl rfl ⟨le_rfl,fun r hr => ?_⟩
    · rw [ExtTreeMap.getElem?_erase] at href
      split_ifs at href
      exact href
    · have hnone : (s.users.erase name)[name]? = none := ExtTreeMap.getElem?_erase_self
      cases hnone.symm.trans hr
  · next hp =>
    split_ifs at ht with hfail
    refine Option.some.inj ht ▸ h.quiet rfl ?_ rfl rfl trivial
    cases hcall : s.calls call <;> rw [hcall] at hfail <;> first | rfl | cases hfail
  · next name time saved hp =>
    rw [hp] at hback
    refine Option.some.inj ht ▸ h.set hp ⟨hback,fun token hmem _ _ _ => ExtTreeMap.mem_keys.mpr hmem⟩
      (fun n hn => Or.inr fun c hc => ?_) (fun n hn => Or.inr ?_) fun n token hn => by cases hn
    · exact hsafe name time saved hp c (Option.some.inj hn ▸ Phase.user_of_sweeps hc)
    · exact Option.some.inj hn ▸ hsafe name time saved hp
  · next token name time due hp =>
    split_ifs at ht with hany
    · cases hinfo : s.tokens[token]? with
      | none => rw [hinfo] at hany; cases hany
      | some info =>
        rw [hinfo] at hany
        exact Option.some.inj ht ▸ h.visit hp hinfo (eq_of_beq hany)
    · exact Option.some.inj ht ▸ h.skip hp fun info hinfo hname => hany (by simp [hinfo,hname])
  · next done name time due token hp =>
    obtain rfl := hsafe
    exact Option.some.inj ht ▸ h.unstore hp
  · next name time hp => exact Option.some.inj ht ▸ (h.finish hp).quiet hp rfl rfl rfl trivial
  · cases ht

lemma rejected_of_sound (h : Sound s) : OldLoginsRejected tokenTTL s := by
  intro token name basis hissued hlt now info
  have hold : ∀ i : TokenInfo, ¬ s.Current i.username token := by
    rintro i ⟨b,hb,hle⟩
    obtain ⟨rfl,rfl⟩ := Prod.mk.inj (Option.some.inj (hissued.symm.trans hb))
    omega
  have hcached : s.tokens[token]? = none :=
    Option.eq_none_iff_forall_ne_some.mpr fun i hi => hold i (h.cached token i hi)
  have hstored : s.stored[token]? = none :=
    Option.eq_none_iff_forall_ne_some.mpr fun i hi => hold i (h.stored token i hi).1
  refine ⟨?_,fun start => ?_⟩
  · simp [AuthManager.validateToken,State.manager,hcached]
  · simp [AuthManager.validateToken,State.manager,loadTokens,hstored]

end Runs

/-- In a run of safe steps, no login with a password from before a returned change or deletion is
accepted, in any state. -/
theorem old_logins_rejected (compareHashAndPassword : Bytes → Bytes → Bool) (tokenTTL : ℤ)
    (heap : ℕ → UserInfo) (next : ℕ) (users : ExtTreeMap Bytes ℕ)
    (tokens : ExtTreeMap Bytes TokenInfo) (events : List (ℕ × Action))
    (h : EveryStep (step compareHashAndPassword tokenTTL) (fun s event _ => event.2.Safe s event.1)
      (.init heap next users tokens) events) :
    EveryState (step compareHashAndPassword tokenTTL) (OldLoginsRejected tokenTTL)
      (.init heap next users tokens) events := by
  have hkeep : ∀ s, ∀ event ∈ events, ∀ t, Sound s →
      step compareHashAndPassword tokenTTL s event = some t → event.2.Safe s event.1 → Sound t :=
    fun _ _ _ _ hs ht hsafe => sound_step hs hsafe ht
  have hsound := everyState_of_everyStep hkeep (sound_init heap next users tokens) h
  exact fun p hp t ht => rejected_of_sound (hsound p hp t ht)

def oneUser : State := .init (fun _ => ⟨[117],[1],[],0⟩) 1 (ExtTreeMap.empty.insert [117] 0) ∅

/-- A login, and then a change of the password that finds its token. -/
theorem old_logins_rejected_one :
    let events : List (ℕ × Action) := [(0,.authenticate [117] [1]),(0,.check),(0,.issue 0 [9]),
      (0,.persist true),(1,.changePassword [117]),(1,.setPassword [2]),(1,.startSweep),
      (1,.visit [9]),(1,.unstore true),(1,.endSweep)]
    EveryState (step (· == ·) (10^9)) (OldLoginsRejected (10^9)) oneUser events ∧
      (events.foldlM (step (· == ·) (10^9)) oneUser).map (fun s => (s.issued [9],s.returned [117])) =
        some (some ([117],0),1) := by
  refine ⟨old_logins_rejected _ _ _ _ _ _ _ ?_,by decide +kernel⟩
  refine everyStep_of_some rfl (fun c hc => (by cases hc)) ?_
  refine everyStep_of_some rfl trivial ?_
  refine everyStep_of_some rfl rfl ?_
  refine everyStep_of_some rfl trivial ?_
  refine everyStep_of_some rfl trivial ?_
  refine everyStep_of_some rfl (fun name ref hcall => ?_) ?_
  · cases hcall
    rfl
  refine everyStep_of_some rfl (fun name time saved _ c => ?_) ?_
  · obtain rfl | hne := eq_or_ne c 0
    · exact fun hc => by cases hc
    obtain rfl | hne' := eq_or_ne c 1
    · exact fun hc => by cases hc
    · simp [State.set,State.init,Function.update_of_ne hne',Phase.user,
        Phase.sweeps]
  refine everyStep_of_some rfl trivial ?_
  refine everyStep_of_some rfl rfl ?_
  exact everyStep_cons.mpr fun v hv => ⟨trivial,everyStep_nil v⟩

/-- The password is changed between its check and the issue of the token. -/
theorem old_login_accepted :
    let events : List (ℕ × Action) := [(0,.authenticate [117] [1]),(0,.check),
      (1,.changePassword [117]),(1,.setPassword [2]),(1,.startSweep),(1,.endSweep),
      (0,.issue 0 [9]),(0,.persist true)]
    (events.foldlM (step (· == ·) (10^9)) oneUser).map (fun s => (s.issued [9],s.returned [117],
      (s.manager (10^9)).validateToken 0 [9],
      (loadTokens (s.manager (10^9)) 0).validateToken 0 [9])) =
      some (some ([117],0),1,.ok ⟨[9],[117],1⟩,.ok ⟨[9],[117],1⟩) := by
  decide +kernel

end MetaStore.Auth.Logins
