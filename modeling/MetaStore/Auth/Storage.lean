import MetaStore.Auth.Manager
import MetaStore.Library.Mirror
import MetaStore.Library.Transition
import MetaStore.Library.Utf8

/-! The cache of the authentication manager and its store (api/etcd/auth_manager.go), operation
after operation, while writes may fail without an effect. JSON is a parameter: it gives back every
record whose strings are UTF-8. -/
namespace MetaStore.Auth
open Std Transition Mirror

structure Store where
  data : ExtTreeMap Bytes Bytes
  faults : List Bool

def Store.write (s : Store) (data : ExtTreeMap Bytes Bytes) : Except Bytes Unit × Store :=
  match s.faults with
  | true :: faults => (.error (ascii "store unavailable"),{ s with faults })
  | faults => (.ok (),⟨data,faults.tail⟩)

structure UserInfo.Fits (name : Bytes) (user : UserInfo) : Prop where
  filed : user.name = name
  valid : Utf8.Valid name
  hash : Utf8.Valid user.passwordHash
  roles : ∀ role ∈ user.roles, Utf8.Valid role

structure RoleInfo.Fits (name : Bytes) (role : RoleInfo) : Prop where
  filed : role.name = name
  valid : Utf8.Valid name

structure TokenInfo.Fits (token : Bytes) (info : TokenInfo) : Prop where
  filed : info.token = token
  valid : Utf8.Valid token
  username : Utf8.Valid info.username

/-- JSON on the records, and bcrypt. -/
structure Coding where
  marshalUser : UserInfo → Bytes
  marshalRole : RoleInfo → Bytes
  marshalToken : TokenInfo → Bytes
  unmarshalUser : Bytes → Option UserInfo
  unmarshalRole : Bytes → Option RoleInfo
  unmarshalToken : Bytes → Option TokenInfo
  compareHashAndPassword : (hash password : Bytes) → Bool
  user : ∀ name u, UserInfo.Fits name u → unmarshalUser (marshalUser u) = some u
  role : ∀ name r, RoleInfo.Fits name r → unmarshalRole (marshalRole r) = some r
  token : ∀ token info, TokenInfo.Fits token info → unmarshalToken (marshalToken info) = some info

def Coding.platform (C : Coding) : Platform Store where
  putWithLease s key value _ := s.write (s.data.insert key value)
  deleteRange s key rangeEnd := s.write (if rangeEnd = [] then s.data.erase key
    else s.data.filter fun k _ => !inRange key rangeEnd k)
  marshalUser := C.marshalUser
  marshalRole := C.marshalRole
  marshalToken := C.marshalToken
  compareHashAndPassword := C.compareHashAndPassword

def entries (data : ExtTreeMap Bytes Bytes) (pfx : Bytes) : List (Bytes × Bytes) :=
  data.toList.filter fun e => inRange pfx (pfx ++ [255]) e.1

def TokenInfo.live (now : ℤ) (info : TokenInfo) : Bool := decide (unix now < info.expiresAt)

/-- `NewAuthManager`: what `loadState` reads into empty maps. -/
def newAuthManager (C : Coding) (store : Store) (tokenTTL now : ℤ) : AuthManager Store where
  store := store
  enabled := decide (store.data[authEnabledKey]? = some (ascii "true"))
  users := load C.unmarshalUser UserInfo.name (fun _ => true)
    ((entries store.data authUserPrefix).map Prod.snd)
  roles := load C.unmarshalRole RoleInfo.name (fun _ => true)
    ((entries store.data authRolePrefix).map Prod.snd)
  tokens := load C.unmarshalToken TokenInfo.token (TokenInfo.live now)
    ((entries store.data authTokenPrefix).map Prod.snd)
  tokenTTL := tokenTTL

/-- Cache and store agree, but for stored tokens that had expired at second `t`. -/
structure InSync (C : Coding) (t : ℤ) (am : AuthManager Store) : Prop where
  enabled : am.store.data[authEnabledKey]? = some (ascii "true") ↔ am.enabled = true
  users : Mirrors (authUserPrefix ++ ·) C.marshalUser UserInfo.Fits (fun _ => False)
    am.store.data am.users
  roles : Mirrors (authRolePrefix ++ ·) C.marshalRole RoleInfo.Fits (fun _ => False)
    am.store.data am.roles
  tokens : Mirrors (authTokenPrefix ++ ·) C.marshalToken TokenInfo.Fits (fun info => info.expiresAt ≤ t)
    am.store.data am.tokens

def family (k : Bytes) : Option UInt8 := k[8]?

@[simp] lemma family_enabled : family authEnabledKey = some 101 := rfl
@[simp] lemma family_user (name : Bytes) : family (authUserPrefix ++ name) = some 117 := rfl
@[simp] lemma family_role (name : Bytes) : family (authRolePrefix ++ name) = some 114 := rfl
@[simp] lemma family_token (name : Bytes) : family (authTokenPrefix ++ name) = some 116 := rfl

lemma lt_of_valid {name : Bytes} (h : Utf8.Valid name) : name < [255] := by
  cases name with
  | nil => simp
  | cons b bs =>
    obtain hb | rfl : b < 255 ∨ b = 255 := by
      have hlt := b.toNat_lt
      have h255 : (255 : UInt8).toNat = 255 := rfl
      rw [UInt8.lt_iff_toNat_lt,← UInt8.toNat_inj]
      omega
    · exact List.cons_lt_cons_iff.mpr (.inl hb)
    · have hinvalid : Utf8.firstRune 255 bs = .invalid 255 := rfl
      have hmem := h (Utf8.firstRune 255 bs) (List.mem_cons_self ..)
      rw [hinvalid] at hmem
      cases hmem

lemma inRange_iff {pfx k : Bytes} :
    inRange pfx (pfx ++ [255]) k = true ↔ ∃ name, k = pfx ++ name ∧ name < [255] := by
  have hbound : pfx ++ [255] ≠ noUpperBound := fun h => by
    have := congrArg List.getLast? h
    simp [noUpperBound] at this
  simp only [inRange,hbound,decide_false,Bool.false_or,Bool.and_eq_true,decide_eq_true_eq]
  constructor
  · rintro ⟨hlow,hhigh⟩
    obtain ⟨name,rfl⟩ := Bytes.exists_append_of_between (p := pfx) (a := []) (by simpa using hlow) hhigh
    exact ⟨name,rfl,(Bytes.append_lt_append_iff ..).mp hhigh⟩
  · rintro ⟨name,rfl,hlt⟩
    exact ⟨List.le_append_left,(Bytes.append_lt_append_iff ..).mpr hlt⟩

variable {C : Coding} {t : ℤ} {am : AuthManager Store}

lemma mem_entries {data : ExtTreeMap Bytes Bytes} {pfx k v : Bytes}
    (hvalid : ∀ name v, data[pfx ++ name]? = some v → Utf8.Valid name) :
    (k,v) ∈ entries data pfx ↔ (∃ name, k = pfx ++ name) ∧ data[k]? = some v := by
  rw [entries,List.mem_filter,ExtTreeMap.mem_toList_iff_getElem?_eq_some,inRange_iff]
  constructor
  · rintro ⟨hv,name,rfl,-⟩
    exact ⟨⟨name,rfl⟩,hv⟩
  · rintro ⟨⟨name,rfl⟩,hv⟩
    exact ⟨hv,name,rfl,lt_of_valid (hvalid name v hv)⟩

lemma entries_distinct (data : ExtTreeMap Bytes Bytes) (pfx : Bytes) :
    (entries data pfx).Pairwise fun e e' => e.1 ≠ e'.1 :=
  (ExtTreeMap.distinct_keys_toList.imp fun hne heq =>
    hne (by rw [heq]; exact compare_self)).filter _

/-- What is read back of one family of records. -/
lemma load_eq {α : Type} {pfx : Bytes} {enc : α → Bytes} {Fits : Bytes → α → Prop}
    {Stale : α → Prop} {data : ExtTreeMap Bytes Bytes} {cache : ExtTreeMap Bytes α}
    (h : Mirrors (pfx ++ ·) enc Fits Stale data cache) {decode : Bytes → Option α}
    {nameOf : α → Bytes} {keep : α → Bool}
    (hdecode : ∀ name a, Fits name a → decode (enc a) = some a ∧ nameOf a = name)
    (hvalid : ∀ name a, Fits name a → Utf8.Valid name) (hstale : ∀ a, Stale a → keep a = false) :
    load decode nameOf keep ((entries data pfx).map Prod.snd) = cache.filter fun _ a => keep a := by
  apply ExtTreeMap.ext_getElem?
  intro name
  rw [h.getElem?_load hdecode hstale (fun k v => mem_entries fun name v hv => ?_)
    (entries_distinct data pfx)]
  · rw [ExtTreeMap.getElem?_filter']
  · obtain ⟨a,-,hfits,-⟩ := h.exists_of_stored hv
    exact hvalid name a hfits

theorem InSync.newAuthManager_eq (h : InSync C t am) {now : ℤ} (hnow : t ≤ unix now) :
    newAuthManager C am.store am.tokenTTL now =
      { am with tokens := am.tokens.filter fun _ info => info.live now } := by
  have henabled : decide (am.store.data[authEnabledKey]? = some (ascii "true")) = am.enabled := by
    rw [Bool.eq_iff_iff,decide_eq_true_iff]
    exact h.enabled
  have hlive : ∀ info : TokenInfo, info.expiresAt ≤ t → info.live now = false := fun info hle =>
    decide_eq_false (by omega)
  rw [newAuthManager,henabled,
    load_eq h.users (fun name u hu => ⟨C.user name u hu,hu.filed⟩) (fun name u hu => hu.valid)
      fun _ hfalse => hfalse.elim,
    load_eq h.roles (fun name r hr => ⟨C.role name r hr,hr.filed⟩) (fun name r hr => hr.valid)
      fun _ hfalse => hfalse.elim,
    load_eq h.tokens (fun token info hi => ⟨C.token token info hi,hi.filed⟩)
      (fun token info hi => hi.valid) hlive,
    ExtTreeMap.filter_eq_self_iff.mpr fun _ _ => rfl,ExtTreeMap.filter_eq_self_iff.mpr fun _ _ => rfl]

def AuthManager.caches {σ : Type*} (am : AuthManager σ) :
    Bool × ExtTreeMap Bytes UserInfo × ExtTreeMap Bytes RoleInfo × ExtTreeMap Bytes TokenInfo :=
  (am.enabled,am.users,am.roles,am.tokens)

def Store.Calm (s : Store) : Prop := ∀ fault ∈ s.faults, fault = false

lemma Store.Calm.write {s : Store} (h : s.Calm) (data : ExtTreeMap Bytes Bytes) :
    s.write data = (.ok (),⟨data,s.faults.tail⟩) ∧ (⟨data,s.faults.tail⟩ : Store).Calm := by
  refine ⟨?_,fun fault hf => h fault (List.mem_of_mem_tail hf)⟩
  unfold Store.write
  split
  · next faults heq => cases h true (by rw [heq]; exact List.mem_cons_self ..)
  · rfl

lemma Store.write_cases (s : Store) (data : ExtTreeMap Bytes Bytes) :
    (∃ err faults, s.write data = (.error err,⟨s.data,faults⟩)) ∨
      ∃ faults, s.write data = (.ok (),⟨data,faults⟩) := by
  unfold Store.write
  split
  · exact .inl ⟨_,_,rfl⟩
  · exact .inr ⟨_,rfl⟩

lemma put_calm (am : AuthManager Store) (h : am.store.Calm) (text key value : Bytes) :
    am.put C.platform text key value =
      (.ok (),{ am with store := ⟨am.store.data.insert key value,am.store.faults.tail⟩ }) := by
  simp only [AuthManager.put,Coding.platform,(h.write _).1]

namespace InSync

lemma withUsers (h : InSync C t am) {store : Store} {users : ExtTreeMap Bytes UserInfo}
    (hframe : ∀ k, family k ≠ some 117 → store.data[k]? = am.store.data[k]?)
    (husers : Mirrors (authUserPrefix ++ ·) C.marshalUser UserInfo.Fits (fun _ => False)
      store.data users) : InSync C t { am with store, users } where
  enabled := by rw [← h.enabled,← hframe authEnabledKey (by simp)]
  users := husers
  roles := h.roles.congr fun name => hframe _ (by simp)
  tokens := h.tokens.congr fun name => hframe _ (by simp)

lemma withRoles (h : InSync C t am) {store : Store} {roles : ExtTreeMap Bytes RoleInfo}
    (hframe : ∀ k, family k ≠ some 114 → store.data[k]? = am.store.data[k]?)
    (hroles : Mirrors (authRolePrefix ++ ·) C.marshalRole RoleInfo.Fits (fun _ => False)
      store.data roles) : InSync C t { am with store, roles } where
  enabled := by rw [← h.enabled,← hframe authEnabledKey (by simp)]
  users := h.users.congr fun name => hframe _ (by simp)
  roles := hroles
  tokens := h.tokens.congr fun name => hframe _ (by simp)

lemma withTokens (h : InSync C t am) {store : Store} {tokens : ExtTreeMap Bytes TokenInfo}
    (hframe : ∀ k, family k ≠ some 116 → store.data[k]? = am.store.data[k]?)
    (htokens : Mirrors (authTokenPrefix ++ ·) C.marshalToken TokenInfo.Fits
      (fun info => info.expiresAt ≤ t) store.data tokens) : InSync C t { am with store, tokens } where
  enabled := by rw [← h.enabled,← hframe authEnabledKey (by simp)]
  users := h.users.congr fun name => hframe _ (by simp)
  roles := h.roles.congr fun name => hframe _ (by simp)
  tokens := htokens

lemma withFaults (h : InSync C t am) {store : Store} (hstore : store.data = am.store.data) :
    InSync C t { am with store } where
  enabled := by rw [← h.enabled,← hstore]
  users := hstore ▸ h.users
  roles := hstore ▸ h.roles
  tokens := hstore ▸ h.tokens

end InSync

lemma getElem?_insert_of_family {data : ExtTreeMap Bytes Bytes} {key k v : Bytes}
    (h : family k ≠ family key) : (data.insert key v)[k]? = data[k]? := by
  rw [getElem?_insert_eq,if_neg fun heq => h (by rw [heq])]

lemma getElem?_erase_of_family {data : ExtTreeMap Bytes Bytes} {key k : Bytes}
    (h : family k ≠ family key) : (data.erase key)[k]? = data[k]? := by
  rw [getElem?_erase_eq,if_neg fun heq => h (by rw [heq])]

namespace InSync

lemma setUser (h : InSync C t am) {name : Bytes} {user : UserInfo} (hfits : user.Fits name)
    (faults : List Bool) : InSync C t { am with
      store := ⟨am.store.data.insert (authUserPrefix ++ name) (C.marshalUser user),faults⟩
      users := am.users.insert name user } :=
  h.withUsers (fun k hk => getElem?_insert_of_family (by simpa using hk))
    (h.users.insert (List.append_right_injective _) hfits)

lemma setRole (h : InSync C t am) {name : Bytes} {role : RoleInfo} (hfits : role.Fits name)
    (faults : List Bool) : InSync C t { am with
      store := ⟨am.store.data.insert (authRolePrefix ++ name) (C.marshalRole role),faults⟩
      roles := am.roles.insert name role } :=
  h.withRoles (fun k hk => getElem?_insert_of_family (by simpa using hk))
    (h.roles.insert (List.append_right_injective _) hfits)

lemma setToken (h : InSync C t am) {token : Bytes} {info : TokenInfo} (hfits : info.Fits token)
    (faults : List Bool) : InSync C t { am with
      store := ⟨am.store.data.insert (authTokenPrefix ++ token) (C.marshalToken info),faults⟩
      tokens := am.tokens.insert token info } :=
  h.withTokens (fun k hk => getElem?_insert_of_family (by simpa using hk))
    (h.tokens.insert (List.append_right_injective _) hfits)

lemma setEnabled (h : InSync C t am) (enabled : Bool) (faults : List Bool) : InSync C t { am with
      store := ⟨am.store.data.insert authEnabledKey (ascii (if enabled then "true" else "false")),faults⟩
      enabled } where
  enabled := by
    rw [getElem?_insert_eq,if_pos rfl]
    show some (ascii (if enabled then "true" else "false")) = some (ascii "true") ↔ enabled = true
    cases enabled <;> decide
  users := h.users.congr fun name => getElem?_insert_of_family (by simp)
  roles := h.roles.congr fun name => getElem?_insert_of_family (by simp)
  tokens := h.tokens.congr fun name => getElem?_insert_of_family (by simp)

end InSync

lemma foldl_write {β : Type*} (write : Store → β → Store) (key : β → Bytes) (val : β → Option Bytes)
    (hwrite : ∀ s b, s.Calm → (write s b).Calm ∧
      ∀ k, (write s b).data[k]? = if key b = k then val b else s.data[k]?) :
    ∀ (l : List β) (s : Store), s.Calm → (l.foldl write s).Calm ∧ ∀ k,
      ((∀ b ∈ l, key b ≠ k) ∧ (l.foldl write s).data[k]? = s.data[k]?) ∨
        ∃ b ∈ l, key b = k ∧ (l.foldl write s).data[k]? = val b
  | [],s,hs => ⟨hs,fun k => .inl ⟨by simp,rfl⟩⟩
  | b :: l,s,hs => by
    obtain ⟨hcalm,hdata⟩ := hwrite s b hs
    obtain ⟨hcalm',hrest⟩ := foldl_write write key val hwrite l (write s b) hcalm
    refine ⟨hcalm',fun k => ?_⟩
    obtain ⟨hother,hk⟩ | ⟨c,hc,hkey,hk⟩ := hrest k
    · rw [hdata] at hk
      by_cases hb : key b = k
      · rw [if_pos hb] at hk
        exact .inr ⟨b,List.mem_cons_self ..,hb,hk⟩
      · rw [if_neg hb] at hk
        exact .inl ⟨List.forall_mem_cons.mpr ⟨hb,hother⟩,hk⟩
    · exact .inr ⟨c,List.mem_cons_of_mem _ hc,hkey,hk⟩

lemma InSync.deleteTokens (h : InSync C t am) (hcalm : am.store.Calm) (gone : TokenInfo → Bool) :
    InSync C t (am.deleteTokens C.platform gone) := by
  obtain ⟨-,hdata⟩ := foldl_write
    (fun s (e : Bytes × TokenInfo) => (C.platform.deleteRange s (authTokenPrefix ++ e.1) []).2)
    (fun e => authTokenPrefix ++ e.1) (fun _ => (none : Option TokenInfo).map C.marshalToken)
    (fun s e hs => by
      obtain ⟨hwrite,hs'⟩ := hs.write (s.data.erase (authTokenPrefix ++ e.1))
      simp only [Coding.platform,if_pos,hwrite]
      exact ⟨hs',fun k => getElem?_erase_eq ..⟩)
    (am.tokens.toList.filter fun e => gone e.2) am.store hcalm
  refine h.withTokens (fun k hk => ?_)
    (h.tokens.sweep (List.append_right_injective _) gone (fun _ => none) (fun _ _ _ _ hnone => by
      cases hnone) hdata fun name => ?_)
  · obtain ⟨-,heq⟩ | ⟨e,-,rfl,-⟩ := hdata k
    · exact heq
    · exact absurd (family_token e.1) hk
  · rw [ExtTreeMap.getElem?_filter']
    cases am.tokens[name]? with
    | none => rfl
    | some info => cases hgone : gone info <;> simp [hgone]

lemma UserInfo.Fits.withoutRole {name : Bytes} {user : UserInfo} (h : user.Fits name) (role : Bytes) :
    (user.withoutRole role).Fits name :=
  ⟨h.filed,h.valid,h.hash,fun r hr => h.roles r (List.mem_of_mem_filter hr)⟩

lemma InSync.stripRole (h : InSync C t am) (hcalm : am.store.Calm) (role : Bytes) :
    let stripped := (am.users.toList.filter fun e => role ∈ e.2.roles).foldl
      (fun store e => (C.platform.putWithLease store (authUserPrefix ++ e.1)
        (C.platform.marshalUser (e.2.withoutRole role)) 0).2) am.store
    stripped.Calm ∧ InSync C t { am with
      store := stripped, users := am.users.map fun _ user => user.withoutRole role } := by
  intro stripped
  obtain ⟨hcalm',hdata⟩ := foldl_write
    (fun s (e : Bytes × UserInfo) => (C.platform.putWithLease s (authUserPrefix ++ e.1)
      (C.platform.marshalUser (e.2.withoutRole role)) 0).2)
    (fun e => authUserPrefix ++ e.1) (fun e => (some (e.2.withoutRole role)).map C.marshalUser)
    (fun s e hs => by
      obtain ⟨hwrite,hs'⟩ := hs.write
        (s.data.insert (authUserPrefix ++ e.1) (C.marshalUser (e.2.withoutRole role)))
      simp only [Coding.platform,hwrite]
      exact ⟨hs',fun k => getElem?_insert_eq ..⟩)
    (am.users.toList.filter fun e => role ∈ e.2.roles) am.store hcalm
  refine ⟨hcalm',h.withUsers (fun k hk => ?_) (h.users.sweep (List.append_right_injective _)
    (fun user => role ∈ user.roles) (fun user => some (user.withoutRole role)) ?_ hdata fun name => ?_)⟩
  · obtain ⟨-,heq⟩ | ⟨e,-,rfl,-⟩ := hdata k
    · exact heq
    · exact absurd (family_user e.1) hk
  · rintro name user _ hfits ⟨⟩
    exact hfits.withoutRole role
  · rw [ExtTreeMap.getElem?_map]
    cases am.users[name]? with
    | none => rfl
    | some user =>
      by_cases hrole : role ∈ user.roles
      · simp [hrole]
      · have hroles : user.roles.filter (· ≠ role) = user.roles :=
          List.filter_eq_self.mpr fun r hr => decide_eq_true fun heq => hrole (heq ▸ hr)
        rw [Option.map_some,UserInfo.withoutRole,hroles,Option.bind_some,if_neg (by simpa using hrole)]

structure Consistent (am : AuthManager Store) : Prop where
  root : am.enabled = true → root ∈ am.users
  roles : ∀ (name : Bytes) (user : UserInfo), am.users[name]? = some user →
    user.roles.Nodup ∧ ∀ role ∈ user.roles, role ∈ am.roles
  tokens : ∀ (token : Bytes) (info : TokenInfo), am.tokens[token]? = some info → info.username ∈ am.users

lemma mem_erase_iff {V : Type} {m : ExtTreeMap Bytes V} {k k' : Bytes} :
    k' ∈ m.erase k ↔ k ≠ k' ∧ k' ∈ m := by
  rw [ExtTreeMap.mem_erase,Ne,LawfulEqCmp.compare_eq_iff_eq]

namespace Consistent
variable (h : Consistent am) (store : Store)
include h

lemma withStore : Consistent { am with store } := ⟨h.root,h.roles,h.tokens⟩

lemma filterTokens (keep : Bytes → TokenInfo → Bool) :
    Consistent { am with store, tokens := am.tokens.filter keep } where
  root := h.root
  roles := h.roles
  tokens token info hinfo := by
    rw [ExtTreeMap.getElem?_filter',Option.filter_eq_some_iff] at hinfo
    exact h.tokens token info hinfo.1

lemma insertUser (name : Bytes) {user : UserInfo} (hnodup : user.roles.Nodup)
    (hroles : ∀ role ∈ user.roles, role ∈ am.roles) :
    Consistent { am with store, users := am.users.insert name user } where
  root henabled := ExtTreeMap.mem_insert.mpr (.inr (h.root henabled))
  roles name' user' huser := by
    rw [getElem?_insert_eq] at huser
    split at huser
    · obtain rfl := Option.some.inj huser
      exact ⟨hnodup,hroles⟩
    · exact h.roles name' user' huser
  tokens token info hinfo := ExtTreeMap.mem_insert.mpr (.inr (h.tokens token info hinfo))

lemma insertRole (name : Bytes) (role : RoleInfo) :
    Consistent { am with store, roles := am.roles.insert name role } where
  root := h.root
  roles name' user huser := by
    obtain ⟨hnodup,hroles⟩ := h.roles name' user huser
    exact ⟨hnodup,fun r hr => ExtTreeMap.mem_insert.mpr (.inr (hroles r hr))⟩
  tokens := h.tokens

lemma insertToken (token : Bytes) {info : TokenInfo} (huser : info.username ∈ am.users) :
    Consistent { am with store, tokens := am.tokens.insert token info } where
  root := h.root
  roles := h.roles
  tokens token' info' hinfo := by
    rw [getElem?_insert_eq] at hinfo
    split at hinfo
    · exact Option.some.inj hinfo ▸ huser
    · exact h.tokens token' info' hinfo

lemma eraseUser {name : Bytes} (hname : name ≠ Auth.root) :
    Consistent { am with
      store
      users := am.users.erase name
      tokens := am.tokens.filter fun _ info => !(info.username == name) } where
  root henabled := mem_erase_iff.mpr ⟨hname,h.root henabled⟩
  roles name' user huser := by
    rw [getElem?_erase_eq] at huser
    split at huser
    · cases huser
    · exact h.roles name' user huser
  tokens token info hinfo := by
    rw [ExtTreeMap.getElem?_filter',Option.filter_eq_some_iff] at hinfo
    obtain ⟨hinfo,hother⟩ := hinfo
    refine mem_erase_iff.mpr ⟨?_,h.tokens token info hinfo⟩
    rintro rfl
    simp at hother

lemma eraseRole (name : Bytes) :
    Consistent { am with
      store
      users := am.users.map fun _ user => user.withoutRole name
      roles := am.roles.erase name } where
  root henabled := ExtTreeMap.mem_map.mpr (h.root henabled)
  roles name' user huser := by
    rw [ExtTreeMap.getElem?_map,Option.map_eq_some_iff] at huser
    obtain ⟨old,hold,rfl⟩ := huser
    obtain ⟨hnodup,hroles⟩ := h.roles name' old hold
    refine ⟨hnodup.filter _,fun role hrole => ?_⟩
    obtain ⟨hmem,hne⟩ := List.mem_filter.mp hrole
    exact mem_erase_iff.mpr ⟨(of_decide_eq_true hne).symm,hroles role hmem⟩
  tokens token info hinfo := ExtTreeMap.mem_map.mpr (h.tokens token info hinfo)

end Consistent

inductive AuthOp
  | enable
  | disable
  | authenticate (username password : Bytes)
  | addUser (name password : Bytes)
  | deleteUser (name : Bytes)
  | changePassword (name newPassword : Bytes)
  | grantRole (username rolename : Bytes)
  | revokeRole (username rolename : Bytes)
  | addRole (name : Bytes)
  | deleteRole (name : Bytes)
  | grantPermission (rolename : Bytes) (perm : Permission)
  | revokePermission (rolename key rangeEnd : Bytes)

def AuthManager.perform {σ : Type*} (P : Platform σ) (am : AuthManager σ) (i : Inputs) :
    AuthOp → Except Bytes Unit × AuthManager σ
  | .enable => am.enable P
  | .disable => am.disable P
  | .authenticate username password =>
    let (result,am) := am.authenticate P i username password
    (result.map fun _ => (),am)
  | .addUser name password => am.addUser P i name password
  | .deleteUser name => am.deleteUser P name
  | .changePassword name newPassword => am.changePassword P i name newPassword
  | .grantRole username rolename => am.grantRole P username rolename
  | .revokeRole username rolename => am.revokeRole P username rolename
  | .addRole name => am.addRole P i name
  | .deleteRole name => am.deleteRole P name
  | .grantPermission rolename perm => am.grantPermission P rolename perm
  | .revokePermission rolename key rangeEnd => am.revokePermission P rolename key rangeEnd

structure Call where
  op : AuthOp
  inputs : Inputs
  faults : List Bool

def AuthManager.call (C : Coding) (am : AuthManager Store) (c : Call) :
    Except Bytes Unit × AuthManager Store :=
  { am with store := { am.store with faults := c.faults } }.perform C.platform c.inputs c.op

def AuthOp.Plain (i : Inputs) : AuthOp → Prop
  | .authenticate _ _ => ∀ token, i.randomToken = .ok token → Utf8.Valid token
  | .addUser name password =>
    Utf8.Valid name ∧ ∀ hash, i.generateFromPassword password = .ok hash → Utf8.Valid hash
  | .changePassword _ password => ∀ hash, i.generateFromPassword password = .ok hash → Utf8.Valid hash
  | .addRole name => Utf8.Valid name
  | _ => True

/-- The writes that may fail: those of AddUser and AddRole, and the first one of DeleteUser, after
which there is no other. -/
def AuthOp.Tolerates (faults : List Bool) : AuthOp → Prop
  | .addUser _ _ => True
  | .addRole _ => True
  | .deleteUser _ => faults.head? = some true ∨ ∀ fault ∈ faults, fault = false
  | _ => ∀ fault ∈ faults, fault = false

/-- Cache and store agree after an operation, an error has changed nothing, and nothing has lost what
it refers to. -/
structure Done {β : Type*} (C : Coding) (t : ℤ) (am : AuthManager Store)
    (r : Except Bytes β × AuthManager Store) : Prop where
  inSync : InSync C t r.2
  kept : ∀ err, r.1 = .error err → r.2.caches = am.caches
  consistent : Consistent am → Consistent r.2

namespace Done
variable {β : Type*} {am' : AuthManager Store}

lemma refused (h : InSync C t am) (err : Bytes) : Done C t am ((.error err : Except Bytes β),am) :=
  ⟨h,fun _ _ => rfl,id⟩

lemma ok (h : InSync C t am') (hcons : Consistent am → Consistent am') (b : β) :
    Done C t am ((.ok b : Except Bytes β),am') :=
  ⟨h,fun err herr => (by cases herr),hcons⟩

lemma map {r : Except Bytes β × AuthManager Store} (h : Done C t am r) (f : β → Unit) :
    Done C t am (r.1.map f,r.2) where
  inSync := h.inSync
  kept err herr := by
    obtain ⟨result,am'⟩ := r
    cases result with
    | error err => exact h.kept err rfl
    | ok b => cases herr
  consistent := h.consistent

end Done

section Operations
variable (h : InSync C t am) (hcalm : am.store.Calm) (i : Inputs)
include h

lemma put_cases (text key value : Bytes) :
    (∃ err store, am.put C.platform text key value = (.error err,{ am with store }) ∧
      InSync C t { am with store }) ∨
    ∃ faults, am.put C.platform text key value =
      (.ok (),{ am with store := ⟨am.store.data.insert key value,faults⟩ }) := by
  obtain ⟨err,faults,hwrite⟩ | ⟨faults,hwrite⟩ := am.store.write_cases (am.store.data.insert key value)
  · refine .inl ⟨text ++ err,⟨am.store.data,faults⟩,?_,h.withFaults rfl⟩
    simp only [AuthManager.put,Coding.platform,hwrite]
  · refine .inr ⟨faults,?_⟩
    simp only [AuthManager.put,Coding.platform,hwrite]

lemma addUser_done {name password : Bytes} (hname : Utf8.Valid name)
    (hhash : ∀ hash, i.generateFromPassword password = .ok hash → Utf8.Valid hash) :
    Done C t am (am.addUser C.platform i name password) := by
  unfold AuthManager.addUser AuthManager.hashPassword
  split
  · exact .refused h _
  · cases hgen : i.generateFromPassword password with
    | error err => exact .refused h _
    | ok hash =>
      have hfits : UserInfo.Fits name ⟨name,hash,[],unix i.now⟩ := ⟨rfl,hname,hhash hash hgen,by simp⟩
      simp only [AuthManager.persistUser]
      obtain ⟨err,store,hput,hsync⟩ | ⟨faults,hput⟩ := put_cases h (ascii "failed to persist user: ")
        (authUserPrefix ++ name) (C.platform.marshalUser ⟨name,hash,[],unix i.now⟩)
      · rw [hput]
        exact ⟨hsync,fun _ _ => rfl,fun hc => hc.withStore _⟩
      · rw [hput]
        exact .ok (h.setUser hfits faults) (fun hc => hc.insertUser _ name List.nodup_nil (by simp)) ()

lemma addRole_done {name : Bytes} (hname : Utf8.Valid name) :
    Done C t am (am.addRole C.platform i name) := by
  unfold AuthManager.addRole
  split
  · exact .refused h _
  · have hfits : RoleInfo.Fits name ⟨name,[],unix i.now⟩ := ⟨rfl,hname⟩
    simp only [AuthManager.persistRole]
    obtain ⟨err,store,hput,hsync⟩ | ⟨faults,hput⟩ := put_cases h (ascii "failed to persist role: ")
      (authRolePrefix ++ name) (C.platform.marshalRole ⟨name,[],unix i.now⟩)
    · rw [hput]
      exact ⟨hsync,fun _ _ => rfl,fun hc => hc.withStore _⟩
    · rw [hput]
      exact .ok (h.setRole hfits faults) (fun hc => hc.insertRole _ name _) ()

lemma deleteUser_done_of_fault (hfault : am.store.faults.head? = some true) (name : Bytes) :
    Done C t am (am.deleteUser C.platform name) := by
  obtain ⟨faults,hfaults⟩ := List.head?_eq_some_iff.mp hfault
  unfold AuthManager.deleteUser
  split
  · exact .refused h _
  · split
    · exact .refused h _
    · simp only [Coding.platform,Store.write,hfaults]
      exact ⟨h.withFaults rfl,fun _ _ => rfl,fun hc => hc.withStore _⟩

include hcalm

lemma deleteUser_done (name : Bytes) : Done C t am (am.deleteUser C.platform name) := by
  obtain ⟨hwrite,hcalm'⟩ := hcalm.write (am.store.data.erase (authUserPrefix ++ name))
  unfold AuthManager.deleteUser
  split
  · exact .refused h _
  · next hroot =>
    split
    · exact .refused h _
    · simp only [Coding.platform,if_pos,hwrite]
      exact .ok (InSync.deleteTokens (h.withUsers
        (fun k hk => getElem?_erase_of_family (by simpa using hk))
        (h.users.erase (List.append_right_injective _) name)) hcalm' _)
        (fun hc => hc.eraseUser _ hroot) ()

lemma enable_done : Done C t am (am.enable C.platform) := by
  unfold AuthManager.enable
  split
  · exact .refused h _
  · next hroot =>
    split
    · exact .ok h id ()
    · rw [put_calm { am with enabled := true } hcalm]
      exact .ok (h.setEnabled true _)
        (fun hc : Consistent am => ⟨fun _ => not_not.mp hroot,hc.roles,hc.tokens⟩) ()

lemma disable_done : Done C t am (am.disable C.platform) := by
  have hoff := h.setEnabled false am.store.faults.tail
  unfold AuthManager.disable
  rw [put_calm { am with enabled := false } hcalm]
  set data := am.store.data.insert authEnabledKey (ascii "false")
  obtain ⟨hwrite,-⟩ := (hcalm.write data).2.write
    (data.filter fun k _ => !inRange authTokenPrefix (authTokenPrefix ++ [255]) k)
  have hgone : ∀ k, (data.filter fun k _ =>
      !inRange authTokenPrefix (authTokenPrefix ++ [255]) k)[k]? =
        if inRange authTokenPrefix (authTokenPrefix ++ [255]) k then none else data[k]? := fun k => by
    rw [ExtTreeMap.getElem?_filter']
    cases inRange authTokenPrefix (authTokenPrefix ++ [255]) k with
    | true => simp
    | false => cases data[k]? <;> rfl
  simp only [Coding.platform,if_neg (List.append_ne_nil_of_right_ne_nil authTokenPrefix
    (List.cons_ne_nil (255 : UInt8) [])),hwrite]
  refine .ok (hoff.withTokens (fun k hk => ?_) ⟨fun _ _ hnone => ?_,fun name v hv _ => ?_⟩)
    (fun hc : Consistent am => ⟨fun hon => (by cases hon),hc.roles,fun _ _ hnone => (by simp at hnone)⟩) ()
  · rw [hgone,if_neg]
    · rfl
    · intro hrange
      obtain ⟨name,rfl,-⟩ := inRange_iff.mp hrange
      exact hk (family_token name)
  · simp at hnone
  · rw [hgone] at hv
    split at hv
    · cases hv
    · next hrange =>
      obtain ⟨info,-,hfits,-⟩ := hoff.tokens.exists_of_stored hv
      exact absurd (inRange_iff.mpr ⟨name,rfl,lt_of_valid hfits.valid⟩) hrange

lemma authenticate_done {username password : Bytes}
    (htoken : ∀ token, i.randomToken = .ok token → Utf8.Valid token) :
    Done C t am (am.authenticate C.platform i username password) := by
  unfold AuthManager.authenticate
  cases huser : am.users[username]? with
  | none => exact .refused h _
  | some user =>
    have hvalid := (h.users.cached username user huser).2.valid
    simp only
    split
    · cases hrandom : i.randomToken with
      | error err => exact .refused h _
      | ok token =>
        have hfits : TokenInfo.Fits token ⟨token,username,unix (i.now+am.tokenTTL)⟩ :=
          ⟨rfl,htoken token hrandom,hvalid⟩
        simp only
        rw [put_calm { am with tokens := am.tokens.insert token _ } hcalm]
        exact .ok (h.setToken hfits _) (fun hc => hc.insertToken _ token
          (ExtTreeMap.mem_iff_isSome_getElem?.mpr (by rw [huser]; rfl))) token
    · exact .refused h _

lemma persistUser_done {name : Bytes} {user : UserInfo} (hfits : user.Fits name) :
    ∃ store : Store, store.Calm ∧
      { am with users := am.users.insert name user }.persistUser C.platform name user =
        (.ok (),{ am with store, users := am.users.insert name user }) ∧
      InSync C t { am with store, users := am.users.insert name user } :=
  ⟨_,(hcalm.write _).2,put_calm { am with users := am.users.insert name user } hcalm ..,
    h.setUser hfits _⟩

lemma persistRole_done {name : Bytes} {role : RoleInfo} (hfits : role.Fits name) :
    Done C t am ({ am with roles := am.roles.insert name role }.persistRole C.platform name role) := by
  unfold AuthManager.persistRole
  rw [put_calm { am with roles := am.roles.insert name role } hcalm]
  exact .ok (h.setRole hfits _) (fun hc => hc.insertRole _ name role) ()

lemma changePassword_done {name password : Bytes}
    (hhash : ∀ hash, i.generateFromPassword password = .ok hash → Utf8.Valid hash) :
    Done C t am (am.changePassword C.platform i name password) := by
  unfold AuthManager.changePassword AuthManager.hashPassword
  cases huser : am.users[name]? with
  | none => exact .refused h _
  | some user =>
    have hfits := (h.users.cached name user huser).2
    cases hgen : i.generateFromPassword password with
    | error err => exact .refused h _
    | ok hash =>
      have hfits' : UserInfo.Fits name { user with passwordHash := hash } :=
        ⟨hfits.filed,hfits.valid,hhash hash hgen,hfits.roles⟩
      obtain ⟨store,hcalm',hpersist,hsync⟩ := persistUser_done h hcalm hfits'
      simp only [hpersist]
      refine .ok (hsync.deleteTokens hcalm' _) (fun hc => ?_) ()
      obtain ⟨hnodup,hroles⟩ := hc.roles name user huser
      have hset : Consistent { am with
          store, users := am.users.insert name { user with passwordHash := hash } } :=
        hc.insertUser store name hnodup hroles
      exact hset.filterTokens _ _

lemma grantRole_done (username rolename : Bytes) :
    Done C t am (am.grantRole C.platform username rolename) := by
  unfold AuthManager.grantRole
  cases huser : am.users[username]? with
  | none => exact .refused h _
  | some user =>
    have hfits := (h.users.cached username user huser).2
    simp only
    split
    · exact .refused h _
    · next hrole =>
      split
      · exact .ok h id ()
      · next hnew =>
        obtain ⟨role,hcached⟩ : ∃ role, am.roles[rolename]? = some role := by
          rw [← Option.isSome_iff_exists]
          simpa using hrole
        have hvalid := (h.roles.cached rolename role hcached).2.valid
        have hfits' : UserInfo.Fits username { user with roles := user.roles ++ [rolename] } :=
          ⟨hfits.filed,hfits.valid,hfits.hash,List.forall_mem_append.mpr
            ⟨hfits.roles,by simpa using hvalid⟩⟩
        obtain ⟨store,-,hpersist,hsync⟩ := persistUser_done h hcalm hfits'
        rw [hpersist]
        refine .ok hsync (fun hc => ?_) ()
        obtain ⟨hnodup,hroles⟩ := hc.roles username user huser
        refine hc.insertUser store username ?_ (List.forall_mem_append.mpr ⟨hroles,by simpa using hrole⟩)
        simpa [List.nodup_append] using ⟨hnodup,fun r hr heq => hnew (heq ▸ hr)⟩

lemma revokeRole_done (username rolename : Bytes) :
    Done C t am (am.revokeRole C.platform username rolename) := by
  unfold AuthManager.revokeRole
  cases huser : am.users[username]? with
  | none => exact .refused h _
  | some user =>
    simp only
    split
    · exact .refused h _
    · obtain ⟨store,-,hpersist,hsync⟩ := persistUser_done h hcalm
        ((h.users.cached username user huser).2.withoutRole rolename)
      rw [hpersist]
      refine .ok hsync (fun hc => ?_) ()
      obtain ⟨hnodup,hroles⟩ := hc.roles username user huser
      exact hc.insertUser store username (hnodup.filter _) fun role hrole =>
        hroles role (List.mem_of_mem_filter hrole)

lemma deleteRole_done (name : Bytes) : Done C t am (am.deleteRole C.platform name) := by
  obtain ⟨hcalm',hsync⟩ := h.stripRole hcalm name
  unfold AuthManager.deleteRole
  split
  · exact .refused h _
  · split
    · exact .refused h _
    · set stripped := (am.users.toList.filter fun e => name ∈ e.2.roles).foldl _ am.store
      obtain ⟨hwrite,-⟩ := hcalm'.write (stripped.data.erase (authRolePrefix ++ name))
      have hdelete : C.platform.deleteRange stripped (authRolePrefix ++ name) [] =
          stripped.write (stripped.data.erase (authRolePrefix ++ name)) := rfl
      simp only [hdelete,hwrite]
      exact .ok (hsync.withRoles (fun k hk => getElem?_erase_of_family (by simpa using hk))
        (hsync.roles.erase (List.append_right_injective _) name)) (fun hc => hc.eraseRole _ name) ()

lemma grantPermission_done (rolename : Bytes) (perm : Permission) :
    Done C t am (am.grantPermission C.platform rolename perm) := by
  unfold AuthManager.grantPermission
  cases hrole : am.roles[rolename]? with
  | none => exact .refused h _
  | some role =>
    have hfits := (h.roles.cached rolename role hrole).2
    exact persistRole_done h hcalm ⟨hfits.filed,hfits.valid⟩

lemma revokePermission_done (rolename key rangeEnd : Bytes) :
    Done C t am (am.revokePermission C.platform rolename key rangeEnd) := by
  unfold AuthManager.revokePermission
  cases hrole : am.roles[rolename]? with
  | none => exact .refused h _
  | some role =>
    have hfits := (h.roles.cached rolename role hrole).2
    simp only
    split
    · exact persistRole_done h hcalm ⟨hfits.filed,hfits.valid⟩
    · exact .refused h _

end Operations

theorem perform_done (h : InSync C t am) (i : Inputs) {op : AuthOp} (hplain : op.Plain i)
    (htolerates : op.Tolerates am.store.faults) : Done C t am (am.perform C.platform i op) := by
  cases op with
  | enable => exact enable_done h htolerates
  | disable => exact disable_done h htolerates
  | authenticate username password => exact (authenticate_done h htolerates i hplain).map _
  | addUser name password => exact addUser_done h i hplain.1 hplain.2
  | deleteUser name =>
    obtain hfault | hcalm := htolerates
    · exact deleteUser_done_of_fault h hfault name
    · exact deleteUser_done h hcalm name
  | changePassword name newPassword => exact changePassword_done h htolerates i hplain
  | grantRole username rolename => exact grantRole_done h htolerates username rolename
  | revokeRole username rolename => exact revokeRole_done h htolerates username rolename
  | addRole name => exact addRole_done h i hplain
  | deleteRole name => exact deleteRole_done h htolerates name
  | grantPermission rolename perm => exact grantPermission_done h htolerates rolename perm
  | revokePermission rolename key rangeEnd =>
    exact revokePermission_done h htolerates rolename key rangeEnd

lemma call_done (h : InSync C t am) {c : Call} (hplain : c.op.Plain c.inputs)
    (htolerates : c.op.Tolerates c.faults) : Done C t am (am.call C c) :=
  have hsync : InSync C t { am with store := { am.store with faults := c.faults } } := h.withFaults rfl
  have hdone := perform_done hsync c.inputs hplain htolerates
  ⟨hdone.inSync,hdone.kept,fun hc => hdone.consistent (hc.withStore _)⟩

def Reloads (C : Coding) (am : AuthManager Store) (now : ℤ) : Prop :=
  (newAuthManager C am.store am.tokenTTL now).caches =
    (am.enabled,am.users,am.roles,am.tokens.filter fun _ info => info.live now)

instance encodableByte : Encodable UInt8 :=
  .ofLeftInjection UInt8.toNat (fun n => some (UInt8.ofNat n)) (by simp)

deriving instance Encodable for PermissionType, Permission, UserInfo, RoleInfo, TokenInfo

def numbered {α : Type} [Encodable α] (a : α) : Bytes := .replicate (Encodable.encode a) 0

lemma decode_numbered {α : Type} [Encodable α] (a : α) :
    Encodable.decode (numbered a).length = some a := by
  rw [numbered,List.length_replicate,Encodable.encodek]

def numbering : Coding where
  marshalUser := numbered
  marshalRole := numbered
  marshalToken := numbered
  unmarshalUser v := Encodable.decode v.length
  unmarshalRole v := Encodable.decode v.length
  unmarshalToken v := Encodable.decode v.length
  compareHashAndPassword := (· == ·)
  user _ u _ := decode_numbered u
  role _ r _ := decode_numbered r
  token _ info _ := decode_numbered info

def fresh (tokenTTL : ℤ) : AuthManager Store := ⟨⟨∅,[]⟩,false,∅,∅,∅,tokenTTL⟩

lemma fresh_inSync (C : Coding) (t tokenTTL : ℤ) : InSync C t (fresh tokenTTL) where
  enabled := by simp [fresh]
  users := ⟨fun _ _ h => by simp [fresh] at h,fun _ _ h => by simp [fresh] at h⟩
  roles := ⟨fun _ _ h => by simp [fresh] at h,fun _ _ h => by simp [fresh] at h⟩
  tokens := ⟨fun _ _ h => by simp [fresh] at h,fun _ _ h => by simp [fresh] at h⟩

def quiet : Inputs := ⟨0,.ok,.ok []⟩

def addRoot : Call := ⟨.addUser root [],quiet,[]⟩

end MetaStore.Auth
