import MetaStore.Library.Covering
import MetaStore.Memory.Deletes
import MetaStore.Auth.Interceptor

/-! Which keys a request of the KV service reaches, and which of them the permissions of its
user cover. The interceptor checks one key at most. Whether the permissions cover all keys is
decided by finitely many checks of the same kind: at the start of every range of the request
and at the ends of permissions inside it. -/
namespace MetaStore.Auth
open Memory Covering

/-! ### What a request reaches -/

structure Access where
  type : PermissionType
  key : Bytes
  rangeEnd : Bytes

/-- The answers to puts and deletes of a transaction carry the records they replace. -/
def opAccesses (op : Op) : List Access :=
  match op.type with
  | .range => [⟨.read,op.key,op.rangeEnd⟩]
  | .put => [⟨.write,op.key,[]⟩,⟨.read,op.key,[]⟩]
  | .delete => [⟨.write,op.key,op.rangeEnd⟩,⟨.read,op.key,op.rangeEnd⟩]
  | .txn => []

def KVRequest.accesses : KVRequest → List Access
  | .range r => [⟨.read,r.key.getD [],r.rangeEnd⟩]
  | .put r =>
    ⟨.write,r.key.getD [],[]⟩ :: if r.prevKv then [⟨.read,r.key.getD [],[]⟩] else []
  | .deleteRange r =>
    ⟨.write,r.key.getD [],r.rangeEnd⟩ ::
      if r.prevKv then [⟨.read,r.key.getD [],r.rangeEnd⟩] else []
  | .txn r =>
    r.compare.map (fun cmp => ⟨.read,cmp.key,[]⟩) ++
      (r.success ++ r.failure).flatMap fun op => opAccesses (convertRequestOp op)

variable {σ : Type*}

/-- A permission of one of the user's roles that is good for the access covers the key. -/
def AuthManager.Covers (am : AuthManager σ) (username : Bytes) (type : PermissionType)
    (k : Bytes) : Prop :=
  ∃ user, am.users[username]? = some user ∧ ∃ roleName ∈ user.roles, ∃ role,
    am.roles[roleName]? = some role ∧ ∃ perm ∈ role.permissions,
      (perm.type = type ∨ perm.type = .readWrite) ∧ Selects perm.key perm.rangeEnd k

def AuthManager.Authorizes (am : AuthManager σ) (username : Bytes) (req : KVRequest) : Prop :=
  ∀ a ∈ req.accesses, ∀ k, Selects a.key a.rangeEnd k → am.Covers username a.type k

/-! ### The checks that decide it -/

/-- The range of keys as an interval; a single key ends at the next string. -/
def span (key rangeEnd : Bytes) : Span Bytes where
  lo := key
  hi := if rangeEnd = [] then some (key ++ [0])
    else if rangeEnd = noUpperBound then none else some rangeEnd

def AuthManager.grantsOf (am : AuthManager σ) (username : Bytes) (type : PermissionType) :
    List Permission :=
  match am.users[username]? with
  | none => []
  | some user => (user.roles.filterMap fun roleName => am.roles[roleName]?).flatMap fun role =>
    role.permissions.filter fun perm => perm.type.grants type

section Order
attribute [local instance] Bytes.linearOrder

/-- The start of the range and the ends of permissions inside it. -/
def AuthManager.checkpoints (am : AuthManager σ) (username : Bytes) (a : Access) : List Bytes :=
  Covering.checkpoints ((am.grantsOf username a.type).map fun p => span p.key p.rangeEnd)
    (span a.key a.rangeEnd)

def AuthManager.unchecked (am : AuthManager σ) (username : Bytes) (req : KVRequest) :
    List (Bytes × PermissionType) :=
  (req.accesses.flatMap fun a => (am.checkpoints username a).map fun c => (c,a.type)).filter
    fun c => (some c.1,c.2) ≠ extractPermissionFromRequest (.kv req)

lemma contains_span (key rangeEnd k : Bytes) :
    (span key rangeEnd).Contains k ↔ Selects key rangeEnd k := by
  rw [Span.Contains,span,Selects]
  split_ifs with hsingle hopen
  · simpa using Bytes.between_iff_eq key k
  · simp [inRange,hopen]
  · simp [inRange,hopen]

lemma keyInRange_iff (key start rangeEnd : Bytes) :
    keyInRange key start rangeEnd = true ↔ Selects start rangeEnd key := by
  rw [keyInRange,Selects]
  split <;> simp

section Manager
variable (am : AuthManager σ) (username : Bytes)

lemma grants_iff {type : PermissionType} (htype : type = .read ∨ type = .write)
    (perm : PermissionType) : perm.grants type = true ↔ perm = type ∨ perm = .readWrite := by
  rcases htype with rfl | rfl <;> simp [PermissionType.grants]

lemma covers_iff {type : PermissionType} (htype : type = .read ∨ type = .write) (k : Bytes) :
    am.Covers username type k ↔
      ∃ perm ∈ am.grantsOf username type, Selects perm.key perm.rangeEnd k := by
  rw [AuthManager.Covers,AuthManager.grantsOf]
  cases am.users[username]? with
  | none => simp
  | some user =>
    simp only [Option.some.injEq,List.mem_flatMap,List.mem_filterMap,List.mem_filter,
      grants_iff htype]
    constructor
    · rintro ⟨_,rfl,roleName,hroleName,role,hrole,perm,hperm,hgrant,hselects⟩
      exact ⟨perm,⟨role,⟨roleName,hroleName,hrole⟩,hperm,hgrant⟩,hselects⟩
    · rintro ⟨perm,⟨role,⟨roleName,hroleName,hrole⟩,hperm,hgrant⟩,hselects⟩
      exact ⟨user,rfl,roleName,hroleName,role,hrole,perm,hperm,hgrant,hselects⟩

lemma checkPermission_eq_ok_iff (huser : username ≠ root) (type : PermissionType) (k : Bytes) :
    am.checkPermission username k type = .ok () ↔
      ∃ perm ∈ am.grantsOf username type, Selects perm.key perm.rangeEnd k := by
  rw [AuthManager.checkPermission,if_neg huser,AuthManager.grantsOf]
  cases am.users[username]? with
  | none => simp
  | some user =>
    simp only [List.mem_flatMap,List.mem_filterMap,List.mem_filter,← keyInRange_iff]
    split_ifs with hany
    · refine iff_of_true rfl ?_
      obtain ⟨roleName,hroleName,hrole⟩ := List.any_eq_true.mp hany
      split at hrole
      · cases hrole
      · next role hget =>
        obtain ⟨perm,hperm,hgrant⟩ := List.any_eq_true.mp hrole
        rw [Bool.and_eq_true] at hgrant
        exact ⟨perm,⟨role,⟨roleName,hroleName,hget⟩,hperm,hgrant.1⟩,hgrant.2⟩
    · refine iff_of_false (by simp) ?_
      rintro ⟨perm,⟨role,⟨roleName,hroleName,hget⟩,hperm,hgrant⟩,hkey⟩
      refine hany (List.any_eq_true.mpr ⟨roleName,hroleName,?_⟩)
      rw [hget]
      exact List.any_eq_true.mpr ⟨perm,hperm,by rw [hgrant,hkey]; rfl⟩

lemma forall_covers_iff (huser : username ≠ root) (a : Access)
    (htype : a.type = .read ∨ a.type = .write) :
    (∀ k, Selects a.key a.rangeEnd k → am.Covers username a.type k) ↔
      ∀ c ∈ am.checkpoints username a, am.checkPermission username c a.type = .ok () := by
  have hcovered : ∀ k, Covered
      ((am.grantsOf username a.type).map fun p => span p.key p.rangeEnd) k ↔
        ∃ perm ∈ am.grantsOf username a.type, Selects perm.key perm.rangeEnd k := by
    intro k
    simp [Covered,contains_span]
  have hpoints := forall_covered_iff
    ((am.grantsOf username a.type).map fun p => span p.key p.rangeEnd) (span a.key a.rangeEnd)
  simp only [hcovered,contains_span] at hpoints
  simp only [covers_iff am username htype,checkPermission_eq_ok_iff am username huser]
  exact hpoints

lemma selects_of_mem_checkpoints {a : Access} {c : Bytes} (h : c ∈ am.checkpoints username a) :
    Selects a.key a.rangeEnd c :=
  (contains_span ..).mp (mem_checkpoints.mp h).2

end Manager
end Order

lemma type_of_mem_opAccesses {op : Op} {a : Access} (h : a ∈ opAccesses op) :
    a.type = .read ∨ a.type = .write := by
  rw [opAccesses] at h
  split at h <;> simp only [List.mem_cons,List.not_mem_nil,or_false] at h
  · exact .inl (congrArg Access.type h)
  · rcases h with rfl | rfl
    · exact .inr rfl
    · exact .inl rfl
  · rcases h with rfl | rfl
    · exact .inr rfl
    · exact .inl rfl

lemma type_of_mem_accesses {req : KVRequest} {a : Access} (h : a ∈ req.accesses) :
    a.type = .read ∨ a.type = .write := by
  cases req with
  | range r =>
    rw [List.mem_singleton.mp h]
    exact .inl rfl
  | put r =>
    rcases List.mem_cons.mp h with rfl | h
    · exact .inr rfl
    · split_ifs at h
      · rw [List.mem_singleton.mp h]
        exact .inl rfl
      · cases h
  | deleteRange r =>
    rcases List.mem_cons.mp h with rfl | h
    · exact .inr rfl
    · split_ifs at h
      · rw [List.mem_singleton.mp h]
        exact .inl rfl
      · cases h
  | txn r =>
    rcases List.mem_append.mp h with h | h
    · obtain ⟨cmp,-,rfl⟩ := List.mem_map.mp h
      exact .inl rfl
    · obtain ⟨op,-,h⟩ := List.mem_flatMap.mp h
      exact type_of_mem_opAccesses h

lemma checked_of_authInterceptor {am : AuthManager σ} {now : ℤ} {metadata : Option (List Bytes)}
    {req : KVRequest} {username key : Bytes} {type : PermissionType} (henabled : am.enabled = true)
    (hcall : authInterceptor am now metadata (.kv req) = .ok (some username))
    (hextract : extractPermissionFromRequest (.kv req) = (some key,type)) :
    am.checkPermission username key type = .ok () := by
  simp only [authInterceptor,AuthManager.isEnabled,henabled,Bool.not_true,Bool.false_eq_true,
    if_false,hextract] at hcall
  split at hcall
  · cases hcall
  · next info hinfo =>
    split at hcall
    · cases hcall
    · next hcheck =>
      cases hcall
      exact hcheck

lemma unchecked_of_single_key (am : AuthManager σ) (username : Bytes) {req : KVRequest}
    {key : Bytes} {type : PermissionType}
    (hextract : extractPermissionFromRequest (.kv req) = (some key,type))
    (haccesses : ∀ a ∈ req.accesses, a = ⟨type,key,[]⟩) : am.unchecked username req = [] := by
  rw [AuthManager.unchecked,List.filter_eq_nil_iff]
  intro c hc
  obtain ⟨a,ha,hc⟩ := List.mem_flatMap.mp hc
  obtain ⟨k,hk,rfl⟩ := List.mem_map.mp hc
  obtain rfl := haccesses a ha
  obtain rfl : k = key := selects_of_mem_checkpoints am username hk
  simp [hextract]

/-! ### Requests that reach too much -/

section Uncovered
open Std

/-- A manager with user `u`, whose role `r` has the given permissions, and the token `t`. -/
def oneUser (perms : List Permission) : AuthManager Unit where
  store := ()
  enabled := true
  users := (∅ : ExtTreeMap Bytes UserInfo).insert [117] ⟨[117],[],[[114]],0⟩
  roles := (∅ : ExtTreeMap Bytes RoleInfo).insert [114] ⟨[114],perms,0⟩
  tokens := (∅ : ExtTreeMap Bytes TokenInfo).insert [116] ⟨[116],[117],100⟩
  tokenTTL := 0

lemma covers_oneUser (perms : List Permission) (type : PermissionType) (k : Bytes) :
    (oneUser perms).Covers [117] type k ↔ ∃ perm ∈ perms,
      (perm.type = type ∨ perm.type = .readWrite) ∧ Selects perm.key perm.rangeEnd k := by
  have huser : (oneUser perms).users[([117] : Bytes)]? = some ⟨[117],[],[[114]],0⟩ :=
    ExtTreeMap.getElem?_insert_self
  have hrole : (oneUser perms).roles[([114] : Bytes)]? = some ⟨[114],perms,0⟩ :=
    ExtTreeMap.getElem?_insert_self
  simp [AuthManager.Covers,huser,hrole]

end Uncovered

end MetaStore.Auth
