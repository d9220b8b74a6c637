import MetaStore.KVStore.Types

/-! Users, roles, permissions and tokens (api/etcd/auth_types.go, api/etcd/auth_manager.go). The
manager works on its own maps and writes every change through to the store. The store, JSON and
the comparison of bcrypt are parameters; what a call draws from the clock and from random
sources comes with the call. Errors are their texts. Maps are gone through in key order. -/
namespace MetaStore.Auth
open Std

inductive PermissionType
  | read | write | readWrite | other (code : ℤ)
  deriving DecidableEq, Repr

structure Permission where
  type : PermissionType
  key : Bytes
  rangeEnd : Bytes
  deriving DecidableEq, Repr

structure UserInfo where
  name : Bytes
  passwordHash : Bytes
  roles : List Bytes
  createdAt : ℤ
  deriving DecidableEq, Repr

structure RoleInfo where
  name : Bytes
  permissions : List Permission
  createdAt : ℤ
  deriving DecidableEq, Repr

structure TokenInfo where
  token : Bytes
  username : Bytes
  expiresAt : ℤ
  deriving DecidableEq, Repr

def authEnabledKey : Bytes := ascii "/__auth/enabled"
def authUserPrefix : Bytes := ascii "/__auth/users/"
def authRolePrefix : Bytes := ascii "/__auth/roles/"
def authTokenPrefix : Bytes := ascii "/__auth/tokens/"

/-- The user and the role that cannot be deleted. -/
def root : Bytes := ascii "root"

/-- The calls of the store may fail, with or without an effect. `json.Marshal` never fails on
these types. -/
structure Platform (σ : Type*) where
  putWithLease : σ → (key value : Bytes) → (leaseID : ℤ) → Except Bytes Unit × σ
  deleteRange : σ → (key rangeEnd : Bytes) → Except Bytes Unit × σ
  marshalUser : UserInfo → Bytes
  marshalRole : RoleInfo → Bytes
  marshalToken : TokenInfo → Bytes
  compareHashAndPassword : (hash password : Bytes) → Bool

/-- The clock in nanoseconds, bcrypt with the salt of this call, and the random token. -/
structure Inputs where
  now : ℤ
  generateFromPassword : Bytes → Except Bytes Bytes
  randomToken : Except Bytes Bytes

/-- `time.Time.Unix`: whole seconds. -/
def unix (now : ℤ) : ℤ := now/10^9

structure AuthManager (σ : Type*) where
  store : σ
  enabled : Bool
  users : ExtTreeMap Bytes UserInfo
  roles : ExtTreeMap Bytes RoleInfo
  tokens : ExtTreeMap Bytes TokenInfo
  tokenTTL : ℤ

/-- `keyInRange`, with the comparison of strings. -/
def keyInRange (key start rangeEnd : Bytes) : Bool :=
  if rangeEnd = [] then key == start else inRange start rangeEnd key

/-- The switch over the permission types in `CheckPermission`. -/
def PermissionType.grants (perm : PermissionType) : PermissionType → Bool
  | .read => perm == .read || perm == .readWrite
  | .write => perm == .write || perm == .readWrite
  | .readWrite => perm == .readWrite
  | .other _ => false

def UserInfo.withoutRole (name : Bytes) (user : UserInfo) : UserInfo :=
  { user with roles := user.roles.filter (· ≠ name) }

def Permission.isFor (key rangeEnd : Bytes) (perm : Permission) : Bool :=
  perm.key == key && perm.rangeEnd == rangeEnd

def userNotFound (name : Bytes) : Bytes := ascii "user not found: " ++ name
def roleNotFound (name : Bytes) : Bytes := ascii "role not found: " ++ name

namespace AuthManager
variable {σ : Type*}

def isEnabled (am : AuthManager σ) : Bool := am.enabled

def validateToken (am : AuthManager σ) (now : ℤ) (token : Bytes) : Except Bytes TokenInfo :=
  match am.tokens[token]? with
  | none => .error (ascii "invalid token")
  | some tokenInfo =>
    if tokenInfo.expiresAt < unix now then .error (ascii "token expired") else .ok tokenInfo

def checkPermission (am : AuthManager σ) (username key : Bytes) (permType : PermissionType) :
    Except Bytes Unit :=
  if username = root then .ok ()
  else
    match am.users[username]? with
    | none => .error (userNotFound username)
    | some user =>
      if user.roles.any fun roleName =>
          match am.roles[roleName]? with
          | none => false
          | some role => role.permissions.any fun perm =>
            perm.type.grants permType && keyInRange key perm.key perm.rangeEnd
      then .ok () else .error (ascii "permission denied")

def getUser (am : AuthManager σ) (name : Bytes) : Except Bytes UserInfo :=
  match am.users[name]? with
  | none => .error (userNotFound name)
  | some user => .ok user

def listUsers (am : AuthManager σ) : List UserInfo := am.users.values

def getRole (am : AuthManager σ) (name : Bytes) : Except Bytes RoleInfo :=
  match am.roles[name]? with
  | none => .error (roleNotFound name)
  | some role => .ok role

def listRoles (am : AuthManager σ) : List RoleInfo := am.roles.values

variable (P : Platform σ)

/-- A write of the manager; a failure is reported under the given text. -/
def put (am : AuthManager σ) (text key value : Bytes) : Except Bytes Unit × AuthManager σ :=
  match P.putWithLease am.store key value 0 with
  | (.error err,store) => (.error (text ++ err),{ am with store })
  | (.ok _,store) => (.ok (),{ am with store })

def persistUser (am : AuthManager σ) (name : Bytes) (user : UserInfo) :
    Except Bytes Unit × AuthManager σ :=
  am.put P (ascii "failed to persist user: ") (authUserPrefix ++ name) (P.marshalUser user)

def persistRole (am : AuthManager σ) (name : Bytes) (role : RoleInfo) :
    Except Bytes Unit × AuthManager σ :=
  am.put P (ascii "failed to persist role: ") (authRolePrefix ++ name) (P.marshalRole role)

/-- The loop over the tokens that drops some of them, whatever the store answers. -/
def deleteTokens (am : AuthManager σ) (gone : TokenInfo → Bool) : AuthManager σ :=
  { am with
    tokens := am.tokens.filter fun _ info => !gone info
    store := (am.tokens.toList.filter fun e => gone e.2).foldl
      (fun store e => (P.deleteRange store (authTokenPrefix ++ e.1) []).2) am.store }

def cleanupExpiredTokens (am : AuthManager σ) (now : ℤ) : AuthManager σ :=
  am.deleteTokens P fun info => decide (info.expiresAt < unix now)

def enable (am : AuthManager σ) : Except Bytes Unit × AuthManager σ :=
  if root ∉ am.users then
    (.error (ascii "root user does not exist, please create root user first"),am)
  else if am.enabled then (.ok (),am)
  else { am with enabled := true }.put P [] authEnabledKey (ascii "true")

def disable (am : AuthManager σ) : Except Bytes Unit × AuthManager σ :=
  match { am with enabled := false }.put P [] authEnabledKey (ascii "false") with
  | (.error err,am) => (.error err,am)
  | (.ok _,am) =>
    let (result,store) := P.deleteRange am.store authTokenPrefix (authTokenPrefix ++ [255])
    (result,{ am with tokens := ∅, store })

def authenticate (am : AuthManager σ) (i : Inputs) (username password : Bytes) :
    Except Bytes Bytes × AuthManager σ :=
  match am.users[username]? with
  | none => (.error (userNotFound username),am)
  | some user =>
    if P.compareHashAndPassword user.passwordHash password then
      match i.randomToken with
      | .error err => (.error (ascii "failed to generate token: " ++ err),am)
      | .ok token =>
        let tokenInfo : TokenInfo := ⟨token,username,unix (i.now+am.tokenTTL)⟩
        match { am with tokens := am.tokens.insert token tokenInfo }.put P
            (ascii "failed to persist token: ") (authTokenPrefix ++ token)
            (P.marshalToken tokenInfo) with
        | (.error err,am) => (.error err,am)
        | (.ok _,am) => (.ok token,am)
    else (.error (ascii "invalid password"),am)

def hashPassword (i : Inputs) (password : Bytes) : Except Bytes Bytes :=
  match i.generateFromPassword password with
  | .error err => .error (ascii "failed to hash password: " ++ err)
  | .ok hash => .ok hash

def addUser (am : AuthManager σ) (i : Inputs) (name password : Bytes) :
    Except Bytes Unit × AuthManager σ :=
  if name ∈ am.users then (.error (ascii "user already exists: " ++ name),am)
  else
    match hashPassword i password with
    | .error err => (.error err,am)
    | .ok passwordHash =>
      let user : UserInfo := ⟨name,passwordHash,[],unix i.now⟩
      match am.persistUser P name user with
      | (.error err,am) => (.error err,am)
      | (.ok _,am) => (.ok (),{ am with users := am.users.insert name user })

def deleteUser (am : AuthManager σ) (name : Bytes) : Except Bytes Unit × AuthManager σ :=
  if name = root then (.error (ascii "cannot delete root user"),am)
  else if name ∉ am.users then (.error (userNotFound name),am)
  else
    match P.deleteRange am.store (authUserPrefix ++ name) [] with
    | (.error err,store) =>
      (.error (ascii "failed to delete user from storage: " ++ err),{ am with store })
    | (.ok _,store) =>
      (.ok (),{ am with store, users := am.users.erase name }.deleteTokens P
        fun info => info.username == name)

/-- The cached user is changed before the store is asked. -/
def changePassword (am : AuthManager σ) (i : Inputs) (name newPassword : Bytes) :
    Except Bytes Unit × AuthManager σ :=
  match am.users[name]? with
  | none => (.error (userNotFound name),am)
  | some user =>
    match hashPassword i newPassword with
    | .error err => (.error err,am)
    | .ok passwordHash =>
      let user := { user with passwordHash }
      match { am with users := am.users.insert name user }.persistUser P name user with
      | (.error err,am) => (.error err,am)
      | (.ok _,am) => (.ok (),am.deleteTokens P fun info => info.username == name)

def grantRole (am : AuthManager σ) (username rolename : Bytes) :
    Except Bytes Unit × AuthManager σ :=
  match am.users[username]? with
  | none => (.error (userNotFound username),am)
  | some user =>
    if rolename ∉ am.roles then (.error (roleNotFound rolename),am)
    else if rolename ∈ user.roles then (.ok (),am)
    else
      let user := { user with roles := user.roles ++ [rolename] }
      { am with users := am.users.insert username user }.persistUser P username user

def revokeRole (am : AuthManager σ) (username rolename : Bytes) :
    Except Bytes Unit × AuthManager σ :=
  match am.users[username]? with
  | none => (.error (userNotFound username),am)
  | some user =>
    if rolename ∉ user.roles then
      (.error (ascii "user " ++ username ++ ascii " does not have role " ++ rolename),am)
    else
      let user := user.withoutRole rolename
      { am with users := am.users.insert username user }.persistUser P username user

def addRole (am : AuthManager σ) (i : Inputs) (name : Bytes) :
    Except Bytes Unit × AuthManager σ :=
  if name ∈ am.roles then (.error (ascii "role already exists: " ++ name),am)
  else
    let role : RoleInfo := ⟨name,[],unix i.now⟩
    match am.persistRole P name role with
    | (.error err,am) => (.error err,am)
    | (.ok _,am) => (.ok (),{ am with roles := am.roles.insert name role })

/-- The users lose the role first, whatever the store answers. -/
def deleteRole (am : AuthManager σ) (name : Bytes) : Except Bytes Unit × AuthManager σ :=
  if name = root then (.error (ascii "cannot delete root role"),am)
  else if name ∉ am.roles then (.error (roleNotFound name),am)
  else
    let stripped := (am.users.toList.filter fun e => name ∈ e.2.roles).foldl
      (fun store e => (P.putWithLease store (authUserPrefix ++ e.1)
        (P.marshalUser (e.2.withoutRole name)) 0).2) am.store
    let (result,store) := P.deleteRange stripped (authRolePrefix ++ name) []
    let am := { am with store
                        users := am.users.map fun _ user => user.withoutRole name
                        roles := am.roles.erase name }
    match result with
    | .error err => (.error (ascii "failed to delete role from storage: " ++ err),am)
    | .ok _ => (.ok (),am)

def grantPermission (am : AuthManager σ) (rolename : Bytes) (perm : Permission) :
    Except Bytes Unit × AuthManager σ :=
  match am.roles[rolename]? with
  | none => (.error (roleNotFound rolename),am)
  | some role =>
    let role := { role with permissions := role.permissions ++ [perm] }
    { am with roles := am.roles.insert rolename role }.persistRole P rolename role

def revokePermission (am : AuthManager σ) (rolename key rangeEnd : Bytes) :
    Except Bytes Unit × AuthManager σ :=
  match am.roles[rolename]? with
  | none => (.error (roleNotFound rolename),am)
  | some role =>
    if role.permissions.any (Permission.isFor key rangeEnd) then
      let role := { role with
        permissions := role.permissions.filter fun perm => !Permission.isFor key rangeEnd perm }
      { am with roles := am.roles.insert rolename role }.persistRole P rolename role
    else (.error (ascii "permission not found for role " ++ rolename),am)

end AuthManager
end MetaStore.Auth
