import MetaStore.Auth.Manager

/-! The way of a unary call through the server (api/etcd/auth_interceptor.go, api/etcd/auth.go,
and of api/etcd/kv.go what the requests of the KV service ask for). A request carries the
message of its own method, as gRPC decodes it, so that the type assertions of
`extractPermissionFromRequest` never fail. A byte string that a message leaves out is nil,
which the interceptor tells from an empty one. -/
namespace MetaStore.Auth

/-! ### Requests -/

structure RangeRequest where
  key : Option Bytes
  rangeEnd : Bytes := []
  limit : ℤ := 0
  revision : ℤ := 0

structure PutRequest where
  key : Option Bytes
  value : Bytes := []
  lease : ℤ := 0
  prevKv : Bool := false

structure DeleteRangeRequest where
  key : Option Bytes
  rangeEnd : Bytes := []
  prevKv : Bool := false

/-- An operation of a transaction; nothing of a nested transaction is read. -/
inductive RequestOp
  | range (r : RangeRequest)
  | put (r : PutRequest)
  | deleteRange (r : DeleteRangeRequest)
  | txn
  | unset

structure TxnRequest where
  compare : List Compare := []
  success : List RequestOp := []
  failure : List RequestOp := []

inductive KVRequest
  | range (r : RangeRequest)
  | put (r : PutRequest)
  | deleteRange (r : DeleteRangeRequest)
  | txn (r : TxnRequest)

inductive Method
  | compact | watch
  | leaseGrant | leaseRevoke | leaseKeepAlive | leaseTimeToLive | leaseLeases
  | memberAdd | memberRemove | memberUpdate | memberPromote | memberList
  | alarm | status | hash | hashKV | snapshot | defragment | moveLeader
  | other
  deriving DecidableEq, Repr

inductive AuthRequest
  | authEnable
  | authDisable
  | authStatus
  | authenticate (name password : Bytes)
  | userAdd (name password : Bytes)
  | userDelete (name : Bytes)
  | userGet (name : Bytes)
  | userList
  | userChangePassword (name password : Bytes)
  | userGrantRole (user role : Bytes)
  | userRevokeRole (name role : Bytes)
  | roleAdd (name : Bytes)
  | roleDelete (role : Bytes)
  | roleGet (role : Bytes)
  | roleList
  | roleGrantPermission (name : Bytes) (perm : Option Permission)
  | roleRevokePermission (role key rangeEnd : Bytes)
  deriving DecidableEq, Repr

inductive Request
  | kv (r : KVRequest)
  | unread (m : Method) (message : Bytes)
  | auth (r : AuthRequest)

/-- `convertRequestOp`: what is no range, put or delete is left the zero operation. -/
def convertRequestOp : RequestOp → Op
  | .range r => { type := .range, key := r.key.getD [], rangeEnd := r.rangeEnd, limit := r.limit }
  | .put r => { type := .put, key := r.key.getD [], value := r.value, leaseID := r.lease }
  | .deleteRange r => { type := .delete, key := r.key.getD [], rangeEnd := r.rangeEnd }
  | .txn => { type := .range, key := [] }
  | .unset => { type := .range, key := [] }

/-! ### The interceptor -/

inductive Code
  | unauthenticated | permissionDenied | internal
  deriving DecidableEq, Repr

structure Status where
  code : Code
  message : Bytes
  deriving DecidableEq, Repr

/-- The key to check, unless nil, and the permission it takes. -/
def extractPermissionFromRequest : Request → Option Bytes × PermissionType
  | .kv (.range r) => (r.key,.read)
  | .kv (.put r) => (r.key,.write)
  | .kv (.deleteRange r) => (r.key,.write)
  | .kv (.txn r) =>
    if r.success ≠ [] ∨ r.failure ≠ [] then (some [],.readWrite) else (none,.readWrite)
  | .unread m _ =>
    match m with
    | .compact | .memberAdd | .memberRemove | .memberUpdate | .memberPromote
    | .defragment | .moveLeader => (some [],.write)
    | _ => (none,.read)
  | .auth _ => (none,.read)

variable {σ : Type*}

/-- The token of a call, which is the first one under `token` in its metadata, if there are
metadata. -/
def tokenInfo (am : AuthManager σ) (now : ℤ) (metadata : Option (List Bytes)) :
    Except Status TokenInfo :=
  match metadata with
  | none => .error ⟨.unauthenticated,ascii "missing metadata"⟩
  | some [] => .error ⟨.unauthenticated,ascii "missing token"⟩
  | some (token :: _) =>
    match am.validateToken now token with
    | .error err => .error ⟨.unauthenticated,ascii "invalid token: " ++ err⟩
    | .ok tokenInfo => .ok tokenInfo

def checkRootPermission (am : AuthManager σ) (now : ℤ) (metadata : Option (List Bytes)) :
    Except Status (Option Bytes) :=
  match tokenInfo am now metadata with
  | .error status => .error status
  | .ok info =>
    if info.username ≠ root then
      .error ⟨.permissionDenied,ascii "only root can disable authentication"⟩
    else .ok (some info.username)

/-- `AuthInterceptor`: the handler is called with the given user in its context, if any, or
not at all. -/
def authInterceptor (am : AuthManager σ) (now : ℤ) (metadata : Option (List Bytes)) :
    Request → Except Status (Option Bytes)
  | .auth r =>
    if !am.isEnabled then .ok none
    else if r = .authDisable then checkRootPermission am now metadata
    else .ok none
  | req =>
    if !am.isEnabled then .ok none
    else
      match tokenInfo am now metadata with
      | .error status => .error status
      | .ok info =>
        match extractPermissionFromRequest req with
        | (none,_) => .ok (some info.username)
        | (some key,permType) =>
          match am.checkPermission info.username key permType with
          | .error err => .error ⟨.permissionDenied,ascii "permission denied: " ++ err⟩
          | .ok _ => .ok (some info.username)

/-! ### The handlers -/

structure ResponseHeader where
  clusterId : ℕ
  memberId : ℕ
  revision : ℤ
  raftTerm : ℕ
  deriving DecidableEq, Repr

inductive Body
  | empty
  | enabled (enabled : Bool)
  | token (token : Bytes)
  | names (names : List Bytes)
  | permissions (perms : List Permission)
  | message (message : Bytes)
  deriving DecidableEq, Repr

structure Response where
  header : ResponseHeader
  body : Body
  deriving DecidableEq, Repr

/-- The rest of the server: its store as the manager uses it, the header of an answer, and the
handlers of the services other than Auth, which work on the store. -/
structure Backend (σ : Type*) extends Platform σ where
  getResponseHeader : σ → ResponseHeader
  handle : σ → Request → Except Status Response × σ

/-- `toGRPCError` on the errors of the manager. -/
def toGRPCError (err : Bytes) : Status := ⟨.internal,err⟩

def respond {α : Type*} (B : Backend σ) (body : α → Body) :
    Except Bytes α × AuthManager σ → Except Status Response × AuthManager σ
  | (.error err,am) => (.error (toGRPCError err),am)
  | (.ok a,am) => (.ok ⟨B.getResponseHeader am.store,body a⟩,am)

/-- The methods of `AuthServer`. -/
def authServer (B : Backend σ) (am : AuthManager σ) (i : Inputs) :
    AuthRequest → Except Status Response × AuthManager σ
  | .authEnable => respond B (fun _ => .empty) (am.enable B.toPlatform)
  | .authDisable => respond B (fun _ => .empty) (am.disable B.toPlatform)
  | .authStatus => respond B Body.enabled (.ok am.isEnabled,am)
  | .authenticate name password =>
    respond B Body.token (am.authenticate B.toPlatform i name password)
  | .userAdd name password =>
    respond B (fun _ => .empty) (am.addUser B.toPlatform i name password)
  | .userDelete name => respond B (fun _ => .empty) (am.deleteUser B.toPlatform name)
  | .userGet name => respond B (fun user => .names user.roles) (am.getUser name,am)
  | .userList => respond B (fun users => .names (users.map (·.name))) (.ok am.listUsers,am)
  | .userChangePassword name password =>
    respond B (fun _ => .empty) (am.changePassword B.toPlatform i name password)
  | .userGrantRole user role => respond B (fun _ => .empty) (am.grantRole B.toPlatform user role)
  | .userRevokeRole name role =>
    respond B (fun _ => .empty) (am.revokeRole B.toPlatform name role)
  | .roleAdd name => respond B (fun _ => .empty) (am.addRole B.toPlatform i name)
  | .roleDelete role => respond B (fun _ => .empty) (am.deleteRole B.toPlatform role)
  | .roleGet role => respond B (fun role => .permissions role.permissions) (am.getRole role,am)
  | .roleList => respond B (fun roles => .names (roles.map (·.name))) (.ok am.listRoles,am)
  | .roleGrantPermission name perm =>
    match perm with
    | none => (.error (toGRPCError (ascii "permission is required")),am)
    | some perm => respond B (fun _ => .empty) (am.grantPermission B.toPlatform name perm)
  | .roleRevokePermission role key rangeEnd =>
    respond B (fun _ => .empty) (am.revokePermission B.toPlatform role key rangeEnd)

/-- A unary call, which arrives at a reading of the clock and draws its inputs later. -/
structure Rpc where
  arrival : ℤ
  metadata : Option (List Bytes)
  request : Request
  inputs : Inputs

def serve (B : Backend σ) (am : AuthManager σ) (rpc : Rpc) :
    Except Status Response × AuthManager σ :=
  match authInterceptor am rpc.arrival rpc.metadata rpc.request with
  | .error status => (.error status,am)
  | .ok _ =>
    match rpc.request with
    | .auth r => authServer B am rpc.inputs r
    | req =>
      let (result,store) := B.handle am.store req
      (result,{ am with store })

end MetaStore.Auth
