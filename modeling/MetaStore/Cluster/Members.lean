import MetaStore.KVStore.Types
import MetaStore.Library.Transition

/-! The members of the cluster (api/etcd/cluster_manager.go and the member requests of
api/etcd/maintenance.go). The manager changes its own table and puts the change on a channel to
Raft; other nodes apply the changes that come out of it. Whether the channel has room and which
id is drawn come with the call. -/
namespace MetaStore.Members
open Std Transition

structure MemberInfo where
  id : ℕ
  name : Bytes
  peerURLs : List Bytes
  clientURLs : List Bytes
  isLearner : Bool
  isWitness : Bool
  deriving DecidableEq, Repr

inductive ConfChangeType
  | addNode | removeNode | updateNode | addLearnerNode
  deriving DecidableEq, Repr

structure ConfChange where
  type : ConfChangeType
  nodeID : ℕ
  context : Bytes
  deriving DecidableEq, Repr

abbrev Table := ExtTreeMap ℕ MemberInfo

/-- What has been put on the channel; `none` is a nil channel. -/
structure ClusterManager where
  members : Table
  sent : Option (List ConfChange)

def nodeName (id : ℕ) : Bytes := ascii "node-" ++ decimalNat id
def memberNotFound (id : ℕ) : Bytes := ascii "member " ++ decimalNat id ++ ascii " not found"

/-- The first URL is all that is transmitted. -/
def contextOf (peerURLs : List Bytes) : Bytes := peerURLs.headD []

def ConfChange.member (cc : ConfChange) (isLearner : Bool) : MemberInfo :=
  ⟨cc.nodeID,nodeName cc.nodeID,[cc.context],[],isLearner,false⟩

/-- `ApplyConfChange`. -/
def applyConfChange (members : Table) (cc : ConfChange) : Table :=
  match cc.type with
  | .addNode =>
    match members[cc.nodeID]? with
    | some member => members.insert cc.nodeID { member with isLearner := false }
    | none => members.insert cc.nodeID (cc.member false)
  | .addLearnerNode => members.insert cc.nodeID (cc.member true)
  | .removeNode => members.erase cc.nodeID
  | .updateNode =>
    match members[cc.nodeID]? with
    | some member =>
      if cc.context = [] then members
      else members.insert cc.nodeID { member with peerURLs := [cc.context] }
    | none => members

namespace ClusterManager
variable (cm : ClusterManager) (room : Bool)

/-- A nil channel is passed over. -/
def accepts : Bool := cm.sent.isNone || room

def propose {α : Type} (cc : ConfChange) (members : Table) (result : α) :
    Except Bytes α × ClusterManager :=
  if cm.accepts room then (.ok result,⟨members,cm.sent.map (· ++ [cc])⟩)
  else (.error (ascii "confChange channel full"),cm)

/-- `AddMember` with the id that is drawn. -/
def addMember (memberID : ℕ) (peerURLs : List Bytes) (isLearner : Bool) :
    Except Bytes MemberInfo × ClusterManager :=
  let member : MemberInfo := ⟨memberID,nodeName memberID,peerURLs,[],isLearner,false⟩
  cm.propose room ⟨if isLearner then .addLearnerNode else .addNode,memberID,contextOf peerURLs⟩
    (cm.members.insert memberID member) member

def addWitnessMember (memberID : ℕ) (peerURLs : List Bytes) :
    Except Bytes MemberInfo × ClusterManager :=
  let member : MemberInfo :=
    ⟨memberID,ascii "witness-" ++ decimalNat memberID,peerURLs,[],false,true⟩
  cm.propose room ⟨.addNode,memberID,contextOf peerURLs⟩ (cm.members.insert memberID member) member

def removeMember (id : ℕ) : Except Bytes Unit × ClusterManager :=
  if id ∉ cm.members then (.error (memberNotFound id),cm)
  else cm.propose room ⟨.removeNode,id,[]⟩ (cm.members.erase id) ()

/-- The member has its new URLs before the channel is asked. -/
def updateMember (id : ℕ) (peerURLs : List Bytes) : Except Bytes Unit × ClusterManager :=
  match cm.members[id]? with
  | none => (.error (memberNotFound id),cm)
  | some member =>
    let members := cm.members.insert id { member with peerURLs }
    { cm with members }.propose room ⟨.updateNode,id,contextOf peerURLs⟩ members ()

def promoteMember (id : ℕ) : Except Bytes Unit × ClusterManager :=
  match cm.members[id]? with
  | none => (.error (memberNotFound id),cm)
  | some member =>
    if member.isLearner then
      cm.propose room ⟨.addNode,id,[]⟩
        (cm.members.insert id { member with isLearner := false }) ()
    else
      (.error (ascii "member " ++ decimalNat id ++ ascii " is already a voting member"),cm)

end ClusterManager

inductive Call
  | addMember (memberID : ℕ) (peerURLs : List Bytes) (isLearner : Bool)
  | addWitnessMember (memberID : ℕ) (peerURLs : List Bytes)
  | removeMember (id : ℕ)
  | updateMember (id : ℕ) (peerURLs : List Bytes)
  | promoteMember (id : ℕ)
  deriving DecidableEq, Repr

def ClusterManager.call (cm : ClusterManager) (room : Bool) :
    Call → Except Bytes Unit × ClusterManager
  | .addMember id peerURLs isLearner =>
    (cm.addMember room id peerURLs isLearner).map (·.map fun _ => ()) fun cm => cm
  | .addWitnessMember id peerURLs =>
    (cm.addWitnessMember room id peerURLs).map (·.map fun _ => ()) fun cm => cm
  | .removeMember id => cm.removeMember room id
  | .updateMember id peerURLs => cm.updateMember room id peerURLs
  | .promoteMember id => cm.promoteMember room id

def ClusterManager.step (cm : ClusterManager) (l : Bool × Call) : Option ClusterManager :=
  some (cm.call l.1 l.2).2

def MemberInfo.shown (member : MemberInfo) : ℕ × List Bytes × Bool :=
  (member.id,member.peerURLs,member.isLearner)

def shown (members : Table) (id : ℕ) : Option (ℕ × List Bytes × Bool) :=
  members[id]?.map MemberInfo.shown

lemma shown_insert (members : Table) (id k : ℕ) (member : MemberInfo) :
    shown (members.insert id member) k = if id = k then some member.shown else shown members k := by
  rw [shown,ExtTreeMap.getElem?_insert]
  by_cases h : id = k
  · subst h; simp
  · simp [h,shown]

lemma shown_erase (members : Table) (id k : ℕ) :
    shown (members.erase id) k = if id = k then none else shown members k := by
  rw [shown,ExtTreeMap.getElem?_erase]
  by_cases h : id = k
  · subst h; simp
  · simp [h,shown]

lemma shown_eq_none {members : Table} {id : ℕ} : shown members id = none ↔ id ∉ members := by
  simp [shown]

/-- What is asked of a call for the tables to stay alike. -/
def Faithful (cm : ClusterManager) (room : Bool) : Call → Prop
  | .addMember id peerURLs isLearner =>
    room = true → peerURLs.length = 1 ∧ (isLearner = false → id ∉ cm.members)
  | .addWitnessMember id peerURLs => room = true → peerURLs.length = 1 ∧ id ∉ cm.members
  | .removeMember _ => True
  | .updateMember id peerURLs =>
    id ∈ cm.members → room = true ∧ ∃ url, url ≠ [] ∧ peerURLs = [url]
  | .promoteMember _ => True

/-- Another node with the same initial members shows the same table after the changes that have
been put on the channel. -/
def Follows (initial : Table) (cm : ClusterManager) : Prop :=
  ∃ ccs, cm.sent = some ccs ∧
    ∀ id, shown cm.members id = shown (ccs.foldl applyConfChange initial) id

def RefusedUnchanged (cm : ClusterManager) (l : Bool × Call) (cm' : ClusterManager) : Prop :=
  (∃ err, (cm.call l.1 l.2).1 = .error err) → cm'.members = cm.members

section Follow
variable {cm : ClusterManager} {room : Bool} {initial members other : Table} {id : ℕ}

lemma Follows.propose {α : Type} (h : Follows initial cm) {cc : ConfChange} {result : α}
    (hroom : room = true → ∀ other : Table, (∀ k, shown cm.members k = shown other k) →
      ∀ k, shown members k = shown (applyConfChange other cc) k) :
    Follows initial (cm.propose room cc members result).2 ∧
      ((∃ err, (cm.propose room cc members result).1 = .error err) →
        (cm.propose room cc members result).2.members = cm.members) := by
  obtain ⟨ccs,hsent,hshown⟩ := h
  unfold ClusterManager.propose ClusterManager.accepts
  cases room with
  | false => simpa [hsent] using ⟨ccs,hsent,hshown⟩
  | true =>
    refine ⟨⟨ccs ++ [cc],by simp [hsent],fun k => ?_⟩,by simp⟩
    rw [List.foldl_append]
    simpa using hroom rfl _ hshown k

lemma error_of_map {α : Type} {r : Except Bytes α × ClusterManager} {f : α → Unit}
    (h : ∃ err, r.1.map f = .error err) : ∃ err, r.1 = .error err := by
  obtain ⟨x,cm⟩ := r
  cases x with
  | error err => exact ⟨err,rfl⟩
  | ok a => obtain ⟨err,herr⟩ := h; cases herr

lemma shown_add {url : Bytes} (hother : ∀ k, shown cm.members k = shown other k)
    (hid : id ∉ cm.members) {member : MemberInfo} (hmember : member.shown = (id,[url],false))
    (k : ℕ) :
    shown (cm.members.insert id member) k =
      shown (applyConfChange other ⟨.addNode,id,url⟩) k := by
  have hnone : other[id]? = none := by
    have := hother id
    rw [shown_eq_none.mpr hid] at this
    exact Option.map_eq_none_iff.mp this.symm
  simp only [applyConfChange,hnone,shown_insert,hother k,hmember]
  rfl

lemma exists_shown {member : MemberInfo} (hother : ∀ k, shown cm.members k = shown other k)
    (h : cm.members[id]? = some member) :
    ∃ member', other[id]? = some member' ∧ member'.shown = member.shown := by
  have hid := hother id
  rw [shown,h] at hid
  exact Option.map_eq_some_iff.mp hid.symm

lemma Follows.call (h : Follows initial cm) {call : Call} (hcall : Faithful cm room call) :
    Follows initial (cm.call room call).2 ∧ RefusedUnchanged cm (room,call) (cm.call room call).2 := by
  unfold RefusedUnchanged
  cases call with
  | addMember id peerURLs isLearner =>
    refine And.imp_right (fun hkept herr => hkept (error_of_map herr))
      (h.propose fun hroom other hother k => ?_)
    obtain ⟨hlen,hid⟩ := hcall hroom
    obtain ⟨url,rfl⟩ := List.length_eq_one_iff.mp hlen
    cases isLearner with
    | false => exact shown_add hother (hid rfl) rfl k
    | true =>
      simp only [applyConfChange,if_true,shown_insert,hother k]
      rfl
  | addWitnessMember id peerURLs =>
    refine And.imp_right (fun hkept herr => hkept (error_of_map herr))
      (h.propose fun hroom other hother k => ?_)
    obtain ⟨hlen,hid⟩ := hcall hroom
    obtain ⟨url,rfl⟩ := List.length_eq_one_iff.mp hlen
    exact shown_add hother hid rfl k
  | removeMember id =>
    simp only [ClusterManager.call,ClusterManager.removeMember]
    split_ifs
    · refine h.propose fun _ other hother k => ?_
      simp only [applyConfChange,shown_erase,hother k]
    · exact ⟨h,fun _ => rfl⟩
  | updateMember id peerURLs =>
    simp only [ClusterManager.call,ClusterManager.updateMember]
    cases hmember : cm.members[id]? with
    | none => exact ⟨h,fun _ => rfl⟩
    | some member =>
      obtain ⟨rfl,url,hurl,rfl⟩ := hcall (by rw [ExtTreeMap.mem_iff_isSome_getElem?,hmember]; rfl)
      obtain ⟨ccs,hsent,hshown⟩ := h
      obtain ⟨member',hmember',heq⟩ := exists_shown hshown hmember
      simp only [ClusterManager.propose,ClusterManager.accepts,Bool.or_true,if_true]
      refine ⟨⟨ccs ++ [⟨.updateNode,id,url⟩],by simp [hsent,contextOf],fun k => ?_⟩,by simp⟩
      simp only [MemberInfo.shown,Prod.mk.injEq] at heq
      simp only [List.foldl_append,List.foldl_cons,List.foldl_nil,applyConfChange,hmember',if_neg hurl,
        shown_insert,hshown k,MemberInfo.shown,heq.1,heq.2.2]
  | promoteMember id =>
    simp only [ClusterManager.call,ClusterManager.promoteMember]
    cases hmember : cm.members[id]? with
    | none => exact ⟨h,fun _ => rfl⟩
    | some member =>
      dsimp only
      split_ifs
      · refine h.propose fun _ other hother k => ?_
        obtain ⟨member',hmember',heq⟩ := exists_shown hother hmember
        simp only [MemberInfo.shown,Prod.mk.injEq] at heq
        simp only [applyConfChange,hmember',shown_insert,hother k,MemberInfo.shown,heq.1,heq.2.1]
      · exact ⟨h,fun _ => rfl⟩

/-- The table of the proposer and that of a node that applies the transmitted changes show the
same members, and refused calls change nothing, if every call transmits all it changes. -/
theorem tables_follow (initial : Table) {ls : List (Bool × Call)}
    (h : EveryStep ClusterManager.step (fun cm l _ => Faithful cm l.1 l.2) ⟨initial,some []⟩ ls) :
    EveryState ClusterManager.step (Follows initial) ⟨initial,some []⟩ ls ∧
    EveryStep ClusterManager.step RefusedUnchanged ⟨initial,some []⟩ ls := by
  have hstates : EveryState ClusterManager.step (Follows initial) ⟨initial,some []⟩ ls := by
    refine everyState_of_everyStep (fun cm l _ cm' hcm hstep hl => ?_) ⟨[],rfl,fun _ => rfl⟩ h
    obtain rfl := Option.some.inj hstep
    exact (hcm.call hl).1
  refine ⟨hstates,fun p l hp cm cm' hcm hstep => ?_⟩
  obtain rfl := Option.some.inj hstep
  exact ((hstates p ((List.prefix_append p [l]).trans hp) cm hcm).call (h p l hp cm _ hcm rfl)).2

/-- A learner joins, gets another URL and is promoted; a second member finds no room. -/
theorem tables_follow_four :
    EveryState ClusterManager.step (Follows ∅) ⟨∅,some []⟩
      [(true,.addMember 7 [[1]] true),(true,.updateMember 7 [[2]]),(true,.promoteMember 7),
        (false,.addMember 8 [] false)] := by
  refine (tables_follow ∅ ?_).1
  refine everyStep_of_some rfl (fun _ => ⟨rfl,fun hvoter => by cases hvoter⟩) ?_
  refine everyStep_of_some rfl (fun _ => ⟨rfl,[2],by decide,rfl⟩) ?_
  exact everyStep_of_some rfl trivial (everyStep_of_some rfl (fun hroom => by cases hroom)
    (everyStep_nil _))

/-- An update that finds the channel full returns an error and has changed the table; a member
with two URLs arrives with one. -/
theorem tables_differ :
    (let cm : ClusterManager := ⟨(∅ : Table).insert 7 ⟨7,[],[[1]],[],false,false⟩,some []⟩
    (∃ err, (cm.updateMember false 7 [[2]]).1 = .error err) ∧
      (cm.updateMember false 7 [[2]]).2.members ≠ cm.members) ∧
    ¬ Follows ∅ ((⟨∅,some []⟩ : ClusterManager).addMember true 7 [[1],[2]] false).2 := by
  refine ⟨⟨⟨_,rfl⟩,fun heq => ?_⟩,?_⟩
  · have hseven := congrArg (fun members => shown members 7) heq
    exact absurd hseven (by decide +kernel)
  · rintro ⟨ccs,hsent,hshown⟩
    obtain rfl := Option.some.inj hsent
    exact absurd (hshown 7) (by decide +kernel)

end Follow

/-- The server, with the removals that have passed the check for the last member. -/
structure Server where
  clusterMgr : ClusterManager
  removing : ℕ → Option ℕ

/-- Member requests; a removal lists the members and removes one under a lock of its own. -/
inductive Request
  | memberAdd (room : Bool) (memberID : ℕ) (peerURLs : List Bytes) (isLearner : Bool)
  | listMembers (caller id : ℕ)
  | removeMember (caller : ℕ) (room : Bool)
  | memberUpdate (room : Bool) (id : ℕ) (peerURLs : List Bytes)
  | memberPromote (room : Bool) (id : ℕ)
  deriving DecidableEq, Repr

def Server.step (s : Server) : Request → Option Server
  | .memberAdd room id peerURLs isLearner =>
    some { s with clusterMgr := (s.clusterMgr.addMember room id peerURLs isLearner).2 }
  | .listMembers caller id =>
    if s.removing caller = none then
      some (if s.clusterMgr.members.size ≤ 1 then s
        else { s with removing := Function.update s.removing caller (some id) })
    else none
  | .removeMember caller room => (s.removing caller).map fun id =>
      ⟨(s.clusterMgr.removeMember room id).2,Function.update s.removing caller none⟩
  | .memberUpdate room id peerURLs =>
    some { s with clusterMgr := (s.clusterMgr.updateMember room id peerURLs).2 }
  | .memberPromote room id =>
    some { s with clusterMgr := (s.clusterMgr.promoteMember room id).2 }

def HasVoterBeside (members : Table) (id : ℕ) : Prop :=
  ∃ (k : ℕ) (member : MemberInfo), k ≠ id ∧ members[k]? = some member ∧ member.isLearner = false

def HasVoter (members : Table) : Prop :=
  ∃ (k : ℕ) (member : MemberInfo), members[k]? = some member ∧ member.isLearner = false

/-- A member that is removed, or replaced by a learner with its id, leaves a voter. -/
def Spares (s : Server) : Request → Prop
  | .memberAdd room id _ isLearner => s.clusterMgr.accepts room = true → isLearner = true →
      HasVoterBeside s.clusterMgr.members id
  | .removeMember caller room => s.clusterMgr.accepts room = true →
      ∀ id, s.removing caller = some id → HasVoterBeside s.clusterMgr.members id
  | _ => True

section Voters
variable {members : Table} {id : ℕ} {member : MemberInfo}

lemma hasVoter_insert :
    HasVoter (members.insert id member) ↔ member.isLearner = false ∨ HasVoterBeside members id := by
  constructor
  · rintro ⟨k,m,hm,hvoter⟩
    rw [ExtTreeMap.getElem?_insert] at hm
    split_ifs at hm with heq
    · obtain rfl := Option.some.inj hm
      exact .inl hvoter
    · exact .inr ⟨k,m,fun h => heq (by rw [h]; exact ReflCmp.compare_self),hm,hvoter⟩
  · rintro (hvoter | ⟨k,m,hne,hm,hvoter⟩)
    · exact ⟨id,member,by simp,hvoter⟩
    · refine ⟨k,m,?_,hvoter⟩
      rw [ExtTreeMap.getElem?_insert,if_neg fun h => hne (LawfulEqCmp.eq_of_compare h).symm,hm]

lemma hasVoter_erase : HasVoter (members.erase id) ↔ HasVoterBeside members id := by
  constructor
  · rintro ⟨k,m,hm,hvoter⟩
    rw [ExtTreeMap.getElem?_erase] at hm
    split_ifs at hm with heq
    exact ⟨k,m,fun h => heq (by rw [h]; exact ReflCmp.compare_self),hm,hvoter⟩
  · rintro ⟨k,m,hne,hm,hvoter⟩
    refine ⟨k,m,?_,hvoter⟩
    rw [ExtTreeMap.getElem?_erase,if_neg fun h => hne (LawfulEqCmp.eq_of_compare h).symm,hm]

lemma HasVoter.cases (h : HasVoter members) (id : ℕ) :
    (∃ member : MemberInfo, members[id]? = some member ∧ member.isLearner = false) ∨
      HasVoterBeside members id := by
  obtain ⟨k,member,hm,hvoter⟩ := h
  obtain rfl | hne := eq_or_ne k id
  · exact .inl ⟨member,hm,hvoter⟩
  · exact .inr ⟨k,member,hne,hm,hvoter⟩

lemma hasVoter_propose {cm : ClusterManager} {room : Bool} {α : Type} {cc : ConfChange} {result : α}
    (h : HasVoter cm.members) : HasVoter (cm.propose room cc members result).2.members ↔
      (cm.accepts room = true → HasVoter members) := by
  unfold ClusterManager.propose
  split_ifs with haccepts
  · exact ⟨fun h _ => h,fun h => h haccepts⟩
  · exact iff_of_true h fun h => absurd h haccepts

end Voters

lemma hasVoter_step {s t : Server} {l : Request} (h : HasVoter s.clusterMgr.members)
    (hstep : s.step l = some t) : HasVoter t.clusterMgr.members ↔ Spares s l := by
  cases l with
  | memberAdd room id peerURLs isLearner =>
    obtain rfl := Option.some.inj hstep
    refine (hasVoter_propose h).trans (forall_congr' fun _ => hasVoter_insert.trans ?_)
    cases isLearner with
    | false => exact iff_of_true (.inl rfl) fun hlearner => by cases hlearner
    | true => exact ⟨fun hbeside _ => hbeside.resolve_left (by simp),fun hbeside => .inr (hbeside rfl)⟩
  | listMembers caller id =>
    simp only [Server.step] at hstep
    split_ifs at hstep with hidle hlast
    · exact iff_of_true (Option.some.inj hstep ▸ h) trivial
    · exact iff_of_true (Option.some.inj hstep ▸ h) trivial
  | removeMember caller room =>
    obtain ⟨id,hid,rfl⟩ := Option.map_eq_some_iff.mp hstep
    have hspares : Spares s (.removeMember caller room) ↔
        (s.clusterMgr.accepts room = true → HasVoterBeside s.clusterMgr.members id) :=
      forall_congr' fun _ => ⟨fun hall => hall id hid,
        fun hbeside id' hid' => Option.some.inj (hid.symm.trans hid') ▸ hbeside⟩
    rw [hspares]
    simp only [ClusterManager.removeMember]
    split_ifs with hmem
    · exact (hasVoter_propose h).trans (forall_congr' fun _ => hasVoter_erase)
    · refine iff_of_true h fun _ => (h.cases id).resolve_left ?_
      rintro ⟨member,hm,-⟩
      exact hmem (by rw [ExtTreeMap.mem_iff_isSome_getElem?,hm]; rfl)
  | memberUpdate room id peerURLs =>
    obtain rfl := Option.some.inj hstep
    refine iff_of_true ?_ trivial
    simp only [ClusterManager.updateMember]
    cases hmember : s.clusterMgr.members[id]? with
    | none => exact h
    | some member =>
      have hnew : HasVoter (s.clusterMgr.members.insert id { member with peerURLs }) := by
        rw [hasVoter_insert]
        obtain ⟨member',hm,hvoter⟩ | hbeside := h.cases id
        · obtain rfl := Option.some.inj (hmember.symm.trans hm)
          exact .inl hvoter
        · exact .inr hbeside
      exact (hasVoter_propose hnew).mpr fun _ => hnew
  | memberPromote room id =>
    obtain rfl := Option.some.inj hstep
    refine iff_of_true ?_ trivial
    simp only [ClusterManager.promoteMember]
    cases s.clusterMgr.members[id]? with
    | none => exact h
    | some member =>
      dsimp only
      split_ifs
      · exact (hasVoter_propose h).mpr fun _ => hasVoter_insert.mpr (.inl rfl)
      · exact h

/-- The cluster keeps a voter exactly in the runs whose steps each spare one. -/
theorem keeps_voter_iff (s : Server) (h : HasVoter s.clusterMgr.members) (ls : List Request) :
    EveryState Server.step (fun t => HasVoter t.clusterMgr.members) s ls ↔
      EveryStep Server.step (fun t l _ => Spares t l) s ls :=
  always_iff (fun _ _ _ ht hstep => hasVoter_step ht hstep) h ls

/-- One of two voters is removed. -/
theorem keeps_voter_two :
    let one : MemberInfo := ⟨1,[],[],[],false,false⟩
    let two : MemberInfo := ⟨2,[],[],[],false,false⟩
    EveryState Server.step (fun t => HasVoter t.clusterMgr.members)
      ⟨⟨((∅ : Table).insert 1 one).insert 2 two,none⟩,fun _ => none⟩
      [.listMembers 0 1,.removeMember 0 true] := by
  refine (keeps_voter_iff _ ⟨2,⟨2,[],[],[],false,false⟩,rfl,rfl⟩ _).mpr ?_
  refine everyStep_of_some rfl trivial (everyStep_of_some rfl ?_ (everyStep_nil _))
  intro _ id hid
  obtain rfl := Option.some.inj hid
  exact ⟨2,⟨2,[],[],[],false,false⟩,by decide,rfl,rfl⟩

/-- With one voter and one learner the voter can be removed. -/
theorem last_voter_removed :
    let voter : MemberInfo := ⟨1,[],[],[],false,false⟩
    let learner : MemberInfo := ⟨2,[],[],[],true,false⟩
    let s : Server := ⟨⟨((∅ : Table).insert 1 voter).insert 2 learner,some []⟩,fun _ => none⟩
    HasVoter s.clusterMgr.members ∧
    ∃ t, [.listMembers 0 1,.removeMember 0 true].foldlM Server.step s = some t ∧
      ¬ HasVoter t.clusterMgr.members := by
  intro voter learner s
  refine ⟨⟨1,voter,rfl,rfl⟩,_,rfl,fun hvoter => ?_⟩
  obtain ⟨k,member,hne,hm,hvoter⟩ := hasVoter_erase.mp hvoter
  have hm : (((∅ : Table).insert 1 voter).insert 2 learner)[k]? = some member := hm
  rw [ExtTreeMap.getElem?_insert,ExtTreeMap.getElem?_insert] at hm
  split_ifs at hm with htwo hone
  · obtain rfl := Option.some.inj hm
    cases hvoter
  · exact hne (LawfulEqCmp.eq_of_compare hone).symm
  · exact absurd hm (by simp)

end MetaStore.Members
