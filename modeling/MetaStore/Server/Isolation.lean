import MetaStore.Library.Transition
import MetaStore.Server.Streams

/-! Watches of several streams. All streams share one table of watches, in which the numbers that
clients choose stand beside those that the server draws. Every watch is traced to the stream on
which it was created. -/
namespace MetaStore.Streams
open Std Transition

variable {σ : Type*}

section Tables
variable (cfg : Config σ) (s : Server σ)
variable {r : WatchCreateRequest}

def Server.Refuses (id : ℤ) : Prop :=
  s.stopped = true ∨ (0 < cfg.maxWatchCount ∧ cfg.maxWatchCount ≤ s.watches.size) ∨
    id ∈ s.watches ∨ id ∈ s.subscriptions

def Server.nextAfter (r : WatchCreateRequest) : ℤ :=
  if r.watchId ≠ 0 then s.nextID else s.nextID+1

def WatchCreateRequest.subscription (r : WatchCreateRequest) : WatchSubscription :=
  ⟨r.key,r.rangeEnd,r.prevKv,convertFilters r.filters⟩

lemma createWithID_of_refuses {id : ℤ} (h : s.Refuses cfg id) (r : WatchCreateRequest) :
    s.createWithID cfg id r = (s,-1) := by
  unfold Server.createWithID
  obtain h | h | h | h := h
  · rw [if_pos h]
  · rw [if_pos h]
    split_ifs <;> rfl
  · rw [if_pos h]
    split_ifs <;> rfl
  · rw [if_pos h]
    split_ifs <;> rfl

lemma createWithID_of_accepts {id : ℤ} (h : ¬ s.Refuses cfg id) (r : WatchCreateRequest) :
    s.createWithID cfg id r =
      ({ s with
          watches := s.watches.insert id
          subscriptions := s.subscriptions.insert id r.subscription },id) := by
  simp only [Server.Refuses,not_or] at h
  unfold Server.createWithID
  rw [if_neg h.1,if_neg h.2.1,if_neg h.2.2.1,if_neg h.2.2.2]
  rfl

lemma openWatch_of_refuses (h : s.Refuses cfg (s.watchID r)) :
    s.openWatch cfg r = ({ s with nextID := s.nextAfter r },-1) := by
  unfold Server.openWatch Server.nextAfter
  by_cases hr : r.watchId ≠ 0
  · rw [Server.watchID,if_pos hr] at h
    rw [if_pos hr,if_pos hr,createWithID_of_refuses cfg s h]
  · rw [Server.watchID,if_neg hr] at h
    rw [if_neg hr,if_neg hr,Server.create]
    exact createWithID_of_refuses cfg { s with nextID := s.nextID+1 } h r

lemma openWatch_of_accepts (h : ¬ s.Refuses cfg (s.watchID r)) :
    s.openWatch cfg r =
      ({ s with
          nextID := s.nextAfter r
          watches := s.watches.insert (s.watchID r)
          subscriptions := s.subscriptions.insert (s.watchID r) r.subscription },s.watchID r) := by
  unfold Server.openWatch Server.nextAfter
  by_cases hr : r.watchId ≠ 0
  · rw [Server.watchID,if_pos hr] at h ⊢
    rw [if_pos hr,if_pos hr,createWithID_of_accepts cfg s h]
  · rw [Server.watchID,if_neg hr] at h ⊢
    rw [if_neg hr,if_neg hr,Server.create]
    exact createWithID_of_accepts cfg { s with nextID := s.nextID+1 } h r

variable {s}

lemma mem_watches_cancel (id k : ℤ) : k ∈ (s.cancel id).watches ↔ k ∈ s.watches ∧ k ≠ id := by
  unfold Server.cancel
  split_ifs with hid
  · dsimp only
    rw [ExtTreeSet.mem_erase,and_comm,Ne,Ne,Std.compare_eq_iff_eq,eq_comm]
  · exact ⟨fun hk => ⟨hk,fun heq => hid (heq ▸ hk)⟩,And.left⟩

lemma mem_subscriptions_cancel (id k : ℤ) : k ∈ (s.cancel id).subscriptions ↔
    k ∈ s.subscriptions ∧ ¬ (k = id ∧ id ∈ s.watches) := by
  unfold Server.cancel
  split_ifs with hid
  · dsimp only
    rw [ExtTreeMap.mem_erase,and_comm,Ne,Std.compare_eq_iff_eq,eq_comm]
    exact and_congr_right fun _ => ⟨fun hne heq => hne heq.1,fun hne heq => hne ⟨heq,hid⟩⟩
  · exact ⟨fun hk => ⟨hk,fun heq => hid heq.2⟩,And.left⟩

lemma streamWatches_cancel (id : ℤ) : (s.cancel id).streamWatches = s.streamWatches := by
  unfold Server.cancel
  split_ifs <;> rfl

lemma nextID_cancel (id : ℤ) : (s.cancel id).nextID = s.nextID := by
  unfold Server.cancel
  split_ifs <;> rfl

lemma stopped_cancel (id : ℤ) : (s.cancel id).stopped = s.stopped := by
  unfold Server.cancel
  split_ifs <;> rfl

lemma tables_cancels (ids : List ℤ) (s : Server σ) :
    (∀ k, k ∈ (ids.foldl Server.cancel s).watches ↔ k ∈ s.watches ∧ k ∉ ids) ∧
      (∀ k, k ∈ (ids.foldl Server.cancel s).subscriptions ↔
        k ∈ s.subscriptions ∧ ¬ (k ∈ ids ∧ k ∈ s.watches)) ∧
      (ids.foldl Server.cancel s).streamWatches = s.streamWatches ∧
      (ids.foldl Server.cancel s).nextID = s.nextID ∧
      (ids.foldl Server.cancel s).stopped = s.stopped := by
  induction ids generalizing s with
  | nil => simp
  | cons id ids ih =>
    obtain ⟨hwatches,hsubs,hstream,hnext,hstopped⟩ := ih (s.cancel id)
    rw [streamWatches_cancel] at hstream
    rw [nextID_cancel] at hnext
    rw [stopped_cancel] at hstopped
    refine ⟨fun k => ?_,fun k => ?_,hstream,hnext,hstopped⟩
    · rw [List.foldl_cons,hwatches,mem_watches_cancel,List.mem_cons]
      tauto
    · rw [List.foldl_cons,hsubs,mem_subscriptions_cancel,mem_watches_cancel,List.mem_cons]
      constructor
      · rintro ⟨⟨hk,hne⟩,hrest⟩
        refine ⟨hk,?_⟩
        rintro ⟨rfl | hmem,hwatch⟩
        · exact hne ⟨rfl,hwatch⟩
        · by_cases hkid : k = id
          · exact hne ⟨hkid,hkid ▸ hwatch⟩
          · exact hrest ⟨hmem,hwatch,hkid⟩
      · rintro ⟨hk,hne⟩
        exact ⟨⟨hk,fun h => hne ⟨Or.inl h.1,h.1 ▸ h.2⟩⟩,fun h => hne ⟨Or.inr h.1,h.2.1⟩⟩

lemma watchesOf_insert (s : Server σ) (i j : ℕ) (ids : ExtTreeSet ℤ) :
    ({ s with streamWatches := s.streamWatches.insert i ids } : Server σ).watchesOf j =
      if j = i then ids else s.watchesOf j := by
  unfold Server.watchesOf
  rw [ExtTreeMap.getD_insert]
  simp only [Std.compare_eq_iff_eq]
  by_cases h : i = j
  · rw [if_pos h,if_pos h.symm]
  · rw [if_neg h,if_neg (Ne.symm h)]

lemma watchesOf_erase (s : Server σ) (i j : ℕ) :
    ({ s with streamWatches := s.streamWatches.erase i } : Server σ).watchesOf j =
      if j = i then ∅ else s.watchesOf j := by
  unfold Server.watchesOf
  rw [ExtTreeMap.getD_erase]
  simp only [Std.compare_eq_iff_eq]
  by_cases h : i = j
  · rw [if_pos h,if_pos h.symm]
  · rw [if_neg h,if_neg (Ne.symm h)]

lemma createNext_of_refuses (s : Server σ) (stream : ℕ)
    (h : s.Refuses cfg (s.watchID r)) : createNext cfg s stream r = { s with nextID := s.nextAfter r } := by
  rw [createNext,openWatch_of_refuses cfg s h]
  rfl

lemma createNext_of_accepts (s : Server σ) (stream : ℕ)
    (h : ¬ s.Refuses cfg (s.watchID r)) :
    createNext cfg s stream r =
      { s with
        nextID := s.nextAfter r
        watches := s.watches.insert (s.watchID r)
        subscriptions := s.subscriptions.insert (s.watchID r) r.subscription
        streamWatches := if 0 < s.watchID r then
            s.streamWatches.insert stream ((s.watchesOf stream).insert (s.watchID r))
          else s.streamWatches } := by
  rw [createNext,openWatch_of_accepts cfg s h]
  dsimp only
  split_ifs <;> rfl

lemma watchesOf_cancelNext (s : Server σ) (i j : ℕ) (watchID : ℤ) :
    (cancelNext s i watchID).watchesOf j =
      if j = i then (s.watchesOf i).erase watchID else s.watchesOf j := by
  have hold : ∀ k, (s.cancel watchID).watchesOf k = s.watchesOf k := by
    intro k
    rw [Server.watchesOf,streamWatches_cancel]
    rfl
  rw [cancelNext,watchesOf_insert,hold,hold]

lemma mem_watches_closeNext (s : Server σ) (i : ℕ) (id : ℤ) :
    id ∈ (closeNext s i).watches ↔ id ∈ s.watches ∧ id ∉ s.watchesOf i :=
  ((tables_cancels (s.watchesOf i).toList s).1 id).trans
    (and_congr_right fun _ => not_congr ExtTreeSet.mem_toList)

lemma mem_subscriptions_closeNext (s : Server σ) (i : ℕ) (id : ℤ) :
    id ∈ (closeNext s i).subscriptions ↔
      id ∈ s.subscriptions ∧ ¬ (id ∈ s.watchesOf i ∧ id ∈ s.watches) := by
  refine ((tables_cancels (s.watchesOf i).toList s).2.1 id).trans ?_
  rw [ExtTreeSet.mem_toList]

lemma watchesOf_closeNext (s : Server σ) (i j : ℕ) :
    (closeNext s i).watchesOf j = if j = i then ∅ else s.watchesOf j := by
  have hold : ∀ k, ((s.watchesOf i).toList.foldl Server.cancel s).watchesOf k = s.watchesOf k := by
    intro k
    rw [Server.watchesOf,(tables_cancels (s.watchesOf i).toList s).2.2.1]
    rfl
  rw [closeNext,watchesOf_erase,hold]

end Tables

inductive WatchCall
  | request (stream : ℕ) (req : WatchRequest)
  | close (stream : ℕ)

def WatchCall.stream : WatchCall → ℕ
  | .request stream _ => stream
  | .close stream => stream

/-- `owner` has the stream on which a watch was created. -/
structure Owned (σ : Type*) where
  server : Server σ
  owner : ℤ → Option ℕ

def Owned.fresh (authMgr : Auth.AuthManager σ) : Owned σ :=
  ⟨⟨authMgr,∅,0,false,∅,∅,∅,∅⟩,fun _ => none⟩

section Isolation
variable (cfg : Config σ)

def WatchCall.serve (s : Server σ) : WatchCall → Server σ
  | .request stream (.create r) => createNext cfg s stream r
  | .request stream (.cancel watchID) => cancelNext s stream watchID
  | .request _ .progress => s
  | .close stream => closeNext s stream

def Owned.record (s : Owned σ) (t : Server σ) (stream : ℕ) : Owned σ :=
  ⟨t,fun id => if id ∈ t.watches ∧ id ∉ s.server.watches then some stream else s.owner id⟩

def watchStep (s : Owned σ) (c : WatchCall) : Option (Owned σ) :=
  some (s.record (c.serve cfg s.server) c.stream)

/-- The numbers that the requests for watches on a stream are answered with; those that are refused
get a negative one. -/
def created (stream : ℕ) (s : Server σ) : WatchCall → List ℤ
  | .request i (.create r) => if i = stream then [(s.openWatch cfg r).2] else []
  | _ => []

def results (stream : ℕ) : Server σ → List WatchCall → List ℤ
  | _,[] => []
  | s,c :: calls => created cfg stream s c ++ results stream (c.serve cfg s) calls

def OwnOnly (s : Owned σ) (c : WatchCall) (t : Owned σ) : Prop :=
  ∀ id, id ∈ s.server.watches → id ∉ t.server.watches → s.owner id = some c.stream

def BelowLimit (s : Owned σ) : Prop :=
  ¬ (0 < cfg.maxWatchCount ∧ cfg.maxWatchCount ≤ s.server.watches.size)

/-- Two calls that one stream cannot tell apart: they differ in the numbers that other streams have
chosen. -/
inductive Alike (stream : ℕ) : WatchCall → WatchCall → Prop
  | same (c : WatchCall) : Alike stream c c
  | create {i : ℕ} (hi : i ≠ stream) {r r' : WatchCreateRequest} (hr : r.watchId ≠ 0)
      (hr' : r'.watchId ≠ 0) : Alike stream (.request i (.create r)) (.request i (.create r'))
  | cancel {i : ℕ} (hi : i ≠ stream) (id id' : ℤ) :
      Alike stream (.request i (.cancel id)) (.request i (.cancel id'))

/-- No watch of another stream has the number that a request cancels, or that a new watch is to
get. -/
def WatchCall.Safe (s : Owned σ) : WatchCall → Prop
  | .request i (.create r) =>
    s.server.watchID r ∈ s.server.watches → s.owner (s.server.watchID r) = some i
  | .request i (.cancel id) => id ∈ s.server.watches → s.owner id = some i
  | _ => True

def Owned.Has (s : Owned σ) (stream : ℕ) (id : ℤ) : Prop :=
  id ∈ s.server.watches ∧ s.owner id = some stream

/-- The store has the watches of the manager, and streams remember watches of their own only. -/
structure Traced (s : Owned σ) : Prop where
  running : s.server.stopped = false
  same : ∀ id, id ∈ s.server.subscriptions ↔ id ∈ s.server.watches
  tracked : ∀ i id, id ∈ s.server.watchesOf i → s.Has i id

variable {cfg} {s s' t t' : Owned σ}

lemma has_record {u : Server σ} (hsub : ∀ id, id ∈ u.watches → id ∈ s.server.watches) (stream i : ℕ)
    (id : ℤ) : (s.record u stream).Has i id ↔ id ∈ u.watches ∧ s.Has i id := by
  have howner : id ∈ u.watches → (s.record u stream).owner id = s.owner id :=
    fun hid => if_neg fun h => h.2 (hsub id hid)
  constructor
  · rintro ⟨hid,hi⟩
    exact ⟨hid,hsub id hid,(howner hid).symm.trans hi⟩
  · rintro ⟨hid,-,hi⟩
    exact ⟨hid,(howner hid).trans hi⟩

lemma has_of_subset {c : WatchCall} (ht : watchStep cfg s c = some t)
    (hsub : ∀ id, id ∈ t.server.watches → id ∈ s.server.watches) (i : ℕ) (id : ℤ) :
    t.Has i id ↔ id ∈ t.server.watches ∧ s.Has i id := by
  obtain rfl := Option.some.inj ht
  exact has_record hsub c.stream i id

section Calls
variable {i : ℕ} {r : WatchCreateRequest} {watchID : ℤ}

lemma create_of_refuses (hrefuses : s.server.Refuses cfg (s.server.watchID r))
    (ht : watchStep cfg s (.request i (.create r)) = some t) :
    t = { s with server := { s.server with nextID := s.server.nextAfter r } } := by
  obtain rfl := Option.some.inj ht
  have hserver := createNext_of_refuses cfg s.server i hrefuses
  simp only [Owned.record,WatchCall.serve,hserver]
  congr 1
  funext id
  exact if_neg fun h => h.2 h.1

lemma has_create (haccepts : ¬ s.server.Refuses cfg (s.server.watchID r))
    (ht : watchStep cfg s (.request i (.create r)) = some t) (j : ℕ) (id : ℤ) :
    t.Has j id ↔ s.Has j id ∨ j = i ∧ id = s.server.watchID r := by
  obtain rfl := Option.some.inj ht
  have hnew : s.server.watchID r ∉ s.server.watches := fun h => haccepts (Or.inr (Or.inr (Or.inl h)))
  have hmem : ∀ k, k ∈ (createNext cfg s.server i r).watches ↔
      k = s.server.watchID r ∨ k ∈ s.server.watches := by
    intro k
    rw [createNext_of_accepts cfg s.server i haccepts]
    dsimp only
    rw [ExtTreeSet.mem_insert,Std.compare_eq_iff_eq,eq_comm]
  simp only [Owned.Has,Owned.record,WatchCall.serve,WatchCall.stream,hmem]
  by_cases hid : id = s.server.watchID r
  · subst hid
    rw [if_pos ⟨Or.inl rfl,hnew⟩]
    constructor
    · rintro ⟨-,hi⟩
      exact Or.inr ⟨(Option.some.inj hi).symm,rfl⟩
    · rintro (⟨hold,-⟩ | ⟨rfl,-⟩)
      · exact absurd hold hnew
      · exact ⟨Or.inl rfl,rfl⟩
  · rw [if_neg fun h => h.1.elim hid h.2]
    constructor
    · rintro ⟨hmem | hmem,hi⟩
      · exact absurd hmem hid
      · exact Or.inl ⟨hmem,hi⟩
    · rintro (⟨hmem,hi⟩ | ⟨-,hmem⟩)
      · exact ⟨Or.inr hmem,hi⟩
      · exact absurd hmem hid

lemma watchesOf_create (haccepts : ¬ s.server.Refuses cfg (s.server.watchID r))
    (ht : watchStep cfg s (.request i (.create r)) = some t) (j : ℕ) :
    t.server.watchesOf j = if j = i ∧ 0 < s.server.watchID r then
      (s.server.watchesOf i).insert (s.server.watchID r) else s.server.watchesOf j := by
  obtain rfl := Option.some.inj ht
  dsimp only [WatchCall.serve]
  rw [createNext_of_accepts cfg s.server i haccepts]
  by_cases hpos : 0 < s.server.watchID r
  · simp only [hpos,and_true]
    exact watchesOf_insert { s.server with
      nextID := s.server.nextAfter r
      watches := s.server.watches.insert (s.server.watchID r)
      subscriptions := s.server.subscriptions.insert (s.server.watchID r) r.subscription } i j _
  · simp only [hpos,and_false,if_false]
    rfl

lemma mem_watches_cancelled (ht : watchStep cfg s (.request i (.cancel watchID)) = some t) (id : ℤ) :
    id ∈ t.server.watches ↔ id ∈ s.server.watches ∧ id ≠ watchID := by
  obtain rfl := Option.some.inj ht
  exact mem_watches_cancel watchID id

lemma has_cancel (ht : watchStep cfg s (.request i (.cancel watchID)) = some t) (j : ℕ) (id : ℤ) :
    t.Has j id ↔ s.Has j id ∧ id ≠ watchID := by
  have hmem := mem_watches_cancelled ht
  rw [has_of_subset ht (fun k hk => ((hmem k).mp hk).1),hmem]
  exact ⟨fun h => ⟨h.2,h.1.2⟩,fun h => ⟨⟨h.1.1,h.2⟩,h.1⟩⟩

lemma watchesOf_cancel (ht : watchStep cfg s (.request i (.cancel watchID)) = some t) (j : ℕ) :
    t.server.watchesOf j = if j = i then (s.server.watchesOf i).erase watchID
      else s.server.watchesOf j := by
  obtain rfl := Option.some.inj ht
  exact watchesOf_cancelNext s.server i j watchID

lemma mem_watches_closed (ht : watchStep cfg s (.close i) = some t) (id : ℤ) :
    id ∈ t.server.watches ↔ id ∈ s.server.watches ∧ id ∉ s.server.watchesOf i := by
  obtain rfl := Option.some.inj ht
  exact mem_watches_closeNext s.server i id

lemma has_close (ht : watchStep cfg s (.close i) = some t) (j : ℕ) (id : ℤ) :
    t.Has j id ↔ s.Has j id ∧ id ∉ s.server.watchesOf i := by
  have hmem := mem_watches_closed ht
  rw [has_of_subset ht (fun k hk => ((hmem k).mp hk).1),hmem]
  exact ⟨fun h => ⟨h.2,h.1.2⟩,fun h => ⟨⟨h.1.1,h.2⟩,h.1⟩⟩

lemma watchesOf_close (ht : watchStep cfg s (.close i) = some t) (j : ℕ) :
    t.server.watchesOf j = if j = i then ∅ else s.server.watchesOf j := by
  obtain rfl := Option.some.inj ht
  exact watchesOf_closeNext s.server i j

end Calls

lemma Traced.refuses_iff (h : Traced s) (hroom : BelowLimit cfg s) (id : ℤ) :
    s.server.Refuses cfg id ↔ id ∈ s.server.watches := by
  rw [Server.Refuses,h.running,h.same]
  constructor
  · rintro (hstop | hlimit | hid | hid)
    · cases hstop
    · exact absurd hlimit hroom
    · exact hid
    · exact hid
  · exact fun hid => Or.inr (Or.inr (Or.inl hid))

lemma traced_fresh (authMgr : Auth.AuthManager σ) : Traced (.fresh authMgr) where
  running := rfl
  same id := by simp [Owned.fresh]
  tracked i id h := by simp [Owned.fresh,Server.watchesOf] at h

namespace Traced
variable {c : WatchCall}

lemma create (h : Traced s) {i : ℕ} {r : WatchCreateRequest}
    (ht : watchStep cfg s (.request i (.create r)) = some t) : Traced t := by
  by_cases hrefuses : s.server.Refuses cfg (s.server.watchID r)
  · obtain rfl := create_of_refuses hrefuses ht
    exact ⟨h.running,h.same,h.tracked⟩
  · have hhas := has_create hrefuses ht
    have hof := watchesOf_create hrefuses ht
    refine ⟨?_,?_,?_⟩
    · obtain rfl := Option.some.inj ht
      dsimp only [WatchCall.serve]
      rw [createNext_of_accepts cfg s.server i hrefuses]
      exact h.running
    · obtain rfl := Option.some.inj ht
      intro id
      dsimp only [Owned.record,WatchCall.serve]
      rw [createNext_of_accepts cfg s.server i hrefuses,ExtTreeMap.mem_insert,ExtTreeSet.mem_insert,
        h.same]
    · intro j id hid
      rw [hof] at hid
      rw [hhas]
      split_ifs at hid with hj
      · rw [ExtTreeSet.mem_insert,Std.compare_eq_iff_eq] at hid
        obtain hid | hid := hid
        · exact Or.inr ⟨hj.1,hid.symm⟩
        · exact Or.inl (hj.1 ▸ h.tracked i id hid)
      · exact Or.inl (h.tracked j id hid)

lemma cancel (h : Traced s) {i : ℕ} {watchID : ℤ} (hsafe : (WatchCall.request i (.cancel watchID)).Safe s)
    (ht : watchStep cfg s (.request i (.cancel watchID)) = some t) : Traced t := by
  have hmem := mem_watches_cancelled ht
  have hhas := has_cancel ht
  have hof := watchesOf_cancel ht
  refine ⟨?_,?_,?_⟩
  · obtain rfl := Option.some.inj ht
    exact (stopped_cancel watchID).trans h.running
  · intro id
    rw [hmem]
    obtain rfl := Option.some.inj ht
    refine (mem_subscriptions_cancel watchID id).trans ?_
    rw [h.same]
    exact and_congr_right fun hid => ⟨fun hne heq => hne ⟨heq,heq ▸ hid⟩,fun hne heq => hne heq.1⟩
  · intro j id hid
    rw [hof] at hid
    rw [hhas]
    split_ifs at hid with hj
    · rw [ExtTreeSet.mem_erase,Ne,Std.compare_eq_iff_eq] at hid
      exact ⟨hj ▸ h.tracked i id hid.2,fun heq => hid.1 heq.symm⟩
    · refine ⟨h.tracked j id hid,?_⟩
      -- the watch of the other stream is not the one that is cancelled
      rintro rfl
      obtain ⟨hlive,howner⟩ := h.tracked j id hid
      exact hj (Option.some.inj (howner.symm.trans (hsafe hlive)))

lemma close (h : Traced s) {i : ℕ} (ht : watchStep cfg s (.close i) = some t) : Traced t := by
  have hmem := mem_watches_closed ht
  have hhas := has_close ht
  have hof := watchesOf_close ht
  refine ⟨?_,?_,?_⟩
  · obtain rfl := Option.some.inj ht
    exact (tables_cancels _ s.server).2.2.2.2.trans h.running
  · intro id
    rw [hmem]
    obtain rfl := Option.some.inj ht
    refine (mem_subscriptions_closeNext s.server i id).trans ?_
    rw [h.same]
    exact and_congr_right fun hid => not_congr ⟨And.left,fun hi => ⟨hi,hid⟩⟩
  · intro j id hid
    rw [hof] at hid
    rw [hhas]
    split_ifs at hid with hj
    · exact absurd hid (by simp)
    · refine ⟨h.tracked j id hid,fun hi => hj ?_⟩
      exact Option.some.inj ((h.tracked j id hid).2.symm.trans (h.tracked i id hi).2)

lemma step (h : Traced s) (hsafe : c.Safe s) (ht : watchStep cfg s c = some t) :
    Traced t := by
  cases c with
  | close i => exact h.close ht
  | request i req =>
    cases req with
    | create r => exact h.create ht
    | cancel watchID => exact h.cancel hsafe ht
    | progress =>
      have hhas := has_of_subset ht (fun id hid => by obtain rfl := Option.some.inj ht; exact hid)
      obtain rfl := Option.some.inj ht
      exact ⟨h.running,h.same,fun j id hid => (hhas j id).mpr ⟨(h.tracked j id hid).1,h.tracked j id hid⟩⟩

/-- Watches leave the table by a cancellation or when their stream ends. -/
lemma ownOnly (h : Traced s) (hsafe : c.Safe s) (ht : watchStep cfg s c = some t) :
    OwnOnly s c t := by
  intro id hid hgone
  cases c with
  | close i =>
    rw [mem_watches_closed ht,not_and_not_right] at hgone
    exact (h.tracked i id (hgone hid)).2
  | request i req =>
    cases req with
    | create r =>
      by_cases hrefuses : s.server.Refuses cfg (s.server.watchID r)
      · obtain rfl := create_of_refuses hrefuses ht
        exact absurd hid hgone
      · obtain rfl := Option.some.inj ht
        dsimp only [WatchCall.serve] at hgone
        rw [createNext_of_accepts cfg s.server i hrefuses] at hgone
        exact absurd (ExtTreeSet.mem_insert.mpr (Or.inr hid)) hgone
    | cancel watchID =>
      rw [mem_watches_cancelled ht,not_and_not_right] at hgone
      exact (hgone hid) ▸ hsafe (hgone hid ▸ hid)
    | progress =>
      obtain rfl := Option.some.inj ht
      exact absurd hid hgone

lemma other (h : Traced s) (hsafe : c.Safe s) (ht : watchStep cfg s c = some t)
    {stream : ℕ} (hne : c.stream ≠ stream) :
    (∀ id, t.Has stream id ↔ s.Has stream id) ∧
      t.server.watchesOf stream = s.server.watchesOf stream := by
  cases c with
  | close i =>
    refine ⟨fun id => (has_close ht stream id).trans (and_iff_left_of_imp fun hid hi => hne ?_),
      (watchesOf_close ht stream).trans (if_neg (Ne.symm hne))⟩
    exact Option.some.inj ((h.tracked i id hi).2.symm.trans hid.2)
  | request i req =>
    cases req with
    | create r =>
      by_cases hrefuses : s.server.Refuses cfg (s.server.watchID r)
      · obtain rfl := create_of_refuses hrefuses ht
        exact ⟨fun _ => Iff.rfl,rfl⟩
      · refine ⟨fun id => (has_create hrefuses ht stream id).trans (or_iff_left fun hi => ?_),
          (watchesOf_create hrefuses ht stream).trans (if_neg fun hi => ?_)⟩
        · exact hne hi.1.symm
        · exact hne hi.1.symm
    | cancel watchID =>
      refine ⟨fun id => (has_cancel ht stream id).trans (and_iff_left_of_imp fun hid heq => hne ?_),
        (watchesOf_cancel ht stream).trans (if_neg (Ne.symm hne))⟩
      exact Option.some.inj ((hsafe (heq ▸ hid.1)).symm.trans (heq ▸ hid.2))
    | progress =>
      have hhas := has_of_subset ht (fun id hid => by obtain rfl := Option.some.inj ht; exact hid)
      obtain rfl := Option.some.inj ht
      exact ⟨fun id => (hhas stream id).trans (and_iff_right_of_imp And.left),rfl⟩

end Traced

structure Similar (stream : ℕ) (s s' : Owned σ) : Prop where
  nextID : s.server.nextID = s'.server.nextID
  has : ∀ id, s.Has stream id ↔ s'.Has stream id
  tracked : s.server.watchesOf stream = s'.server.watchesOf stream

def WatchCall.nextID (s : Server σ) : WatchCall → ℤ
  | .request _ (.create r) => s.nextAfter r
  | _ => s.nextID

lemma nextID_serve (cfg : Config σ) (s : Server σ) (c : WatchCall) :
    (c.serve cfg s).nextID = c.nextID s := by
  cases c with
  | close i => exact (tables_cancels _ s).2.2.2.1
  | request i req =>
    cases req with
    | create r =>
      change (createNext cfg s i r).nextID = s.nextAfter r
      by_cases hrefuses : s.Refuses cfg (s.watchID r)
      · rw [createNext_of_refuses cfg s i hrefuses]
      · rw [createNext_of_accepts cfg s i hrefuses]
    | cancel watchID => exact nextID_cancel watchID
    | progress => rfl

lemma refuses_iff_has (h : Traced s) (hroom : BelowLimit cfg s) {i : ℕ} {r : WatchCreateRequest}
    (hsafe : (WatchCall.request i (.create r)).Safe s) :
    s.server.Refuses cfg (s.server.watchID r) ↔ s.Has i (s.server.watchID r) :=
  (h.refuses_iff hroom _).trans ⟨fun hid => ⟨hid,hsafe hid⟩,And.left⟩

namespace Similar
variable {stream : ℕ}

lemma watchID_eq (h : Similar stream s s') (r : WatchCreateRequest) :
    s.server.watchID r = s'.server.watchID r := by
  rw [Server.watchID,Server.watchID,h.nextID]

lemma own (h : Similar stream s s') (hs : Traced s) (hs' : Traced s') (hroom : BelowLimit cfg s)
    (hroom' : BelowLimit cfg s') {c : WatchCall} (hc : c.stream = stream) (hsafe : c.Safe s)
    (hsafe' : c.Safe s') (ht : watchStep cfg s c = some t) (ht' : watchStep cfg s' c = some t') :
    (∀ id, t.Has stream id ↔ t'.Has stream id) ∧
      t.server.watchesOf stream = t'.server.watchesOf stream ∧
      created cfg stream s.server c = created cfg stream s'.server c := by
  cases c with
  | close i =>
    obtain rfl : i = stream := hc
    refine ⟨fun id => ?_,?_,rfl⟩
    · rw [has_close ht,has_close ht',h.has,h.tracked]
    · rw [watchesOf_close ht,watchesOf_close ht',if_pos rfl,if_pos rfl]
  | request i req =>
    obtain rfl : i = stream := hc
    cases req with
    | create r =>
      have hiff : s.server.Refuses cfg (s.server.watchID r) ↔
          s'.server.Refuses cfg (s'.server.watchID r) := by
        rw [refuses_iff_has hs hroom hsafe,refuses_iff_has hs' hroom' hsafe',h.has,h.watchID_eq]
      simp only [created,if_pos]
      by_cases hrefuses : s.server.Refuses cfg (s.server.watchID r)
      · have hrefuses' := hiff.mp hrefuses
        rw [openWatch_of_refuses cfg _ hrefuses,openWatch_of_refuses cfg _ hrefuses']
        obtain rfl := create_of_refuses hrefuses ht
        obtain rfl := create_of_refuses hrefuses' ht'
        exact ⟨h.has,h.tracked,rfl⟩
      · have hrefuses' := fun h' => hrefuses (hiff.mpr h')
        rw [openWatch_of_accepts cfg _ hrefuses,openWatch_of_accepts cfg _ hrefuses']
        refine ⟨fun id => ?_,?_,?_⟩
        · rw [has_create hrefuses ht,has_create hrefuses' ht',h.has,h.watchID_eq]
        · rw [watchesOf_create hrefuses ht,watchesOf_create hrefuses' ht',h.tracked,h.watchID_eq]
        · rw [h.watchID_eq]
    | cancel watchID =>
      refine ⟨fun id => ?_,?_,rfl⟩
      · rw [has_cancel ht,has_cancel ht',h.has]
      · rw [watchesOf_cancel ht,watchesOf_cancel ht',if_pos rfl,if_pos rfl,h.tracked]
    | progress =>
      have hhas := has_of_subset ht (fun id hid => by obtain rfl := Option.some.inj ht; exact hid)
      have hhas' := has_of_subset ht' (fun id hid => by obtain rfl := Option.some.inj ht'; exact hid)
      obtain rfl := Option.some.inj ht
      obtain rfl := Option.some.inj ht'
      refine ⟨fun id => ?_,h.tracked,rfl⟩
      rw [hhas,hhas']
      exact (and_iff_right_of_imp And.left).trans ((h.has id).trans (and_iff_right_of_imp And.left).symm)

lemma created_of_ne {c : WatchCall} (hc : c.stream ≠ stream) (s : Server σ) :
    created cfg stream s c = [] := by
  cases c with
  | close i => rfl
  | request i req =>
    cases req with
    | create r => exact if_neg hc
    | _ => rfl

lemma step (h : Similar stream s s') (hs : Traced s) (hs' : Traced s') (hroom : BelowLimit cfg s)
    (hroom' : BelowLimit cfg s') {c c' : WatchCall} (hc : Alike stream c c') (hsafe : c.Safe s)
    (hsafe' : c'.Safe s') (ht : watchStep cfg s c = some t) (ht' : watchStep cfg s' c' = some t') :
    Similar stream t t' ∧ created cfg stream s.server c = created cfg stream s'.server c' := by
  have hnext : t.server.nextID = t'.server.nextID := by
    obtain rfl := Option.some.inj ht
    obtain rfl := Option.some.inj ht'
    dsimp only [Owned.record]
    rw [nextID_serve,nextID_serve]
    cases hc with
    | same => cases c with
      | close i => exact h.nextID
      | request i req => cases req with
        | create r =>
          simp only [WatchCall.nextID,Server.nextAfter,h.nextID]
        | _ => exact h.nextID
    | create hi hr hr' =>
      simp only [WatchCall.nextID,Server.nextAfter,if_pos hr,if_pos hr',h.nextID]
    | cancel hi id id' => exact h.nextID
  have hother : c.stream ≠ stream → c'.stream ≠ stream →
      Similar stream t t' ∧ created cfg stream s.server c = created cfg stream s'.server c' := by
    intro hne hne'
    obtain ⟨hhas,hof⟩ := hs.other hsafe ht hne
    obtain ⟨hhas',hof'⟩ := hs'.other hsafe' ht' hne'
    refine ⟨⟨hnext,fun id => ?_,?_⟩,?_⟩
    · rw [hhas,hhas',h.has]
    · rw [hof,hof',h.tracked]
    · rw [created_of_ne hne,created_of_ne hne']
  cases hc with
  | same =>
    by_cases hstream : c.stream = stream
    · obtain ⟨hhas,hof,hcreated⟩ := h.own hs hs' hroom hroom' hstream hsafe hsafe' ht ht'
      exact ⟨⟨hnext,hhas,hof⟩,hcreated⟩
    · exact hother hstream hstream
  | create hi hr hr' => exact hother hi hi
  | cancel hi id id' => exact hother hi hi

lemma results_eq (h : Similar stream s s') (hs : Traced s) (hs' : Traced s')
    {calls calls' : List WatchCall} (hcalls : List.Forall₂ (Alike stream) calls calls')
    (hsafe : EveryStep (watchStep cfg) (fun s c _ => c.Safe s ∧ BelowLimit cfg s) s calls)
    (hsafe' : EveryStep (watchStep cfg) (fun s c _ => c.Safe s ∧ BelowLimit cfg s) s' calls') :
    results cfg stream s.server calls = results cfg stream s'.server calls' := by
  induction hcalls generalizing s s' with
  | nil => rfl
  | @cons c c' calls calls' hc _ ih =>
    obtain ⟨⟨hfirst,hroom⟩,hrest⟩ := everyStep_cons.mp hsafe _ rfl
    obtain ⟨⟨hfirst',hroom'⟩,hrest'⟩ := everyStep_cons.mp hsafe' _ rfl
    obtain ⟨hnext,hcreated⟩ := h.step hs hs' hroom hroom' hc hfirst hfirst' rfl rfl
    rw [results,results,hcreated]
    exact congrArg _ (ih hnext (hs.step hfirst rfl) (hs'.step hfirst' rfl) hrest hrest')

end Similar
end Isolation

/-- If no request on any stream names a watch of another stream, no call ends a watch of another
stream. The requests for watches on a stream are then answered in the same way whatever numbers the
other streams choose, as long as they do so too and the limit is not reached. -/
theorem streams_isolated (cfg : Config σ) (authMgr : Auth.AuthManager σ) (calls : List WatchCall)
    (h : EveryStep (watchStep cfg) (fun s c _ => c.Safe s) (.fresh authMgr) calls) :
    EveryStep (watchStep cfg) OwnOnly (.fresh authMgr) calls ∧
      ∀ stream calls', List.Forall₂ (Alike stream) calls calls' →
        EveryStep (watchStep cfg) (fun s c _ => c.Safe s) (.fresh authMgr) calls' →
        EveryStep (watchStep cfg) (fun s _ _ => BelowLimit cfg s) (.fresh authMgr) calls →
        EveryStep (watchStep cfg) (fun s _ _ => BelowLimit cfg s) (.fresh authMgr) calls' →
        results cfg stream (Owned.fresh authMgr).server calls =
          results cfg stream (Owned.fresh authMgr).server calls' := by
  have htraced : EveryState (watchStep cfg) Traced (.fresh authMgr) calls :=
    everyState_of_everyStep (fun s c _ t hs ht hsafe => hs.step hsafe ht) (traced_fresh authMgr) h
  constructor
  · intro p c hp s t hs ht
    exact (htraced p ((List.prefix_append p _).trans hp) s hs).ownOnly (h p c hp s t hs ht) ht
  · intro stream calls' halike h' hroom hroom'
    have hsame : Similar stream (Owned.fresh authMgr) (Owned.fresh authMgr) :=
      ⟨rfl,fun _ => Iff.rfl,rfl⟩
    refine hsame.results_eq (traced_fresh authMgr) (traced_fresh authMgr) halike ?_ ?_
    · exact fun p c hp s t hs ht => ⟨h p c hp s t hs ht,hroom p c hp s t hs ht⟩
    · exact fun p c hp s t hs ht => ⟨h' p c hp s t hs ht,hroom' p c hp s t hs ht⟩

def lockedServer {σ : Type*} (store : σ) : Server σ :=
  ⟨⟨store,true,∅,∅,∅,0⟩,∅,0,false,∅,∅,∅,∅⟩

def smallConfig (σ : Type*) : Config σ where
  clusterID := 1
  memberID := 1
  raftTerm := 1
  maxWatchCount := 10
  snapshotChunkSize := 4
  chunkSize_pos := by decide
  platform :=
    { putWithLease := fun s _ _ _ => (.error [],s)
      deleteRange := fun s _ _ => (.error [],s)
      marshalUser := fun _ => []
      marshalRole := fun _ => []
      marshalToken := fun _ => []
      compareHashAndPassword := fun _ _ => false }
  handle s _ := (.error ⟨.internal,[]⟩,s)

/-- Two streams with numbers of their own. -/
theorem streams_isolated_two :
    let request (stream : ℕ) (watchId : ℤ) : WatchCall := .request stream (.create { key := [], watchId })
    let fresh := Owned.fresh (lockedServer ()).authMgr
    EveryStep (watchStep (smallConfig Unit)) OwnOnly fresh [request 1 6,request 2 5] ∧
      results (smallConfig Unit) 2 fresh.server [request 1 6,request 2 5] =
        results (smallConfig Unit) 2 fresh.server [request 1 7,request 2 5] ∧
      results (smallConfig Unit) 2 fresh.server [request 1 6,request 2 5] = [5] := by
  intro request fresh
  have hboth : ∀ id : ℤ, id = 6 ∨ id = 7 → EveryStep (watchStep (smallConfig Unit))
      (fun s c _ => c.Safe s ∧ BelowLimit (smallConfig Unit) s) fresh [request 1 id,request 2 5] := by
    rintro id (rfl | rfl)
    all_goals
      refine everyStep_cons.mpr fun v hv => ⟨⟨fun hmem => absurd hmem (by decide +kernel),?_⟩,?_⟩
      · rw [BelowLimit]
        decide +kernel
      refine everyStep_cons.mpr fun w hw => ⟨?_,everyStep_nil w⟩
      obtain rfl := Option.some.inj hv
      refine ⟨fun hmem => absurd hmem (by decide +kernel),?_⟩
      rw [BelowLimit]
      decide +kernel
  have h₆ := hboth 6 (Or.inl rfl)
  have h₇ := hboth 7 (Or.inr rfl)
  obtain ⟨hown,hresults⟩ := streams_isolated (smallConfig Unit) (lockedServer ()).authMgr
    [request 1 6,request 2 5] fun p c hp s t hs ht => (h₆ p c hp s t hs ht).1
  refine ⟨hown,hresults 2 [request 1 7,request 2 5] ?_ ?_ ?_ ?_,by decide +kernel⟩
  · exact .cons (.create (by decide) (by decide) (by decide)) (.cons (.same _) .nil)
  · exact fun p c hp s t hs ht => (h₇ p c hp s t hs ht).1
  · exact fun p c hp s t hs ht => (h₆ p c hp s t hs ht).2
  · exact fun p c hp s t hs ht => (h₇ p c hp s t hs ht).2

/-- A stream cancels the watch of another, and the number that one stream has chosen decides whether
the request of the other is refused. -/
theorem streams_interfere :
    let request (stream : ℕ) (watchId : ℤ) : WatchCall := .request stream (.create { key := [], watchId })
    let fresh := (Owned.fresh (lockedServer ()).authMgr)
    let after := [request 1 5,.request 2 (.cancel 5)].foldlM (watchStep (smallConfig Unit)) fresh
    after.map (fun s => (s.server.watches.toList,s.owner 5)) = some ([],some 1) ∧
    results (smallConfig Unit) 2 fresh.server [request 1 6,request 2 5] = [5] ∧
    results (smallConfig Unit) 2 fresh.server [request 1 5,request 2 5] = [-1] := by
  decide +kernel

end MetaStore.Streams
