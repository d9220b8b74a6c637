import MetaStore.KVStore.Types
import MetaStore.Library.ChangeLog

/-! Watches (internal/kvstore/types.go and the parts of the engines' watch code that are the same
in both), and what a watch should receive of a history of changes. A subscription is open and its
channel has room. -/
namespace MetaStore
open ChangeLog

inductive EventType
  | put | delete
  deriving DecidableEq, Repr

structure WatchEvent where
  type : EventType
  kv : Option KeyValue := none
  prevKv : Option KeyValue := none
  revision : ℤ := 0
  deriving DecidableEq, Repr

inductive WatchFilterType
  | none | noPut | noDelete
  deriving DecidableEq, Repr

/-- `watchSubscription`, with the fields that events are compared with. -/
structure WatchSubscription where
  key : Bytes
  rangeEnd : Bytes := []
  prevKV : Bool := false
  filters : List WatchFilterType := []

/-- `matchWatch` of both engines and `watchMatches`. -/
def matchWatch (key watchKey rangeEnd : Bytes) : Bool :=
  if rangeEnd = [] then key == watchKey else inRange watchKey rangeEnd key

def WatchFilterType.filtersOut : WatchFilterType → EventType → Bool
  | .noPut,.put => true
  | .noDelete,.delete => true
  | _,_ => false

def shouldFilter (eventType : EventType) (filters : List WatchFilterType) : Bool :=
  filters.any (·.filtersOut eventType)

/-- The key by which `notifyWatches` looks for subscriptions. -/
def WatchEvent.key (event : WatchEvent) : Bytes :=
  match event.kv with
  | some kv => kv.key
  | none =>
    match event.prevKv with
    | some prevKv => prevKv.key
    | none => []

namespace WatchSubscription

def sees (sub : WatchSubscription) (type : EventType) (key : Bytes) : Bool :=
  matchWatch key sub.key sub.rangeEnd && !shouldFilter type sub.filters

/-- What `notifyWatches` sends to the subscription. -/
def notifyWatches (sub : WatchSubscription) (event : WatchEvent) : List WatchEvent :=
  if sub.sees event.type event.key then
    [if sub.prevKV then event else { event with prevKv := none }]
  else []

end WatchSubscription

def putEvent (kv : KeyValue) (prevKv : Option KeyValue) (newRevision : ℤ) : WatchEvent :=
  ⟨.put,some kv,prevKv,newRevision⟩

def deleteEvent (prevKv : KeyValue) (newRevision : ℤ) : WatchEvent :=
  ⟨.delete,some ⟨prevKv.key,[],prevKv.createRevision,newRevision,0,0⟩,some prevKv,newRevision⟩

/-- A put or a deletion of a record. A change under no revision of its own has none. -/
abbrev RecordWrite := ChangeLog.Write Bytes KeyValue (Option ℤ)
abbrev RecordChange := ChangeLog.Change Bytes KeyValue (Option ℤ)

def eventType (value : Option KeyValue) : EventType := if value.isSome then .put else .delete

/-- The event tells of the change and nothing else: the new record, or the key with the revision
of its deletion and no value, and the preceding record if the watch has asked for it. -/
structure Reports (sub : WatchSubscription) (event : WatchEvent) (c : RecordChange) : Prop where
  type : event.type = eventType c.value
  revision : c.revision = some event.revision
  put : ∀ kv, c.value = some kv → event.kv = some kv
  delete : c.value = none → ∃ kv, event.kv = some kv ∧ kv.key = c.key ∧ kv.value = [] ∧
    kv.modRevision = event.revision
  prevKv : event.prevKv = if sub.prevKV then c.before else none

namespace WatchSubscription

def admits (sub : WatchSubscription) (c : RecordChange) : Bool := sub.sees (eventType c.value) c.key

/-- One event for every change that the watch is there for, in the order of the revisions. -/
structure Complete (sub : WatchSubscription) (received : List WatchEvent)
    (history : List RecordChange) : Prop where
  reports : List.Forall₂ (Reports sub) received (history.filter sub.admits)
  ordered : received.Pairwise fun a b => a.revision ≤ b.revision

variable {sub : WatchSubscription}

lemma mem_notifyWatches {event e : WatchEvent} (h : e ∈ sub.notifyWatches event) :
    e.revision = event.revision := by
  unfold notifyWatches at h
  split_ifs at h
  · rw [List.mem_singleton.mp h]
  · rw [List.mem_singleton.mp h]
  · exact absurd h List.not_mem_nil

lemma Complete.prevKv_eq {received : List WatchEvent} {history : List RecordChange}
    (h : sub.Complete received history) (hprev : sub.prevKV = true) :
    received.map WatchEvent.prevKv = (history.filter sub.admits).map Change.before := by
  have hreports := h.reports
  generalize history.filter sub.admits = admitted at hreports ⊢
  clear h
  induction hreports with
  | nil => rfl
  | cons hfirst _ ih => rw [List.map_cons,List.map_cons,ih,hfirst.prevKv,if_pos hprev]

lemma filter_admits_deletions {view : Bytes → Option KeyValue} (keys : List Bytes)
    (revision : Option ℤ) :
    (changes view (keys.map fun key => (⟨key,none,revision⟩ : RecordWrite))).filter sub.admits = [] ↔
      ∀ key ∈ keys, (view key).isSome → sub.sees .delete key = false := by
  induction keys generalizing view with
  | nil => simp
  | cons key keys ih =>
    have hfirst : ((Write.change view (⟨key,none,revision⟩ : RecordWrite)).toList.filter sub.admits =
        []) ↔ ((view key).isSome → sub.sees .delete key = false) := by
      cases hview : view key with
      | none => simp [Write.change,hview]
      | some kv => simp [Write.change,hview,admits,eventType]
    have hrest := @ih (Function.update view key none)
    simp only [List.map_cons,changes,List.filter_append,List.append_eq_nil_iff,List.forall_mem_cons]
    rw [hfirst]
    refine and_congr_right fun hkey => hrest.trans (forall₂_congr fun k _ => ?_)
    by_cases hk : k = key
    · subst hk
      rw [Function.update_self]
      exact iff_of_true (fun h => absurd h (by simp)) hkey
    · rw [Function.update_of_ne hk]

end WatchSubscription
end MetaStore
