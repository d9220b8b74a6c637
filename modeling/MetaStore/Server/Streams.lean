import MetaStore.Auth.Interceptor
import MetaStore.KVStore.Watch

/-! The watches of a server (api/etcd/watch.go and api/etcd/watch_manager.go). A message on a stream
is a call of its own, with the number that the client has given to the stream. -/
namespace MetaStore.Streams
open Std Auth

/-! ### Requests -/

inductive FilterType
  | noPut | noDelete | other (code : ℤ)
  deriving DecidableEq, Repr

structure WatchCreateRequest where
  key : Bytes
  rangeEnd : Bytes := []
  startRevision : ℤ := 0
  prevKv : Bool := false
  filters : List FilterType := []
  watchId : ℤ := 0

inductive WatchRequest
  | create (r : WatchCreateRequest)
  | cancel (watchId : ℤ)
  | progress

/-! ### The server -/

/-- The settings of the server, with the calls of its store that the streams do not use. -/
structure Config (σ : Type*) where
  clusterID : ℕ
  memberID : ℕ
  raftTerm : ℕ
  maxWatchCount : ℕ
  snapshotChunkSize : ℕ
  chunkSize_pos : 0 < snapshotChunkSize
  platform : Platform σ
  handle : σ → Request → Except Status Response × σ

/-- `watches`, `nextID` and `stopped` belong to the watch manager, `subscriptions` to the store,
`leases` to the lease manager; `streamWatches` has the watches of every open stream. -/
structure Server (σ : Type*) where
  authMgr : AuthManager σ
  watches : ExtTreeSet ℤ
  nextID : ℤ
  stopped : Bool
  subscriptions : ExtTreeMap ℤ WatchSubscription
  streamWatches : ExtTreeMap ℕ (ExtTreeSet ℤ)
  leases : ExtTreeSet ℤ
  endedStreams : ExtTreeSet ℕ

variable {σ : Type*}

section Handlers
variable (cfg : Config σ)

/-! ### Watches -/

def FilterType.convert : FilterType → Option WatchFilterType
  | .noPut => some .noPut
  | .noDelete => some .noDelete
  | .other _ => none

def convertFilters (filters : List FilterType) : List WatchFilterType :=
  filters.filterMap FilterType.convert

namespace Server

/-- `CreateWithID`, with the subscription that `WatchWithOptions` makes in the store. -/
def createWithID (s : Server σ) (watchID : ℤ) (r : WatchCreateRequest) : Server σ × ℤ :=
  if s.stopped then (s,-1)
  else if 0 < cfg.maxWatchCount ∧ cfg.maxWatchCount ≤ s.watches.size then (s,-1)
  else if watchID ∈ s.watches then (s,-1)
  else if watchID ∈ s.subscriptions then (s,-1)
  else
    ({ s with
        watches := s.watches.insert watchID
        subscriptions := s.subscriptions.insert watchID
          ⟨r.key,r.rangeEnd,r.prevKv,convertFilters r.filters⟩ },watchID)

def create (s : Server σ) (r : WatchCreateRequest) : Server σ × ℤ :=
  { s with nextID := s.nextID+1 }.createWithID cfg (s.nextID+1) r

/-- The watch that a request gets from the manager: under the number it asks for, or under the
next one. -/
def openWatch (s : Server σ) (r : WatchCreateRequest) : Server σ × ℤ :=
  if r.watchId ≠ 0 then s.createWithID cfg r.watchId r else s.create cfg r

/-- `Cancel`; a watch of any stream may be cancelled. -/
def cancel (s : Server σ) (watchID : ℤ) : Server σ :=
  if watchID ∈ s.watches then
    { s with
      watches := s.watches.erase watchID
      subscriptions := s.subscriptions.erase watchID }
  else s

def watchID (s : Server σ) (r : WatchCreateRequest) : ℤ :=
  if r.watchId ≠ 0 then r.watchId else s.nextID+1

def watchesOf (s : Server σ) (stream : ℕ) : ExtTreeSet ℤ := s.streamWatches.getD stream ∅

end Server

def createNext (s : Server σ) (stream : ℕ) (r : WatchCreateRequest) : Server σ :=
  let (s,watchID) := s.openWatch cfg r
  if 0 < watchID then
    { s with
      streamWatches := s.streamWatches.insert stream ((s.watchesOf stream).insert watchID) }
  else s

def cancelNext (s : Server σ) (stream : ℕ) (watchID : ℤ) : Server σ :=
  let s := s.cancel watchID
  { s with streamWatches := s.streamWatches.insert stream ((s.watchesOf stream).erase watchID) }

/-- The deferred function of `Watch`. -/
def closeNext (s : Server σ) (stream : ℕ) : Server σ :=
  let s := (s.watchesOf stream).toList.foldl Server.cancel s
  { s with streamWatches := s.streamWatches.erase stream }

end Handlers
end MetaStore.Streams
