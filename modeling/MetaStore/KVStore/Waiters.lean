import MetaStore.KVStore.Types

/-! How a client call of either engine waits for its operation: the call draws a number
from a counter of its node, registers a channel under the text `seq-N`, and the apply
loop closes the channel registered under the `SeqNum` of each operation it has applied. -/
namespace MetaStore
open Std

/-- The fields `seqNum`, `pendingOps` and `pendingTxnResults` of an engine. Channels are
numbered in the order they are made; `closed` lists those that have been closed. -/
structure Waiters where
  seqNum : ℕ
  pendingOps : ExtTreeMap Bytes ℕ
  pendingTxnResults : ExtTreeMap Bytes TxnResponse
  channels : ℕ
  closed : List ℕ

namespace Waiters

def empty : Waiters := ⟨0,∅,∅,0,[]⟩

/-- `fmt.Sprintf("seq-%d", n)`. -/
def seqName (n : ℕ) : Bytes := ascii "seq-" ++ decimal n

def saveTxnResult (w : Waiters) (seqNum : Bytes) (txnResp : Option TxnResponse) : Waiters :=
  match txnResp with
  | some r =>
    if seqNum ≠ [] then { w with pendingTxnResults := w.pendingTxnResults.insert seqNum r } else w
  | none => w

def notify (w : Waiters) (seqNum : Bytes) : Waiters :=
  if seqNum ≠ [] then
    match w.pendingOps[seqNum]? with
    | some ch => { w with closed := ch :: w.closed, pendingOps := w.pendingOps.erase seqNum }
    | none => w
  else w

def draw (w : Waiters) : Waiters := { w with seqNum := w.seqNum+1 }

def register (w : Waiters) (seqNum : Bytes) : Waiters :=
  { w with pendingOps := w.pendingOps.insert seqNum w.channels, channels := w.channels+1 }

/-- A call that gives up removes its channel, and its response if `results` says so. -/
def cleanup (w : Waiters) (seqNum : Bytes) (results : Bool) : Waiters :=
  { w with
    pendingOps := w.pendingOps.erase seqNum
    pendingTxnResults :=
      if results then w.pendingTxnResults.erase seqNum else w.pendingTxnResults }

/-- A woken `Txn` takes its response. -/
def takeTxnResult (w : Waiters) (seqNum : Bytes) : Waiters :=
  { w with pendingTxnResults := w.pendingTxnResults.erase seqNum }

theorem saveTxnResult_notify (w : Waiters) (seqNum seqNum' : Bytes) (r : Option TxnResponse) :
    (w.notify seqNum').saveTxnResult seqNum r = (w.saveTxnResult seqNum r).notify seqNum' := by
  unfold notify saveTxnResult
  cases r with
  | none => rfl
  | some r =>
    dsimp only
    split_ifs
    · cases w.pendingOps[seqNum']? <;> simp
    all_goals rfl

end Waiters
end MetaStore
