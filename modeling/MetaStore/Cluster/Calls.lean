import MetaStore.KVStore.Waiters

/-! Client calls in a cluster. Every node numbers its own calls, and every node applies the
operations of all nodes; a waiting call and an applied operation are matched by the text
`seq-N` alone. The steps are the critical sections of the calls and of the apply loop, in any
order, with commits to one log and restarts of nodes. What the numbers do not tell (which
call an entry of the log belongs to, what a node has applied so far) is kept beside the
state. -/
namespace MetaStore.Cluster
open Std

/-- An engine as its calls see it: the outcomes of applying a list of operations to its data,
with the response kept for each operation and whether the waiting calls are woken. -/
structure Engine (σ : Type*) where
  Outcome : σ → List RaftOperation → σ → List (Option TxnResponse) → Bool → Prop
  /-- A `Txn` that gives up removes its response as well. -/
  dropsResult : Bool

inductive Phase
  | drawn
  | registered (ch : ℕ)
  | proposed (ch : ℕ)
  | returned (response : Option TxnResponse)
  | failed

namespace Phase

def channel : Phase → Option ℕ
  | registered ch => some ch
  | proposed ch => some ch
  | _ => none

def Live : Phase → Prop
  | drawn => True
  | registered _ => True
  | proposed _ => True
  | returned _ => False
  | failed => False

instance : DecidablePred Live := fun phase => by
  cases phase <;> unfold Live <;> infer_instance

lemma live_of_channel {phase : Phase} {ch : ℕ} (h : ch ∈ phase.channel) : phase.Live := by
  cases phase <;> trivial

end Phase

structure Call (ι : Type*) where
  node : ι
  op : RaftOperation
  phase : Phase

structure LogEntry where
  proposer : Option ℕ
  op : RaftOperation

structure Task where
  position : ℕ
  op : RaftOperation
  response : Option TxnResponse

def tasks : ℕ → List RaftOperation → List (Option TxnResponse) → List Task
  | position,op :: ops,response :: responses =>
    ⟨position,op,response⟩ :: tasks (position+1) ops responses
  | _,_,_ => []

/-- Where the apply loop of a node stands: keeping the responses, then waking the calls. -/
inductive Work (σ : Type*)
  | idle
  | saving (todo all : List Task) (after : σ) (notified : Bool)
  | notifying (todo : List Task)

structure Node (σ : Type*) where
  waiters : Waiters
  store : σ
  position : ℕ
  work : Work σ

/-- `applied` and `computed` are what the nodes have ever done: log positions applied, and
responses computed for the transaction at a position. -/
structure State (ι σ : Type*) where
  nodes : ι → Node σ
  calls : ℕ → Option (Call ι)
  pool : List ℕ
  log : List LogEntry
  applied : List (ι × ℕ)
  computed : List (ι × ℕ × TxnResponse)

inductive Event (ι σ : Type*)
  | draw (id : ℕ) (n : ι) (op : RaftOperation)
  | register (id : ℕ)
  | propose (id : ℕ)
  | giveUp (id : ℕ)
  | finish (id : ℕ)
  | commit (id : ℕ)
  | foreign (op : RaftOperation)
  | start (n : ι) (count : ℕ) (after : σ) (responses : List (Option TxnResponse)) (notified : Bool)
  | save (n : ι)
  | settle (n : ι)
  | notify (n : ι)
  | install (n : ι) (position : ℕ) (store : σ)
  | restart (n : ι) (position : ℕ) (store : σ)

section Steps
variable {ι σ : Type*}

def State.new (store : σ) : State ι σ where
  nodes _ := ⟨.empty,store,0,.idle⟩
  calls _ := none
  pool := []
  log := []
  applied := []
  computed := []

def State.setPhase (s : State ι σ) (id : ℕ) (c : Call ι) (phase : Phase) : State ι σ :=
  { s with calls := Function.update s.calls id (some { c with phase := phase }) }

@[simp] lemma nodes_setPhase (s : State ι σ) (id : ℕ) (c : Call ι) (phase : Phase) :
    (s.setPhase id c phase).nodes = s.nodes := rfl

@[simp] lemma calls_setPhase_self (s : State ι σ) (id : ℕ) (c : Call ι) (phase : Phase) :
    (s.setPhase id c phase).calls id = some { c with phase := phase } := Function.update_self ..

@[simp] lemma calls_setPhase_of_ne (s : State ι σ) {id id' : ℕ} (c : Call ι) (phase : Phase)
    (h : id' ≠ id) : (s.setPhase id c phase).calls id' = s.calls id' := Function.update_of_ne h ..

variable [DecidableEq ι]

def State.setNode (s : State ι σ) (n : ι) (node : Node σ) : State ι σ :=
  { s with nodes := Function.update s.nodes n node }

def State.setWaiters (s : State ι σ) (n : ι) (w : Waiters) : State ι σ :=
  s.setNode n { s.nodes n with waiters := w }

def State.setWork (s : State ι σ) (n : ι) (work : Work σ) : State ι σ :=
  s.setNode n { s.nodes n with work := work }

@[simp] lemma nodes_setWaiters_self (s : State ι σ) (n : ι) (w : Waiters) :
    (s.setWaiters n w).nodes n = { s.nodes n with waiters := w } := Function.update_self ..

@[simp] lemma nodes_setWaiters_of_ne (s : State ι σ) {n m : ι} (w : Waiters) (h : m ≠ n) :
    (s.setWaiters n w).nodes m = s.nodes m := Function.update_of_ne h ..

@[simp] lemma setWaiters_same (s : State ι σ) (n : ι) :
    s.setWaiters n (s.nodes n).waiters = s := by
  unfold State.setWaiters State.setNode
  rw [Function.update_eq_self]

/-- What a woken call returns; a `Txn` without a response fails. -/
def Call.result (c : Call ι) (w : Waiters) : Phase :=
  if c.op.type = .txn then
    match w.pendingTxnResults[c.op.seqNum]? with
    | some r => .returned (some r)
    | none => .failed
  else .returned none

def lose (n : ι) (c : Call ι) : Call ι :=
  if c.node = n ∧ c.phase.Live then { c with phase := .failed } else c

def Task.computed (n : ι) (task : Task) : List (ι × ℕ × TxnResponse) :=
  (task.response.map fun r => (n,task.position,r)).toList

inductive Step (E : Engine σ) : State ι σ → Event ι σ → State ι σ → Prop
  | draw (s : State ι σ) (id : ℕ) (n : ι) (op : RaftOperation) (new : s.calls id = none) :
      Step E s (.draw id n op)
        ((s.setWaiters n (s.nodes n).waiters.draw).setPhase id
          ⟨n,{ op with seqNum := Waiters.seqName ((s.nodes n).waiters.seqNum+1) },.drawn⟩ .drawn)
  | register (s : State ι σ) (id : ℕ) (c : Call ι) (h : s.calls id = some c)
      (phase : c.phase = .drawn) :
      Step E s (.register id)
        ((s.setWaiters c.node ((s.nodes c.node).waiters.register c.op.seqNum)).setPhase id c
          (.registered (s.nodes c.node).waiters.channels))
  | propose (s : State ι σ) (id : ℕ) (c : Call ι) (ch : ℕ) (h : s.calls id = some c)
      (phase : c.phase = .registered ch) :
      Step E s (.propose id)
        { s.setPhase id c (.proposed ch) with pool := id :: s.pool }
  | giveUp (s : State ι σ) (id : ℕ) (c : Call ι) (ch : ℕ) (h : s.calls id = some c)
      (phase : c.phase = .registered ch ∨ c.phase = .proposed ch) :
      Step E s (.giveUp id)
        ((s.setWaiters c.node ((s.nodes c.node).waiters.cleanup c.op.seqNum
          (E.dropsResult && decide (c.op.type = .txn)))).setPhase id c .failed)
  | finish (s : State ι σ) (id : ℕ) (c : Call ι) (ch : ℕ) (h : s.calls id = some c)
      (phase : c.phase = .proposed ch) (woken : ch ∈ (s.nodes c.node).waiters.closed) :
      Step E s (.finish id)
        ((s.setWaiters c.node (if c.op.type = .txn then
          (s.nodes c.node).waiters.takeTxnResult c.op.seqNum else (s.nodes c.node).waiters)).setPhase
            id c (c.result (s.nodes c.node).waiters))
  | commit (s : State ι σ) (id : ℕ) (c : Call ι) (h : s.calls id = some c) (pool : id ∈ s.pool) :
      Step E s (.commit id) { s with pool := s.pool.erase id, log := s.log ++ [⟨some id,c.op⟩] }
  | foreign (s : State ι σ) (op : RaftOperation) (unnamed : op.seqNum = []) :
      Step E s (.foreign op) { s with log := s.log ++ [⟨none,op⟩] }
  | start (s : State ι σ) (n : ι) (count : ℕ) (after : σ) (responses : List (Option TxnResponse))
      (notified : Bool) (idle : (s.nodes n).work = .idle)
      (outcome : E.Outcome (s.nodes n).store
        (((s.log.drop (s.nodes n).position).take count).map LogEntry.op) after responses notified) :
      Step E s (.start n count after responses notified)
        (s.setWork n (.saving
          (tasks (s.nodes n).position
            (((s.log.drop (s.nodes n).position).take count).map LogEntry.op) responses)
          (tasks (s.nodes n).position
            (((s.log.drop (s.nodes n).position).take count).map LogEntry.op) responses)
          after notified))
  | save (s : State ι σ) (n : ι) (task : Task) (todo all : List Task) (after : σ) (notified : Bool)
      (work : (s.nodes n).work = .saving (task :: todo) all after notified) :
      Step E s (.save n)
        { s.setNode n { s.nodes n with
            waiters := (s.nodes n).waiters.saveTxnResult task.op.seqNum task.response
            work := .saving todo all after notified } with
          computed := task.computed n ++ s.computed }
  | settle (s : State ι σ) (n : ι) (all : List Task) (after : σ) (notified : Bool)
      (work : (s.nodes n).work = .saving [] all after notified) :
      Step E s (.settle n)
        { s.setNode n { s.nodes n with
            store := after
            position := (s.nodes n).position+all.length
            work := .notifying (if notified then all else []) } with
          applied := (if notified then all.map fun task => (n,task.position) else []) ++ s.applied }
  | notify (s : State ι σ) (n : ι) (task : Task) (todo : List Task)
      (work : (s.nodes n).work = .notifying (task :: todo)) :
      Step E s (.notify n)
        (s.setNode n { s.nodes n with
          waiters := (s.nodes n).waiters.notify task.op.seqNum
          work := .notifying todo })
  | done (s : State ι σ) (n : ι) (work : (s.nodes n).work = .notifying []) :
      Step E s (.notify n) (s.setWork n .idle)
  | install (s : State ι σ) (n : ι) (position : ℕ) (store : σ) (idle : (s.nodes n).work = .idle) :
      Step E s (.install n position store)
        (s.setNode n { s.nodes n with store := store, position := position })
  | restart (s : State ι σ) (n : ι) (position : ℕ) (store : σ) :
      Step E s (.restart n position store)
        { s.setNode n ⟨.empty,store,position,.idle⟩ with
          calls := fun id => (s.calls id).map (lose n) }

def State.Applied (s : State ι σ) (id : ℕ) (c : Call ι) : Prop :=
  ∃ p, (c.node,p) ∈ s.applied ∧ s.log[p]? = some ⟨some id,c.op⟩

def State.Computed (s : State ι σ) (id : ℕ) (c : Call ι) (r : TxnResponse) : Prop :=
  ∃ p, (c.node,p,r) ∈ s.computed ∧ s.log[p]? = some ⟨some id,c.op⟩

/-- A call that has returned without error has been applied on its node, and a `Txn` has
returned the response of its own operation. -/
def State.Sound (s : State ι σ) : Prop :=
  ∀ id c response, s.calls id = some c → c.phase = .returned response →
    s.Applied id c ∧ (c.op.type = .txn → ∃ r, response = some r ∧ s.Computed id c r)

/-- Of the calls on the node that `P` holds for, only the one that proposed the operation has
its sequence number. -/
def State.Unmistaken (s : State ι σ) (P : Call ι → Prop) (n : ι) (task : Task) : Prop :=
  ∀ id c, s.calls id = some c → c.node = n → P c → c.op.seqNum = task.op.seqNum →
    ∃ e, s.log[task.position]? = some e ∧ e.proposer = some id

/-- A `Txn` in progress, which will look for its response. -/
def Call.AsksResult (c : Call ι) : Prop := c.phase.Live ∧ c.op.type = .txn

def Call.HasChannel (c : Call ι) : Prop := ∃ ch, ch ∈ c.phase.channel

/-- No response is kept under the number of another `Txn` in progress, no operation wakes
another call, and no `Txn` draws a number under which a response is still kept. -/
def Distinct (s : State ι σ) : Event ι σ → Prop
  | .draw _ n op => op.type = .txn →
    (s.nodes n).waiters.pendingTxnResults[Waiters.seqName ((s.nodes n).waiters.seqNum+1)]? = none
  | .save n => ∀ task todo all after notified,
      (s.nodes n).work = .saving (task :: todo) all after notified → task.response.isSome →
        s.Unmistaken Call.AsksResult n task
  | .notify n => ∀ task todo, (s.nodes n).work = .notifying (task :: todo) →
      s.Unmistaken Call.HasChannel n task
  | _ => True

end Steps

end MetaStore.Cluster
