import MetaStore.KVStore.Waiters
import MetaStore.Library.Transition
import MetaStore.Memory.BatchRefinement
import MetaStore.RocksDB.LeaseKeys

/-! What `PutWithLease` and `DeleteRange` of both engines return. The calls read the store before
they propose and after they are woken, never at the moment at which their operation is applied, and
other operations are applied in between. The steps are the single reads of the calls, the critical
sections of their waiting, and the application of one operation at a time. -/
namespace MetaStore.Responses
open Std Transition

inductive Request
  | put (key value : Bytes) (leaseID : ℤ)
  | delete (key rangeEnd : Bytes)
  deriving DecidableEq, Repr

inductive Response
  | put (revision : ℤ) (prevKv : Option KeyValue)
  | delete (deleted : ℤ) (prevKvs : List KeyValue) (revision : ℤ)
  deriving DecidableEq, Repr

def Request.operation (seqNum : Bytes) : Request → RaftOperation
  | put key value leaseID =>
    { type := .put, key := key, value := value, leaseID := leaseID, seqNum := seqNum }
  | delete key rangeEnd => { type := .delete, key := key, rangeEnd := rangeEnd, seqNum := seqNum }

/-- An engine as its calls see it. `range` has the records of a range, `counted` those that
`DeleteRange` finds before it proposes. With `prevFirst`, `PutWithLease` looks for the previous
record before it proposes, and otherwise after it is woken. -/
structure StoreEngine (σ : Type*) where
  apply : σ → RaftOperation → σ
  revision : σ → ℤ
  get : σ → Bytes → Option KeyValue
  range : σ → Bytes → Bytes → List KeyValue
  counted : σ → Bytes → Bytes → List KeyValue
  prevFirst : Bool
  /-- An applied put is stored. -/
  Accepts : σ → RaftOperation → Prop
  stored : ∀ s op, op.type = .put → Accepts s op →
    ∃ kv, get (apply s op) op.key = some kv ∧ kv.modRevision = revision (apply s op)
  deleted : ∀ s op, op.type = .delete → range (apply s op) op.key op.rangeEnd = []

/-- How far a call has come, with the records it has read and the channel it waits on. -/
inductive Phase
  | begun
  | checked (seen : List KeyValue)
  | drawn (seen : List KeyValue)
  | registered (seen : List KeyValue) (ch : ℕ)
  | proposed (seen : List KeyValue) (ch : ℕ)
  | loaded (revision : ℤ)
  | returned (response : Response)
  | failed
  deriving DecidableEq

/-- A call. `moment` has the store before and after its own operation was applied; a `DeleteRange`
that proposes nothing has its moment when it finds nothing to delete. -/
structure Call (σ : Type*) where
  request : Request
  seqNum : Bytes
  phase : Phase
  moment : Option (σ × σ)

structure Node (σ : Type*) where
  store : σ
  waiters : Waiters
  calls : ℕ → Option (Call σ)
  pool : List ℕ

inductive Event
  | start (id : ℕ) (request : Request)
  | next (id : ℕ)
  | giveUp (id : ℕ)
  | commit (id : ℕ)
  | foreign (op : RaftOperation)

namespace StoreEngine
variable {σ : Type*} (E : StoreEngine σ)

def seen (s : σ) : Request → List KeyValue
  | .put key _ _ => if E.prevFirst then (E.get s key).toList else []
  | .delete key rangeEnd => E.counted s key rangeEnd

def affected (s : σ) : Request → List KeyValue
  | .put key _ _ => (E.get s key).toList
  | .delete key rangeEnd => E.range s key rangeEnd

def reliesOn : Request → Bool
  | .put _ _ _ => E.prevFirst
  | .delete _ _ => true

def awake (s : σ) (seen : List KeyValue) : Request → Phase
  | .put _ _ _ => if E.prevFirst then .returned (.put (E.revision s) seen.head?) else .loaded (E.revision s)
  | .delete _ _ => .returned (.delete seen.length seen (E.revision s))

/-- The previous record is read last. -/
def finish (s : σ) (revision : ℤ) : Request → Phase
  | .put key _ _ => .returned (.put revision (E.get s key))
  | .delete _ _ => .failed

end StoreEngine

/-- `DeleteRange` returns at once when it finds nothing. -/
def skips : Request → List KeyValue → Bool
  | .put _ _ _,_ => false
  | .delete _ _,seen => seen.isEmpty

section Machine
variable {σ : Type*} (E : StoreEngine σ)

def Node.new (store : σ) : Node σ := ⟨store,.empty,fun _ => none,[]⟩

def Node.set (n : Node σ) (id : ℕ) (c : Call σ) : Node σ :=
  { n with calls := Function.update n.calls id (some c) }

def advance (n : Node σ) (id : ℕ) (c : Call σ) : Option (Node σ) :=
  match c.phase with
  | .begun =>
    let seen := E.seen n.store c.request
    some (n.set id { c with
      phase := .checked seen
      moment := if skips c.request seen then some (n.store,n.store) else none })
  | .checked seen =>
    if skips c.request seen then
      some (n.set id { c with phase := .returned (.delete 0 [] (E.revision n.store)) })
    else
      let waiters := n.waiters.draw
      some ({ n with waiters := waiters }.set id { c with
        phase := .drawn seen
        seqNum := Waiters.seqName waiters.seqNum })
  | .drawn seen =>
    some ({ n with waiters := n.waiters.register c.seqNum }.set id { c with
      phase := .registered seen n.waiters.channels })
  | .registered seen ch =>
    some ({ n with pool := id :: n.pool }.set id { c with phase := .proposed seen ch })
  | .proposed seen ch =>
    if ch ∈ n.waiters.closed then
      some (n.set id { c with phase := E.awake n.store seen c.request })
    else none
  | .loaded revision => some (n.set id { c with phase := E.finish n.store revision c.request })
  | .returned _ => none
  | .failed => none

/-- The apply loop applies an operation and wakes the call that waits under its number. -/
def applyOperation (n : Node σ) (op : RaftOperation) : Node σ :=
  { n with store := E.apply n.store op, waiters := n.waiters.notify op.seqNum }

def Phase.channel : Phase → Option ℕ
  | registered _ ch => some ch
  | proposed _ ch => some ch
  | _ => none

def step (n : Node σ) : Event → Option (Node σ)
  | .start id request =>
    match n.calls id with
    | none => some (n.set id ⟨request,[],.begun,none⟩)
    | some _ => none
  | .next id => (n.calls id).bind (advance E n id)
  | .giveUp id =>
    match n.calls id with
    | none => none
    | some c =>
      match c.phase.channel with
      | none => none
      | some _ => some ({ n with waiters := n.waiters.cleanup c.seqNum false }.set id
          { c with phase := .failed })
  | .commit id =>
    match n.calls id with
    | none => none
    | some c =>
      if id ∈ n.pool then
        let op := c.request.operation c.seqNum
        some ({ applyOperation E n op with pool := n.pool.erase id }.set id
          { c with moment := some (n.store,E.apply n.store op) })
      else none
  | .foreign op => some (applyOperation E n op)

/-- The response is about the moment at which the call's own operation was applied. -/
def Describes (c : Call σ) (r : Response) : Prop :=
  ∃ before after, c.moment = some (before,after) ∧
    match c.request,r with
    | .put key _ _,.put revision prevKv =>
      prevKv = E.get before key ∧ ∃ kv, E.get after key = some kv ∧ kv.modRevision = revision
    | .delete key rangeEnd,.delete deleted prevKvs revision =>
      prevKvs = E.range before key rangeEnd ∧ deleted = prevKvs.length ∧
        revision = E.revision after ∧ E.range after key rangeEnd = []
    | _,_ => False

def Phase.Open : Phase → Prop
  | begun => False
  | checked _ => True
  | drawn _ => True
  | registered _ _ => True
  | proposed _ _ => True
  | loaded _ => False
  | returned _ => False
  | failed => False

/-- The operation of somebody else leaves alone what the call reads: it does not have the number of
a waiting call, it changes none of the records that the call has read until the operation of the
call is applied, and from then on it draws no revision until the call has loaded it. -/
structure Spares (s : σ) (op : RaftOperation) (c : Call σ) : Prop where
  name : c.phase.channel ≠ none → op.seqNum ≠ c.seqNum
  records : c.phase.Open → c.moment = none → E.reliesOn c.request = true →
    E.affected (E.apply s op) c.request = E.affected s c.request
  revision : c.phase.Open → c.moment ≠ none → E.revision (E.apply s op) = E.revision s

/-- What a read of the call has to find: before the proposal the records that are there, and at the
end, where the previous record is looked for after the put, none, with none before the put. -/
def Finds (s : σ) (c : Call σ) : Prop :=
  match c.phase with
  | .begun => E.reliesOn c.request = true → E.seen s c.request = E.affected s c.request
  | .loaded _ => E.affected s c.request = [] ∧
      ∀ before after, c.moment = some (before,after) → E.affected before c.request = []
  | _ => True

def Allowed (n : Node σ) : Event → Prop
  | .start _ _ => True
  | .next id => ∀ c, n.calls id = some c → Finds E n.store c
  | .giveUp _ => True
  | .commit id => (∀ c, n.calls id = some c → E.Accepts n.store (c.request.operation c.seqNum)) ∧
      ∀ c, n.calls id = some c → ∀ id' c', id' ≠ id → n.calls id' = some c' →
        Spares E n.store (c.request.operation c.seqNum) c'
  | .foreign op => ∀ id c, n.calls id = some c → Spares E n.store op c

end Machine

section Invariant
variable {σ : Type*} {E : StoreEngine σ}
variable {n : Node σ} {id : ℕ} {c : Call σ} {w : Waiters} {calls : ℕ → Option (Call σ)} {s : σ}
  {op : RaftOperation}
variable {seen : List KeyValue}

def Outcome (E : StoreEngine σ) (after : σ) : Request → Prop
  | .put key _ _ => ∃ kv, E.get after key = some kv ∧ kv.modRevision = E.revision after
  | .delete key rangeEnd => E.range after key rangeEnd = []

/-- The operation of the call has not been applied, and what it has read is still so. -/
def Fresh (E : StoreEngine σ) (s : σ) (c : Call σ) (seen : List KeyValue) : Prop :=
  c.moment = none ∧ (E.reliesOn c.request = true → seen = E.affected s c.request)

/-- The operation has been applied to what the call has read, and the revision is still its own. -/
def Settled (E : StoreEngine σ) (s : σ) (c : Call σ) (seen : List KeyValue) : Prop :=
  ∃ before after, c.moment = some (before,after) ∧
    (E.reliesOn c.request = true → seen = E.affected before c.request) ∧
    Outcome E after c.request ∧ E.revision s = E.revision after

def CallOK (E : StoreEngine σ) (s : σ) (c : Call σ) : Prop :=
  match c.phase with
  | .begun => c.moment = none
  | .checked seen => if skips c.request seen then Settled E s c seen else Fresh E s c seen
  | .drawn seen => Fresh E s c seen
  | .registered seen _ => Fresh E s c seen
  | .proposed seen _ => Fresh E s c seen ∨ Settled E s c seen
  | .loaded revision => ∃ before after, c.moment = some (before,after) ∧
      Outcome E after c.request ∧ revision = E.revision after
  | .returned r => Describes E c r
  | .failed => True

/-- A registered channel is the one of a call with that number, and a closed channel belongs to no
call that still waits for its operation. -/
structure WaitersOK (w : Waiters) (calls : ℕ → Option (Call σ)) : Prop where
  pending : ∀ x ch, w.pendingOps[x]? = some ch → ch < w.channels ∧
    ∀ id c, calls id = some c → c.phase.channel = some ch → c.seqNum = x
  closed : ∀ ch ∈ w.closed, ch < w.channels
  channel : ∀ id c ch, calls id = some c → c.phase.channel = some ch →
    ch < w.channels ∧ (ch ∈ w.closed → c.moment ≠ none)

structure Inv (E : StoreEngine σ) (n : Node σ) : Prop where
  calls : ∀ id c, n.calls id = some c → CallOK E n.store c
  waiters : WaitersOK n.waiters n.calls
  nodup : n.pool.Nodup
  pool : ∀ id ∈ n.pool, ∃ c, n.calls id = some c ∧
    (c.phase = .failed ∨ c.moment = none ∧ ∃ seen ch, c.phase = .proposed seen ch)

lemma inv_new (store : σ) : Inv E (.new store) := by
  refine ⟨fun id c h => ?_,⟨fun x ch h => ?_,fun ch h => ?_,fun id c ch h => ?_⟩,List.nodup_nil,
    fun id h => absurd h List.not_mem_nil⟩
  · cases h
  · simp [Node.new,Waiters.empty] at h
  · exact absurd h List.not_mem_nil
  · cases h

@[simp] lemma calls_set (n : Node σ) (id : ℕ) (c : Call σ) :
    (n.set id c).calls = Function.update n.calls id (some c) := rfl

lemma calls_set_cases {id' : ℕ} {c' : Call σ}
    (h : (n.set id c).calls id' = some c') : id' = id ∧ c' = c ∨ id' ≠ id ∧ n.calls id' = some c' := by
  by_cases hid : id' = id
  · subst hid
    rw [calls_set,Function.update_self] at h
    exact .inl ⟨rfl,(Option.some.inj h).symm⟩
  · rw [calls_set,Function.update_of_ne hid] at h
    exact .inr ⟨hid,h⟩

lemma WaitersOK.set (h : WaitersOK n.waiters n.calls) {c' : Call σ}
    (hc : n.calls id = some c) (hname : c'.seqNum = c.seqNum ∨ c'.phase.channel = none)
    (hchannel : ∀ ch, c'.phase.channel = some ch → c.phase.channel = some ch)
    (hmoment : c.moment ≠ none → c'.moment ≠ none) :
    WaitersOK n.waiters (n.set id c').calls := by
  refine ⟨fun x ch hx => ⟨(h.pending x ch hx).1,fun id' d hd hch => ?_⟩,h.closed,
    fun id' d ch hd hch => ?_⟩
  · obtain ⟨rfl,rfl⟩|⟨-,hd⟩ := calls_set_cases hd
    · rcases hname with hname|hnone
      · rw [hname]
        exact (h.pending x ch hx).2 id' c hc (hchannel ch hch)
      · cases hnone.symm.trans hch
    · exact (h.pending x ch hx).2 id' d hd hch
  · obtain ⟨rfl,rfl⟩|⟨-,hd⟩ := calls_set_cases hd
    · obtain ⟨hlt,hclosed⟩ := h.channel id' c ch hc (hchannel ch hch)
      exact ⟨hlt,fun hin => hmoment (hclosed hin)⟩
    · exact h.channel id' d ch hd hch

lemma WaitersOK.drop (h : WaitersOK n.waiters n.calls) (c : Call σ)
    (hnone : c.phase.channel = none) : WaitersOK n.waiters (n.set id c).calls := by
  refine ⟨fun x ch hx => ⟨(h.pending x ch hx).1,fun id' d hd hch => ?_⟩,h.closed,
    fun id' d ch hd hch => ?_⟩
  · obtain ⟨-,rfl⟩|⟨-,hd⟩ := calls_set_cases hd
    · cases hnone.symm.trans hch
    · exact (h.pending x ch hx).2 id' d hd hch
  · obtain ⟨-,rfl⟩|⟨-,hd⟩ := calls_set_cases hd
    · cases hnone.symm.trans hch
    · exact h.channel id' d ch hd hch

lemma WaitersOK.draw (h : WaitersOK w calls) :
    WaitersOK w.draw calls := ⟨h.pending,h.closed,h.channel⟩

lemma Inv.pool_set (h : Inv E n) (c : Call σ) {pool : List ℕ}
    (hpool : ∀ id' ∈ pool, id' ∈ n.pool ∧ id' ≠ id) : ∀ id' ∈ pool, ∃ d, (n.set id c).calls id' = some d ∧
      (d.phase = .failed ∨ d.moment = none ∧ ∃ seen ch, d.phase = .proposed seen ch) := by
  intro id' hid
  obtain ⟨hmem,hne⟩ := hpool id' hid
  obtain ⟨d,hd,hphase⟩ := h.pool id' hmem
  exact ⟨d,by rw [calls_set,Function.update_of_ne hne,hd],hphase⟩

lemma ne_of_mem_pool (h : id ∉ n.pool) :
    ∀ id' ∈ n.pool, id' ∈ n.pool ∧ id' ≠ id := by
  rintro id' hid
  refine ⟨hid,?_⟩
  rintro rfl
  exact h hid

lemma Inv.set (h : Inv E n) (hok : CallOK E n.store c)
    (hwaiters : WaitersOK w (n.set id c).calls) (hpool : id ∉ n.pool) :
    Inv E ({ n with waiters := w }.set id c) := by
  refine ⟨fun id' d hd => ?_,hwaiters,h.nodup,h.pool_set c (ne_of_mem_pool hpool)⟩
  obtain ⟨-,rfl⟩|⟨-,hd⟩ := calls_set_cases hd
  · exact hok
  · exact h.calls id' d hd

lemma Inv.not_mem_pool (h : Inv E n) (hc : n.calls id = some c)
    (hfailed : c.phase ≠ .failed) (hphase : c.moment ≠ none ∨ ∀ seen ch, c.phase ≠ .proposed seen ch) :
    id ∉ n.pool := by
  intro hid
  obtain ⟨d,hd,hpool⟩ := h.pool id hid
  obtain rfl := Option.some.inj (hc.symm.trans hd)
  rcases hpool with hfail|⟨hnone,seen,ch,hprop⟩
  · exact hfailed hfail
  · rcases hphase with hmoment|hphase
    · exact hmoment hnone
    · exact hphase seen ch hprop

lemma WaitersOK.register (h : WaitersOK n.waiters n.calls)
    (hchannel : c.phase.channel = some n.waiters.channels) :
    WaitersOK (n.waiters.register c.seqNum) (n.set id c).calls := by
  have hnew : ∀ id' d ch, (n.set id c).calls id' = some d → d.phase.channel = some ch →
      d = c ∧ ch = n.waiters.channels ∨ n.calls id' = some d ∧ ch < n.waiters.channels := by
    intro id' d ch hd hch
    obtain ⟨-,rfl⟩|⟨-,hd⟩ := calls_set_cases hd
    · exact .inl ⟨rfl,Option.some.inj (hch.symm.trans hchannel)⟩
    · exact .inr ⟨hd,(h.channel id' d ch hd hch).1⟩
  refine ⟨fun x ch hx => ?_,fun ch hch => Nat.lt_succ_of_lt (h.closed ch hch),fun id' d ch hd hch => ?_⟩
  · simp only [Waiters.register,ExtTreeMap.getElem?_insert] at hx
    split_ifs at hx with heq
    · obtain rfl := Option.some.inj hx
      refine ⟨Nat.lt_succ_self _,fun id' d hd hch => ?_⟩
      obtain ⟨rfl,-⟩|⟨-,hlt⟩ := hnew id' d _ hd hch
      · exact LawfulEqCmp.eq_of_compare heq
      · exact absurd hlt (lt_irrefl _)
    · obtain ⟨hlt,hname⟩ := h.pending x ch hx
      refine ⟨Nat.lt_succ_of_lt hlt,fun id' d hd hch => ?_⟩
      obtain ⟨-,rfl⟩|⟨hd,-⟩ := hnew id' d ch hd hch
      · exact absurd hlt (lt_irrefl _)
      · exact hname id' d hd hch
  · obtain ⟨rfl,rfl⟩|⟨hd,hlt⟩ := hnew id' d ch hd hch
    · exact ⟨Nat.lt_succ_self _,fun hin => absurd (h.closed _ hin) (lt_irrefl _)⟩
    · exact ⟨Nat.lt_succ_of_lt hlt,(h.channel id' d ch hd hch).2⟩

lemma WaitersOK.cleanup (h : WaitersOK w calls)
    (x : Bytes) (results : Bool) : WaitersOK (w.cleanup x results) calls := by
  refine ⟨fun y ch hy => h.pending y ch ?_,h.closed,h.channel⟩
  simp only [Waiters.cleanup,ExtTreeMap.getElem?_erase] at hy
  split_ifs at hy
  exact hy

lemma mem_closed_notify (h : WaitersOK w calls)
    {x : Bytes} {ch : ℕ} (hc : calls id = some c)
    (hchannel : c.phase.channel = some ch) (hclosed : ch ∈ (w.notify x).closed) :
    ch ∈ w.closed ∨ c.seqNum = x := by
  unfold Waiters.notify at hclosed
  split_ifs at hclosed
  · cases hx : w.pendingOps[x]? with
    | none =>
      rw [hx] at hclosed
      exact .inl hclosed
    | some ch' =>
      rw [hx] at hclosed
      rcases List.mem_cons.mp hclosed with rfl|hin
      · exact .inr ((h.pending x ch hx).2 id c hc hchannel)
      · exact .inl hin
  · exact .inl hclosed

lemma WaitersOK.notify {calls' : ℕ → Option (Call σ)} (h : WaitersOK w calls)
    {x : Bytes} (hcalls : ∀ id c', calls' id = some c' → ∃ c, calls id = some c ∧
      c'.phase = c.phase ∧ c'.seqNum = c.seqNum ∧ (c.moment ≠ none → c'.moment ≠ none) ∧
      (c.phase.channel ≠ none → c.seqNum = x → c'.moment ≠ none)) :
    WaitersOK (w.notify x) calls' := by
  have hchannels : (w.notify x).channels = w.channels := by
    unfold Waiters.notify
    split_ifs
    · cases w.pendingOps[x]? <;> rfl
    · rfl
  have hpending : ∀ (y : Bytes) ch, (w.notify x).pendingOps[y]? = some ch → w.pendingOps[y]? = some ch := by
    intro y ch hy
    unfold Waiters.notify at hy
    split_ifs at hy
    · cases hx : w.pendingOps[x]? with
      | none => simpa only [hx] using hy
      | some ch' =>
        simp only [hx,ExtTreeMap.getElem?_erase] at hy
        split_ifs at hy
        exact hy
    · exact hy
  have hclosed : ∀ ch ∈ (w.notify x).closed, ch < w.channels := by
    intro ch hch
    unfold Waiters.notify at hch
    split_ifs at hch
    · cases hx : w.pendingOps[x]? with
      | none =>
        rw [hx] at hch
        exact h.closed ch hch
      | some ch' =>
        rw [hx] at hch
        rcases List.mem_cons.mp hch with rfl|hin
        · exact (h.pending x ch hx).1
        · exact h.closed ch hin
    · exact h.closed ch hch
  refine ⟨fun y ch hy => ?_,fun ch hch => hchannels ▸ hclosed ch hch,fun id c' ch hc' hch => ?_⟩
  · obtain ⟨hlt,hname⟩ := h.pending y ch (hpending y ch hy)
    refine ⟨hchannels ▸ hlt,fun id c' hc' hch => ?_⟩
    obtain ⟨c,hc,hphase,hseq,-⟩ := hcalls id c' hc'
    rw [hseq]
    exact hname id c hc (hphase ▸ hch)
  · obtain ⟨c,hc,hphase,hseq,hkeep,hown⟩ := hcalls id c' hc'
    rw [hphase] at hch
    obtain ⟨hlt,hold⟩ := h.channel id c ch hc hch
    refine ⟨hchannels ▸ hlt,fun hin => ?_⟩
    rcases mem_closed_notify h hc hch hin with hin|hname
    · exact hkeep (hold hin)
    · exact hown (by simp [hch]) hname

lemma CallOK.apply (h : CallOK E s c)
    (hspares : Spares E s op c) : CallOK E (E.apply s op) c := by
  have hfresh : c.phase.Open → ∀ seen, Fresh E s c seen → Fresh E (E.apply s op) c seen := by
    intro hopen seen ⟨hnone,hseen⟩
    exact ⟨hnone,fun hrelies => (hseen hrelies).trans (hspares.records hopen hnone hrelies).symm⟩
  have hsettled : c.phase.Open → ∀ seen, Settled E s c seen → Settled E (E.apply s op) c seen := by
    rintro hopen seen ⟨before,after,hmoment,hseen,houtcome,hrev⟩
    refine ⟨before,after,hmoment,hseen,houtcome,?_⟩
    rw [hspares.revision hopen (by simp [hmoment]),hrev]
  unfold CallOK at h ⊢
  cases hphase : c.phase with
  | begun => rwa [hphase] at h
  | checked seen =>
    rw [hphase] at h hfresh hsettled
    dsimp only at h ⊢
    split_ifs at h ⊢
    · exact hsettled trivial seen h
    · exact hfresh trivial seen h
  | drawn seen =>
    rw [hphase] at h hfresh
    exact hfresh trivial seen h
  | registered seen ch =>
    rw [hphase] at h hfresh
    exact hfresh trivial seen h
  | proposed seen ch =>
    rw [hphase] at h hfresh hsettled
    exact h.imp (hfresh trivial seen) (hsettled trivial seen)
  | loaded revision => rwa [hphase] at h
  | returned r => rwa [hphase] at h
  | failed => trivial

lemma callOK_of_describes {r : Response} (hphase : c.phase = .returned r)
    (h : Describes E c r) : CallOK E s c := by
  unfold CallOK
  rwa [hphase]

lemma eq_nil_of_skips {q : Request} (h : skips q seen = true) :
    seen = [] ∧ ∃ key rangeEnd, q = .delete key rangeEnd := by
  cases q with
  | put key value leaseID => cases h
  | delete key rangeEnd => exact ⟨List.isEmpty_iff.mp h,key,rangeEnd,rfl⟩

lemma callOK_checked (hphase : c.phase = .begun) (hfinds : Finds E s c) :
    CallOK E s { c with
      phase := .checked (E.seen s c.request)
      moment := if skips c.request (E.seen s c.request) then some (s,s) else none } := by
  unfold Finds at hfinds
  rw [hphase] at hfinds
  change if skips c.request (E.seen s c.request) then _ else _
  by_cases hskip : skips c.request (E.seen s c.request) = true
  · rw [if_pos hskip]
    obtain ⟨hnil,key,rangeEnd,hq⟩ := eq_nil_of_skips hskip
    have hrelies : E.reliesOn c.request = true := by rw [hq]; rfl
    refine ⟨s,s,if_pos hskip,fun _ => hfinds hrelies,?_,rfl⟩
    have haffected := (hfinds hrelies).symm.trans hnil
    rw [hq] at haffected
    change Outcome E s c.request
    rw [hq]
    exact haffected
  · rw [if_neg hskip]
    exact ⟨if_neg hskip,hfinds⟩

/-- Nothing was there to delete, and the revision is still the one of that moment. -/
lemma describes_skipped
    (hskip : skips c.request seen = true) (h : Settled E s c seen) :
    Describes E { c with phase := .returned (.delete 0 [] (E.revision s)) }
      (.delete 0 [] (E.revision s)) := by
  obtain ⟨rfl,key,rangeEnd,hq⟩ := eq_nil_of_skips hskip
  obtain ⟨before,after,hmoment,hseen,houtcome,hrev⟩ := h
  rw [hq] at hseen houtcome
  refine ⟨before,after,hmoment,?_⟩
  simp only [hq]
  exact ⟨hseen rfl,rfl,hrev,houtcome⟩

lemma callOK_awake (h : Settled E s c seen) :
    CallOK E s { c with phase := E.awake s seen c.request } := by
  obtain ⟨before,after,hmoment,hseen,houtcome,hrev⟩ := h
  cases hq : c.request with
  | delete key rangeEnd =>
    rw [hq] at hseen houtcome
    refine callOK_of_describes rfl ⟨before,after,hmoment,?_⟩
    exact ⟨hseen rfl,rfl,hrev,houtcome⟩
  | put key value leaseID =>
    rw [hq] at hseen houtcome
    by_cases hfirst : E.prevFirst = true
    · simp only [StoreEngine.awake,hfirst,if_true]
      refine callOK_of_describes rfl ⟨before,after,hmoment,?_⟩
      obtain ⟨kv,hkv,hmod⟩ := houtcome
      refine ⟨?_,kv,hkv,hmod.trans hrev.symm⟩
      rw [hseen hfirst,StoreEngine.affected]
      exact Option.head?_toList
    · simp only [StoreEngine.awake,hfirst]
      exact ⟨before,after,hmoment,houtcome,hrev⟩

lemma callOK_finish {revision : ℤ} (hphase : c.phase = .loaded revision)
    (h : CallOK E s c) (hfinds : Finds E s c) :
    CallOK E s { c with phase := E.finish s revision c.request } := by
  unfold CallOK at h
  unfold Finds at hfinds
  rw [hphase] at h hfinds
  obtain ⟨before,after,hmoment,houtcome,rfl⟩ := h
  obtain ⟨hnow,hbefore⟩ := hfinds
  cases hq : c.request with
  | delete key rangeEnd => trivial
  | put key value leaseID =>
    have hthen := hbefore before after hmoment
    rw [hq] at hnow hthen houtcome
    refine callOK_of_describes rfl ⟨before,after,hmoment,?_,houtcome⟩
    rw [Option.toList_eq_nil_iff.mp hnow,Option.toList_eq_nil_iff.mp hthen]

lemma inv_advance {m : Node σ} (h : Inv E n) (hc : n.calls id = some c)
    (hfinds : Finds E n.store c) (hstep : advance E n id c = some m) : Inv E m := by
  have hok := h.calls id c hc
  have hidle : ∀ c' : Call σ, c'.phase.channel = none → WaitersOK n.waiters (n.set id c').calls :=
    fun c' hnone => h.waiters.drop c' hnone
  unfold advance at hstep
  cases hphase : c.phase with
  | begun =>
    simp only [hphase,Option.some.injEq] at hstep
    subst hstep
    exact h.set (callOK_checked hphase hfinds) (hidle _ rfl)
      (h.not_mem_pool hc (by simp [hphase]) (.inr (by simp [hphase])))
  | checked seen =>
    have hpool := h.not_mem_pool hc (by simp [hphase]) (.inr (by simp [hphase]))
    unfold CallOK at hok
    simp only [hphase] at hstep hok
    split_ifs at hstep hok with hskip
    · obtain rfl := Option.some.inj hstep
      exact h.set (callOK_of_describes rfl (describes_skipped hskip hok)) (hidle _ rfl) hpool
    · obtain rfl := Option.some.inj hstep
      have hdrawn : CallOK E n.store { c with
          phase := .drawn seen
          seqNum := Waiters.seqName n.waiters.draw.seqNum } := hok
      exact h.set hdrawn (hidle _ rfl).draw hpool
  | drawn seen =>
    unfold CallOK at hok
    simp only [hphase,Option.some.injEq] at hstep hok
    subst hstep
    have hregistered : CallOK E n.store { c with phase := .registered seen n.waiters.channels } := hok
    exact h.set hregistered
      (h.waiters.register (c := { c with phase := .registered seen n.waiters.channels }) rfl)
      (h.not_mem_pool hc (by simp [hphase]) (.inr (by simp [hphase])))
  | registered seen ch =>
    have hpool := h.not_mem_pool hc (by simp [hphase]) (.inr (by simp [hphase]))
    unfold CallOK at hok
    simp only [hphase,Option.some.injEq] at hstep hok
    subst hstep
    have hset := h.set (c := { c with phase := .proposed seen ch }) (.inl hok)
      (h.waiters.set hc (.inl rfl) (fun ch' hch => by rw [hphase]; exact hch) fun hm => hm) hpool
    refine ⟨hset.calls,hset.waiters,List.nodup_cons.mpr ⟨hpool,h.nodup⟩,fun id' hid => ?_⟩
    rcases List.mem_cons.mp hid with rfl|hid
    · exact ⟨_,Function.update_self ..,.inr ⟨hok.1,seen,ch,rfl⟩⟩
    · exact hset.pool id' hid
  | proposed seen ch =>
    unfold CallOK at hok
    simp only [hphase] at hstep hok
    split_ifs at hstep with hclosed
    obtain rfl := Option.some.inj hstep
    have hmoment := (h.waiters.channel id c ch hc (by rw [hphase]; rfl)).2 hclosed
    have hsettled := hok.resolve_left fun hfresh => hmoment hfresh.1
    exact h.set (callOK_awake hsettled) (hidle _ (by
      cases c.request <;> simp only [StoreEngine.awake] <;> first | rfl | (split_ifs <;> rfl)))
      (h.not_mem_pool hc (by simp [hphase]) (.inl hmoment))
  | loaded revision =>
    simp only [hphase,Option.some.injEq] at hstep
    subst hstep
    exact h.set (callOK_finish hphase hok hfinds) (hidle _ (by cases c.request <;> rfl))
      (h.not_mem_pool hc (by simp [hphase]) (.inr (by simp [hphase])))
  | returned r => simp [hphase] at hstep
  | failed => simp [hphase] at hstep

lemma inv_apply (h : Inv E n)
    {pool : List ℕ} (hnodup : pool.Nodup)
    (hcalls : ∀ id c', calls id = some c' → ∃ c, n.calls id = some c ∧ c'.phase = c.phase ∧
      c'.seqNum = c.seqNum ∧ (c.moment ≠ none → c'.moment ≠ none) ∧
      (c.phase.channel ≠ none → c.seqNum = op.seqNum → c'.moment ≠ none) ∧
      CallOK E (E.apply n.store op) c')
    (hpool : ∀ id ∈ pool, ∃ c, calls id = some c ∧
      (c.phase = .failed ∨ c.moment = none ∧ ∃ seen ch, c.phase = .proposed seen ch)) :
    Inv E { applyOperation E n op with calls := calls, pool := pool } := by
  refine ⟨fun id c' hc' => ?_,?_,hnodup,hpool⟩
  · obtain ⟨c,-,-,-,-,-,hok⟩ := hcalls id c' hc'
    exact hok
  · refine h.waiters.notify fun id c' hc' => ?_
    obtain ⟨c,hc,hphase,hseq,hkeep,hown,-⟩ := hcalls id c' hc'
    exact ⟨c,hc,hphase,hseq,hkeep,hown⟩

lemma spared (h : Inv E n)
    (hc : n.calls id = some c) (hspares : Spares E n.store op c) :
    ∃ d, n.calls id = some d ∧ c.phase = d.phase ∧ c.seqNum = d.seqNum ∧
      (d.moment ≠ none → c.moment ≠ none) ∧
      (d.phase.channel ≠ none → d.seqNum = op.seqNum → c.moment ≠ none) ∧
      CallOK E (E.apply n.store op) c :=
  ⟨c,hc,rfl,rfl,fun hmoment => hmoment,fun hchannel hname => absurd hname.symm (hspares.name hchannel),
    (h.calls id c hc).apply hspares⟩

lemma outcome_apply {q : Request} {seqNum : Bytes} (h : E.Accepts s (q.operation seqNum)) :
    Outcome E (E.apply s (q.operation seqNum)) q := by
  cases q with
  | put key value leaseID => exact E.stored s _ rfl h
  | delete key rangeEnd => exact E.deleted s _ rfl

lemma inv_giveUp (h : Inv E n) (c : Call σ) :
    Inv E ({ n with waiters := n.waiters.cleanup c.seqNum false }.set id
      { c with phase := .failed }) := by
  refine ⟨fun id' d hd => ?_,(h.waiters.drop _ rfl).cleanup c.seqNum false,h.nodup,fun id' hid => ?_⟩
  · obtain ⟨-,rfl⟩|⟨-,hd⟩ := calls_set_cases hd
    · trivial
    · exact h.calls id' d hd
  · by_cases hne : id' = id
    · exact ⟨_,by rw [hne,calls_set,Function.update_self],.inl rfl⟩
    · obtain ⟨d,hd,hphase⟩ := h.pool id' hid
      exact ⟨d,by rw [calls_set,Function.update_of_ne hne]; exact hd,hphase⟩

lemma inv_commit (h : Inv E n) (hc : n.calls id = some c)
    (hid : id ∈ n.pool) (haccepts : E.Accepts n.store (c.request.operation c.seqNum))
    (hspares : ∀ id' c', id' ≠ id → n.calls id' = some c' →
      Spares E n.store (c.request.operation c.seqNum) c') :
    Inv E ({ applyOperation E n (c.request.operation c.seqNum) with pool := n.pool.erase id }.set id
      { c with moment := some (n.store,E.apply n.store (c.request.operation c.seqNum)) }) := by
  refine inv_apply h (h.nodup.erase id) (fun id' c' hc' => ?_) (h.pool_set _ fun id' hid' => ?_)
  · obtain ⟨rfl,rfl⟩|⟨hne,hc'⟩ := calls_set_cases (n := n) hc'
    · refine ⟨c,hc,rfl,rfl,fun _ => by simp,fun _ _ => by simp,?_⟩
      obtain ⟨d,hd,hphase⟩ := h.pool id' hid
      obtain rfl := Option.some.inj (hc.symm.trans hd)
      have hok := h.calls id' c hc
      unfold CallOK at hok ⊢
      rcases hphase with hfailed|⟨hnone,seen,ch,hproposed⟩
      · simp only [hfailed]
      · simp only [hproposed] at hok ⊢
        have hfresh := hok.resolve_right fun ⟨before,after,hmoment,_⟩ => by simp [hnone] at hmoment
        exact .inr ⟨_,_,rfl,hfresh.2,outcome_apply haccepts,rfl⟩
    · exact spared h hc' (hspares id' c' hne hc')
  · obtain ⟨hne,hmem⟩ := h.nodup.mem_erase_iff.mp hid'
    exact ⟨hmem,hne⟩

lemma inv_step {m : Node σ} (h : Inv E n) {e : Event} (hallowed : Allowed E n e)
    (hstep : step E n e = some m) : Inv E m := by
  unfold step at hstep
  cases e with
  | start id request =>
    cases hc : n.calls id with
    | some c => simp [hc] at hstep
    | none =>
      simp only [hc,Option.some.injEq] at hstep
      subst hstep
      refine h.set (show CallOK E n.store ⟨request,[],.begun,none⟩ from rfl) (h.waiters.drop _ rfl) ?_
      intro hid
      obtain ⟨c,hc',-⟩ := h.pool id hid
      cases hc.symm.trans hc'
  | next id =>
    obtain ⟨c,hc,hstep⟩ := Option.bind_eq_some_iff.mp hstep
    exact inv_advance h hc (hallowed c hc) hstep
  | giveUp id =>
    cases hc : n.calls id with
    | none => simp [hc] at hstep
    | some c =>
      simp only [hc] at hstep
      cases hch : c.phase.channel with
      | none => simp [hch] at hstep
      | some ch =>
        simp only [hch,Option.some.injEq] at hstep
        subst hstep
        exact inv_giveUp h c
  | commit id =>
    cases hc : n.calls id with
    | none => simp [hc] at hstep
    | some c =>
      simp only [hc] at hstep
      split_ifs at hstep with hid
      obtain rfl := Option.some.inj hstep
      exact inv_commit h hc hid (hallowed.1 c hc) (hallowed.2 c hc)
  | foreign op =>
    obtain rfl := Option.some.inj hstep
    exact inv_apply h h.nodup (fun id c hc => spared h hc (hallowed id c hc)) h.pool

abbrev Runs (E : StoreEngine σ) (store : σ) : List Event → Node σ → Prop :=
  Run (fun n e m => step E n e = some m) (Allowed E) (.new store)

def AllDescribed (E : StoreEngine σ) (n : Node σ) : Prop :=
  ∀ id c r, n.calls id = some c → c.phase = .returned r → Describes E c r

theorem allDescribed_of_runs {store : σ} {events : List Event}
    (h : Runs E store events n) : AllDescribed E n := by
  have hinv := h.invariant (fun n e m hinv hallowed hstep => inv_step hinv hallowed hstep)
    (inv_new store)
  intro id c r hc hphase
  have hok := hinv.calls id c hc
  unfold CallOK at hok
  rwa [hphase] at hok

end Invariant

section MemoryEngine
open Memory

abbrev KeyedStore := { s : MemoryEtcd // Keyed s.kvData }

def memoryApply (clock : Clock) (s : KeyedStore) (op : RaftOperation) : KeyedStore :=
  ⟨((⟨s.1,.empty⟩ : Memory).applyEffect clock op).etcd,
    keyed_applyEffect (m := ⟨s.1,.empty⟩) s.2 clock op⟩

def memoryRange (s : KeyedStore) (key rangeEnd : Bytes) : List KeyValue :=
  if rangeEnd = [] then (s.1.kvData.get key).toList else s.1.kvData.range key rangeEnd 0

lemma memory_stored (clock : Clock) (s : KeyedStore) (op : RaftOperation) (h : op.type = .put) :
    ∃ kv, (memoryApply clock s op).1.kvData.get op.key = some kv ∧
      kv.modRevision = (memoryApply clock s op).1.revision := by
  have happly : (memoryApply clock s op).1 = (s.1.putDirect op.key op.value op.leaseID).1 := by
    simp only [memoryApply,applyEffect,h,MemoryEtcd.applyPut]
  rw [happly]
  exact ⟨_,ShardedMap.get_set_self ..,rfl⟩

lemma memory_deleted (clock : Clock) (s : KeyedStore) (op : RaftOperation) (h : op.type = .delete) :
    memoryRange (memoryApply clock s op) op.key op.rangeEnd = [] := by
  have happly : (memoryApply clock s op).1 = (s.1.deleteDirect op.key op.rangeEnd).1 := by
    simp only [memoryApply,applyEffect,h,MemoryEtcd.applyDelete]
  have hget : ∀ k, Selects op.key op.rangeEnd k → (memoryApply clock s op).1.kvData.get k = none := by
    intro k hk
    rw [happly,MemoryEtcd.deleteDirect_eq_foldl s.2,MemoryEtcd.get_foldl_deleteOne]
    by_cases hlive : s.1.kvData.get k = none
    · rw [hlive,ite_self]
    · rw [if_pos ((MemoryEtcd.mem_targets s.2 hlive).mpr hk)]
  unfold memoryRange
  split_ifs with hend
  · rw [hget op.key (by simp [Selects,hend])]
    rfl
  · rw [List.eq_nil_iff_forall_not_mem]
    intro kv hkv
    obtain ⟨k,hk,hin⟩ := (ShardedMap.mem_range ..).mp hkv
    rw [hget k (by simpa [Selects,hend] using hin)] at hk
    cases hk

def memoryStore (clock : Clock) : StoreEngine KeyedStore where
  apply := memoryApply clock
  revision s := s.1.revision
  get s key := s.1.kvData.get key
  range := memoryRange
  counted := memoryRange
  prevFirst := false
  Accepts _ _ := True
  stored s op h _ := memory_stored clock s op h
  deleted := memory_deleted clock

end MemoryEngine

section RocksDBEngine
open RocksDB

/-- What `DeleteRange` finds: the records of a range are decoded by gob, which never succeeds. -/
def rocksCounted (r : Records) (key rangeEnd : Bytes) : List KeyValue :=
  if rangeEnd = [] then (getKeyValue r.db key).toList else []

def rocksAccepts (env : Env) (r : Records) (op : RaftOperation) : Prop :=
  op.type = .put → refuses env r.db op.key op.leaseID = false

lemma rocks_stored (env : Env) (r : Records) (op : RaftOperation) (h : op.type = .put)
    (haccepts : rocksAccepts env r op) :
    ∃ kv, getKeyValue (applyRecords env r op).db op.key = some kv ∧
      kv.modRevision = (applyRecords env r op).cachedRevision := by
  have happly : applyRecords env r op = (putUnlocked env r op.key op.value op.leaseID).1 := by
    simp only [applyRecords,h]
  obtain ⟨batch,hbatch⟩ : ∃ batch, RocksDB.attachKey env r.db op.key op.leaseID = .ok batch := by
    have hok := haccepts h
    unfold refuses at hok
    cases hbatch : RocksDB.attachKey env r.db op.key op.leaseID with
    | error err => simp [hbatch] at hok
    | ok batch => exact ⟨batch,rfl⟩
  rw [happly,cachedRevision_putUnlocked,getKeyValue,getElem?_putUnlocked_kvKey hbatch,if_pos rfl]
  exact ⟨_,rfl,rfl⟩

lemma rocks_deleted (env : Env) (r : Records) (op : RaftOperation) (h : op.type = .delete) :
    (RocksDB.range (applyRecords env r op) op.key op.rangeEnd 0).kvs = [] := by
  have happly : applyRecords env r op = deleteUnlocked r op.key op.rangeEnd := by
    simp only [applyRecords,h]
  have hget : ∀ k, Targets op.key op.rangeEnd k →
      (deleteUnlocked r op.key op.rangeEnd).db[kvKey k]? = none :=
    fun k hk => getElem?_deleteUnlocked_of_targets r hk
  rw [happly]
  unfold RocksDB.range
  simp only [Int.lt_irrefl,false_and,if_false]
  split_ifs with hend
  · rw [getKeyValue,hget op.key (by simp [Targets,hend])]
    rfl
  · have hscan : scan (deleteUnlocked r op.key op.rangeEnd).db op.key op.rangeEnd = [] := by
      rw [List.eq_nil_iff_forall_not_mem]
      intro x hx
      obtain ⟨hmem,k,rfl,hin⟩ := mem_scan.mp hx
      rw [ExtTreeMap.mem_iff_isSome_getElem?,hget k (by simpa [Targets,hend] using hin)] at hmem
      cases hmem
    simp [hscan]

def rocksStore (env : Env) : StoreEngine Records where
  apply := applyRecords env
  revision r := r.cachedRevision
  get r key := getKeyValue r.db key
  range r key rangeEnd := (RocksDB.range r key rangeEnd 0).kvs
  counted := rocksCounted
  prevFirst := true
  Accepts := rocksAccepts env
  stored := rocks_stored env
  deleted := rocks_deleted env

end RocksDBEngine

section Alone
variable {σ : Type*} {E : StoreEngine σ} {n : Node σ} {id : ℕ} {c : Call σ}

lemma finds_of_call (h : Finds E n.store c) : Allowed E (n.set id c) (.next id) := by
  intro d hd
  obtain ⟨-,rfl⟩|⟨hne,-⟩ := calls_set_cases hd
  · exact h
  · exact absurd rfl hne

lemma spares_of_alone (h : ∀ id', id' ≠ id → n.calls id' = none) :
    ∀ c, n.calls id = some c → ∀ id' c', id' ≠ id → n.calls id' = some c' →
      Spares E n.store (c.request.operation c.seqNum) c' := by
  intro c _ id' c' hne hc'
  cases (h id' hne).symm.trans hc'

end Alone

end MetaStore.Responses
