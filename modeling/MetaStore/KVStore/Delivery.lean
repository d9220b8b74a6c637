import MetaStore.KVStore.Watch
import MetaStore.Library.Transition

/-! What a slow consumer receives of a watch (`notifyWatches` and `slowSendEvent`, the same in both
engines). A notification that finds the channel full leaves its event to a goroutine of its own,
which waits for room beside the notifications that follow. The goroutine gives up when the watch is
cancelled, and cancels it when it has waited too long. -/
namespace MetaStore.Delivery
open Transition

/-- The buffer of `make(chan WatchEvent, 100)`. -/
def capacity : ℕ := 100

/-- `slow` has the events of the goroutines that wait, and `given` what the watch should have got
of all notifications so far. -/
structure Channel where
  buffer : List WatchEvent
  received : List WatchEvent
  slow : List WatchEvent
  closed : Bool
  given : List WatchEvent

def Channel.empty : Channel := ⟨[],[],[],false,[]⟩

inductive Action
  | notify (event : WatchEvent)
  | slowSend (i : ℕ)
  | timeout (i : ℕ)
  | cancelWatch
  | receive
  deriving DecidableEq

def Channel.send (ch : Channel) (event : WatchEvent) : Channel :=
  if ch.buffer.length < capacity then { ch with buffer := ch.buffer ++ [event] }
  else { ch with slow := ch.slow ++ [event] }

section Steps
variable (sub : WatchSubscription)

def step (ch : Channel) : Action → Option Channel
  | .notify event =>
    let events := sub.notifyWatches event
    let ch' := if ch.closed then ch else events.foldl Channel.send ch
    some { ch' with given := ch.given ++ events }
  | .slowSend i => ch.slow[i]?.bind fun event =>
    if ch.closed then some { ch with slow := ch.slow.eraseIdx i }
    else if ch.buffer.length < capacity then
      some { ch with buffer := ch.buffer ++ [event], slow := ch.slow.eraseIdx i }
    else none
  | .timeout i => ch.slow[i]?.map fun _ =>
    { ch with slow := ch.slow.eraseIdx i, closed := true }
  | .cancelWatch => some { ch with closed := true }
  | .receive =>
    match ch.buffer with
    | [] => none
    | event :: events => some { ch with buffer := events, received := ch.received ++ [event] }

def InOrder (ch : Channel) : Prop := ch.received <+: ch.given

def Action.isNotify : Action → Bool
  | .notify _ => true
  | _ => false

/-- The property holds after every beginning of the run, however the goroutines and the consumer go
on from there. -/
def AlwaysInOrder (actions : List Action) : Prop :=
  ∀ p, p <+: actions → ∀ later : List Action, (∀ a ∈ later, a.isNotify = false) →
    ∀ ch, (p ++ later).foldlM (step sub) .empty = some ch → InOrder ch

def Action.Safe (ch : Channel) : Action → Prop
  | .notify event => ch.closed = false → sub.notifyWatches event ≠ [] → ch.slow = []
  | _ => True

def Rising (actions : List Action) : Prop :=
  actions.Pairwise fun a b => ∀ e e', a = .notify e → b = .notify e' → e.revision < e'.revision

end Steps

section Order
variable {sub : WatchSubscription} {ch ch' : Channel}

lemma notifyWatches_cases (sub : WatchSubscription) (event : WatchEvent) :
    sub.notifyWatches event = [] ∨ ∃ e, sub.notifyWatches event = [e] := by
  rw [WatchSubscription.notifyWatches]
  split_ifs
  · exact Or.inr ⟨_,rfl⟩
  · exact Or.inr ⟨_,rfl⟩
  · exact Or.inl rfl

structure Sound (ch : Channel) : Prop where
  order : ch.received ++ ch.buffer <+: ch.given
  whole : ch.closed = false → ch.received ++ ch.buffer ++ ch.slow = ch.given
  single : ch.closed = false → ch.slow.length ≤ 1
  bound : ch.buffer.length ≤ capacity

lemma sound_empty : Sound .empty := ⟨List.nil_prefix,fun _ => rfl,fun _ => Nat.zero_le 1,Nat.zero_le _⟩

namespace Sound

lemma inOrder (h : Sound ch) : InOrder ch := (List.prefix_append _ _).trans h.order

lemma close (h : Sound ch) (slow : List WatchEvent) :
    Sound { ch with slow := slow, closed := true } :=
  ⟨h.order,fun hclosed => absurd hclosed Bool.false_ne_true.symm,
    fun hclosed => absurd hclosed Bool.false_ne_true.symm,h.bound⟩

lemma send (h : Sound ch) (hopen : ch.closed = false) (hslow : ch.slow = []) (e : WatchEvent) :
    Sound { ch.send e with given := ch.given ++ [e] } := by
  have hwhole := h.whole hopen
  rw [hslow,List.append_nil] at hwhole
  by_cases hroom : ch.buffer.length < capacity
  · rw [Channel.send,if_pos hroom]
    have hnew : ch.received ++ (ch.buffer ++ [e]) = ch.given ++ [e] := by
      rw [← hwhole,List.append_assoc]
    refine ⟨hnew ▸ List.prefix_rfl,fun _ => ?_,fun _ => ?_,?_⟩
    · dsimp only
      rw [hslow,List.append_nil,hnew]
    · dsimp only
      rw [hslow]
      exact Nat.zero_le 1
    · dsimp only
      rw [List.length_append]
      exact hroom
  · rw [Channel.send,if_neg hroom]
    refine ⟨h.order.trans (List.prefix_append _ _),fun _ => ?_,fun _ => ?_,h.bound⟩
    · dsimp only
      rw [hslow,List.nil_append,hwhole]
    · dsimp only
      rw [hslow]
      exact le_rfl

lemma notify (h : Sound ch) {event : WatchEvent} (hsafe : (Action.notify event).Safe sub ch)
    (hstep : step sub ch (.notify event) = some ch') : Sound ch' := by
  obtain rfl := Option.some.inj hstep
  cases hclosed : ch.closed with
  | true =>
    rw [if_pos rfl]
    refine ⟨h.order.trans (List.prefix_append _ _),fun hopen => ?_,fun hopen => ?_,h.bound⟩
    · exact absurd (hclosed.symm.trans hopen) (by decide)
    · exact absurd (hclosed.symm.trans hopen) (by decide)
  | false =>
    rw [if_neg Bool.false_ne_true]
    obtain hnone | ⟨e,he⟩ := notifyWatches_cases sub event
    · rw [hnone,List.foldl_nil,List.append_nil]
      exact h
    · rw [he]
      exact h.send hclosed (hsafe hclosed (he ▸ List.cons_ne_nil e [])) e

lemma slowSend (h : Sound ch) {i : ℕ} (hstep : step sub ch (.slowSend i) = some ch') :
    Sound ch' := by
  obtain ⟨event,hevent,hstep⟩ := Option.bind_eq_some_iff.mp hstep
  cases hclosed : ch.closed with
  | true =>
    rw [if_pos hclosed] at hstep
    obtain rfl := Option.some.inj hstep
    rw [hclosed]
    exact h.close _
  | false =>
    rw [if_neg (by rw [hclosed]; decide)] at hstep
    split_ifs at hstep with hroom
    obtain rfl := Option.some.inj hstep
    -- the event is the only one that waits
    have hslow : ch.slow = [event] := by
      have hsingle := h.single hclosed
      obtain ⟨hi,rfl⟩ := List.getElem?_eq_some_iff.mp hevent
      obtain ⟨e,he⟩ := List.length_eq_one_iff.mp (by omega : ch.slow.length = 1)
      simp only [he,List.getElem_singleton]
    have hi : i = 0 := by
      obtain ⟨hi,-⟩ := List.getElem?_eq_some_iff.mp hevent
      rw [hslow] at hi
      exact Nat.lt_one_iff.mp hi
    have hwhole := h.whole hclosed
    rw [hslow] at hwhole
    have hnew : ch.received ++ (ch.buffer ++ [event]) = ch.given := by
      rw [← hwhole,List.append_assoc]
    refine ⟨hnew ▸ List.prefix_rfl,fun _ => ?_,fun _ => ?_,?_⟩
    · dsimp only
      rw [hslow,hi,List.eraseIdx_zero,List.tail_cons,List.append_nil,hnew]
    · dsimp only
      rw [hslow,hi]
      exact Nat.zero_le 1
    · dsimp only
      rw [List.length_append]
      exact hroom

lemma receive (h : Sound ch) (hstep : step sub ch .receive = some ch') : Sound ch' := by
  rw [step] at hstep
  cases hbuffer : ch.buffer with
  | nil =>
    rw [hbuffer] at hstep
    cases hstep
  | cons e events =>
    rw [hbuffer] at hstep
    obtain rfl := Option.some.inj hstep
    have hsame : ch.received ++ [e] ++ events = ch.received ++ ch.buffer := by
      rw [hbuffer,List.append_assoc,List.singleton_append]
    have hbound := h.bound
    rw [hbuffer,List.length_cons] at hbound
    refine ⟨hsame ▸ h.order,fun hopen => ?_,h.single,by dsimp only; omega⟩
    dsimp only
    rw [hsame]
    exact h.whole hopen

lemma step (h : Sound ch) {a : Action} (hsafe : a.Safe sub ch)
    (hstep : step sub ch a = some ch') : Sound ch' := by
  cases a with
  | notify event => exact h.notify hsafe hstep
  | slowSend i => exact h.slowSend hstep
  | timeout i =>
    obtain ⟨event,-,rfl⟩ := Option.map_eq_some_iff.mp hstep
    exact h.close _
  | cancelWatch =>
    obtain rfl := Option.some.inj hstep
    exact h.close _
  | receive => exact h.receive hstep

end Sound

lemma safe_of_not_notify {a : Action} (h : a.isNotify = false) (ch : Channel) : a.Safe sub ch := by
  cases a with
  | notify event => cases h
  | _ => trivial

lemma Sound.run (h : Sound ch) {later : List Action} (hlater : ∀ a ∈ later, a.isNotify = false)
    (hrun : later.foldlM (Delivery.step sub) ch = some ch') : Sound ch' := by
  induction later generalizing ch with
  | nil => exact Option.some.inj hrun ▸ h
  | cons a later ih =>
    obtain ⟨u,hu,hrun⟩ := Option.bind_eq_some_iff.mp hrun
    have ha : a.Safe sub ch := safe_of_not_notify (hlater a List.mem_cons_self) ch
    exact ih (h.step ha hu) (fun b hb => hlater b (List.mem_cons_of_mem a hb)) hrun

def Action.events (sub : WatchSubscription) : Action → List WatchEvent
  | .notify event => sub.notifyWatches event
  | _ => []

lemma given_step {a : Action} (hstep : step sub ch a = some ch') :
    ch'.given = ch.given ++ a.events sub := by
  cases a with
  | notify event =>
    obtain rfl := Option.some.inj hstep
    rfl
  | slowSend i =>
    obtain ⟨event,-,hstep⟩ := Option.bind_eq_some_iff.mp hstep
    split_ifs at hstep
    · obtain rfl := Option.some.inj hstep
      exact (List.append_nil _).symm
    · obtain rfl := Option.some.inj hstep
      exact (List.append_nil _).symm
  | timeout i =>
    obtain ⟨event,-,rfl⟩ := Option.map_eq_some_iff.mp hstep
    exact (List.append_nil _).symm
  | cancelWatch =>
    obtain rfl := Option.some.inj hstep
    exact (List.append_nil _).symm
  | receive =>
    rw [step] at hstep
    split at hstep
    · cases hstep
    · obtain rfl := Option.some.inj hstep
      exact (List.append_nil _).symm

lemma given_run {p : List Action} (hrun : p.foldlM (step sub) .empty = some ch) :
    ch.given = p.flatMap (Action.events sub) := by
  induction p using List.reverseRecOn generalizing ch with
  | nil => exact Option.some.inj hrun ▸ rfl
  | append_singleton p a ih =>
    obtain ⟨u,hu,hstep⟩ := foldlM_snoc_eq_some_iff.mp hrun
    rw [given_step hstep,ih hu,List.flatMap_append,List.flatMap_singleton]

lemma exists_notify {p : List Action} (hrun : p.foldlM (step sub) .empty = some ch) {e : WatchEvent}
    (he : e ∈ ch.given) : ∃ event, .notify event ∈ p ∧ event.revision = e.revision := by
  rw [given_run hrun] at he
  obtain ⟨a,ha,he⟩ := List.mem_flatMap.mp he
  cases a with
  | notify event => exact ⟨event,ha,(WatchSubscription.mem_notifyWatches he).symm⟩
  | _ => exact absurd he List.not_mem_nil

lemma receive_all (ch : Channel) :
    (List.replicate ch.buffer.length Action.receive).foldlM (step sub) ch =
      some { ch with buffer := [], received := ch.received ++ ch.buffer } := by
  obtain ⟨buffer,received,slow,closed,given⟩ := ch
  induction buffer generalizing received with
  | nil => simp
  | cons e buffer ih =>
    have hrest := ih (received ++ [e])
    rw [List.append_assoc,List.singleton_append] at hrest
    exact hrest

/-- Two events wait, or the later one has been sent: the consumer can receive it first. -/
lemma exists_overtaking (sub : WatchSubscription) (h : Sound ch) (hopen : ch.closed = false)
    {e : WatchEvent} (hslow : ch.slow = [e]) (e' : WatchEvent) :
    ∃ (later : List Action) (ch'' : Channel), (∀ a ∈ later, a.isNotify = false) ∧
      later.foldlM (step sub) { ch.send e' with given := ch.given ++ [e'] } = some ch'' ∧
      ch''.received = ch.received ++ ch.buffer ++ [e'] ∧ ch''.given = ch.given ++ [e'] := by
  have hreceives (n : ℕ) : ∀ a ∈ List.replicate n Action.receive, a.isNotify = false :=
    fun a ha => (List.mem_replicate.mp ha).2 ▸ rfl
  by_cases hroom : ch.buffer.length < capacity
  · rw [Channel.send,if_pos hroom]
    refine ⟨_,_,hreceives _,receive_all _,?_,rfl⟩
    exact (List.append_assoc ..).symm
  · rw [Channel.send,if_neg hroom]
    have hbound := h.bound
    obtain ⟨b,bs,hbuffer⟩ := List.exists_cons_of_length_pos
      (Nat.lt_of_lt_of_le (by decide : 0 < capacity) (not_lt.mp hroom))
    rw [hbuffer,List.length_cons] at hbound
    -- one receive makes room, and the second goroutine takes it
    let ch₁ : Channel := ⟨bs ++ [e'],ch.received ++ [b],[e],false,ch.given ++ [e']⟩
    refine ⟨[.receive,.slowSend 1] ++ List.replicate ch₁.buffer.length .receive,
      { ch₁ with buffer := [], received := ch₁.received ++ ch₁.buffer },?_,?_,?_,rfl⟩
    · intro a ha
      obtain ha | ha := List.mem_append.mp ha
      · fin_cases ha <;> rfl
      · exact hreceives _ a ha
    · rw [List.foldlM_append]
      have htwo : [Action.receive,.slowSend 1].foldlM (step sub)
          { ch with slow := ch.slow ++ [e'], given := ch.given ++ [e'] } = some ch₁ := by
        have hlt : bs.length < capacity := hbound
        simp [step,hbuffer,hslow,hopen,hlt,ch₁]
      rw [htwo]
      exact receive_all ch₁
    · simp [ch₁,hbuffer]

lemma safe_of_always {actions p : List Action} {a : Action} (hrising : Rising actions)
    (halways : AlwaysInOrder sub actions) (hp : p ++ [a] <+: actions)
    (hrun : p.foldlM (step sub) .empty = some ch) (h : Sound ch) : a.Safe sub ch := by
  cases a with
  | notify event =>
    intro hopen hsees
    by_contra hwait
    obtain ⟨e,he⟩ : ∃ e, ch.slow = [e] := by
      have := List.length_pos_of_ne_nil hwait
      have := h.single hopen
      exact List.length_eq_one_iff.mp (by omega)
    obtain ⟨e',he'⟩ := (notifyWatches_cases sub event).resolve_left hsees
    have hwhole := h.whole hopen
    rw [he] at hwhole
    obtain ⟨later,ch'',hlater,hfinal,hreceived,hgiven⟩ := exists_overtaking sub h hopen he e'
    have hstep : step sub ch (.notify event) = some { ch.send e' with given := ch.given ++ [e'] } := by
      rw [step,he',hopen]
      rfl
    have horder := halways _ hp later hlater ch'' (by
      rw [List.foldlM_append,foldlM_snoc_eq_some_iff.mpr ⟨ch,hrun,hstep⟩]
      exact hfinal)
    rw [InOrder,hreceived,hgiven,← hwhole,List.append_assoc (ch.received ++ ch.buffer) [e],
      List.prefix_append_right_inj] at horder
    have hsame : e' = e := (List.cons_prefix_cons.mp horder).1
    -- the event that waits has an earlier revision
    obtain ⟨first,hfirst,hrevision⟩ := exists_notify hrun (e := e) (hwhole ▸ by simp)
    have hlt := (List.pairwise_append.mp (hrising.sublist hp.sublist)).2.2 _ hfirst _
      List.mem_cons_self first event rfl rfl
    have hevent := WatchSubscription.mem_notifyWatches (he' ▸ List.mem_cons_self : e' ∈ _)
    rw [hrevision,← hevent,hsame] at hlt
    exact lt_irrefl _ hlt
  | _ => trivial

/-- If revisions grow, the consumer receives the first of the events in their order, in all of a run
and however it goes on, exactly when no notification is sent while an earlier event waits. -/
theorem delivered_in_order_iff (sub : WatchSubscription) (actions : List Action)
    (hrising : Rising actions) :
    AlwaysInOrder sub actions ↔
      EveryStep (step sub) (fun ch a _ => a.Safe sub ch) .empty actions := by
  constructor
  · intro halways
    have hsound : EveryState (step sub) Sound .empty actions := by
      intro p
      induction p using List.reverseRecOn with
      | nil =>
        intro _ ch hch
        exact Option.some.inj hch ▸ sound_empty
      | append_singleton p a ih =>
        intro hp ch hch
        obtain ⟨u,hu,hstep⟩ := foldlM_snoc_eq_some_iff.mp hch
        have hu' := ih ((List.prefix_append p [a]).trans hp) u hu
        exact hu'.step (safe_of_always hrising halways hp hu hu') hstep
    intro p a hp ch ch' hch hstep
    exact safe_of_always hrising halways hp hch (hsound p ((List.prefix_append p _).trans hp) ch hch)
  · intro hsafe p hp later hlater ch hch
    have hsound : EveryState (step sub) Sound .empty actions :=
      everyState_of_everyStep (fun ch a _ ch' h hstep ha => h.step ha hstep) sound_empty hsafe
    rw [List.foldlM_append] at hch
    obtain ⟨u,hu,hch⟩ := Option.bind_eq_some_iff.mp hch
    exact ((hsound p hp u hu).run hlater hch).inOrder

end Order

def putOf (revision : ℤ) : WatchEvent := putEvent ⟨[107],[],1,revision,1,0⟩ none revision

/-- Two events, the second sent after the first was received. -/
theorem delivered_in_order_two :
    AlwaysInOrder { key := [107] } [.notify (putOf 1),.receive,.notify (putOf 2)] := by
  refine (delivered_in_order_iff _ _ ?_).mpr ?_
  · simp [Rising,putOf,putEvent]
  · refine everyStep_of_some rfl (fun _ _ => rfl) ?_
    refine everyStep_of_some rfl trivial ?_
    exact everyStep_cons.mpr fun v hv => ⟨fun _ _ => rfl,everyStep_nil v⟩

/-- The consumer does not read until 102 events have been sent, so that two of them wait. The last
one takes the room that the first receive makes, and is received where the one before it
should be. -/
theorem delivered_out_of_order :
    let notifications := (List.range 102).map fun i => Action.notify (putOf (i+1))
    let later := [.receive,.slowSend 1] ++ List.replicate 100 .receive
    let after := (notifications ++ later).foldlM (step { key := [107] }) .empty
    after.map (fun ch => (ch.closed,ch.received.map WatchEvent.revision)) =
      some (false,(List.range 100).map (fun i : ℕ => (i+1 : ℤ)) ++ [102]) ∧
    after.map (fun ch => decide (ch.received <+: ch.given)) = some false := by
  decide +kernel

end MetaStore.Delivery
