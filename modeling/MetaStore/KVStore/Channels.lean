import MetaStore.KVStore.Watch
import MetaStore.Library.Transition

/-! The channels of the watches and the goroutines that send on them and close them (the same code
in both engines). A goroutine takes a subscription out of the table under the lock and uses it
after the lock is released. `CancelWatch` closes the cancel channel first, which wakes the
goroutines that are blocked in a select, and then the event channel. -/
namespace MetaStore.Channels
open Std Transition

/-- Where a goroutine is: how much of the history or how many of the collected subscriptions it
still has to send to, whether its slow send has blocked, and what of a cancellation is left. -/
inductive Routine
  | done
  | history (ref : ℕ) (events : List WatchEvent)
  | notify (event : WatchEvent) (refs : List ℕ)
  | slow (ref : ℕ) (event : WatchEvent) (blocked : Bool)
  | cancelWatch (watchID : ℤ)
  | closeCancel (ref : ℕ)
  | closeEvents (ref : ℕ)
  deriving DecidableEq

/-- `closed` and `closeOnce` of a subscription, and the states of its two channels. -/
structure Flags where
  closed : Bool := false
  once : Bool := false
  cancelClosed : Bool := false
  eventsClosed : Bool := false
  deriving DecidableEq

/-- Subscriptions are objects; the table has those that are not cancelled. -/
structure State where
  subs : ℕ → WatchSubscription
  ids : ℕ → ℤ
  buffers : ℕ → List WatchEvent
  flags : ℕ → Flags
  next : ℕ
  watches : ExtTreeMap ℤ ℕ
  routines : ℕ → Routine
  count : ℕ
  panicked : Bool

def State.init : State where
  subs _ := ⟨[],[],false,[]⟩
  ids _ := 0
  buffers _ := []
  flags _ := {}
  next := 0
  watches := ∅
  routines _ := .done
  count := 0
  panicked := false

/-- The buffer of `make(chan WatchEvent, 100)`. -/
def eventChCapacity : ℕ := 100

/-- The cases of a select over a send, the cancel channel and a default. -/
inductive Choice
  | panic | send | cancel | otherwise

namespace State
variable (s : State)

def set (i : ℕ) (r : Routine) : State := { s with routines := Function.update s.routines i r }

def spawn (r : Routine) : State :=
  { s with routines := Function.update s.routines s.count r, count := s.count+1 }

def push (ref : ℕ) (event : WatchEvent) : State :=
  { s with buffers := Function.update s.buffers ref (s.buffers ref ++ [event]) }

def setFlags (ref : ℕ) (flags : Flags) : State :=
  { s with flags := Function.update s.flags ref flags }

def panic : State := { s with panicked := true }

/-- A send on a closed channel is always among the ready cases. Between a send and a cancelled
watch the select takes what it likes. -/
def select (ref : ℕ) (pick : Bool) : Choice :=
  if (s.flags ref).eventsClosed then .panic
  else if (s.buffers ref).length < eventChCapacity ∧ (pick ∨ ¬ (s.flags ref).cancelClosed) then .send
  else if (s.flags ref).cancelClosed then .cancel
  else .otherwise

def prepared (ref : ℕ) (event : WatchEvent) : WatchEvent :=
  if (s.subs ref).prevKV then event else { event with prevKv := none }

/-- A closed cancel channel wakes the goroutines that are blocked in a select on it. -/
def wake (ref : ℕ) : Routine → Routine
  | .slow ref' event true => if ref' = ref then .done else .slow ref' event true
  | r => r

def blockedOn (ref : ℕ) : Bool :=
  (List.range s.count).any fun i => s.routines i != wake ref (s.routines i)

def run (i : ℕ) (pick : Bool) : Option State :=
  match s.routines i with
  | .done => none
  | .history _ [] => some (s.set i .done)
  | .history ref (event :: events) =>
    match s.select ref pick with
    | .panic => some s.panic
    | .send => some ((s.push ref event).set i (.history ref events))
    | .cancel => some (s.set i .done)
    | .otherwise => some (s.set i (.history ref events))
  | .notify _ [] => some (s.set i .done)
  | .notify event (ref :: refs) =>
    if shouldFilter event.type (s.subs ref).filters then some (s.set i (.notify event refs))
    else
      match s.select ref pick with
      | .panic => some s.panic
      | .send => some ((s.push ref (s.prepared ref event)).set i (.notify event refs))
      | .cancel => some (s.set i (.notify event refs))
      | .otherwise =>
        some ((s.set i (.notify event refs)).spawn (.slow ref (s.prepared ref event) false))
  | .slow ref event false =>
    match s.select ref pick with
    | .panic => some s.panic
    | .send => some ((s.push ref event).set i .done)
    | .cancel => some (s.set i .done)
    | .otherwise => some (s.set i (.slow ref event true))
  | .slow _ _ true => none
  | .cancelWatch watchID =>
    match s.watches[watchID]? with
    | none => some (s.set i .done)
    | some ref =>
      if (s.flags ref).closed then some (s.set i .done)
      else some ({ s.setFlags ref { s.flags ref with closed := true } with
        watches := s.watches.erase watchID }.set i (.closeCancel ref))
  | .closeCancel ref =>
    if (s.flags ref).once then some (s.set i .done)
    else if (s.flags ref).cancelClosed then some s.panic
    else some ({ s.setFlags ref { s.flags ref with once := true, cancelClosed := true } with
      routines := fun j => wake ref (s.routines j) }.set i (.closeEvents ref))
  | .closeEvents ref =>
    if (s.flags ref).eventsClosed || s.blockedOn ref then some s.panic
    else some ((s.setFlags ref { s.flags ref with eventsClosed := true }).set i .done)

def matching (event : WatchEvent) : List ℕ :=
  (s.watches.toList.map Prod.snd).filter fun ref =>
    !(s.flags ref).closed && matchWatch event.key (s.subs ref).key (s.subs ref).rangeEnd

/-- A receive. From a full channel it lets a goroutine send that is blocked. -/
def receive (ref : ℕ) (sender : Option ℕ) : Option State :=
  match s.buffers ref with
  | [] => none
  | _ :: events =>
    match sender with
    | none =>
      if s.blockedOn ref then none
      else some { s with buffers := Function.update s.buffers ref events }
    | some i =>
      match s.routines i with
      | .slow ref' event true =>
        if ref' = ref then
          some ({ s with buffers := Function.update s.buffers ref (events ++ [event]) }.set i .done)
        else none
      | _ => none

end State

inductive Event
  | watchWithOptions (watchID : ℤ) (sub : WatchSubscription) (history : Option (List WatchEvent))
  | notifyWatches (event : WatchEvent) (refs : List ℕ)
  | cancelWatch (watchID : ℤ)
  | run (i : ℕ) (pick : Bool)
  | timeout (i : ℕ)
  | receive (ref : ℕ) (sender : Option ℕ)

/-- A watch is created with or without the goroutine that sends the history. A notification
collects its subscriptions, in any order. A goroutine that has been blocked for too long cancels the
watch by its id. -/
def step (s : State) : Event → Option State
  | .watchWithOptions watchID sub history =>
    if watchID ∈ s.watches then some s
    else
      let t := { s with
        subs := Function.update s.subs s.next sub
        ids := Function.update s.ids s.next watchID
        buffers := Function.update s.buffers s.next []
        flags := Function.update s.flags s.next {}
        next := s.next+1
        watches := s.watches.insert watchID s.next }
      match history with
      | none => some t
      | some events => some (t.spawn (.history s.next events))
  | .notifyWatches event refs =>
    if refs.isPerm (s.matching event) then some (s.spawn (.notify event refs)) else none
  | .cancelWatch watchID => some (s.spawn (.cancelWatch watchID))
  | .run i pick => if s.panicked then none else s.run i pick
  | .timeout i =>
    match s.routines i with
    | .slow ref _ true => some (s.set i (.cancelWatch (s.ids ref)))
    | _ => none
  | .receive ref sender => s.receive ref sender

def State.Sends (s : State) (ref : ℕ) : Routine → Prop
  | .history ref' events => ref' = ref ∧ events ≠ []
  | .notify event refs => ref ∈ refs ∧ shouldFilter event.type (s.subs ref).filters = false
  | .slow ref' _ blocked => ref' = ref ∧ blocked = false
  | _ => False

/-- An event channel is closed when no goroutine has still to send on it. -/
def Event.Safe (s : State) : Event → Prop
  | .run i _ => ∀ ref, s.routines i = .closeEvents ref → ∀ j, ¬ s.Sends ref (s.routines j)
  | _ => True

def Routine.refs : Routine → List ℕ
  | .history ref _ => [ref]
  | .notify _ refs => refs
  | .slow ref _ _ => [ref]
  | .closeCancel ref => [ref]
  | .closeEvents ref => [ref]
  | _ => []

structure Tame (s : State) (r : Routine) : Prop where
  bounded : ∀ ref ∈ r.refs, ref < s.next
  quiet : ∀ ref, s.Sends ref r → (s.flags ref).eventsClosed = false
  blocked : ∀ ref event, r = .slow ref event true → (s.flags ref).cancelClosed = false
  cancelled : ∀ ref, r = .closeCancel ref → (s.flags ref).closed = true

/-- Channels are closed in order and once, each by one goroutine, and nobody has still to send on a
closed one. -/
structure Sound (s : State) : Prop where
  alive : s.panicked = false
  tame : ∀ i, Tame s (s.routines i)
  mapped : ∀ (id : ℤ) ref, s.watches[id]? = some ref →
    ref < s.next ∧ (s.flags ref).closed = false ∧ s.ids ref = id
  entered : ∀ ref, (s.flags ref).closed = false → (s.flags ref).once = false
  ordered : ∀ ref, (s.flags ref).once = false →
    (s.flags ref).cancelClosed = false ∧ (s.flags ref).eventsClosed = false
  closing : ∀ i ref, s.routines i = .closeEvents ref → (s.flags ref).once = true ∧
    (s.flags ref).cancelClosed = true ∧ (s.flags ref).eventsClosed = false
  unique : ∀ i j ref, s.routines i = .closeEvents ref → s.routines j = .closeEvents ref → i = j

lemma tame_done (s : State) : Tame s .done where
  bounded ref h := absurd h List.not_mem_nil
  quiet ref h := h.elim
  blocked ref event h := by cases h
  cancelled ref h := by cases h

lemma tame_cancelWatch (s : State) (watchID : ℤ) : Tame s (.cancelWatch watchID) where
  bounded ref h := absurd h List.not_mem_nil
  quiet ref h := h.elim
  blocked ref event h := by cases h
  cancelled ref h := by cases h

lemma mem_refs_of_sends {s : State} {ref : ℕ} {r : Routine} (h : s.Sends ref r) : ref ∈ r.refs := by
  cases r with
  | history ref' events => exact h.1 ▸ List.mem_cons_self
  | notify event refs => exact h.1
  | slow ref' event blocked => exact h.1 ▸ List.mem_cons_self
  | _ => exact h.elim

lemma sends_congr {s t : State} {ref : ℕ} (h : s.subs ref = t.subs ref) (r : Routine) :
    s.Sends ref r ↔ t.Sends ref r := by
  cases r with
  | notify event refs => rw [State.Sends,State.Sends,h]
  | _ => exact Iff.rfl

namespace Tame
variable {s : State}
variable {ref : ℕ} {event : WatchEvent}

lemma history_tail {events : List WatchEvent}
    (h : Tame s (.history ref (event :: events))) : Tame s (.history ref events) where
  bounded := h.bounded
  quiet r hr := h.quiet r ⟨hr.1,List.cons_ne_nil _ _⟩
  blocked r e hr := by cases hr
  cancelled r hr := by cases hr

lemma notify_tail {refs : List ℕ}
    (h : Tame s (.notify event (ref :: refs))) : Tame s (.notify event refs) where
  bounded r hr := h.bounded r (List.mem_cons_of_mem ref hr)
  quiet r hr := h.quiet r ⟨List.mem_cons_of_mem ref hr.1,hr.2⟩
  blocked r e hr := by cases hr
  cancelled r hr := by cases hr

lemma notify_slow {refs : List ℕ}
    (h : Tame s (.notify event (ref :: refs)))
    (hfilter : shouldFilter event.type (s.subs ref).filters = false) (e : WatchEvent) :
    Tame s (.slow ref e false) where
  bounded r hr := h.bounded r (List.mem_singleton.mp hr ▸ List.mem_cons_self)
  quiet r hr := hr.1 ▸ h.quiet ref ⟨List.mem_cons_self,hfilter⟩
  blocked r e hr := by cases hr
  cancelled r hr := by cases hr

end Tame

lemma select_of_open {s : State} {ref : ℕ} (h : (s.flags ref).eventsClosed = false) (pick : Bool) :
    s.select ref pick = .send ∨ s.select ref pick = .cancel ∨
      s.select ref pick = .otherwise ∧ (s.flags ref).cancelClosed = false := by
  rw [State.select,if_neg (by rw [h]; decide)]
  by_cases hsend : (s.buffers ref).length < eventChCapacity ∧ (pick ∨ ¬ (s.flags ref).cancelClosed)
  · rw [if_pos hsend]
    exact Or.inl rfl
  · rw [if_neg hsend]
    cases (s.flags ref).cancelClosed with
    | true => exact Or.inr (Or.inl rfl)
    | false => exact Or.inr (Or.inr ⟨rfl,rfl⟩)

lemma wake_eq_self {ref : ℕ} {r : Routine} (h : ∀ event, r ≠ .slow ref event true) :
    State.wake ref r = r := by
  cases r with
  | slow ref' event blocked =>
    cases blocked with
    | false => rfl
    | true =>
      have hne : ref' ≠ ref := by
        rintro rfl
        exact h event rfl
      exact if_neg hne
  | _ => rfl

lemma wake_cases (ref : ℕ) (r : Routine) : State.wake ref r = .done ∨
    State.wake ref r = r ∧ ∀ event, r ≠ .slow ref event true := by
  by_cases h : ∃ event, r = .slow ref event true
  · obtain ⟨event,rfl⟩ := h
    exact Or.inl (if_pos rfl)
  · have hne : ∀ event, r ≠ .slow ref event true := fun event hr => h ⟨event,hr⟩
    exact Or.inr ⟨wake_eq_self hne,hne⟩

namespace Sound
variable {s t : State}
variable {pick : Bool} {i ref : ℕ} {event : WatchEvent}

lemma set (h : Sound s) {r : Routine} (hr : Tame s r) (hclose : ∀ ref, r ≠ .closeEvents ref) :
    Sound (s.set i r) := by
  have hold : ∀ j ref, (s.set i r).routines j = .closeEvents ref →
      s.routines j = .closeEvents ref := by
    intro j ref hj
    dsimp only [State.set] at hj
    by_cases hji : j = i
    · rw [hji,Function.update_self] at hj
      exact absurd hj (hclose ref)
    · rwa [Function.update_of_ne hji] at hj
  refine ⟨h.alive,fun j => ?_,h.mapped,h.entered,h.ordered,?_,?_⟩
  · dsimp only [State.set]
    by_cases hji : j = i
    · rw [hji,Function.update_self]
      exact ⟨hr.bounded,hr.quiet,hr.blocked,hr.cancelled⟩
    · rw [Function.update_of_ne hji]
      exact ⟨(h.tame j).bounded,(h.tame j).quiet,(h.tame j).blocked,(h.tame j).cancelled⟩
  · exact fun j ref hj => h.closing j ref (hold j ref hj)
  · exact fun j k ref hj hk => h.unique j k ref (hold j ref hj) (hold k ref hk)

lemma spawn (h : Sound s) {r : Routine} (hr : Tame s r) (hclose : ∀ ref, r ≠ .closeEvents ref) :
    Sound (s.spawn r) :=
  have hset := h.set (i := s.count) hr hclose
  ⟨hset.alive,fun j => ⟨(hset.tame j).bounded,(hset.tame j).quiet,(hset.tame j).blocked,
    (hset.tame j).cancelled⟩,hset.mapped,hset.entered,hset.ordered,hset.closing,hset.unique⟩

lemma setBuffers (h : Sound s) (buffers : ℕ → List WatchEvent) : Sound { s with buffers := buffers } :=
  ⟨h.alive,fun j => ⟨(h.tame j).bounded,(h.tame j).quiet,(h.tame j).blocked,(h.tame j).cancelled⟩,
    h.mapped,h.entered,h.ordered,h.closing,h.unique⟩

lemma done (h : Sound s) (i : ℕ) : Sound (s.set i .done) :=
  h.set (tame_done s) fun ref hr => by cases hr

lemma setFlags (h : Sound s) {flags : Flags}
    (hquiet : flags.eventsClosed = true → ∀ j, ¬ s.Sends ref (s.routines j))
    (hblocked : flags.cancelClosed = true → ∀ j event, s.routines j ≠ .slow ref event true)
    (hcancelled : ∀ j, s.routines j = .closeCancel ref → flags.closed = true)
    (hmapped : flags.closed = true → ∀ id : ℤ, s.watches[id]? ≠ some ref)
    (hentered : flags.closed = false → flags.once = false)
    (hordered : flags.once = false → flags.cancelClosed = false ∧ flags.eventsClosed = false)
    (hclosing : ∀ j, s.routines j = .closeEvents ref →
      flags.once = true ∧ flags.cancelClosed = true ∧ flags.eventsClosed = false) :
    Sound (s.setFlags ref flags) := by
  -- what holds of the flags of all subscriptions holds of the new ones of this subscription
  have hall : ∀ {P : ℕ → Flags → Prop}, (∀ r, P r (s.flags r)) → P ref flags →
      ∀ r, P r ((s.setFlags ref flags).flags r) := by
    intro P hs hnew r
    dsimp only [State.setFlags]
    by_cases hr : r = ref
    · rw [hr,Function.update_self]
      exact hnew
    · rw [Function.update_of_ne hr]
      exact hs r
  refine ⟨h.alive,fun j => ⟨(h.tame j).bounded,?_,?_,?_⟩,?_,?_,?_,?_,h.unique⟩
  · exact hall (P := fun r f => s.Sends r (s.routines j) → f.eventsClosed = false) (h.tame j).quiet
      fun hsends => Bool.eq_false_iff.mpr fun hclosed => hquiet hclosed j hsends
  · exact hall (P := fun r f => ∀ event, s.routines j = .slow r event true → f.cancelClosed = false)
      (h.tame j).blocked
      fun event hj => Bool.eq_false_iff.mpr fun hclosed => hblocked hclosed j event hj
  · exact hall (P := fun r f => s.routines j = .closeCancel r → f.closed = true) (h.tame j).cancelled
      (hcancelled j)
  · intro id
    exact hall (P := fun r f => s.watches[id]? = some r → r < s.next ∧ f.closed = false ∧ s.ids r = id)
      (h.mapped id) fun hid => ⟨(h.mapped id ref hid).1,
        Bool.eq_false_iff.mpr fun hclosed => hmapped hclosed id hid,(h.mapped id ref hid).2.2⟩
  · exact hall (P := fun _ f => f.closed = false → f.once = false) h.entered hentered
  · exact hall (P := fun _ f => f.once = false → f.cancelClosed = false ∧ f.eventsClosed = false)
      h.ordered hordered
  · intro j
    exact hall (P := fun r f => s.routines j = .closeEvents r →
      f.once = true ∧ f.cancelClosed = true ∧ f.eventsClosed = false) (h.closing j) (hclosing j)

/-! ### The steps of a goroutine -/

lemma run_history (h : Sound s) {events : List WatchEvent}
    (hi : s.routines i = .history ref events) (ht : s.run i pick = some t) : Sound t := by
  have htame := hi ▸ h.tame i
  rw [State.run,hi] at ht
  cases events with
  | nil => exact Option.some.inj ht ▸ h.done i
  | cons event events =>
    have htail : Sound (s.set i (.history ref events)) :=
      h.set htame.history_tail fun _ hr => by cases hr
    dsimp only at ht
    obtain hsend | hcancel | ⟨hother,-⟩ :=
      select_of_open (htame.quiet ref ⟨rfl,List.cons_ne_nil _ _⟩) pick
    · rw [hsend] at ht
      exact Option.some.inj ht ▸ htail.setBuffers _
    · rw [hcancel] at ht
      exact Option.some.inj ht ▸ h.done i
    · rw [hother] at ht
      exact Option.some.inj ht ▸ htail

lemma run_notify (h : Sound s) {refs : List ℕ}
    (hi : s.routines i = .notify event refs) (ht : s.run i pick = some t) : Sound t := by
  have htame := hi ▸ h.tame i
  rw [State.run,hi] at ht
  cases refs with
  | nil => exact Option.some.inj ht ▸ h.done i
  | cons ref refs =>
    have htail : Sound (s.set i (.notify event refs)) :=
      h.set htame.notify_tail fun _ hr => by cases hr
    cases hfilter : shouldFilter event.type (s.subs ref).filters with
    | true =>
      dsimp only at ht
      rw [if_pos hfilter] at ht
      exact Option.some.inj ht ▸ htail
    | false =>
      dsimp only at ht
      rw [if_neg (by rw [hfilter]; decide)] at ht
      obtain hsend | hcancel | ⟨hother,-⟩ :=
        select_of_open (htame.quiet ref ⟨List.mem_cons_self,hfilter⟩) pick
      · rw [hsend] at ht
        exact Option.some.inj ht ▸ htail.setBuffers _
      · rw [hcancel] at ht
        exact Option.some.inj ht ▸ htail
      · rw [hother] at ht
        obtain rfl := Option.some.inj ht
        have hslow := htame.notify_slow hfilter (s.prepared ref event)
        exact htail.spawn ⟨hslow.bounded,hslow.quiet,hslow.blocked,hslow.cancelled⟩
          fun _ hr => by cases hr

lemma run_slow (h : Sound s) {blocked : Bool}
    (hi : s.routines i = .slow ref event blocked) (ht : s.run i pick = some t) : Sound t := by
  have htame := hi ▸ h.tame i
  rw [State.run,hi] at ht
  cases blocked with
  | true => cases ht
  | false =>
    dsimp only at ht
    obtain hsend | hcancel | ⟨hother,hopen⟩ := select_of_open (htame.quiet ref ⟨rfl,rfl⟩) pick
    · rw [hsend] at ht
      exact Option.some.inj ht ▸ (h.done i).setBuffers _
    · rw [hcancel] at ht
      exact Option.some.inj ht ▸ h.done i
    · rw [hother] at ht
      obtain rfl := Option.some.inj ht
      refine h.set ⟨htame.bounded,fun r hr => absurd hr.2 (by decide),?_,?_⟩ fun _ hr => by cases hr
      · intro r e hr
        obtain ⟨rfl,-,-⟩ := Routine.slow.inj hr
        exact hopen
      · intro r hr
        cases hr

/-- The subscription leaves the table in the same critical section in which it is marked. -/
lemma run_cancelWatch (h : Sound s) {watchID : ℤ}
    (hi : s.routines i = .cancelWatch watchID) (ht : s.run i pick = some t) : Sound t := by
  rw [State.run,hi] at ht
  dsimp only at ht
  cases hid : s.watches[watchID]? with
  | none =>
    rw [hid] at ht
    exact Option.some.inj ht ▸ h.done i
  | some ref =>
    obtain ⟨hlt,hopen,hids⟩ := h.mapped watchID ref hid
    rw [hid] at ht
    dsimp only at ht
    rw [if_neg (by rw [hopen]; decide)] at ht
    obtain rfl := Option.some.inj ht
    have honce := h.entered ref hopen
    obtain ⟨hcancel,hevents⟩ := h.ordered ref honce
    have herased : ∀ (id : ℤ) r, (s.watches.erase watchID)[id]? = some r →
        s.watches[id]? = some r ∧ id ≠ watchID := by
      intro id r hr
      rw [ExtTreeMap.getElem?_erase] at hr
      split_ifs at hr with hne
      exact ⟨hr,fun heq => hne (Std.compare_eq_iff_eq.mpr heq.symm)⟩
    have hs : Sound { s with watches := s.watches.erase watchID } :=
      ⟨h.alive,fun j => ⟨(h.tame j).bounded,(h.tame j).quiet,(h.tame j).blocked,(h.tame j).cancelled⟩,
        fun id r hr => h.mapped id r (herased id r hr).1,h.entered,h.ordered,h.closing,h.unique⟩
    have hmarked : Sound ({ s with watches := s.watches.erase watchID }.setFlags ref
        { s.flags ref with closed := true }) := by
      refine hs.setFlags ?_ ?_ (fun _ _ => rfl) ?_ (fun hclosed => by cases hclosed) (h.ordered ref)
        fun j => h.closing j ref
      · exact fun hclosed => absurd (hclosed.symm.trans hevents) (by decide)
      · exact fun hclosed => absurd (hclosed.symm.trans hcancel) (by decide)
      · intro _ id hr
        obtain ⟨hold,hne⟩ := herased id ref hr
        exact hne ((h.mapped id ref hold).2.2.symm.trans hids)
    refine hmarked.set ⟨?_,fun _ hr => hr.elim,fun _ _ hr => (by cases hr),?_⟩
      fun _ hr => by cases hr
    · intro r hr
      exact List.mem_singleton.mp hr ▸ hlt
    · intro r hr
      obtain rfl := Routine.closeCancel.inj hr
      dsimp only [State.setFlags]
      rw [Function.update_self]

lemma woken (h : Sound s) (ref : ℕ) : Sound { s with routines := fun j => State.wake ref (s.routines j) } := by
  have hclose : ∀ j r, State.wake ref (s.routines j) = .closeEvents r →
      s.routines j = .closeEvents r := by
    intro j r hr
    obtain hdone | ⟨hsame,-⟩ := wake_cases ref (s.routines j)
    · rw [hdone] at hr
      cases hr
    · rwa [hsame] at hr
  refine ⟨h.alive,fun j => ?_,h.mapped,h.entered,h.ordered,
    fun j r hr => h.closing j r (hclose j r hr),
    fun j k r hj hk => h.unique j k r (hclose j r hj) (hclose k r hk)⟩
  dsimp only
  obtain hdone | ⟨hsame,-⟩ := wake_cases ref (s.routines j)
  · rw [hdone]
    exact tame_done _
  · rw [hsame]
    exact ⟨(h.tame j).bounded,(h.tame j).quiet,(h.tame j).blocked,(h.tame j).cancelled⟩

lemma setCloseEvents (h : Sound s) (hlt : ref < s.next) (honce : (s.flags ref).once = true)
    (hcancel : (s.flags ref).cancelClosed = true) (hevents : (s.flags ref).eventsClosed = false)
    (hnone : ∀ j, s.routines j ≠ .closeEvents ref) : Sound (s.set i (.closeEvents ref)) := by
  have hcases : ∀ j r, (s.set i (.closeEvents ref)).routines j = .closeEvents r →
      j = i ∧ r = ref ∨ s.routines j = .closeEvents r := by
    intro j r hj
    dsimp only [State.set] at hj
    by_cases hji : j = i
    · rw [hji,Function.update_self] at hj
      exact Or.inl ⟨hji,(Routine.closeEvents.inj hj).symm⟩
    · rw [Function.update_of_ne hji] at hj
      exact Or.inr hj
  refine ⟨h.alive,fun j => ?_,h.mapped,h.entered,h.ordered,?_,?_⟩
  · dsimp only [State.set]
    by_cases hji : j = i
    · rw [hji,Function.update_self]
      refine ⟨fun r hr => List.mem_singleton.mp hr ▸ hlt,fun _ hr => hr.elim,fun _ _ hr => ?_,
        fun _ hr => ?_⟩
      · cases hr
      · cases hr
    · rw [Function.update_of_ne hji]
      exact ⟨(h.tame j).bounded,(h.tame j).quiet,(h.tame j).blocked,(h.tame j).cancelled⟩
  · intro j r hj
    obtain ⟨-,rfl⟩ | hold := hcases j r hj
    · exact ⟨honce,hcancel,hevents⟩
    · exact h.closing j r hold
  · intro j k r hj hk
    obtain ⟨hji,hr⟩ | hold := hcases j r hj <;> obtain ⟨hki,hr'⟩ | hold' := hcases k r hk
    · rw [hji,hki]
    · exact absurd (hr ▸ hold') (hnone k)
    · exact absurd (hr' ▸ hold) (hnone j)
    · exact h.unique j k r hold hold'

lemma run_closeCancel (h : Sound s)
    (hi : s.routines i = .closeCancel ref) (ht : s.run i pick = some t) : Sound t := by
  have htame := hi ▸ h.tame i
  have hmarked := htame.cancelled ref rfl
  rw [State.run,hi] at ht
  dsimp only at ht
  cases honce : (s.flags ref).once with
  | true =>
    rw [if_pos honce] at ht
    exact Option.some.inj ht ▸ h.done i
  | false =>
    obtain ⟨hcancel,hevents⟩ := h.ordered ref honce
    rw [if_neg (by rw [honce]; decide),if_neg (by rw [hcancel]; decide)] at ht
    obtain rfl := Option.some.inj ht
    have hs := h.woken ref
    have hnone : ∀ j, State.wake ref (s.routines j) ≠ .closeEvents ref := fun j hj =>
      absurd ((hs.closing j ref hj).1.symm.trans honce) (by decide)
    have hflags : Sound ({ s with routines := fun j => State.wake ref (s.routines j) }.setFlags ref
        { s.flags ref with once := true, cancelClosed := true }) := by
      refine hs.setFlags ?_ ?_ (fun _ _ => hmarked) ?_ ?_ (fun hfalse => by cases hfalse)
        fun j hj => absurd hj (hnone j)
      · exact fun hclosed => absurd (hclosed.symm.trans hevents) (by decide)
      · intro _ j event hj
        obtain hdone | ⟨hsame,hfree⟩ := wake_cases ref (s.routines j)
        · exact absurd (hdone.symm.trans hj) (by simp)
        · exact hfree event (hsame.symm.trans hj)
      · intro _ id hid
        exact absurd ((h.mapped id ref hid).2.1.symm.trans hmarked) (by decide)
      · exact fun hopen => absurd (hopen.symm.trans hmarked) (by decide)
    refine hflags.setCloseEvents (htame.bounded ref List.mem_cons_self) ?_ ?_ ?_ hnone
    · dsimp only [State.setFlags]
      rw [Function.update_self]
    · dsimp only [State.setFlags]
      rw [Function.update_self]
    · dsimp only [State.setFlags]
      rw [Function.update_self]
      exact hevents

/-- Nobody has still to send on the channel, and nobody is blocked on it since the cancel channel is
closed. -/
lemma run_closeEvents (h : Sound s)
    (hi : s.routines i = .closeEvents ref) (hsafe : ∀ j, ¬ s.Sends ref (s.routines j))
    (ht : s.run i pick = some t) : Sound t := by
  obtain ⟨honce,hcancel,hevents⟩ := h.closing i ref hi
  have hfree : ∀ j event, s.routines j ≠ .slow ref event true := fun j event hj =>
    absurd (((h.tame j).blocked ref event hj).symm.trans hcancel) (by decide)
  have hblocked : s.blockedOn ref = false := by
    rw [State.blockedOn,List.any_eq_false]
    intro j _
    rw [wake_eq_self (hfree j),bne_self_eq_false]
    decide
  rw [State.run,hi] at ht
  dsimp only at ht
  rw [hevents,hblocked,Bool.false_or,if_neg (by decide)] at ht
  obtain rfl := Option.some.inj ht
  have hold : ∀ {r : Routine} j, (s.set i .done).routines j = r → r ≠ .done → j ≠ i ∧ s.routines j = r := by
    intro r j hj hr
    dsimp only [State.set] at hj
    by_cases hji : j = i
    · rw [hji,Function.update_self] at hj
      exact absurd hj.symm hr
    · rw [Function.update_of_ne hji] at hj
      exact ⟨hji,hj⟩
  refine (h.done i).setFlags ?_ ?_ ?_ ?_ (h.entered ref) ?_ ?_
  · intro _ j hsends
    have hdone : (s.set i .done).routines j ≠ .done := fun hj => by rw [hj] at hsends; exact hsends
    rw [← (hold j rfl hdone).2] at hsends
    exact hsafe j hsends
  · exact fun _ j event hj => hfree j event (hold j hj (by simp)).2
  · exact fun j hj => (h.tame j).cancelled ref (hold j hj (by simp)).2
  · intro hclosed id hid
    exact absurd ((h.mapped id ref hid).2.1.symm.trans hclosed) (by decide)
  · exact fun hfalse => absurd (honce.symm.trans hfalse) (by decide)
  · intro j hj
    obtain ⟨hji,hj⟩ := hold j hj (by simp)
    exact absurd (h.unique j i ref hj hi) hji

lemma run (h : Sound s) (hsafe : (Event.run i pick).Safe s)
    (ht : s.run i pick = some t) : Sound t := by
  cases hi : s.routines i with
  | done =>
    rw [State.run,hi] at ht
    cases ht
  | history ref events => exact h.run_history hi ht
  | notify event refs => exact h.run_notify hi ht
  | slow ref event blocked => exact h.run_slow hi ht
  | cancelWatch watchID => exact h.run_cancelWatch hi ht
  | closeCancel ref => exact h.run_closeCancel hi ht
  | closeEvents ref => exact h.run_closeEvents hi (hsafe ref hi) ht

lemma create (h : Sound s) (watchID : ℤ) (sub : WatchSubscription) :
    Sound { s with
      subs := Function.update s.subs s.next sub
      ids := Function.update s.ids s.next watchID
      buffers := Function.update s.buffers s.next []
      flags := Function.update s.flags s.next {}
      next := s.next+1
      watches := s.watches.insert watchID s.next } := by
  have hflags : ∀ r, r < s.next → Function.update s.flags s.next {} r = s.flags r :=
    fun r hr => Function.update_of_ne hr.ne _ _
  refine ⟨h.alive,fun j => ?_,?_,?_,?_,?_,h.unique⟩
  · have htame := h.tame j
    refine ⟨fun r hr => (htame.bounded r hr).trans (Nat.lt_succ_self _),?_,?_,?_⟩
    · intro r hr
      have hlt := htame.bounded r (mem_refs_of_sends hr)
      dsimp only
      rw [hflags r hlt]
      refine htame.quiet r ((sends_congr ?_ _).mp hr)
      exact Function.update_of_ne hlt.ne _ _
    · intro r event hr
      have hlt := htame.bounded r (hr ▸ List.mem_cons_self)
      dsimp only
      rw [hflags r hlt]
      exact htame.blocked r event hr
    · intro r hr
      have hlt := htame.bounded r (hr ▸ List.mem_cons_self)
      dsimp only
      rw [hflags r hlt]
      exact htame.cancelled r hr
  · intro id r hr
    dsimp only at hr ⊢
    rw [ExtTreeMap.getElem?_insert] at hr
    split_ifs at hr with heq
    · obtain rfl := Option.some.inj hr
      rw [Function.update_self,Function.update_self]
      exact ⟨Nat.lt_succ_self _,rfl,Std.compare_eq_iff_eq.mp heq⟩
    · obtain ⟨hlt,hopen,hids⟩ := h.mapped id r hr
      rw [hflags r hlt,Function.update_of_ne hlt.ne]
      exact ⟨hlt.trans (Nat.lt_succ_self _),hopen,hids⟩
  · intro r hr
    dsimp only at hr ⊢
    rw [Function.update_apply] at hr ⊢
    split_ifs at hr ⊢ with hnew
    · rfl
    · exact h.entered r hr
  · intro r hr
    dsimp only at hr ⊢
    rw [Function.update_apply] at hr ⊢
    split_ifs at hr ⊢ with hnew
    · exact ⟨rfl,rfl⟩
    · exact h.ordered r hr
  · intro j r hr
    have hlt := (h.tame j).bounded r (hr ▸ List.mem_cons_self)
    dsimp only
    rw [hflags r hlt]
    exact h.closing j r hr

lemma watchWithOptions (h : Sound s) {watchID : ℤ} {sub : WatchSubscription}
    {history : Option (List WatchEvent)}
    (ht : step s (.watchWithOptions watchID sub history) = some t) : Sound t := by
  rw [step] at ht
  by_cases hid : watchID ∈ s.watches
  · rw [if_pos hid] at ht
    exact Option.some.inj ht ▸ h
  · rw [if_neg hid] at ht
    have hnew := h.create watchID sub
    cases history with
    | none => exact Option.some.inj ht ▸ hnew
    | some events =>
      obtain rfl := Option.some.inj ht
      refine hnew.spawn ⟨?_,?_,fun _ _ hr => (by cases hr),fun _ hr => (by cases hr)⟩
        fun _ hr => by cases hr
      · intro r hr
        exact List.mem_singleton.mp hr ▸ Nat.lt_succ_self _
      · intro r hr
        rw [← hr.1]
        dsimp only
        rw [Function.update_self]

lemma notifyWatches (h : Sound s) {refs : List ℕ}
    (ht : step s (.notifyWatches event refs) = some t) : Sound t := by
  rw [step] at ht
  split_ifs at ht with hperm
  obtain rfl := Option.some.inj ht
  have hmem : ∀ ref ∈ refs, ref < s.next ∧ (s.flags ref).closed = false := by
    intro ref href
    have href := (List.isPerm_iff.mp hperm).mem_iff.mp href
    obtain ⟨item,hitem,rfl⟩ := List.mem_map.mp (List.mem_filter.mp href).1
    obtain ⟨hlt,hopen,-⟩ := h.mapped item.1 item.2
      (ExtTreeMap.mem_toList_iff_getElem?_eq_some.mp hitem)
    exact ⟨hlt,hopen⟩
  refine h.spawn ⟨fun r hr => (hmem r hr).1,?_,fun _ _ hr => (by cases hr),fun _ hr => (by cases hr)⟩
    fun _ hr => by cases hr
  intro r hr
  exact (h.ordered r (h.entered r (hmem r hr.1).2)).2

lemma timeout (h : Sound s) (ht : step s (.timeout i) = some t) : Sound t := by
  rw [step] at ht
  split at ht
  · obtain rfl := Option.some.inj ht
    exact h.set (tame_cancelWatch s _) fun _ hr => by cases hr
  · cases ht

lemma receive (h : Sound s) {sender : Option ℕ} (ht : step s (.receive ref sender) = some t) :
    Sound t := by
  rw [Channels.step,State.receive] at ht
  split at ht
  · cases ht
  · split at ht
    · split_ifs at ht
      exact Option.some.inj ht ▸ h.setBuffers _
    · split at ht
      · split_ifs at ht
        exact Option.some.inj ht ▸ (h.setBuffers _).done _
      · cases ht

lemma step (h : Sound s) {event : Event} (hsafe : event.Safe s) (ht : step s event = some t) :
    Sound t := by
  cases event with
  | watchWithOptions watchID sub history => exact h.watchWithOptions ht
  | notifyWatches event refs => exact h.notifyWatches ht
  | cancelWatch watchID =>
    obtain rfl := Option.some.inj ht
    exact h.spawn (tame_cancelWatch s watchID) fun _ hr => by cases hr
  | run i pick =>
    rw [Channels.step,h.alive] at ht
    exact h.run hsafe ht
  | timeout i => exact h.timeout ht
  | receive ref sender => exact h.receive ht

end Sound

lemma sound_init : Sound .init where
  alive := rfl
  tame _ := tame_done _
  mapped id ref h := by simp [State.init] at h
  entered _ _ := rfl
  ordered _ _ := ⟨rfl,rfl⟩
  closing i ref h := by cases h
  unique i j ref h := by cases h

/-- If event channels are closed only when no goroutine has still to send on them, there is no send
on a closed channel in the whole run, and no channel is closed twice. -/
theorem no_send_on_closed (events : List Event)
    (h : EveryStep step (fun s event _ => event.Safe s) .init events) :
    EveryState step (fun s => s.panicked = false) .init events := by
  have hsound : EveryState step Sound .init events :=
    everyState_of_everyStep (fun s event _ t hs ht hsafe => hs.step hsafe ht) sound_init h
  exact fun p hp s hs => (hsound p hp s hs).alive

/-- A watch whose notification is sent before it is cancelled. -/
theorem no_send_on_closed_one :
    let events : List Event := [.watchWithOptions 7 { key := [107] } none,
      .notifyWatches ⟨.put,some ⟨[107],[],1,1,1,0⟩,none,1⟩ [0],.run 0 true,.run 0 true,.cancelWatch 7,
      .run 1 true,.run 1 true,.run 1 true]
    EveryState step (fun s => s.panicked = false) .init events ∧
      (events.foldlM step .init).map (fun s => ((s.buffers 0).length,s.flags 0)) =
        some (1,⟨true,true,true,true⟩) := by
  refine ⟨no_send_on_closed _ ?_,by decide +kernel⟩
  refine everyStep_of_some rfl trivial ?_
  refine everyStep_of_some rfl trivial ?_
  refine everyStep_of_some rfl (fun ref h => (by cases h)) ?_
  refine everyStep_of_some rfl (fun ref h => (by cases h)) ?_
  refine everyStep_of_some rfl trivial ?_
  refine everyStep_of_some rfl (fun ref h => (by cases h)) ?_
  refine everyStep_of_some rfl (fun ref h => (by cases h)) ?_
  refine everyStep_cons.mpr fun v hv => ⟨fun ref h j hj => ?_,everyStep_nil v⟩
  -- the notification is done, and the other goroutine is the one that closes
  rcases j with _ | _ | j <;> exact hj

/-- The notification has collected the subscription when the watch is cancelled, and then sends. -/
theorem send_on_closed :
    let events : List Event := [.watchWithOptions 7 { key := [107] } none,
      .notifyWatches ⟨.put,some ⟨[107],[],1,1,1,0⟩,none,1⟩ [0],.cancelWatch 7,.run 1 true,.run 1 true,
      .run 1 true,.run 0 true]
    (events.foldlM step .init).map State.panicked = some true := by
  decide +kernel

end MetaStore.Channels
