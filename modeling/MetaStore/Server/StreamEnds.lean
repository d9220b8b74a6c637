import MetaStore.Server.Isolation

/-! What watch streams leave behind. A stream ends when a message cannot be received or a response
cannot be sent; what it remembers of its watches is cancelled then. The store may cancel a watch
whose client is too slow, of which the watch manager is not told. -/
namespace MetaStore.Streams
open Std Transition

variable {σ : Type*}

/-- `returned` has the streams that have ended, and `senders` the goroutines of `sendEvents` that
run, with their streams and watches. -/
structure Serving (σ : Type*) where
  owned : Owned σ
  returned : ℕ → Bool
  senders : List (ℕ × ℤ)

def Serving.fresh (authMgr : Auth.AuthManager σ) : Serving σ := ⟨.fresh authMgr,fun _ => false,[]⟩

/-- A request comes with the result of `stream.Send` for its response. -/
inductive StreamEvent
  | create (stream : ℕ) (r : WatchCreateRequest) (sent : Bool)
  | cancel (stream : ℕ) (watchID : ℤ) (sent : Bool)
  | recvError (stream : ℕ)
  | cancelWatch (watchID : ℤ)
  | sendError (stream : ℕ) (watchID : ℤ)
  | sendEnd (stream : ℕ) (watchID : ℤ)

namespace Serving

def proceed (s : Serving σ) (t : Server σ) (stream : ℕ) : Serving σ :=
  { s with owned := s.owned.record t stream }

def finish (s : Serving σ) (t : Server σ) (stream : ℕ) : Serving σ :=
  { s with
    owned := s.owned.record (closeNext t stream) stream
    returned := Function.update s.returned stream true }

end Serving

section Steps
variable (cfg : Config σ)

def streamStep (s : Serving σ) : StreamEvent → Option (Serving σ)
  | .create stream r sent =>
    if s.returned stream then none
    else
      let opened := s.owned.server.openWatch cfg r
      if sent then
        some { s.proceed (createNext cfg s.owned.server stream r) stream with
          senders := if opened.2 < 0 then s.senders else (stream,opened.2) :: s.senders }
      -- the watch is not remembered when its response cannot be sent
      else some (s.finish opened.1 stream)
  | .cancel stream watchID sent =>
    if s.returned stream then none
    else if sent then some (s.proceed (cancelNext s.owned.server stream watchID) stream)
    else some (s.finish (s.owned.server.cancel watchID) stream)
  | .recvError stream =>
    if s.returned stream then none else some (s.finish s.owned.server stream)
  | .cancelWatch watchID =>
    let server := s.owned.server
    some { s with owned := { s.owned with
      server := { server with subscriptions := server.subscriptions.erase watchID } } }
  | .sendError stream watchID =>
    if (stream,watchID) ∈ s.senders then
      some { s.proceed (s.owned.server.cancel watchID) stream with
        senders := s.senders.erase (stream,watchID) }
    else none
  | .sendEnd stream watchID =>
    if (stream,watchID) ∈ s.senders then
      some { s with senders := s.senders.erase (stream,watchID) }
    else none

end Steps

/-- A stream that has ended, with all its goroutines, has left no watch in the tables. -/
def NothingLeft (s : Serving σ) : Prop :=
  ∀ stream, s.returned stream = true → (∀ watchID, (stream,watchID) ∉ s.senders) →
    ∀ id, s.owned.owner id = some stream →
      id ∉ s.owned.server.watches ∧ id ∉ s.owned.server.subscriptions

def CountsLive (s : Serving σ) : Prop :=
  ∀ id, id ∈ s.owned.server.watches ↔ id ∈ s.owned.server.subscriptions

/-- A new watch has a positive number and its response is sent. -/
def StreamEvent.Tidy (cfg : Config σ) (s : Serving σ) : StreamEvent → Prop
  | .create _ r sent => ¬ s.owned.server.Refuses cfg (s.owned.server.watchID r) →
      0 < s.owned.server.watchID r ∧ sent = true
  | _ => True

/-- The store cancels no watch that it has. -/
def StreamEvent.Patient (s : Serving σ) : StreamEvent → Prop
  | .cancelWatch watchID => watchID ∉ s.owned.server.subscriptions
  | _ => True

section Tended
variable {cfg : Config σ} {s t : Serving σ}

/-- Every watch is remembered by the stream that has created it, which has not ended. -/
structure Tended (s : Serving σ) : Prop where
  subset : ∀ id, id ∈ s.owned.server.subscriptions → id ∈ s.owned.server.watches
  kept : ∀ id, id ∈ s.owned.server.watches → ∃ stream, s.owned.owner id = some stream ∧
    s.returned stream = false ∧ id ∈ s.owned.server.watchesOf stream

lemma tended_fresh (authMgr : Auth.AuthManager σ) : Tended (.fresh authMgr) where
  subset id h := by simp [Serving.fresh,Owned.fresh] at h
  kept id h := by simp [Serving.fresh,Owned.fresh] at h

namespace Tended
variable {stream : ℕ}

lemma nothingLeft (h : Tended s) : NothingLeft s := by
  intro stream hreturned _ id howner
  have hnot : id ∉ s.owned.server.watches := by
    intro hid
    obtain ⟨i,hi,hopen,-⟩ := h.kept id hid
    obtain rfl := Option.some.inj (howner.symm.trans hi)
    exact absurd (hreturned.symm.trans hopen) (by decide)
  exact ⟨hnot,fun hid => hnot (h.subset id hid)⟩

/-- A step that creates no watch, and after which the watches that are left are remembered. -/
lemma shrink (h : Tended s) (u : Server σ) {returned : ℕ → Bool}
    (hwatches : ∀ id, id ∈ u.watches → id ∈ s.owned.server.watches)
    (hsubset : ∀ id, id ∈ u.subscriptions → id ∈ u.watches)
    (hkept : ∀ id j, id ∈ u.watches → id ∈ s.owned.server.watchesOf j → s.returned j = false →
      returned j = false ∧ id ∈ u.watchesOf j) (senders : List (ℕ × ℤ)) :
    Tended ⟨s.owned.record u stream,returned,senders⟩ := by
  refine ⟨hsubset,fun id hid => ?_⟩
  obtain ⟨i,hi,hopen,hof⟩ := h.kept id (hwatches id hid)
  have hhas := (has_record hwatches stream i id).mpr ⟨hid,hwatches id hid,hi⟩
  exact ⟨i,hhas.2,hkept id i hid hof hopen⟩

lemma finish (h : Tended s) {u : Server σ} (stream : ℕ)
    (hwatches : ∀ id, id ∈ u.watches → id ∈ s.owned.server.watches)
    (hsubset : ∀ id, id ∈ u.subscriptions → id ∈ u.watches)
    (hof : ∀ j, u.watchesOf j = s.owned.server.watchesOf j) : Tended (s.finish u stream) := by
  refine h.shrink (closeNext u stream)
    (fun id hid => hwatches id ((mem_watches_closeNext u stream id).mp hid).1) ?_ ?_ _
  · intro id hid
    obtain ⟨hsub,hnot⟩ := (mem_subscriptions_closeNext u stream id).mp hid
    have hid := hsubset id hsub
    exact (mem_watches_closeNext u stream id).mpr ⟨hid,fun hi => hnot ⟨hi,hid⟩⟩
  · intro id j hid hj hopen
    have hne : j ≠ stream := by
      rintro rfl
      exact ((mem_watches_closeNext u j id).mp hid).2 (hof j ▸ hj)
    rw [Function.update_of_ne hne,watchesOf_closeNext,if_neg hne,hof]
    exact ⟨hopen,hj⟩

lemma subset_cancel (h : Tended s) (watchID id : ℤ)
    (hid : id ∈ (s.owned.server.cancel watchID).subscriptions) :
    id ∈ (s.owned.server.cancel watchID).watches := by
  obtain ⟨hsub,hnot⟩ := (mem_subscriptions_cancel watchID id).mp hid
  have hid := h.subset id hsub
  exact (mem_watches_cancel watchID id).mpr ⟨hid,fun heq => hnot ⟨heq,heq ▸ hid⟩⟩

lemma watchesOf_cancelled (s : Server σ) (watchID : ℤ) (j : ℕ) :
    (s.cancel watchID).watchesOf j = s.watchesOf j := by
  rw [Server.watchesOf,streamWatches_cancel]
  rfl

lemma create (h : Tended s) {r : WatchCreateRequest} {sent : Bool}
    (htidy : (StreamEvent.create stream r sent).Tidy cfg s)
    (ht : streamStep cfg s (.create stream r sent) = some t) : Tended t := by
  rw [streamStep] at ht
  cases hreturned : s.returned stream with
  | true =>
    rw [hreturned] at ht
    cases ht
  | false =>
    rw [if_neg (by rw [hreturned]; decide)] at ht
    by_cases hrefuses : s.owned.server.Refuses cfg (s.owned.server.watchID r)
    · rw [openWatch_of_refuses cfg _ hrefuses] at ht
      dsimp only at ht
      cases sent with
      | false =>
        obtain rfl := Option.some.inj ht
        exact h.finish stream (fun _ hid => hid) h.subset fun _ => rfl
      | true =>
        rw [createNext_of_refuses cfg _ stream hrefuses] at ht
        obtain rfl := Option.some.inj ht
        exact h.shrink { s.owned.server with nextID := s.owned.server.nextAfter r }
          (fun _ hid => hid) h.subset (fun _ _ _ hj hopen => ⟨hopen,hj⟩) _
    · obtain ⟨hpos,rfl⟩ := htidy hrefuses
      rw [openWatch_of_accepts cfg _ hrefuses] at ht
      obtain rfl := Option.some.inj ht
      have hstep : watchStep cfg s.owned (.request stream (.create r)) =
          some (s.owned.record (createNext cfg s.owned.server stream r) stream) := rfl
      have hhas := has_create hrefuses hstep
      have hof := watchesOf_create hrefuses hstep
      refine ⟨fun id hid => ?_,fun id hid => ?_⟩
      · dsimp only [Serving.proceed,Owned.record] at hid ⊢
        rw [createNext_of_accepts cfg _ stream hrefuses] at hid ⊢
        rw [ExtTreeMap.mem_insert] at hid
        rw [ExtTreeSet.mem_insert]
        exact hid.imp_right (h.subset id)
      · have hcases : id = s.owned.server.watchID r ∨ id ∈ s.owned.server.watches := by
          dsimp only [Serving.proceed,Owned.record] at hid
          rw [createNext_of_accepts cfg _ stream hrefuses,ExtTreeSet.mem_insert,
            Std.compare_eq_iff_eq] at hid
          exact hid.imp_left Eq.symm
        obtain rfl | hold := hcases
        · refine ⟨stream,((hhas stream _).mpr (Or.inr ⟨rfl,rfl⟩)).2,hreturned,?_⟩
          dsimp only [Serving.proceed]
          rw [hof stream,if_pos ⟨rfl,hpos⟩]
          exact ExtTreeSet.mem_insert_self
        · obtain ⟨i,hi,hopen,hmem⟩ := h.kept id hold
          refine ⟨i,((hhas i id).mpr (Or.inl ⟨hold,hi⟩)).2,hopen,?_⟩
          dsimp only [Serving.proceed]
          rw [hof i]
          split_ifs with hsame
          · exact ExtTreeSet.mem_insert.mpr (Or.inr (hsame.1 ▸ hmem))
          · exact hmem

lemma cancel (h : Tended s) {watchID : ℤ} {sent : Bool}
    (ht : streamStep cfg s (.cancel stream watchID sent) = some t) : Tended t := by
  rw [streamStep] at ht
  split_ifs at ht with hreturned hsent
  · obtain rfl := Option.some.inj ht
    refine h.shrink (cancelNext s.owned.server stream watchID)
      (fun id hid => ((mem_watches_cancel watchID id).mp hid).1) (h.subset_cancel watchID) ?_ _
    intro id j hid hj hopen
    refine ⟨hopen,?_⟩
    rw [watchesOf_cancelNext]
    split_ifs with hsame
    · have hne := ((mem_watches_cancel watchID id).mp hid).2
      exact ExtTreeSet.mem_erase.mpr ⟨fun heq => hne (Std.compare_eq_iff_eq.mp heq).symm,hsame ▸ hj⟩
    · exact hj
  · obtain rfl := Option.some.inj ht
    exact h.finish stream (fun id hid => ((mem_watches_cancel watchID id).mp hid).1)
      (h.subset_cancel watchID) (watchesOf_cancelled s.owned.server watchID)

lemma step (h : Tended s) {event : StreamEvent} (htidy : event.Tidy cfg s)
    (ht : streamStep cfg s event = some t) : Tended t := by
  cases event with
  | create stream r sent => exact h.create htidy ht
  | cancel stream watchID sent => exact h.cancel ht
  | recvError stream =>
    rw [streamStep] at ht
    split_ifs at ht
    obtain rfl := Option.some.inj ht
    exact h.finish stream (fun _ hid => hid) h.subset fun _ => rfl
  | cancelWatch watchID =>
    obtain rfl := Option.some.inj ht
    exact ⟨fun id hid => h.subset id (ExtTreeMap.mem_of_mem_erase hid),h.kept⟩
  | sendError stream watchID =>
    rw [streamStep] at ht
    split_ifs at ht
    obtain rfl := Option.some.inj ht
    refine h.shrink (s.owned.server.cancel watchID)
      (fun id hid => ((mem_watches_cancel watchID id).mp hid).1) (h.subset_cancel watchID)
      (fun id j _ hj hopen => ⟨hopen,?_⟩) _
    rw [watchesOf_cancelled]
    exact hj
  | sendEnd stream watchID =>
    rw [streamStep] at ht
    split_ifs at ht
    obtain rfl := Option.some.inj ht
    exact ⟨h.subset,h.kept⟩

end Tended

lemma countsLive_cancel {u : Server σ} (h : ∀ id, id ∈ u.watches ↔ id ∈ u.subscriptions)
    (watchID id : ℤ) :
    id ∈ (u.cancel watchID).watches ↔ id ∈ (u.cancel watchID).subscriptions := by
  rw [mem_watches_cancel,mem_subscriptions_cancel,← h]
  exact and_congr_right fun hid => ⟨fun hne heq => hne heq.1,fun hne heq => hne ⟨heq,heq ▸ hid⟩⟩

lemma countsLive_closeNext {u : Server σ} (h : ∀ id, id ∈ u.watches ↔ id ∈ u.subscriptions)
    (stream : ℕ) (id : ℤ) :
    id ∈ (closeNext u stream).watches ↔ id ∈ (closeNext u stream).subscriptions := by
  rw [mem_watches_closeNext,mem_subscriptions_closeNext,← h]
  exact and_congr_right fun hid => not_congr ⟨fun hi => ⟨hi,hid⟩,And.left⟩

lemma countsLive_openWatch {u : Server σ} (h : ∀ id, id ∈ u.watches ↔ id ∈ u.subscriptions)
    (r : WatchCreateRequest) (id : ℤ) :
    id ∈ (u.openWatch cfg r).1.watches ↔ id ∈ (u.openWatch cfg r).1.subscriptions := by
  by_cases hrefuses : u.Refuses cfg (u.watchID r)
  · rw [openWatch_of_refuses cfg u hrefuses]
    exact h id
  · rw [openWatch_of_accepts cfg u hrefuses,ExtTreeSet.mem_insert,ExtTreeMap.mem_insert,h]

lemma tables_createNext (u : Server σ) (stream : ℕ) (r : WatchCreateRequest) :
    (createNext cfg u stream r).watches = (u.openWatch cfg r).1.watches ∧
      (createNext cfg u stream r).subscriptions = (u.openWatch cfg r).1.subscriptions := by
  rw [createNext]
  dsimp only
  split_ifs
  · exact ⟨rfl,rfl⟩
  · exact ⟨rfl,rfl⟩

lemma countsLive_step_iff (h : CountsLive s) {event : StreamEvent}
    (ht : streamStep cfg s event = some t) : CountsLive t ↔ event.Patient s := by
  cases event with
  | create stream r sent =>
    refine iff_of_true ?_ trivial
    rw [streamStep] at ht
    split_ifs at ht with hreturned hsent
    · obtain rfl := Option.some.inj ht
      intro id
      change id ∈ (createNext cfg s.owned.server stream r).watches ↔
        id ∈ (createNext cfg s.owned.server stream r).subscriptions
      rw [(tables_createNext _ stream r).1,(tables_createNext _ stream r).2]
      exact countsLive_openWatch h r id
    · obtain rfl := Option.some.inj ht
      exact countsLive_closeNext (countsLive_openWatch h r) stream
  | cancel stream watchID sent =>
    refine iff_of_true ?_ trivial
    rw [streamStep] at ht
    split_ifs at ht with hreturned hsent
    · obtain rfl := Option.some.inj ht
      exact countsLive_cancel h watchID
    · obtain rfl := Option.some.inj ht
      exact countsLive_closeNext (countsLive_cancel h watchID) stream
  | recvError stream =>
    refine iff_of_true ?_ trivial
    rw [streamStep] at ht
    split_ifs at ht
    obtain rfl := Option.some.inj ht
    exact countsLive_closeNext h stream
  | cancelWatch watchID =>
    obtain rfl := Option.some.inj ht
    change (∀ id, id ∈ s.owned.server.watches ↔ id ∈ s.owned.server.subscriptions.erase watchID) ↔
      watchID ∉ s.owned.server.subscriptions
    constructor
    · intro hcounts hid
      exact absurd ((hcounts watchID).mp ((h watchID).mpr hid)) (by simp)
    · intro hid id
      rw [h id,ExtTreeMap.mem_erase]
      exact ⟨fun hmem => ⟨fun heq => hid (Std.compare_eq_iff_eq.mp heq ▸ hmem),hmem⟩,And.right⟩
  | sendError stream watchID =>
    refine iff_of_true ?_ trivial
    rw [streamStep] at ht
    split_ifs at ht
    obtain rfl := Option.some.inj ht
    exact countsLive_cancel h watchID
  | sendEnd stream watchID =>
    refine iff_of_true ?_ trivial
    rw [streamStep] at ht
    split_ifs at ht
    obtain rfl := Option.some.inj ht
    exact h

end Tended

end MetaStore.Streams
