import MetaStore.Batch.Codec
import MetaStore.Library.Transition

/-! The proposal batcher (internal/batch/proposal_batcher.go). Its goroutine reads proposals,
collects them in a buffer and sends the encoded batches over a channel that a consumer reads. The
events of a run are the arms that the two `select`s take and what the other goroutines do. The
floating point numbers are a type with the operations that the code uses; nothing else is assumed
of them. -/
namespace MetaStore.Batch
open Transition

/-! ### The parameters -/

structure BatchConfig (F : Type*) where
  minBatchSize : ℤ
  maxBatchSize : ℤ
  minTimeout : ℤ
  maxTimeout : ℤ
  loadThreshold : F

/-- What `adjustParameters` changes. -/
structure Parameters (F : Type*) where
  currentLoad : F
  currentBatchSize : ℤ
  currentTimeout : ℤ

section Parameters
variable {F : Type*} [IntCast F] [OfScientific F] [Add F] [Sub F] [Mul F] [Div F] [LT F] [LE F]
  [DecidableLT F] [DecidableLE F] (truncate : F → ℤ)

def interpolate (value min max targetMin targetMax : F) : ℤ :=
  if value ≤ min then truncate targetMin
  else if max ≤ value then truncate targetMax
  else truncate (targetMin+(value-min)/(max-min)*(targetMax-targetMin))

def adjustParameters (cfg : BatchConfig F) (bufferLen : ℕ) (p : Parameters F) : Parameters F :=
  let bufferUsage := ((bufferLen : ℤ) : F)/(cfg.maxBatchSize : F)
  let difference := bufferUsage-p.currentLoad
  let loadDelta := if difference < 0.0 then 0.0-difference else difference
  let alpha := if 0.3 < loadDelta then 0.7 else if 0.15 < loadDelta then 0.5 else 0.3
  let currentLoad := alpha*bufferUsage+(1.0-alpha)*p.currentLoad
  let high := cfg.loadThreshold+0.1
  let effectiveLoad :=
    if 0.8 < bufferUsage then if currentLoad < high then high else currentLoad else currentLoad
  let maxSize : F := cfg.maxBatchSize
  let maxTimeout : F := cfg.maxTimeout
  if cfg.loadThreshold < effectiveLoad then
    ⟨currentLoad,interpolate truncate currentLoad cfg.loadThreshold 1.0 (maxSize/2.0) maxSize,
      interpolate truncate currentLoad cfg.loadThreshold 1.0 (maxTimeout/2.0) maxTimeout⟩
  else
    ⟨currentLoad,
      interpolate truncate currentLoad 0.0 cfg.loadThreshold cfg.minBatchSize (maxSize/2.0),
      interpolate truncate currentLoad 0.0 cfg.loadThreshold cfg.minTimeout (maxTimeout/2.0)⟩

end Parameters

/-! ### The goroutines -/

structure Encoded where
  proposals : List Bytes
  data : Bytes
  encoded : encodeBatch proposals = .ok data

def Encoded.ofBatch (batch : List Bytes) : Option Encoded :=
  match h : encodeBatch batch with
  | .ok data => some ⟨batch,data,h⟩
  | .error _ => none

inductive Following
  | reset | adjust | exit

/-- Where the goroutine stands: in the `select` of `run`, in that of `flush`, or at an end. A timer
that is set to no time ends the process. -/
inductive Phase
  | waiting
  | sending (batch : Encoded) (following : Following)
  | ended
  | crashed

/-- The proposals that `flush` is about to send. -/
def Phase.pending : Phase → List Bytes
  | sending batch _ => batch.proposals
  | _ => []

/-- The batcher with its channels. `read` has the proposals that the goroutine has read and
`received` the batches that the consumer has got. -/
structure Batcher (F : Type*) where
  buffer : List Bytes
  parameters : Parameters F
  phase : Phase
  proposeC : List Encoded
  stopped : Bool
  cancelled : Bool
  read : List Bytes
  received : List Encoded

/-- The arms of the `select` of `run`, those of the `select` of `flush`, and what the others do. -/
inductive Event
  | propose (proposal : Bytes)
  | inputClosed
  | tick
  | done
  | stopSignal
  | send
  | giveUp
  | receive
  | stop
  | cancel

namespace Batcher
variable {F : Type*}

/-- `Reset` of the timer. -/
def reset (s : Batcher F) : Batcher F :=
  { s with phase := if 0 < s.parameters.currentTimeout then .waiting else .crashed }

def newProposalBatcher [OfScientific F] (cfg : BatchConfig F) : Batcher F :=
  reset ⟨[],⟨0.0,cfg.minBatchSize,cfg.minTimeout⟩,.waiting,[],false,false,[],[]⟩

/-- The goroutine stands in the `select` of `run`. -/
def onWaiting (s : Batcher F) (ready : Bool) (t : Batcher F) : Option (Batcher F) :=
  match s.phase with
  | .waiting => if ready then some t else none
  | _ => none

/-- The goroutine stands in the `select` of `flush`. -/
def onSending (s : Batcher F) (ready : Bool) (t : Encoded → Following → Batcher F) :
    Option (Batcher F) :=
  match s.phase with
  | .sending batch following => if ready then some (t batch following) else none
  | _ => none

def onRunning (s t : Batcher F) : Option (Batcher F) :=
  match s.phase with
  | .crashed => none
  | _ => some t

section Steps
variable [IntCast F] [OfScientific F] [Add F] [Sub F] [Mul F] [Div F] [LT F] [LE F]
  [DecidableLT F] [DecidableLE F] (truncate : F → ℤ) (cfg : BatchConfig F)

def resume (s : Batcher F) : Following → Batcher F
  | .reset => s.reset
  | .adjust =>
    { s with parameters := adjustParameters truncate cfg s.buffer.length s.parameters }.reset
  | .exit => { s with phase := .ended }

/-- `flush` up to its `select`. -/
def flush (s : Batcher F) (following : Following) : Batcher F :=
  if s.buffer = [] then s.resume truncate cfg following
  else
    match Encoded.ofBatch s.buffer with
    | none => { s with buffer := [] }.resume truncate cfg following
    | some batch => { s with buffer := [], phase := .sending batch following }

def propose (s : Batcher F) (proposal : Bytes) : Batcher F :=
  let s := { s with buffer := s.buffer ++ [proposal], read := s.read ++ [proposal] }
  if s.parameters.currentBatchSize ≤ s.buffer.length then s.flush truncate cfg .reset else s

def capacity : ℕ := 256

/-- An arm of a `select` is taken by the goroutine that stands there once the channel is ready. -/
def step (s : Batcher F) : Event → Option (Batcher F)
  | .propose proposal => s.onWaiting true (s.propose truncate cfg proposal)
  | .inputClosed => s.onWaiting true (s.flush truncate cfg .exit)
  | .tick => s.onWaiting true (s.flush truncate cfg .adjust)
  | .done => s.onWaiting s.cancelled (s.flush truncate cfg .exit)
  | .stopSignal => s.onWaiting s.stopped (s.flush truncate cfg .exit)
  | .send => s.onSending (s.proposeC.length < capacity) fun batch following =>
      { s with proposeC := s.proposeC ++ [batch] }.resume truncate cfg following
  | .giveUp => s.onSending s.stopped fun _ following => s.resume truncate cfg following
  | .receive =>
    match s.proposeC with
    | [] => none
    | batch :: rest => s.onRunning { s with proposeC := rest, received := s.received ++ [batch] }
  | .stop => if s.stopped then none else s.onRunning { s with stopped := true }
  | .cancel => s.onRunning { s with cancelled := true }

end Steps

/-! ### Conservation -/

def held (s : Batcher F) : List Bytes := s.phase.pending ++ s.buffer

def sent (s : Batcher F) : List Bytes :=
  s.received.flatMap Encoded.proposals ++ s.proposeC.flatMap Encoded.proposals

def contents (s : Batcher F) : List Bytes := s.sent ++ s.held

/-- What the consumer has got is an initial part of what has been read, and all of it once the
goroutine has ended and the channel is drained. -/
structure Conserves (s : Batcher F) : Prop where
  initial : s.received.flatMap Encoded.proposals <+: s.read
  drained : s.phase = .ended → s.proposeC = [] → s.received.flatMap Encoded.proposals = s.read

/-- `Stop` is called when no proposal is buffered or being sent, and no proposal is read after it. -/
def Orderly (s : Batcher F) : Event → Prop
  | .propose _ => s.stopped = false
  | .stop => s.held = []
  | _ => True

lemma exists_ofBatch {batch : List Bytes} (h : batch ≠ []) :
    ∃ b, Encoded.ofBatch batch = some b ∧ b.proposals = batch := by
  match batch with
  | [] => exact absurd rfl h
  | [p] => exact ⟨⟨[p],p,rfl⟩,rfl,rfl⟩
  | p :: q :: ps => exact ⟨⟨p :: q :: ps,_,rfl⟩,rfl,rfl⟩

lemma onWaiting_eq_some {s t u : Batcher F} {ready : Bool} (h : s.onWaiting ready t = some u) :
    s.phase = .waiting ∧ u = t := by
  unfold onWaiting at h
  split at h
  · next hphase =>
    split_ifs at h
    exact ⟨hphase,(Option.some.inj h).symm⟩
  · cases h

lemma onSending_eq_some {s u : Batcher F} {ready : Bool} {t : Encoded → Following → Batcher F}
    (h : s.onSending ready t = some u) : ready = true ∧
      ∃ batch following, s.phase = .sending batch following ∧ u = t batch following := by
  unfold onSending at h
  split at h
  · next batch following hphase =>
    split_ifs at h with hready
    exact ⟨hready,batch,following,hphase,(Option.some.inj h).symm⟩
  · cases h

lemma onRunning_eq_some {s t u : Batcher F} (h : s.onRunning t = some u) : u = t := by
  unfold onRunning at h
  split at h
  · cases h
  · exact (Option.some.inj h).symm

lemma pending_reset (s : Batcher F) : s.reset.phase.pending = [] := by
  unfold reset
  split_ifs <;> rfl

structure Resumes (s t : Batcher F) : Prop where
  buffer : t.buffer = s.buffer
  pending : t.phase.pending = []
  sent : t.sent = s.sent
  read : t.read = s.read
  stopped : t.stopped = s.stopped

structure Flushes (s t : Batcher F) : Prop where
  buffer : t.buffer = []
  pending : t.phase.pending = s.buffer
  sent : t.sent = s.sent
  read : t.read = s.read
  stopped : t.stopped = s.stopped

structure Takes (s : Batcher F) (p : Bytes) (t : Batcher F) : Prop where
  contents : t.contents = s.contents ++ [p]
  read : t.read = s.read ++ [p]
  stopped : t.stopped = s.stopped
  buffer : t.phase ≠ .waiting → t.buffer = []

structure Tidy (s : Batcher F) : Prop where
  contents : s.contents = s.read
  stopped : s.stopped = true → s.held = []
  buffer : s.phase ≠ .waiting → s.buffer = []

lemma contents_receive {s : Batcher F} {batch : Encoded} {rest : List Encoded}
    (h : s.proposeC = batch :: rest) :
    { s with proposeC := rest, received := s.received ++ [batch] }.contents = s.contents := by
  simp [contents,held,sent,h]

lemma tidy_newProposalBatcher [OfScientific F] (cfg : BatchConfig F) :
    (newProposalBatcher cfg).Tidy := by
  have hheld : (newProposalBatcher cfg).held = [] := by
    rw [held,newProposalBatcher,pending_reset]
    rfl
  exact ⟨by rw [contents,hheld]; rfl,fun _ => hheld,fun _ => rfl⟩

lemma Tidy.conserves {s : Batcher F} (hs : s.Tidy) : s.Conserves := by
  have hread := hs.contents
  simp only [Batcher.contents,held,sent] at hread
  refine ⟨?_,fun hended hdrained => ?_⟩
  · rw [← hread,List.append_assoc]
    exact List.prefix_append _ _
  · have hbuffer : s.buffer = [] := hs.buffer (by simp [hended])
    simpa [hended,hdrained,hbuffer,Phase.pending] using hread

section Steps
variable [IntCast F] [OfScientific F] [Add F] [Sub F] [Mul F] [Div F] [LT F] [LE F]
  [DecidableLT F] [DecidableLE F] (truncate : F → ℤ) (cfg : BatchConfig F) {s t : Batcher F}

lemma resumes_resume (s : Batcher F) (following : Following) :
    Resumes s (s.resume truncate cfg following) := by
  cases following with
  | reset => exact ⟨rfl,pending_reset s,rfl,rfl,rfl⟩
  | adjust => exact ⟨rfl,pending_reset _,rfl,rfl,rfl⟩
  | exit => exact ⟨rfl,rfl,rfl,rfl,rfl⟩

lemma flushes_flush (s : Batcher F) (following : Following) :
    Flushes s (s.flush truncate cfg following) := by
  unfold flush
  by_cases hbuffer : s.buffer = []
  · have h := resumes_resume truncate cfg s following
    rw [if_pos hbuffer]
    exact ⟨h.buffer.trans hbuffer,h.pending.trans hbuffer.symm,h.sent,h.read,h.stopped⟩
  · obtain ⟨b,hb,hproposals⟩ := exists_ofBatch hbuffer
    rw [if_neg hbuffer,hb]
    exact ⟨rfl,hproposals,rfl,rfl,rfl⟩

lemma held_flush (h : s.phase = .waiting) (following : Following) :
    (s.flush truncate cfg following).held = s.held := by
  have hflush := flushes_flush truncate cfg s following
  rw [held,held,hflush.buffer,hflush.pending,h,List.append_nil]
  rfl

inductive Acts (s : Batcher F) : Event → Batcher F → Prop
  | propose (p : Bytes) (waiting : s.phase = .waiting) :
      Acts s (.propose p) (s.propose truncate cfg p)
  | flush (e : Event) (following : Following) (waiting : s.phase = .waiting) :
      Acts s e (s.flush truncate cfg following)
  | send (batch : Encoded) (following : Following) (sending : s.phase = .sending batch following) :
      Acts s .send ({ s with proposeC := s.proposeC ++ [batch] }.resume truncate cfg following)
  | giveUp (batch : Encoded) (following : Following) (sending : s.phase = .sending batch following)
      (stopped : s.stopped = true) : Acts s .giveUp (s.resume truncate cfg following)
  | receive (batch : Encoded) (rest : List Encoded) (ready : s.proposeC = batch :: rest) :
      Acts s .receive { s with proposeC := rest, received := s.received ++ [batch] }
  | stop : Acts s .stop { s with stopped := true }
  | cancel : Acts s .cancel { s with cancelled := true }

lemma acts_step {e : Event} (h : s.step truncate cfg e = some t) : Acts truncate cfg s e t := by
  cases e with
  | propose p =>
    obtain ⟨hphase,rfl⟩ := onWaiting_eq_some h
    exact .propose p hphase
  | inputClosed =>
    obtain ⟨hphase,rfl⟩ := onWaiting_eq_some h
    exact .flush _ _ hphase
  | tick =>
    obtain ⟨hphase,rfl⟩ := onWaiting_eq_some h
    exact .flush _ _ hphase
  | done =>
    obtain ⟨hphase,rfl⟩ := onWaiting_eq_some h
    exact .flush _ _ hphase
  | stopSignal =>
    obtain ⟨hphase,rfl⟩ := onWaiting_eq_some h
    exact .flush _ _ hphase
  | send =>
    obtain ⟨-,batch,following,hphase,rfl⟩ := onSending_eq_some h
    exact .send batch following hphase
  | giveUp =>
    obtain ⟨hstopped,batch,following,hphase,rfl⟩ := onSending_eq_some h
    exact .giveUp batch following hphase hstopped
  | receive =>
    rw [step] at h
    split at h
    · cases h
    · next batch rest hready =>
      obtain rfl := onRunning_eq_some h
      exact .receive batch rest hready
  | stop =>
    rw [step] at h
    split_ifs at h
    obtain rfl := onRunning_eq_some h
    exact .stop
  | cancel =>
    obtain rfl := onRunning_eq_some h
    exact .cancel

lemma contents_flush (h : s.phase = .waiting) (following : Following) :
    (s.flush truncate cfg following).contents = s.contents := by
  rw [contents,contents,held_flush truncate cfg h,(flushes_flush truncate cfg s following).sent]

lemma takes_propose (h : s.phase = .waiting) (p : Bytes) : Takes s p (s.propose truncate cfg p) := by
  have hcontents : s.sent ++ (s.phase.pending ++ (s.buffer ++ [p])) = s.contents ++ [p] := by
    simp only [contents,held,List.append_assoc]
  unfold propose
  dsimp only
  split_ifs
  · have hflush := flushes_flush truncate cfg
      { s with buffer := s.buffer ++ [p], read := s.read ++ [p] } .reset
    refine ⟨(contents_flush truncate cfg ?_ .reset).trans hcontents,hflush.read,hflush.stopped,
      fun _ => hflush.buffer⟩
    exact h
  · exact ⟨hcontents,rfl,rfl,fun hphase => absurd h hphase⟩

lemma contents_resume (s : Batcher F) (following : Following) :
    (s.resume truncate cfg following).contents = s.sent ++ s.buffer := by
  have hresume := resumes_resume truncate cfg s following
  rw [contents,held,hresume.sent,hresume.pending,hresume.buffer,List.nil_append]

lemma contents_send {batch : Encoded} {following : Following}
    (h : s.phase = .sending batch following) :
    ({ s with proposeC := s.proposeC ++ [batch] }.resume truncate cfg following).contents =
      s.contents := by
  rw [contents_resume,contents,held,h]
  simp [sent,Phase.pending]

lemma Tidy.step {e : Event} (hs : s.Tidy) (horderly : s.Orderly e)
    (h : s.step truncate cfg e = some t) : t.Tidy := by
  cases acts_step truncate cfg h with
  | propose p hphase =>
    have htakes := takes_propose truncate cfg hphase p
    refine ⟨by rw [htakes.contents,htakes.read,hs.contents],fun hstopped => ?_,htakes.buffer⟩
    rw [htakes.stopped,show s.stopped = false from horderly] at hstopped
    cases hstopped
  | flush e following hphase =>
    have hflush := flushes_flush truncate cfg s following
    refine ⟨?_,fun hstopped => ?_,fun _ => hflush.buffer⟩
    · rw [contents_flush truncate cfg hphase,hflush.read,hs.contents]
    · rw [held_flush truncate cfg hphase]
      exact hs.stopped (hflush.stopped ▸ hstopped)
  | send batch following hphase =>
    have hresume := resumes_resume truncate cfg { s with proposeC := s.proposeC ++ [batch] } following
    have hbuffer : s.buffer = [] := hs.buffer (by simp [hphase])
    refine ⟨?_,fun _ => ?_,fun _ => hresume.buffer.trans hbuffer⟩
    · rw [contents_send truncate cfg hphase,hresume.read]
      exact hs.contents
    · rw [held,hresume.pending,hresume.buffer,hbuffer]
      rfl
  | giveUp batch following hphase hstopped =>
    -- nothing is being sent after an orderly stop
    have hresume := resumes_resume truncate cfg s following
    have hheld := hs.stopped hstopped
    obtain ⟨hpending,hbuffer⟩ := List.append_eq_nil_iff.mp hheld
    refine ⟨?_,fun _ => ?_,fun _ => hresume.buffer.trans hbuffer⟩
    · rw [contents_resume,hresume.read,← hs.contents,Batcher.contents,hheld,hbuffer]
    · rw [held,hresume.pending,hresume.buffer,hbuffer]
      rfl
  | receive batch rest hready =>
    exact ⟨(contents_receive hready).trans hs.contents,hs.stopped,hs.buffer⟩
  | stop => exact ⟨hs.contents,fun _ => horderly,hs.buffer⟩
  | cancel => exact ⟨hs.contents,hs.stopped,hs.buffer⟩

end Steps

end Batcher
end MetaStore.Batch
