import MetaStore.Batch.ProposalBatcher

/-! How the batcher adapts to its load. The load is measured by the length of the buffer at a tick,
after the flush of that tick, by a goroutine that is the only one to write to it. The arithmetic is
that of the rationals. -/
namespace MetaStore.Batch
open Transition

/-- The conversion to `int`, towards zero. -/
def truncate (x : ℚ) : ℤ := if 0 ≤ x then ⌊x⌋ else ⌈x⌉

def BatchConfig.idle (cfg : BatchConfig ℚ) : Parameters ℚ := adjustParameters truncate cfg 0 ⟨0,0,0⟩

lemma adjustParameters_of_load_eq_zero {cfg : BatchConfig ℚ} {p : Parameters ℚ}
    (h : p.currentLoad = 0) : adjustParameters truncate cfg 0 p = cfg.idle := by
  rw [BatchConfig.idle,adjustParameters,adjustParameters,h]

lemma currentLoad_idle (cfg : BatchConfig ℚ) : cfg.idle.currentLoad = 0 := by
  unfold BatchConfig.idle adjustParameters
  simp only
  split_ifs <;> norm_num

/-- Without load the size is the smallest one, unless the threshold is negative. -/
lemma currentBatchSize_idle (cfg : BatchConfig ℚ) :
    cfg.idle.currentBatchSize = if cfg.loadThreshold < 0 then
      interpolate truncate 0 cfg.loadThreshold 1 ((cfg.maxBatchSize : ℚ)/2) cfg.maxBatchSize
    else cfg.minBatchSize := by
  have hint : ∀ n : ℤ, truncate n = n := by
    intro n
    unfold truncate
    split_ifs <;> simp
  simp only [BatchConfig.idle,adjustParameters,Nat.cast_zero,Int.cast_zero,zero_div]
  norm_num
  split_ifs
  · rfl
  · simp [interpolate,hint]

def Event.isTick : Event → Bool
  | .tick => true
  | _ => false

lemma Event.isTick_iff {e : Event} : e.isTick = true ↔ e = .tick := by
  cases e <;> simp [isTick]

namespace Batcher
variable {cfg : BatchConfig ℚ} {s t : Batcher ℚ}

/-- The parameters are those of the start or of an empty buffer, and a buffer is empty once it is
being flushed. -/
structure Unloaded (cfg : BatchConfig ℚ) (s : Batcher ℚ) : Prop where
  parameters : s.parameters = (newProposalBatcher cfg).parameters ∨ s.parameters = cfg.idle
  buffer : s.phase ≠ .waiting → s.buffer = []

def Pending (s : Batcher ℚ) : Prop := ∃ batch, s.phase = .sending batch .adjust

lemma Unloaded.load (h : s.Unloaded cfg) : s.parameters.currentLoad = 0 := by
  rcases h.parameters with h|h
  · rw [h]
    simp only [newProposalBatcher,reset]
    norm_num
  · rw [h,currentLoad_idle]

def Ticked (cfg : BatchConfig ℚ) (s : Batcher ℚ) : Prop := s.Pending ∨ s.parameters = cfg.idle

lemma parameters_flush (s : Batcher ℚ) (following : Following) (h : following ≠ .adjust) :
    (s.flush truncate cfg following).parameters = s.parameters := by
  have hresume : ∀ u : Batcher ℚ, (u.resume truncate cfg following).parameters = u.parameters := by
    intro u
    cases following with
    | adjust => exact absurd rfl h
    | _ => rfl
  unfold flush
  split_ifs
  · exact hresume s
  · split
    · exact hresume _
    · rfl

lemma parameters_resume (h : s.Unloaded cfg) (hbuffer : s.buffer = []) :
    (s.resume truncate cfg .adjust).parameters = cfg.idle := by
  change adjustParameters truncate cfg s.buffer.length s.parameters = _
  rw [hbuffer]
  exact adjustParameters_of_load_eq_zero h.load

lemma ticked_flush (h : s.Unloaded cfg) : (s.flush truncate cfg .adjust).Ticked cfg := by
  unfold flush
  by_cases hbuffer : s.buffer = []
  · rw [if_pos hbuffer]
    exact .inr (parameters_resume h hbuffer)
  · obtain ⟨batch,hbatch,-⟩ := exists_ofBatch hbuffer
    rw [if_neg hbuffer,hbatch]
    exact .inl ⟨batch,rfl⟩

structure Keeps (cfg : BatchConfig ℚ) (s t : Batcher ℚ) : Prop where
  unloaded : t.Unloaded cfg
  idle : s.parameters = cfg.idle → t.parameters = cfg.idle
  pending : s.Pending → t.Ticked cfg

lemma keeps_of_eq (h : s.Unloaded cfg) (hparameters : t.parameters = s.parameters)
    (hphase : t.phase = s.phase) (hbuffer : t.buffer = s.buffer) : Keeps cfg s t :=
  ⟨⟨hparameters ▸ h.parameters,fun ht => hbuffer.trans (h.buffer (hphase ▸ ht))⟩,
    fun hidle => hparameters.trans hidle,fun ⟨batch,hb⟩ => .inl ⟨batch,hphase.trans hb⟩⟩

lemma keeps_of_waiting (hphase : s.phase = .waiting) (ht : t.Unloaded cfg)
    (hidle : s.parameters = cfg.idle → t.parameters = cfg.idle) : Keeps cfg s t :=
  ⟨ht,hidle,fun ⟨batch,hb⟩ => by cases hphase.symm.trans hb⟩

lemma keeps_flush (h : s.Unloaded cfg) (hphase : s.phase = .waiting) (following : Following) :
    Keeps cfg s (s.flush truncate cfg following) := by
  have hbuffer := (flushes_flush truncate cfg s following).buffer
  have hother (hne : following ≠ .adjust) : Keeps cfg s (s.flush truncate cfg following) := by
    have hparameters : (s.flush truncate cfg following).parameters = s.parameters :=
      parameters_flush s following hne
    exact keeps_of_waiting hphase ⟨hparameters ▸ h.parameters,fun _ => hbuffer⟩
      fun hidle => hparameters.trans hidle
  cases following with
  | adjust =>
    unfold flush at hbuffer ⊢
    by_cases hempty : s.buffer = []
    · rw [if_pos hempty] at hbuffer ⊢
      have hidle := parameters_resume h hempty
      exact keeps_of_waiting hphase ⟨.inr hidle,fun _ => hbuffer⟩ fun _ => hidle
    · obtain ⟨batch,hbatch,-⟩ := exists_ofBatch hempty
      rw [if_neg hempty,hbatch] at hbuffer ⊢
      exact keeps_of_waiting hphase ⟨h.parameters,fun _ => hbuffer⟩ id
  | _ => exact hother (by simp)

lemma keeps_resume (h : s.Unloaded cfg) {batch : Encoded} {following : Following}
    (hphase : s.phase = .sending batch following) {u : Batcher ℚ} (hbuffer : u.buffer = s.buffer)
    (hparameters : u.parameters = s.parameters) :
    Keeps cfg s (u.resume truncate cfg following) := by
  have hempty : u.buffer = [] := hbuffer.trans (h.buffer (by simp [hphase]))
  have hu : u.Unloaded cfg := ⟨hparameters ▸ h.parameters,fun _ => hempty⟩
  have hresume := (resumes_resume truncate cfg u following).buffer.trans hempty
  cases following with
  | adjust =>
    have hidle := parameters_resume hu hempty
    exact ⟨⟨.inr hidle,fun _ => hresume⟩,fun _ => hidle,fun _ => .inr hidle⟩
  | reset | exit =>
    refine ⟨⟨hparameters ▸ h.parameters,fun _ => hresume⟩,fun hidle => hparameters.trans hidle,
      fun ⟨b,hb⟩ => ?_⟩
    cases hphase.symm.trans hb

lemma keeps_step (h : s.Unloaded cfg) {e : Event} (ht : s.step truncate cfg e = some t) :
    Keeps cfg s t := by
  cases acts_step truncate cfg ht with
  | propose p hphase =>
    unfold propose
    dsimp only
    have hread : Unloaded cfg { s with buffer := s.buffer ++ [p], read := s.read ++ [p] } :=
      ⟨h.parameters,fun hne => absurd hphase hne⟩
    split_ifs
    · have hkeeps := keeps_flush hread hphase .reset
      exact keeps_of_waiting hphase hkeeps.unloaded hkeeps.idle
    · exact keeps_of_waiting hphase hread id
  | flush e following hphase => exact keeps_flush h hphase following
  | send batch following hphase => exact keeps_resume h hphase rfl rfl
  | giveUp batch following hphase hstopped => exact keeps_resume h hphase rfl rfl
  | receive batch rest hready => exact keeps_of_eq h rfl rfl rfl
  | stop => exact keeps_of_eq h rfl rfl rfl
  | cancel => exact keeps_of_eq h rfl rfl rfl

lemma ticked_of_run {events : List Event}
    (hrun : events.foldlM (step truncate cfg) (newProposalBatcher cfg) = some t) :
    t.Unloaded cfg ∧ (0 < events.countP Event.isTick → t.Ticked cfg) ∧
      (1 < events.countP Event.isTick → t.parameters = cfg.idle) := by
  induction events using List.reverseRecOn generalizing t with
  | nil =>
    obtain rfl := Option.some.inj hrun
    exact ⟨⟨.inl rfl,fun _ => rfl⟩,by simp,by simp⟩
  | append_singleton events e ih =>
    obtain ⟨s,hs,ht⟩ := foldlM_snoc_eq_some_iff.mp hrun
    obtain ⟨hunloaded,hticked,hidle⟩ := ih hs
    have hkeeps := keeps_step hunloaded ht
    have hnext : s.Ticked cfg → t.Ticked cfg := fun h =>
      h.elim hkeeps.pending fun h => .inr (hkeeps.idle h)
    rw [List.countP_append,List.countP_singleton]
    by_cases htick : e.isTick = true
    · obtain rfl := Event.isTick_iff.mp htick
      obtain ⟨hphase,rfl⟩ := onWaiting_eq_some ht
      refine ⟨hkeeps.unloaded,fun _ => ticked_flush hunloaded,fun hcount => ?_⟩
      rw [if_pos htick] at hcount
      rcases hticked (by omega) with ⟨batch,hb⟩|h
      · cases hphase.symm.trans hb
      · exact hkeeps.idle h
    · rw [if_neg htick,Nat.add_zero]
      exact ⟨hkeeps.unloaded,fun h => hnext (hticked h),fun h => hkeeps.idle (hidle h)⟩

/-- After ten ticks the size of the batches has grown if and only if the threshold is negative,
whatever was proposed between the ticks. -/
theorem batch_size_grows_iff {cfg : BatchConfig ℚ} (hmin : cfg.minBatchSize = 1)
    (hmax : 4 ≤ cfg.maxBatchSize) {events : List Event} {t : Batcher ℚ}
    (hrun : events.foldlM (step truncate cfg) (newProposalBatcher cfg) = some t)
    (hticks : 10 ≤ events.countP Event.isTick) :
    cfg.minBatchSize < t.parameters.currentBatchSize ↔ cfg.loadThreshold < 0 := by
  obtain ⟨-,-,hidle⟩ := ticked_of_run hrun
  rw [hidle (by omega),currentBatchSize_idle]
  split_ifs with hneg
  · refine iff_of_true ?_ hneg
    have hmax' : (4 : ℚ) ≤ cfg.maxBatchSize := by exact_mod_cast hmax
    have hratio : 0 ≤ (0-cfg.loadThreshold)/(1-cfg.loadThreshold) :=
      div_nonneg (by linarith) (by linarith)
    have hsize : 2 ≤ (cfg.maxBatchSize : ℚ)/2+(0-cfg.loadThreshold)/(1-cfg.loadThreshold)*
        (cfg.maxBatchSize-(cfg.maxBatchSize : ℚ)/2) := by
      have := mul_nonneg hratio (show (0 : ℚ) ≤ cfg.maxBatchSize-(cfg.maxBatchSize : ℚ)/2 by linarith)
      linarith
    rw [interpolate,if_neg (by linarith),if_neg (by norm_num),truncate,if_pos (by linarith),hmin]
    exact Int.lt_iff_add_one_le.mpr (Int.le_floor.mpr (by exact_mod_cast hsize))
  · exact iff_of_false (lt_irrefl _) hneg

def burst : List Event := (List.replicate 4 [.propose (ascii "a"),.send]).flatten

def loadedRun : List Event := .tick :: (List.replicate 9 (burst ++ [.tick])).flatten

/-- A run with a positive threshold. -/
theorem batch_size_grows_iff_loaded :
    let cfg : BatchConfig ℚ := ⟨1,4,5,20,7/10⟩
    ∃ t, loadedRun.foldlM (step truncate cfg) (newProposalBatcher cfg) = some t ∧
      (cfg.minBatchSize < t.parameters.currentBatchSize ↔ cfg.loadThreshold < 0) := by
  intro cfg
  have hsome : (loadedRun.foldlM (step truncate cfg) (newProposalBatcher cfg)).isSome = true := by
    decide +kernel
  obtain ⟨t,ht⟩ := Option.isSome_iff_exists.mp hsome
  exact ⟨t,ht,batch_size_grows_iff rfl (by decide) ht (by decide)⟩

/-- Batches of one proposal, for whatever is proposed. -/
theorem batch_size_stays_small :
    let cfg : BatchConfig ℚ := ⟨1,4,5,20,7/10⟩
    loadedRun.countP Event.isTick = 10 ∧
    (loadedRun.foldlM (step truncate cfg) (newProposalBatcher cfg)).map
      (fun t => (t.proposeC.length,t.parameters.currentBatchSize)) = some (36,1) := by
  decide +kernel

end Batcher
end MetaStore.Batch
