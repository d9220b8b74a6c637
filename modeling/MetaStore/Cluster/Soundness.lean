import MetaStore.Cluster.Calls
import MetaStore.Library.Transition

/-! Why a call may trust its wake-up. For every call the waiters of its node satisfy `Waits`:
the channel it waits on is registered under its own number only and closed only after its own
operation was applied, and a response under its number is its own. Every critical section
keeps `Waits` for all calls; waking a call and keeping a response do so as long as the
operation at hand cannot be mistaken for that of another call. -/
namespace MetaStore.Cluster
open Std

structure Bounded (w : Waiters) : Prop where
  pending : ∀ (name : Bytes) (ch : ℕ), w.pendingOps[name]? = some ch → ch < w.channels
  closed : ∀ ch ∈ w.closed, ch < w.channels

namespace Bounded
variable {w : Waiters}

lemma empty : Bounded .empty where
  pending name ch h := by simp [Waiters.empty] at h
  closed ch h := by simp [Waiters.empty] at h

lemma draw (hw : Bounded w) : Bounded w.draw := ⟨hw.pending,hw.closed⟩

lemma register (hw : Bounded w) (name : Bytes) : Bounded (w.register name) where
  pending name' ch h := by
    simp only [Waiters.register,ExtTreeMap.getElem?_insert] at h ⊢
    split at h
    · obtain rfl := Option.some.inj h
      exact Nat.lt_succ_self _
    · exact Nat.lt_succ_of_lt (hw.pending name' ch h)
  closed ch h := Nat.lt_succ_of_lt (hw.closed ch h)

lemma cleanup (hw : Bounded w) (name : Bytes) (results : Bool) :
    Bounded (w.cleanup name results) where
  pending name' ch h := by
    simp only [Waiters.cleanup,ExtTreeMap.getElem?_erase,Option.ite_none_left_eq_some] at h
    exact hw.pending name' ch h.2
  closed ch h := hw.closed ch h

lemma saveTxnResult (hw : Bounded w) (name : Bytes) (r : Option TxnResponse) :
    Bounded (w.saveTxnResult name r) := by
  unfold Waiters.saveTxnResult
  split
  · split_ifs
    · exact ⟨hw.pending,hw.closed⟩
    · exact hw
  · exact hw

lemma notify (hw : Bounded w) (name : Bytes) : Bounded (w.notify name) := by
  unfold Waiters.notify
  split_ifs
  · split
    · next ch hch =>
      refine ⟨fun name' ch' h => ?_,fun ch' h => ?_⟩
      · simp only [ExtTreeMap.getElem?_erase,Option.ite_none_left_eq_some] at h
        exact hw.pending name' ch' h.2
      · obtain rfl | h := List.mem_cons.1 h
        · exact hw.pending name ch' hch
        · exact hw.closed ch' h
    · exact hw
  · exact hw

end Bounded

section Waits
variable {ι : Type*}

/-- What the waiters of its node hold for a call; `applied` and `computed` say what the node
has done for the call's own operation. -/
structure Waits (w : Waiters) (applied : Prop) (computed : TxnResponse → Prop) (c : Call ι) :
    Prop where
  bound : ∀ ch ∈ c.phase.channel, ch < w.channels
  name : ∀ ch ∈ c.phase.channel, ∀ (name : Bytes),
    w.pendingOps[name]? = some ch → name = c.op.seqNum
  closed : ∀ ch ∈ c.phase.channel, ch ∈ w.closed → applied
  result : c.AsksResult → ∀ r, w.pendingTxnResults[c.op.seqNum]? = some r → computed r
  returned : ∀ response, c.phase = .returned response →
    applied ∧ (c.op.type = .txn → ∃ r, response = some r ∧ computed r)

namespace Waits
variable {w : Waiters} {applied applied' : Prop} {computed computed' : TxnResponse → Prop}
  {c : Call ι}

lemma mono (h : Waits w applied computed c) (ha : applied → applied')
    (hc : ∀ r, computed r → computed' r) : Waits w applied' computed' c where
  bound := h.bound
  name := h.name
  closed ch hch hw := ha (h.closed ch hch hw)
  result hl r hr := hc r (h.result hl r hr)
  returned response hp := by
    obtain ⟨h₁,h₂⟩ := h.returned response hp
    refine ⟨ha h₁,fun ht => ?_⟩
    obtain ⟨r,hr,hr'⟩ := h₂ ht
    exact ⟨r,hr,hc r hr'⟩

lemma ended (w : Waiters) (hl : ¬ c.phase.Live)
    (returned : ∀ response, c.phase = .returned response →
      applied ∧ (c.op.type = .txn → ∃ r, response = some r ∧ computed r)) :
    Waits w applied computed c where
  bound _ hch := (hl (Phase.live_of_channel hch)).elim
  name _ hch := (hl (Phase.live_of_channel hch)).elim
  closed _ hch := (hl (Phase.live_of_channel hch)).elim
  result hc := (hl hc.1).elim
  returned := returned

lemma failed (w : Waiters) (hp : c.phase = .failed) : Waits w applied computed c :=
  ended w (by rw [hp]; exact id) fun _ hret => by simp [hp] at hret

/-- A call that has just drawn its number finds no response under it. -/
lemma drawn {w : Waiters} (hp : c.phase = .drawn)
    (free : c.op.type = .txn → w.pendingTxnResults[c.op.seqNum]? = none) : Waits w applied computed c where
  bound _ hch := by simp [hp,Phase.channel] at hch
  name _ hch := by simp [hp,Phase.channel] at hch
  closed _ hch := by simp [hp,Phase.channel] at hch
  result hc r hr := by simp [free hc.2] at hr
  returned _ hret := by simp [hp] at hret

lemma draw (h : Waits w applied computed c) : Waits w.draw applied computed c :=
  ⟨h.bound,h.name,h.closed,h.result,h.returned⟩

lemma register (h : Waits w applied computed c) (name : Bytes) :
    Waits (w.register name) applied computed c where
  bound ch hch := Nat.lt_succ_of_lt (h.bound ch hch)
  name ch hch name' hn := by
    simp only [Waiters.register,ExtTreeMap.getElem?_insert] at hn
    split at hn
    · obtain rfl := Option.some.inj hn
      exact absurd (h.bound _ hch) (lt_irrefl _)
    · exact h.name ch hch name' hn
  closed := h.closed
  result := h.result
  returned := h.returned

lemma registered (h : Waits w applied computed c) (hw : Bounded w) (hp : c.phase = .drawn) :
    Waits (w.register c.op.seqNum) applied computed
      { c with phase := .registered w.channels } where
  bound ch hch := by
    obtain rfl := Option.some.inj hch
    exact Nat.lt_succ_self _
  name ch hch name' hn := by
    obtain rfl := Option.some.inj hch
    simp only [Waiters.register,ExtTreeMap.getElem?_insert] at hn
    split at hn
    · next heq => exact (LawfulEqCmp.eq_of_compare heq).symm
    · exact absurd (hw.pending name' _ hn) (lt_irrefl _)
  closed ch hch hc := by
    obtain rfl := Option.some.inj hch
    exact absurd (hw.closed _ hc) (lt_irrefl _)
  result hc := h.result ⟨by rw [hp]; trivial,hc.2⟩
  returned _ hret := nomatch hret

lemma proposed (h : Waits w applied computed c) {ch : ℕ} (hp : c.phase = .registered ch) :
    Waits w applied computed { c with phase := .proposed ch } := by
  have same : c.phase.channel = (Phase.proposed ch).channel := by rw [hp]; rfl
  exact ⟨same ▸ h.bound,same ▸ h.name,same ▸ h.closed,fun hc => h.result ⟨by rw [hp]; trivial,hc.2⟩,
    fun _ hret => nomatch hret⟩

lemma cleanup (h : Waits w applied computed c) (name : Bytes) (results : Bool) :
    Waits (w.cleanup name results) applied computed c where
  bound := h.bound
  name ch hch name' hn := by
    simp only [Waiters.cleanup,ExtTreeMap.getElem?_erase,Option.ite_none_left_eq_some] at hn
    exact h.name ch hch name' hn.2
  closed := h.closed
  result hl r hr := by
    cases results with
    | false => exact h.result hl r hr
    | true =>
      simp only [Waiters.cleanup,if_true,ExtTreeMap.getElem?_erase,
        Option.ite_none_left_eq_some] at hr
      exact h.result hl r hr.2
  returned := h.returned

lemma takeTxnResult (h : Waits w applied computed c) (name : Bytes) :
    Waits (w.takeTxnResult name) applied computed c where
  bound := h.bound
  name := h.name
  closed := h.closed
  result hl r hr := by
    simp only [Waiters.takeTxnResult,ExtTreeMap.getElem?_erase,
      Option.ite_none_left_eq_some] at hr
    exact h.result hl r hr.2
  returned := h.returned

lemma saveTxnResult (h : Waits w applied computed c) (name : Bytes) (r : Option TxnResponse)
    (own : c.AsksResult → c.op.seqNum = name → ∀ x, r = some x → computed x) :
    Waits (w.saveTxnResult name r) applied computed c := by
  unfold Waiters.saveTxnResult
  split
  · next x =>
    split_ifs
    · refine ⟨h.bound,h.name,h.closed,fun hl y hy => ?_,h.returned⟩
      simp only [ExtTreeMap.getElem?_insert] at hy
      split at hy
      · next heq =>
        obtain rfl := Option.some.inj hy
        exact own hl (LawfulEqCmp.eq_of_compare heq).symm x rfl
      · exact h.result hl y hy
    · exact h
  · exact h

lemma notify (h : Waits w applied computed c) (name : Bytes)
    (own : c.HasChannel → c.op.seqNum = name → applied) :
    Waits (w.notify name) applied computed c := by
  unfold Waiters.notify
  split_ifs
  · split
    · next ch hch =>
      refine ⟨h.bound,fun ch' hch' name' hn => ?_,fun ch' hch' hc => ?_,h.result,h.returned⟩
      · simp only [ExtTreeMap.getElem?_erase,Option.ite_none_left_eq_some] at hn
        exact h.name ch' hch' name' hn.2
      · obtain rfl | hc := List.mem_cons.1 hc
        · exact own ⟨ch',hch'⟩ (h.name ch' hch' name hch).symm
        · exact h.closed ch' hch' hc
    · exact h
  · exact h

lemma finished (h : Waits w applied computed c) {ch : ℕ} (hp : c.phase = .proposed ch)
    (woken : ch ∈ w.closed) (w' : Waiters) :
    Waits w' applied computed { c with phase := c.result w } := by
  have done : applied := h.closed ch (by rw [hp]; rfl) woken
  have live : c.phase.Live := by rw [hp]; trivial
  unfold Call.result
  split_ifs with ht
  · split
    · next r hr =>
      refine ended w' id fun response hret => ⟨done,fun _ => ⟨r,?_,h.result ⟨live,ht⟩ r hr⟩⟩
      exact (Phase.returned.inj hret).symm
    · exact failed w' rfl
  · exact ended w' id fun response hret => ⟨done,fun ht' => absurd ht' ht⟩

end Waits
end Waits

section Runs
variable {ι σ : Type*}
variable {s : State ι σ}

structure Inv (s : State ι σ) : Prop where
  entries : ∀ (p id : ℕ) (op : RaftOperation), s.log[p]? = some ⟨some id,op⟩ →
    ∃ c, s.calls id = some c ∧ c.op = op
  bounded : ∀ n, Bounded (s.nodes n).waiters
  calls : ∀ id c, s.calls id = some c →
    Waits (s.nodes c.node).waiters (s.Applied id c) (s.Computed id c) c
  notifying : ∀ n todo, (s.nodes n).work = .notifying todo →
    ∀ task ∈ todo, (n,task.position) ∈ s.applied

lemma Inv.new (store : σ) : Inv (State.new store : State ι σ) where
  entries p id op h := by simp [State.new] at h
  bounded n := Bounded.empty
  calls id c h := by simp [State.new] at h
  notifying n todo h := by simp [State.new] at h

lemma Inv.sound (hs : Inv s) : s.Sound := fun id c response h hp =>
  (hs.calls id c h).returned response hp

lemma Inv.pool (hs : Inv s) (pool : List ℕ) : Inv { s with pool := pool } :=
  ⟨hs.entries,hs.bounded,hs.calls,hs.notifying⟩

lemma Inv.append (hs : Inv s) (pool : List ℕ) (e : LogEntry)
    (he : ∀ id, e.proposer = some id → ∃ c, s.calls id = some c ∧ c.op = e.op) :
    Inv { s with pool := pool, log := s.log ++ [e] } where
  entries p id op h := by
    obtain hlt | hge := lt_or_ge p s.log.length
    · rw [List.getElem?_append_left hlt] at h
      exact hs.entries p id op h
    · rw [List.getElem?_append_right hge,List.getElem?_singleton] at h
      split at h
      · obtain rfl := Option.some.inj h
        exact he id rfl
      · exact nomatch h
  bounded := hs.bounded
  calls id c h := by
    have grow : ∀ (p : ℕ) (x : LogEntry), s.log[p]? = some x → (s.log ++ [e])[p]? = some x :=
      fun p x hx => by
        rw [List.getElem?_append_left (List.getElem?_eq_some_iff.1 hx).1,hx]
    refine (hs.calls id c h).mono ?_ ?_
    · rintro ⟨p,hp,he⟩
      exact ⟨p,hp,grow p _ he⟩
    · rintro r ⟨p,hp,he⟩
      exact ⟨p,hp,grow p _ he⟩
  notifying := hs.notifying

/-- An operation that is not mistaken belongs to the call whose number it carries. -/
lemma Inv.own (hs : Inv s) {P : Call ι → Prop} {n : ι} {task : Task}
    (h : s.Unmistaken P n task) {id : ℕ} {c : Call ι} (hc : s.calls id = some c)
    (hn : c.node = n) (hl : P c)
    (name : c.op.seqNum = task.op.seqNum) : s.log[task.position]? = some ⟨some id,c.op⟩ := by
  obtain ⟨⟨proposer,op⟩,he,rfl⟩ := h id c hc hn hl name
  obtain ⟨c',hc',rfl⟩ := hs.entries _ _ _ he
  obtain rfl := Option.some.inj (hc.symm.trans hc')
  exact he

variable [DecidableEq ι] {E : Engine σ}

lemma Inv.setPhase (hs : Inv s) {w : Waiters} {id : ℕ} (c : Call ι)
    (phase : Phase) (hid : ∀ c', s.calls id = some c' → c'.op = c.op) (hb : Bounded w)
    (hc : Waits w (s.Applied id c) (s.Computed id c) { c with phase := phase })
    (hother : ∀ id' c', s.calls id' = some c' → c'.node = c.node →
      Waits w (s.Applied id' c') (s.Computed id' c') c') :
    Inv ((s.setWaiters c.node w).setPhase id c phase) where
  entries p id' op h := by
    obtain ⟨c',h',hop⟩ := hs.entries p id' op h
    obtain rfl | hne := eq_or_ne id' id
    · exact ⟨_,calls_setPhase_self ..,by rw [← hop,hid c' h']⟩
    · exact ⟨c',(calls_setPhase_of_ne _ _ _ hne).trans h',hop⟩
  bounded n := by
    rw [nodes_setPhase]
    obtain rfl | hne := eq_or_ne n c.node
    · rwa [nodes_setWaiters_self]
    · rw [nodes_setWaiters_of_ne _ _ hne]
      exact hs.bounded n
  calls id' c' h := by
    rw [nodes_setPhase]
    obtain rfl | hne := eq_or_ne id' id
    · obtain rfl := Option.some.inj ((calls_setPhase_self ..).symm.trans h)
      rw [nodes_setWaiters_self]
      exact hc
    · replace h : s.calls id' = some c' := (calls_setPhase_of_ne _ _ _ hne).symm.trans h
      by_cases hn : c'.node = c.node
      · rw [hn,nodes_setWaiters_self]
        exact hother id' c' h hn
      · rw [nodes_setWaiters_of_ne _ _ hn]
        exact hs.calls id' c' h
  notifying n todo h := by
    rw [nodes_setPhase] at h
    refine hs.notifying n todo ?_
    obtain rfl | hne := eq_or_ne n c.node
    · rwa [nodes_setWaiters_self] at h
    · rwa [nodes_setWaiters_of_ne _ _ hne] at h

lemma Inv.setNode {s' : State ι σ} (hs : Inv s) {n : ι} {node : Node σ}
    (nodes : s'.nodes = Function.update s.nodes n node) (calls : s'.calls = s.calls)
    (log : s'.log = s.log) (applied : s.applied ⊆ s'.applied) (computed : s.computed ⊆ s'.computed)
    (hb : Bounded node.waiters)
    (hw : ∀ id c, s.calls id = some c → c.node = n →
      Waits node.waiters (s'.Applied id c) (s'.Computed id c) c)
    (hnot : ∀ todo, node.work = .notifying todo →
      ∀ task ∈ todo, (n,task.position) ∈ s'.applied) : Inv s' where
  entries p id op h := by
    rw [calls]
    exact hs.entries p id op (log ▸ h)
  bounded m := by
    rw [nodes]
    obtain rfl | hne := eq_or_ne m n
    · rwa [Function.update_self]
    · rw [Function.update_of_ne hne]
      exact hs.bounded m
  calls id c h := by
    rw [calls] at h
    rw [nodes]
    by_cases hn : c.node = n
    · rw [hn,Function.update_self]
      exact hw id c h hn
    · rw [Function.update_of_ne hn]
      refine (hs.calls id c h).mono ?_ ?_
      · rintro ⟨p,hp,he⟩
        exact ⟨p,applied hp,log ▸ he⟩
      · rintro r ⟨p,hp,he⟩
        exact ⟨p,computed hp,log ▸ he⟩
  notifying m todo h := by
    rw [nodes] at h
    obtain rfl | hne := eq_or_ne m n
    · rw [Function.update_self] at h
      exact hnot todo h
    · rw [Function.update_of_ne hne] at h
      exact fun task ht => applied (hs.notifying m todo h task ht)

lemma Inv.restart (hs : Inv s) (n : ι) (position : ℕ) (store : σ) :
    Inv { s.setNode n ⟨.empty,store,position,.idle⟩ with
      calls := fun id => (s.calls id).map (lose n) } where
  entries p id op h := by
    obtain ⟨c,hc,rfl⟩ := hs.entries p id op h
    refine ⟨lose n c,by simp [hc],?_⟩
    unfold lose
    split_ifs <;> rfl
  bounded m := by
    obtain rfl | hne := eq_or_ne m n
    · simpa [State.setNode] using Bounded.empty
    · simpa [State.setNode,hne] using hs.bounded m
  calls id c' h := by
    obtain ⟨c,hc,rfl⟩ := Option.map_eq_some_iff.1 h
    have old := hs.calls id c hc
    unfold lose
    split_ifs with hlost
    · exact .failed _ rfl
    · by_cases hn : c.node = n
      · exact .ended _ (fun hl => hlost ⟨hn,hl⟩) old.returned
      · have same : (s.setNode n ⟨.empty,store,position,.idle⟩).nodes c.node = s.nodes c.node :=
          Function.update_of_ne hn ..
        exact same.symm ▸ old
  notifying m todo h := by
    obtain rfl | hne := eq_or_ne m n
    · simp [State.setNode] at h
    · exact hs.notifying m todo (by simpa [State.setNode,hne] using h)

lemma Inv.step {s' : State ι σ} {event : Event ι σ} (hs : Inv s) (allowed : Distinct s event)
    (step : Step E s event s') : Inv s' := by
  cases step with
  | draw id n op new =>
    refine hs.setPhase ⟨n,_,.drawn⟩ _ (fun c' h' => ?_) (hs.bounded n).draw
      (.drawn rfl allowed) fun id' c' h hn => ?_
    · exact nomatch new.symm.trans h'
    · obtain rfl : c'.node = n := hn
      exact (hs.calls id' c' h).draw
  | register id c h phase =>
    refine hs.setPhase c _ (fun c' h' => ?_) ((hs.bounded _).register _)
      ((hs.calls id c h).registered (hs.bounded _) phase) fun id' c' h' hn => ?_
    · rw [Option.some.inj (h.symm.trans h')]
    · rw [← hn]
      exact (hs.calls id' c' h').register _
  | propose id c ch h phase =>
    have next : Inv ((s.setWaiters c.node (s.nodes c.node).waiters).setPhase id c
        (.proposed ch)) := by
      refine hs.setPhase c _ (fun c' h' => ?_) (hs.bounded _)
        ((hs.calls id c h).proposed phase) fun id' c' h' hn => ?_
      · rw [Option.some.inj (h.symm.trans h')]
      · rw [← hn]
        exact hs.calls id' c' h'
    rw [setWaiters_same] at next
    exact next.pool _
  | giveUp id c ch h phase =>
    refine hs.setPhase c _ (fun c' h' => ?_) ((hs.bounded _).cleanup _ _) (.failed _ rfl)
      fun id' c' h' hn => ?_
    · rw [Option.some.inj (h.symm.trans h')]
    · rw [← hn]
      exact (hs.calls id' c' h').cleanup _ _
  | finish id c ch h phase woken =>
    refine hs.setPhase c _ (fun c' h' => ?_) ?_ ((hs.calls id c h).finished phase woken _)
      fun id' c' h' hn => ?_
    · rw [Option.some.inj (h.symm.trans h')]
    · split_ifs
      · exact ⟨(hs.bounded _).pending,(hs.bounded _).closed⟩
      · exact hs.bounded _
    · rw [← hn]
      split_ifs
      · exact (hs.calls id' c' h').takeTxnResult _
      · exact hs.calls id' c' h'
  | commit id c h pool =>
    refine hs.append _ _ fun id' hid => ?_
    obtain rfl := Option.some.inj hid
    exact ⟨c,h,rfl⟩
  | «foreign» op unnamed => exact hs.append _ _ fun id' hid => nomatch hid
  | start n count after responses notified idle outcome =>
    exact hs.setNode rfl rfl rfl (List.Subset.refl _) (List.Subset.refl _) (hs.bounded n)
      (fun id c h hn => hn ▸ hs.calls id c h) fun todo h => nomatch h
  | save n task todo all after notified work =>
    refine hs.setNode rfl rfl rfl (List.Subset.refl _) (List.subset_append_right _ _)
      ((hs.bounded n).saveTxnResult _ _) (fun id c h hn => ?_) fun todo h => nomatch h
    rw [← hn]
    refine Waits.saveTxnResult ((hs.calls id c h).mono (fun ha => ha) fun r ⟨p,hp,he⟩ =>
      ⟨p,List.mem_append_right _ hp,he⟩) _ _ fun hl name r hr => ?_
    have kept : task.response.isSome := by rw [hr]; rfl
    refine ⟨task.position,List.mem_append_left _ ?_,
      hs.own (allowed _ _ _ _ _ work kept) h hn hl name⟩
    simp [Task.computed,hr,hn]
  | settle n all after notified work =>
    refine hs.setNode rfl rfl rfl (List.subset_append_right _ _) (List.Subset.refl _)
      (hs.bounded n) (fun id c h hn => ?_) fun todo h task ht => ?_
    · rw [← hn]
      exact (hs.calls id c h).mono (fun ⟨p,hp,he⟩ => ⟨p,List.mem_append_right _ hp,he⟩)
        fun r hr => hr
    · obtain rfl := Work.notifying.inj h
      refine List.mem_append_left _ ?_
      split_ifs at ht ⊢
      · exact List.mem_map.2 ⟨task,ht,rfl⟩
      · exact nomatch ht
  | notify n task todo work =>
    have now : (n,task.position) ∈ s.applied := hs.notifying n _ work task List.mem_cons_self
    refine hs.setNode rfl rfl rfl (List.Subset.refl _) (List.Subset.refl _)
      ((hs.bounded n).notify _) (fun id c h hn => ?_) fun todo' h task' ht => ?_
    · rw [← hn]
      refine (hs.calls id c h).notify _ fun hl name => ?_
      exact ⟨task.position,hn ▸ now,hs.own (allowed _ _ work) h hn hl name⟩
    · obtain rfl := Work.notifying.inj h
      exact hs.notifying n _ work task' (List.mem_cons_of_mem _ ht)
  | done n work =>
    exact hs.setNode rfl rfl rfl (List.Subset.refl _) (List.Subset.refl _) (hs.bounded n)
      (fun id c h hn => hn ▸ hs.calls id c h) fun todo h => nomatch h
  | install n position store idle =>
    exact hs.setNode rfl rfl rfl (List.Subset.refl _) (List.Subset.refl _) (hs.bounded n)
      (fun id c h hn => hn ▸ hs.calls id c h) fun todo h => nomatch idle.symm.trans h
  | restart n position store => exact hs.restart n position store

/-- In a run of distinct steps every call that has returned is right. -/
theorem sound_of_run {store : σ} {events : List (Event ι σ)}
    (run : Transition.Run (Step E) Distinct (.new store) events s) : s.Sound :=
  (run.invariant (fun _ _ _ hs allowed step => Inv.step hs allowed step) (Inv.new store)).sound

end Runs
end MetaStore.Cluster
