import MetaStore.Memory.BatchRefinement

/-! The schedule decides the revisions of neighbouring PUTs in different shards: the
goroutine that draws first gets the smaller revision, whatever the order of the log. -/
namespace MetaStore.Memory
open Std Interleaving

section Race
variable {ops : List RaftOperation} {b : RaftOperation}

theorem revision_foldl_applyPut (ops : List RaftOperation) (s : MemoryEtcd) :
    (ops.foldl MemoryEtcd.applyPut s).revision = s.revision+ops.length := by
  induction ops generalizing s with
  | nil => simp
  | cons op ops ih =>
    rw [List.foldl_cons,ih]
    simp only [MemoryEtcd.applyPut,MemoryEtcd.putDirect,List.length_cons]
    push_cast
    ring

theorem get_foldl_applyPut {k : Bytes} (h : ∀ op ∈ ops, op.key ≠ k)
    (s : MemoryEtcd) : (ops.foldl MemoryEtcd.applyPut s).kvData.get k = s.kvData.get k := by
  induction ops generalizing s with
  | nil => rfl
  | cons op ops ih =>
    rw [List.foldl_cons,ih fun o ho => h o (List.mem_cons_of_mem op ho),MemoryEtcd.applyPut,
      MemoryEtcd.putDirect,ShardedMap.get_set,if_neg (h op List.mem_cons_self).symm]

theorem modRevision_applyPut (s : MemoryEtcd) (op : RaftOperation) :
    ((s.applyPut op).kvData.get op.key).map KeyValue.modRevision = some (s.revision+1) := by
  simp [MemoryEtcd.applyPut,MemoryEtcd.putDirect,putRecord]

theorem batchApplyPut_last_first
    (hb : ∀ op ∈ ops, getShard op.key ≠ getShard b.key) (s : MemoryEtcd) :
    BatchApplyPut (ops ++ [b]) s (ops.foldl MemoryEtcd.applyPut (s.applyPut b)) := by
  have hops : ∀ a ∈ ops.map PutStep.draw, a.shard ≠ getShard b.key := by
    intro a ha
    obtain ⟨op,hop,rfl⟩ := List.mem_map.mp ha
    exact hb op hop
  have hfirst : split PutStep.shard ((ops ++ [b]).map PutStep.draw) (getShard b.key) =
      [PutStep.draw b] := by
    have hnone : (ops.map PutStep.draw).filter (fun a => a.shard = getShard b.key) = [] :=
      List.filter_eq_nil_iff.mpr fun a ha => by simpa using hops a ha
    rw [split,List.map_append,List.filter_append,hnone]
    simp [PutStep.shard,PutStep.key]
  have hrest : Function.update (split PutStep.shard ((ops ++ [b]).map PutStep.draw))
      (getShard b.key) [] = split PutStep.shard (ops.map PutStep.draw) := by
    funext i
    by_cases hi : i = getShard b.key
    · subst hi
      rw [Function.update_self]
      exact (List.filter_eq_nil_iff.mpr fun a ha => by simpa using hops a ha).symm
    · rw [Function.update_of_ne hi]
      simp [split,PutStep.shard,PutStep.key,Ne.symm hi]
  refine Ends.thread_first (i := getShard b.key) (t := s.applyPut b) ?_ ?_
  · dsimp only
    rw [hfirst]
    exact PutStep.runs_draw b s
  · dsimp only
    rw [hrest]
    exact ends_of_runs (fun _ _ _ h => PutStep.shard_of_mem_exec h)
      (Runs.foldl PutStep.runs_draw ops (s.applyPut b))

theorem kvData_last_first_ne (hne : ops ≠ [])
    (hb : ∀ op ∈ ops, getShard op.key ≠ getShard b.key) (s : MemoryEtcd) :
    (ops.foldl MemoryEtcd.applyPut (s.applyPut b)).kvData ≠
      ((ops ++ [b]).foldl MemoryEtcd.applyPut s).kvData := by
  intro heq
  have hkey : ∀ op ∈ ops, op.key ≠ b.key := fun op hop h => hb op hop (by rw [h])
  have hrev := congrArg (fun m => (m.get b.key).map KeyValue.modRevision) heq
  simp only [get_foldl_applyPut hkey,modRevision_applyPut,List.foldl_append,List.foldl_cons,
    List.foldl_nil,revision_foldl_applyPut,Option.some.injEq] at hrev
  have hlen := List.length_pos_of_ne_nil hne
  omega

theorem batchLoop_race {clock : Clock} {currentType : RaftOpType} {batch : List RaftOperation}
    {a : RaftOperation} (htype : ∀ op ∈ batch, op.type = currentType)
    (hchain : (batch ++ ops).IsChain PutsTogether) (hlast : a ∈ (batch ++ ops).getLast?)
    (hab : ¬ PutsTogether a b) {m : Memory} (hm : Keyed m.etcd.kvData) :
    ∃ m', BatchLoop clock currentType batch (ops ++ [b]) m m' ∧
      m'.etcd.kvData ≠ ((batch ++ ops ++ [b]).foldl (applyEffect clock) m).etcd.kvData := by
  induction ops generalizing currentType batch m with
  | nil =>
    simp only [PutsTogether,Classical.not_imp] at hab
    obtain ⟨ha,hb,hshard⟩ := hab
    rw [List.append_nil] at hchain hlast ⊢
    have hmem := List.mem_of_mem_getLast? hlast
    have hput : ∀ op ∈ batch, op.type = .put := fun op hop => by
      rw [htype op hop,← htype a hmem,ha]
    obtain ⟨i,hi⟩ := exists_shard_of_isChain hchain hput
    have hother : ∀ op ∈ batch, getShard op.key ≠ getShard b.key := fun op hop => by
      rwa [hi op hop,← hi a hmem]
    refine ⟨⟨batch.foldl MemoryEtcd.applyPut (m.etcd.applyPut b),m.waiters⟩,?_,?_⟩
    · have htype' : currentType = b.type := by rw [← htype a hmem,ha,hb]
      rw [List.nil_append,BatchLoop,if_neg fun h => h.1 htype',BatchLoop,hb]
      unfold FlushBatch
      rw [if_neg (by simp)]
      exact ⟨batchApplyPut_last_first hother m.etcd,rfl⟩
    · have hput' : ∀ op ∈ batch ++ [b], op.type = .put := by
        simpa [or_imp,forall_and,hb] using hput
      rw [foldl_applyEffect_put hput']
      exact kvData_last_first_ne (List.ne_nil_of_mem hmem) hother m.etcd
  | cons op ops ih =>
    simp only [List.cons_append,BatchLoop]
    split_ifs with hflush
    · -- the finished batch has one outcome, and the race comes later
      have hbatch := List.isChain_append.mp hchain
      have hop : ∀ o ∈ [op], o.type = op.type := by simp
      obtain ⟨m',hloop,hne⟩ := ih hop hbatch.2.1 (by simpa using hlast)
        (keyed_foldl_applyEffect hm clock batch)
      refine ⟨m',⟨_,(flushBatch_iff htype hbatch.1 hm).mpr rfl,hloop⟩,?_⟩
      simpa only [List.foldl_append,List.foldl_cons,List.foldl_nil] using hne
    · obtain ⟨m',hloop,hne⟩ := ih (type_of_not_flush htype hflush) (by simpa using hchain)
        (by simpa using hlast) hm
      exact ⟨m',hloop,by simpa using hne⟩

end Race

theorem exists_first_break {α : Type*} {R : α → α → Prop} {l : List α} (h : ¬ l.IsChain R) :
    ∃ p b, p ++ [b] <+: l ∧ p.IsChain R ∧ ∃ a ∈ p.getLast?, ¬ R a b := by
  induction l using List.reverseRecOn with
  | nil => exact absurd List.isChain_nil h
  | append_singleton l b ih =>
    by_cases hl : l.IsChain R
    · refine ⟨l,b,List.prefix_rfl,hl,?_⟩
      by_contra hno
      push Not at hno
      exact h (List.isChain_append.mpr ⟨hl,List.isChain_singleton b,by simpa using hno⟩)
    · obtain ⟨p,b',hp,hrest⟩ := ih hl
      exact ⟨p,b',hp.trans (List.prefix_append l [b]),hrest⟩

/-- Batching a log, cut anywhere, gives the data of the operations applied one by one exactly
when PUTs that stand next to each other go to the same shard. -/
theorem applyBatch_sameData_iff {s : MemoryEtcd} (hs : Reachable s) (clock : Clock) (w : Waiters)
    (ops : List RaftOperation) :
    (∀ p, p <+: ops → (∃ m', ApplyBatch clock p ⟨s,w⟩ m') ∧
      ∀ m', ApplyBatch clock p ⟨s,w⟩ m' →
        SameData m'.etcd (p.foldl (applyOperation clock) ⟨s,w⟩).etcd) ↔
    ops.IsChain PutsTogether := by
  constructor
  · intro h
    by_contra hbroken
    obtain ⟨p,b,hp,hchain,a,hlast,hab⟩ := exists_first_break hbroken
    have hm : Keyed (⟨s,w⟩ : Memory).etcd.kvData := hs.keyed
    have hnil : ∀ op ∈ ([] : List RaftOperation), op.type = .other [] := by simp
    obtain ⟨m',hloop,hne⟩ := batchLoop_race hnil hchain hlast hab hm
    have hbatch : ApplyBatch clock (p ++ [b]) ⟨s,w⟩ ((p ++ [b]).foldl notify m') := by
      unfold ApplyBatch
      split
      · next heq => simp at heq
      · next heq =>
        -- a single operation has no neighbour
        have hp : p = [] := by simpa using congrArg List.length heq
        simp [hp] at hlast
      · exact ⟨m',hloop,rfl⟩
    have hsame := ((h (p ++ [b]) hp).2 _ hbatch).1
    rw [etcd_foldl_notify,← foldl_notify_foldl_applyEffect,etcd_foldl_notify] at hsame
    exact hne hsame
  · rintro hchain p ⟨rest,rfl⟩
    have hiff : ∀ m', ApplyBatch clock p ⟨s,w⟩ m' ↔ m' = p.foldl (applyOperation clock) ⟨s,w⟩ :=
      fun m' => applyBatch_eq_foldl hchain.left_of_append hs.keyed
    refine ⟨⟨_,(hiff _).mpr rfl⟩,fun m' hm' => ?_⟩
    rw [(hiff m').mp hm']
    exact ⟨rfl,rfl,fun _ => rfl⟩

/-- Two writes of one key, a deletion, and a write of another key. -/
theorem applyBatch_sameData_deletion_between :
    let ops : List RaftOperation := [{ type := .put, key := ascii "a", value := ascii "1" },
      { type := .put, key := ascii "a", value := ascii "2" },
      { type := .delete, key := ascii "b" },
      { type := .put, key := ascii "b", value := ascii "3" }]
    (∃ m', ApplyBatch (fun _ => 0) ops ⟨.empty,.empty⟩ m') ∧
    ∀ m', ApplyBatch (fun _ => 0) ops ⟨.empty,.empty⟩ m' →
      SameData m'.etcd (ops.foldl (applyOperation fun _ => 0) ⟨.empty,.empty⟩).etcd :=
  (applyBatch_sameData_iff .new (fun _ => 0) .empty _).mpr (by decide) _ (List.prefix_refl _)

/-- Two PUTs of different shards in a new store: one schedule gives the first one of the log
the later revision. -/
theorem applyBatch_two_puts_reordered :
    let a : RaftOperation := { type := .put, key := ascii "a", value := ascii "1" }
    let b : RaftOperation := { type := .put, key := ascii "b", value := ascii "2" }
    let modRevision (m : Memory) := (m.etcd.kvData.get (ascii "a")).map KeyValue.modRevision
    let seq := [a,b].foldl (applyOperation fun _ => 0) ⟨.empty,.empty⟩
    Reachable .empty ∧ modRevision seq = some 1 ∧
    ∃ m', ApplyBatch (fun _ => 0) [a,b] ⟨.empty,.empty⟩ m' ∧ modRevision m' = some 2 ∧
      ¬ SameData m'.etcd seq.etcd := by
  intro a b modRevision seq
  have hother : ∀ op ∈ [a], getShard op.key ≠ getShard b.key := by decide
  have hseq : modRevision seq = some 1 := by decide
  let m' : Memory := ⟨(MemoryEtcd.empty.applyPut b).applyPut a,.empty⟩
  have hm' : modRevision m' = some 2 := by decide
  refine ⟨.new,hseq,m',⟨m',⟨batchApplyPut_last_first hother .empty,rfl⟩,rfl⟩,hm',fun h => ?_⟩
  have hmod := congrArg (fun kvData => (kvData.get (ascii "a")).map KeyValue.modRevision) h.1
  exact absurd (hm'.symm.trans (hmod.trans hseq)) (by decide)

end MetaStore.Memory
