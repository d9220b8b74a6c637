import MetaStore.Memory.BatchRefinement

/-! The metadata of the records of the memory engine. Goroutines that draw from the revision counter
in parallel hold numbers that no record has yet, and a number for a key is greater than the revision of
the record that it will replace. -/
namespace MetaStore.Memory
open Interleaving Relation

/-- Records are under their own keys, their revisions and versions fit each other, and no two of them
have one revision. -/
structure Sane (m : ShardedMap) (revision : ℤ) : Prop where
  nonneg : 0 ≤ revision
  keyed : Keyed m
  create : ∀ k kv, m.get k = some kv → 1 ≤ kv.createRevision ∧ kv.createRevision ≤ kv.modRevision
  mod : ∀ k kv, m.get k = some kv → kv.modRevision ≤ revision
  version : ∀ k kv, m.get k = some kv →
    1 ≤ kv.version ∧ kv.version ≤ kv.modRevision-kv.createRevision+1
  distinct : ∀ k k' kv kv', m.get k = some kv → m.get k' = some kv' →
    kv.modRevision = kv'.modRevision → k = k'

/-- The number is no record's revision, and that of the key's record is smaller. -/
structure Fresh (m : ShardedMap) (key : Bytes) (n : ℤ) : Prop where
  pos : 1 ≤ n
  unused : ∀ k kv, m.get k = some kv → kv.modRevision ≠ n
  later : ∀ kv, m.get key = some kv → kv.modRevision < n

namespace Sane
variable {m : ShardedMap} {revision : ℤ}

lemma draw (h : Sane m revision) : Sane m (revision+1) :=
  ⟨by have := h.nonneg; omega,h.keyed,h.create,fun k kv hk => by have := h.mod k kv hk; omega,h.version,
    h.distinct⟩

lemma fresh (h : Sane m revision) (key : Bytes) : Fresh m key (revision+1) where
  pos := by have := h.nonneg; omega
  unused k kv hk := by have := h.mod k kv hk; omega
  later kv hk := by have := h.mod key kv hk; omega

lemma delete (h : Sane m revision) (key : Bytes) : Sane (m.delete key) revision := by
  have hget : ∀ k kv, (m.delete key).get k = some kv → m.get k = some kv := by
    intro k kv hk
    rw [ShardedMap.get_delete] at hk
    split_ifs at hk
    exact hk
  exact ⟨h.nonneg,h.keyed.delete key,fun k kv hk => h.create k kv (hget k kv hk),
    fun k kv hk => h.mod k kv (hget k kv hk),fun k kv hk => h.version k kv (hget k kv hk),
    fun k k' kv kv' hk hk' => h.distinct k k' kv kv' (hget k kv hk) (hget k' kv' hk')⟩

lemma set (h : Sane m revision) {key : Bytes} {n : ℤ} (hn : Fresh m key n) (hle : n ≤ revision)
    (value : Bytes) (leaseID : ℤ) :
    Sane (m.set key (putRecord (m.get key) n key value leaseID)) revision := by
  -- what holds of the new record and of the old ones holds of all
  have hall : ∀ R : Bytes → KeyValue → Prop, R key (putRecord (m.get key) n key value leaseID) →
      (∀ k kv, m.get k = some kv → R k kv) →
      ∀ k kv, (m.set key (putRecord (m.get key) n key value leaseID)).get k = some kv → R k kv := by
    intro R hnew hold k kv hk
    rw [ShardedMap.get_set] at hk
    split_ifs at hk with heq
    · rw [heq,← Option.some.inj hk]
      exact hnew
    · exact hold k kv hk
  have hpos := hn.pos
  refine ⟨h.nonneg,h.keyed.set rfl,hall _ ?_ h.create,hall _ hle h.mod,hall _ ?_ h.version,?_⟩
  · cases hget : m.get key with
    | none => exact ⟨hpos,le_refl n⟩
    | some kv =>
      have hcreate := h.create key kv hget
      exact ⟨hcreate.1,hcreate.2.trans (hn.later kv hget).le⟩
  · cases hget : m.get key with
    | none => simp [putRecord]
    | some kv =>
      have hversion := h.version key kv hget
      have hlater := hn.later kv hget
      simp only [putRecord]
      omega
  · have hother : ∀ k kv, (m.set key (putRecord (m.get key) n key value leaseID)).get k = some kv →
        k = key ∧ kv.modRevision = n ∨ m.get k = some kv ∧ kv.modRevision ≠ n :=
      hall _ (.inl ⟨rfl,rfl⟩) fun k kv hk => .inr ⟨hk,hn.unused k kv hk⟩
    intro k k' kv kv' hk hk' heq
    rcases hother k kv hk with ⟨hkey,hmod⟩ | ⟨hk,hmod⟩
    · rcases hother k' kv' hk' with ⟨hkey',-⟩ | ⟨-,hmod'⟩
      · rw [hkey,hkey']
      · exact absurd (heq.symm.trans hmod) hmod'
    · rcases hother k' kv' hk' with ⟨-,hmod'⟩ | ⟨hk',-⟩
      · exact absurd (heq.trans hmod') hmod
      · exact h.distinct k k' kv kv' hk hk' heq

end Sane

lemma Fresh.set {m : ShardedMap} {key key' : Bytes} {n n' : ℤ} (h : Fresh m key' n')
    (hkey : key' ≠ key) (hne : n ≠ n') (value : Bytes) (leaseID : ℤ) :
    Fresh (m.set key (putRecord (m.get key) n key value leaseID)) key' n' := by
  refine ⟨h.pos,fun k kv hk => ?_,fun kv hk => ?_⟩
  · rw [ShardedMap.get_set] at hk
    split_ifs at hk
    · rwa [← Option.some.inj hk]
    · exact h.unused k kv hk
  · rw [ShardedMap.get_set,if_neg hkey] at hk
    exact h.later kv hk

/-- Goroutines have work of their own shards, all but its first step is still to begin, and the
numbers that they hold are fresh and different. -/
structure Drawn (c : Config (Fin numShards) MemoryEtcd PutStep) : Prop where
  sane : Sane c.shared.kvData c.shared.revision
  owned : c.Owned PutStep.shard
  tail : ∀ i, ∀ a ∈ (c.threads i).tail, ∃ op, a = .draw op
  held : ∀ i op n, .store op n ∈ c.threads i →
    Fresh c.shared.kvData op.key n ∧ n ≤ c.shared.revision
  alone : ∀ i j op op' n, .store op n ∈ c.threads i → .store op' n ∈ c.threads j → i = j

lemma PutStep.store_mem_exec {a : PutStep} {s : MemoryEtcd} {op : RaftOperation} {n : ℤ} :
    .store op n ∈ (exec a s).2 ↔ a = .draw op ∧ n = s.revision+1 := by
  cases a <;> simp [exec,eq_comm]

namespace Drawn
variable {c d : Config (Fin numShards) MemoryEtcd PutStep}

lemma start {s : MemoryEtcd} (hs : Sane s.kvData s.revision) (ops : List RaftOperation) :
    Drawn ⟨s,split PutStep.shard (ops.map PutStep.draw)⟩ := by
  have hdraw : ∀ i, ∀ a ∈ split PutStep.shard (ops.map PutStep.draw) i, ∃ op, a = .draw op := by
    intro i a ha
    obtain ⟨op,-,rfl⟩ := List.mem_map.mp (List.mem_filter.mp ha).1
    exact ⟨op,rfl⟩
  have hstore : ∀ i op n, .store op n ∉ split PutStep.shard (ops.map PutStep.draw) i := by
    intro i op n h
    obtain ⟨op',h'⟩ := hdraw i _ h
    cases h'
  exact ⟨hs,owned_split _ s _,fun i a ha => hdraw i a (List.mem_of_mem_tail ha),
    fun i op n h => absurd h (hstore i op n),fun i _ op _ n h => absurd h (hstore i op n)⟩

lemma step (h : Drawn c)
    (hstep : Step PutStep.exec c d) : Drawn d := by
  have howned := hstep.owned (fun _ _ _ h => PutStep.shard_of_mem_exec h) h.owned
  obtain ⟨i,a,rest,hi⟩ := hstep
  have hrest : ∀ b ∈ rest, ∃ op, b = .draw op := fun b hb => h.tail i b (by rwa [hi])
  -- a number that is held now was held before, or has just been drawn
  have hheld : ∀ j op n, .store op n ∈ Function.update c.threads i
      ((PutStep.exec a c.shared).2 ++ rest) j →
      (j = i ∧ a = .draw op ∧ n = c.shared.revision+1) ∨ (j ≠ i ∧ .store op n ∈ c.threads j) := by
    intro j op n hmem
    by_cases hj : j = i
    · subst hj
      rw [Function.update_self,List.mem_append,PutStep.store_mem_exec] at hmem
      rcases hmem with hmem | hmem
      · exact .inl ⟨rfl,hmem⟩
      · obtain ⟨op',hop'⟩ := hrest _ hmem
        cases hop'
    · rw [Function.update_of_ne hj] at hmem
      exact .inr ⟨hj,hmem⟩
  have htail : ∀ j, ∀ b ∈ (Function.update c.threads i
      ((PutStep.exec a c.shared).2 ++ rest) j).tail, ∃ op, b = .draw op := by
    intro j b hb
    by_cases hj : j = i
    · subst hj
      rw [Function.update_self] at hb
      refine hrest b ?_
      cases a with
      | link op => exact List.mem_of_mem_tail hb
      | _ => exact hb
    · rw [Function.update_of_ne hj] at hb
      exact h.tail j b hb
  cases a with
  | draw op =>
    refine ⟨h.sane.draw,howned,htail,fun j op' n hn => ?_,fun j k op' op'' n hn hn' => ?_⟩
    · rcases hheld j op' n hn with ⟨-,-,rfl⟩ | ⟨-,hmem⟩
      · exact ⟨h.sane.fresh op'.key,le_refl _⟩
      · exact ⟨(h.held j op' n hmem).1,(h.held j op' n hmem).2.trans (Int.le_add_one le_rfl)⟩
    · -- the number drawn is above those held
      rcases hheld j op' n hn with ⟨rfl,-,hnew⟩ | ⟨-,hmem⟩
      · rcases hheld k op'' n hn' with ⟨rfl,-⟩ | ⟨-,hmem'⟩
        · rfl
        · have := (h.held k op'' n hmem').2
          omega
      · rcases hheld k op'' n hn' with ⟨rfl,-,hnew⟩ | ⟨-,hmem'⟩
        · have := (h.held j op' n hmem).2
          omega
        · exact h.alone j k op' op'' n hmem hmem'
  | store op n =>
    have hmem : .store op n ∈ c.threads i := hi ▸ List.mem_cons_self
    have hown := h.held i op n hmem
    have hother : ∀ j op' n', _ → j ≠ i ∧ .store op' n' ∈ c.threads j := fun j op' n' hn' =>
      (hheld j op' n' hn').resolve_left fun hdraw => by cases hdraw.2.1
    refine ⟨h.sane.set hown.1 hown.2 _ _,howned,htail,fun j op' n' hn' => ?_,
      fun j k op' op'' n' hn' hn'' =>
        h.alone j k op' op'' n' (hother j op' n' hn').2 (hother k op'' n' hn'').2⟩
    obtain ⟨hj,hmem'⟩ := hother j op' n' hn'
    have hkey : op'.key ≠ op.key := by
      intro heq
      have hshard : getShard op'.key = j := h.owned j _ hmem'
      rw [heq,show getShard op.key = i from h.owned i _ hmem] at hshard
      exact hj hshard.symm
    have hne : n ≠ n' := fun heq => hj (h.alone j i op' op n' hmem' (heq ▸ hmem))
    obtain ⟨hfresh,hle⟩ := h.held j op' n' hmem'
    exact ⟨hfresh.set hkey hne _ _,hle⟩
  | link op =>
    have hother : ∀ j op' n', _ → .store op' n' ∈ c.threads j := fun j op' n' hn' =>
      ((hheld j op' n' hn').resolve_left fun hdraw => by cases hdraw.2.1).2
    exact ⟨h.sane,howned,htail,fun j op' n' hn' => h.held j op' n' (hother j op' n' hn'),
      fun j k op' op'' n' hn' hn'' =>
        h.alone j k op' op'' n' (hother j op' n' hn') (hother k op'' n' hn'')⟩

lemma run (h : Drawn c)
    (hrun : ReflTransGen (Step PutStep.exec) c d) : Drawn d := by
  induction hrun with
  | refl => exact h
  | tail _ hstep ih => exact ih.step hstep

end Drawn

theorem Sane.kept (clock : Clock) : Kept clock (fun _ => True) fun s => Sane s.kvData s.revision where
  tick h := h
  draw h := h.draw
  delete key h := h.delete key
  detach _ _ h := h
  put value leaseID _ h := h.draw.set (h.fresh _) (le_refl _) value leaseID
  grant _ _ h := h
  eraseLease _ h := h
  batchApplyPut _ hs h := by
    obtain ⟨d,hrun,-,rfl⟩ := h
    exact ((Drawn.start hs _).run hrun).sane

theorem kept_revision (clock : Clock) (r : ℤ) : Kept clock (fun _ => True) fun s => r ≤ s.revision where
  tick h := h
  draw h := by simp only; omega
  delete _ h := h
  detach _ _ h := h
  put _ _ _ h := by simp only [MemoryEtcd.putDirect]; omega
  grant _ _ h := h
  eraseLease _ h := h
  batchApplyPut _ hs h := by
    refine h.invariant (P := fun s => r ≤ s.revision) (fun a s hs => ?_) hs
    cases a with
    | draw op => simp only [PutStep.exec]; omega
    | _ => exact hs

def Raised (m m' : ShardedMap) (key : Bytes) : Prop :=
  ∀ kv, m.get key = some kv → ∃ kv', m'.get key = some kv' ∧ kv.modRevision < kv'.modRevision

lemma Fresh.raised {m : ShardedMap} {key : Bytes} {n : ℤ} (h : Fresh m key n) (value : Bytes)
    (leaseID : ℤ) : Raised m (m.set key (putRecord (m.get key) n key value leaseID)) key :=
  fun kv hkv => ⟨_,by rw [ShardedMap.get_set,if_pos rfl],h.later kv hkv⟩

/-- What a batch does with revisions, from a given state on: it never lowers the revision of the
store, and the puts of single operations, of transactions and of goroutines raise that of a record. -/
structure Grows (s : MemoryEtcd) : Prop where
  batch : ∀ clock ops w m', ApplyBatch clock ops ⟨s,w⟩ m' → s.revision ≤ m'.etcd.revision
  put : ∀ key value leaseID, Raised s.kvData (s.putDirect key value leaseID).1.kvData key
  txn : ∀ clock ops key value leaseID r,
    let t := (s.txnOps clock ops).1
    (t.putUnlocked clock key value leaseID).2 = .ok r →
      Raised t.kvData (t.putUnlocked clock key value leaseID).1.kvData key
  parallel : ∀ (ops : List RaftOperation) c i op n rest,
    ReflTransGen (Step PutStep.exec) ⟨s,split PutStep.shard (ops.map PutStep.draw)⟩ c →
    c.threads i = .store op n :: rest →
      Raised c.shared.kvData (PutStep.exec (.store op n) c.shared).1.kvData op.key

lemma Sane.putDirect {s : MemoryEtcd} (hs : Sane s.kvData s.revision) (key value : Bytes)
    (leaseID : ℤ) : Raised s.kvData (s.putDirect key value leaseID).1.kvData key :=
  (hs.fresh key).raised value leaseID

lemma Sane.putUnlocked {s : MemoryEtcd} (hs : Sane s.kvData s.revision) {clock : Clock}
    {key value : Bytes} {leaseID : ℤ} {r : ℤ × Option KeyValue}
    (h : (s.putUnlocked clock key value leaseID).2 = .ok r) :
    Raised s.kvData (s.putUnlocked clock key value leaseID).1.kvData key := by
  unfold MemoryEtcd.putUnlocked at h ⊢
  split_ifs at h ⊢
  · split at h
    · cases h
    · split_ifs at h ⊢
      exact hs.putDirect key value leaseID
  · exact hs.putDirect key value leaseID

theorem Sane.grows {s : MemoryEtcd} (hs : Sane s.kvData s.revision) : Grows s where
  batch clock _ w _ h := (kept_revision clock s.revision).applyBatch (m := ⟨s,w⟩) (le_refl _)
    (fun op _ => .of_forall (fun _ => trivial) op) h
  put := hs.putDirect
  txn clock _ _ _ _ _ h :=
    Sane.putUnlocked ((Sane.kept clock).txnOps hs fun _ _ => trivial) h
  parallel ops _ i op n _ hrun hi :=
    (((Drawn.start hs ops).run hrun).held i op n (hi ▸ List.mem_cons_self)).1.raised op.value op.leaseID

end MetaStore.Memory
