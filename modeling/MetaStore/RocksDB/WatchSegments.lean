import MetaStore.RocksDB.Watch

/-! The segments of a list of operations have revisions of their own, apart from the keys of one
range deletion. No event of a segment can be taken for the report of another segment's change. -/
namespace MetaStore.RocksDB
open Std WriteBatch ChangeLog

section Revisions
variable (env : Env) (r : Records)

structure Segment.Within (lo hi : ℤ) (g : Segment) : Prop where
  events : ∀ e ∈ g.events, lo < e.revision ∧ e.revision ≤ hi
  writes : ∀ w ∈ g.writes, ∀ n, w.revision = some n → lo < n ∧ n ≤ hi

lemma Segment.Within.mono {lo hi lo' hi' : ℤ} {g : Segment} (h : g.Within lo hi) (hlo : lo' ≤ lo)
    (hhi : hi ≤ hi') : g.Within lo' hi' where
  events e he := ⟨hlo.trans_lt (h.events e he).1,(h.events e he).2.trans hhi⟩
  writes w hw n hn := ⟨hlo.trans_lt (h.writes w hw n hn).1,(h.writes w hw n hn).2.trans hhi⟩

lemma within_empty (lo hi : ℤ) : Segment.Within lo hi ⟨[],[]⟩ :=
  ⟨fun _ h => absurd h List.not_mem_nil,fun _ h => absurd h List.not_mem_nil⟩

lemma within_of_new {g : Segment} (hevents : ∀ e ∈ g.events, e.revision = r.cachedRevision+1)
    (hwrites : ∀ w ∈ g.writes, w.revision = some (r.cachedRevision+1) ∨ w.revision = none) :
    g.Within r.cachedRevision (r.cachedRevision+1) where
  events e he := by
    rw [hevents e he]
    omega
  writes w hw n hn := by
    rcases hwrites w hw with h|h
    · rw [hn] at h
      have := Option.some.inj h
      omega
    · rw [hn] at h
      cases h

lemma within_txnSegment (op : Op) :
    (txnSegment env r op).Within r.cachedRevision (txnOp env r op).1.cachedRevision ∧
      r.cachedRevision ≤ (txnOp env r op).1.cachedRevision := by
  unfold txnSegment txnOp
  cases op.type with
  | range => exact ⟨within_empty _ _,le_rfl⟩
  | txn => exact ⟨within_empty _ _,le_rfl⟩
  | put =>
    dsimp only
    rw [cachedRevision_putUnlocked]
    refine ⟨?_,by omega⟩
    split_ifs
    · exact within_empty _ _
    · exact within_of_new r (by simp [putEvent]) (by simp)
  | delete =>
    dsimp only
    rw [cachedRevision_deleteUnlocked]
    refine ⟨?_,by omega⟩
    split_ifs
    · exact within_of_new r (by simp [deleteEvent]) (by simp)
    · exact within_of_new r (by simp) (by simp)

lemma within_txnSegments (ops : List Op) :
    r.cachedRevision ≤ (txnOps env r ops).1.cachedRevision ∧ ∀ g ∈ txnSegments env r ops,
      g.Within r.cachedRevision (txnOps env r ops).1.cachedRevision := by
  induction ops generalizing r with
  | nil => exact ⟨le_rfl,fun _ h => absurd h List.not_mem_nil⟩
  | cons op ops ih =>
    obtain ⟨hwithin,hle⟩ := within_txnSegment env r op
    rw [txnOps,txnSegments]
    dsimp only
    cases (txnOp env r op).2 with
    | error err => exact ⟨hle,fun g hg => List.mem_singleton.mp hg ▸ hwithin⟩
    | ok response =>
      obtain ⟨hle',hrest⟩ := ih (txnOp env r op).1
      refine ⟨hle.trans hle',fun g hg => ?_⟩
      rcases List.mem_cons.mp hg with rfl|hg
      · exact hwithin.mono le_rfl hle'
      · exact (hrest g hg).mono hle le_rfl

lemma within_prepared (op : RaftOperation) :
    r.cachedRevision ≤ (prepared env r op).cachedRevision ∧
      ∀ g ∈ sentSegments env r op ++ preparedSegments env r op,
        g.Within r.cachedRevision (prepared env r op).cachedRevision := by
  unfold sentSegments preparedSegments prepared prepareRecords
  cases op.type with
  | put =>
    have hrev : (preparePutBatch env r [] op.key op.value op.leaseID).1.cachedRevision =
        r.cachedRevision+1 := by
      unfold preparePutBatch
      dsimp only
      split <;> rfl
    dsimp only
    rw [hrev]
    refine ⟨by omega,fun g hg => ?_⟩
    rw [List.nil_append,List.mem_singleton] at hg
    rw [hg]
    refine within_of_new r (fun e he => ?_) (by simp)
    dsimp only at he
    split_ifs at he
    · exact absurd he List.not_mem_nil
    · rw [List.mem_singleton.mp he]
      rfl
  | delete =>
    have hrev : (prepareDeleteBatch r [] op.key op.rangeEnd).1.cachedRevision =
        r.cachedRevision+1 := by
      unfold prepareDeleteBatch
      dsimp only
      split_ifs <;> rfl
    dsimp only
    rw [hrev]
    refine ⟨by omega,fun g hg => ?_⟩
    obtain ⟨key,-,rfl⟩ := List.mem_map.mp hg
    exact within_of_new r (by simp [deleteEvent]) (by simp)
  | leaseGrant => exact ⟨le_rfl,fun _ h => absurd h List.not_mem_nil⟩
  | leaseRevoke =>
    dsimp only [prepareLeaseRevokeBatch]
    cases getLease r.db op.leaseID with
    | error err => exact ⟨le_rfl,fun _ h => absurd h List.not_mem_nil⟩
    | ok lease =>
      cases lease with
      | none => exact ⟨le_rfl,fun _ h => absurd h List.not_mem_nil⟩
      | some l =>
        refine ⟨le_rfl,fun g hg => ?_⟩
        rw [List.nil_append,List.mem_singleton] at hg
        rw [hg]
        exact ⟨fun _ h => absurd h List.not_mem_nil,by simp⟩
  | txn =>
    obtain ⟨hle,hwithin⟩ := within_txnSegments env r
      (if compares r.db op.compares then op.thenOps else op.elseOps)
    exact ⟨hle,by rw [List.append_nil]; exact hwithin⟩
  | other name => exact ⟨le_rfl,fun _ h => absurd h List.not_mem_nil⟩

lemma within_segments (ops : List RaftOperation) :
    ∀ g ∈ sent env r ops ++ queued env r ops, ∃ hi, g.Within r.cachedRevision hi := by
  induction ops generalizing r with
  | nil => exact fun _ h => absurd h List.not_mem_nil
  | cons op ops ih =>
    obtain ⟨hle,hwithin⟩ := within_prepared env r op
    intro g hg
    have hparts : g ∈ sentSegments env r op ++ preparedSegments env r op ∨
        g ∈ sent env (prepared env r op) ops ++ queued env (prepared env r op) ops := by
      simp only [sent,queued,List.mem_append] at hg ⊢
      tauto
    rcases hparts with hg|hg
    · exact ⟨_,hwithin g hg⟩
    · obtain ⟨hi,hrest⟩ := ih _ g hg
      exact ⟨hi,hrest.mono hle le_rfl⟩

end Revisions

def Keyed (db : Database) : Prop := ∀ k kv, getKeyValue db k = some kv → kv.key = k

section Keys
variable (env : Env) (r : Records)

lemma keyed_replay {view : Bytes → Option KeyValue} {log : List RecordWrite}
    (hview : ∀ k kv, view k = some kv → kv.key = k)
    (hlog : ∀ w ∈ log, ∀ kv, w.value = some kv → kv.key = w.key) :
    ∀ k kv, replay view log k = some kv → kv.key = k := by
  induction log generalizing view with
  | nil => exact hview
  | cons w log ih =>
    refine ih (fun k kv h => ?_) fun w' hw' => hlog w' (List.mem_cons_of_mem _ hw')
    rw [Write.apply,Function.update_apply] at h
    split_ifs at h with hk
    · exact (hlog w List.mem_cons_self kv h).trans hk.symm
    · exact hview k kv h

lemma keyed_txnSegment (op : Op) :
    ∀ w ∈ (txnSegment env r op).writes, ∀ kv, w.value = some kv → kv.key = w.key := by
  unfold txnSegment
  cases op.type with
  | range => simp
  | txn => simp
  | put =>
    dsimp only
    split_ifs
    · simp
    · rintro w hw kv hkv
      obtain rfl := List.mem_singleton.mp hw
      rw [← Option.some.inj hkv]
      rfl
  | delete =>
    dsimp only
    split_ifs <;> simp

variable {r} in
lemma Keyed.txnOp (h : Keyed r.db) (op : Op) : Keyed (txnOp env r op).1.db := by
  intro k kv hkv
  rw [getKeyValue_txnOp] at hkv
  exact keyed_replay h (keyed_txnSegment env r op) k kv hkv

variable {r} in
lemma Keyed.txnOps (h : Keyed r.db) (ops : List Op) : Keyed (txnOps env r ops).1.db := by
  induction ops generalizing r with
  | nil => exact h
  | cons op ops ih =>
    rw [RocksDB.txnOps]
    dsimp only
    cases (RocksDB.txnOp env r op).2 with
    | error err => exact h.txnOp env op
    | ok response => exact ih (h.txnOp env op)

variable {r} in
lemma Keyed.prepared (h : Keyed r.db) (op : RaftOperation) : Keyed (prepared env r op).db := by
  by_cases htxn : op.type = .txn
  · have heq : RocksDB.prepared env r op = (RocksDB.txnOps env r
        (if compares r.db op.compares then op.thenOps else op.elseOps)).1 := by
      unfold RocksDB.prepared prepareRecords
      rw [htxn]
      rfl
    rw [heq]
    exact h.txnOps env _
  · have hsent : sentSegments env r op = [] := by
      unfold sentSegments
      split
      · contradiction
      · rfl
    obtain ⟨-,-,-,hview⟩ := prepareRecords_logs env r [] op
    intro k kv hkv
    rw [hview,hsent] at hkv
    exact h k kv hkv

lemma mem_toDelete {key rangeEnd k : Bytes} :
    k ∈ toDelete (incrementRevision r).db key rangeEnd ↔ k ∈ toDelete r.db key rangeEnd := by
  have hmem : ∀ x, x ∈ scanBelow (incrementRevision r).db key rangeEnd ↔
      x ∈ scanBelow r.db key rangeEnd := by
    intro x
    rw [mem_scanBelow,mem_scanBelow]
    refine and_congr_left ?_
    rintro ⟨k,rfl,-⟩
    simp only [← ExtTreeMap.isSome_getElem?_iff_mem,
      getElem?_incrementRevision_of_ne (kvKey_ne_revisionKey k)]
  unfold toDelete
  split_ifs
  · rfl
  · simp only [List.mem_map,hmem]

lemma nodup_toDelete (db : Database) (key rangeEnd : Bytes) : (toDelete db key rangeEnd).Nodup := by
  unfold toDelete
  split_ifs
  · exact List.nodup_singleton key
  · refine List.Nodup.map_on (fun x hx y hy hxy => ?_) (db.nodup_keys.filter _)
    obtain ⟨-,k,rfl,-⟩ := mem_scanBelow.mp hx
    obtain ⟨-,k',rfl,-⟩ := mem_scanBelow.mp hy
    rw [drop_kvKey,drop_kvKey] at hxy
    rw [hxy]

end Keys

section Separation
variable (sub : WatchSubscription) (env : Env) (r : Records)

abbrev SegmentsApart : Segment → Segment → Prop :=
  Apart Segment.writes (Reports sub) (Segment.received sub)

variable {sub}

lemma Segment.revision_of_mem_received {g : Segment} {e : WatchEvent} (h : e ∈ g.received sub) :
    ∃ e' ∈ g.events, e.revision = e'.revision := by
  obtain ⟨e',he',hmem⟩ := List.mem_flatMap.mp h
  exact ⟨e',he',WatchSubscription.mem_notifyWatches hmem⟩

lemma Segment.Within.apart {lo mid mid' hi : ℤ} {g g' : Segment} (h : g.Within lo mid)
    (h' : g'.Within mid' hi) (hle : mid ≤ mid') : SegmentsApart sub g g' := by
  constructor
  · intro e he c hc hreports
    obtain ⟨e',he',hrev⟩ := Segment.revision_of_mem_received he
    have hevent := (h.events e' he').2
    have hwrite := (h'.writes _ hc _ hreports.revision).1
    omega
  · intro e he c hc hreports
    obtain ⟨e',he',hrev⟩ := Segment.revision_of_mem_received he
    have hevent := (h'.events e' he').1
    have hwrite := (h.writes _ hc _ hreports.revision).2
    omega

lemma apart_txnSegments (ops : List Op) :
    (txnSegments env r ops).Pairwise (SegmentsApart sub) := by
  induction ops generalizing r with
  | nil => exact .nil
  | cons op ops ih =>
    obtain ⟨hwithin,-⟩ := within_txnSegment env r op
    rw [txnSegments]
    cases (txnOp env r op).2 with
    | error err => exact List.pairwise_singleton _ _
    | ok response =>
      refine List.pairwise_cons.mpr ⟨fun g hg => ?_,ih _⟩
      exact hwithin.apart ((within_txnSegments env _ ops).2 g hg) le_rfl

def deleteSegment (prev : Option KeyValue) (key : Bytes) (n : ℤ) : Segment :=
  ⟨prev.toList.map (deleteEvent · n),[⟨key,none,some n⟩]⟩

/-- Deletions of two keys under one revision are told apart by their keys. -/
lemma apart_deleteSegment {prev prev' : Option KeyValue} {key key' : Bytes} {n : ℤ}
    (hprev : ∀ kv, prev = some kv → kv.key = key) (hprev' : ∀ kv, prev' = some kv → kv.key = key')
    (hne : key ≠ key') :
    SegmentsApart sub (deleteSegment prev key n) (deleteSegment prev' key' n) := by
  have hall : ∀ {prev : Option KeyValue} {key key' : Bytes},
      (∀ kv, prev = some kv → kv.key = key) → key ≠ key' →
      ∀ e ∈ (deleteSegment prev key n).received sub, ∀ c : RecordChange,
        c.toWrite ∈ (deleteSegment prev' key' n).writes → ¬ Reports sub e c := by
    intro prev key key' hprev hne e he c hc hreports
    obtain ⟨e',he',hmem⟩ := List.mem_flatMap.mp he
    obtain ⟨kv,hkv,rfl⟩ := List.mem_map.mp he'
    have hc' := List.mem_singleton.mp hc
    have hkey : c.key = key' := congrArg Write.key hc'
    obtain ⟨kv',hkv',hkey',-⟩ := hreports.delete (congrArg Write.value hc')
    have hkvkey : kv'.key = kv.key := by
      unfold WatchSubscription.notifyWatches at hmem
      split_ifs at hmem
      · rw [List.mem_singleton.mp hmem] at hkv'
        rw [← Option.some.inj hkv']
      · rw [List.mem_singleton.mp hmem] at hkv'
        rw [← Option.some.inj hkv']
      · exact absurd hmem List.not_mem_nil
    exact hne ((hprev kv (Option.mem_toList.mp hkv)).symm.trans
      (hkvkey.symm.trans (hkey'.trans hkey)))
  exact ⟨hall hprev hne,hall hprev' hne.symm⟩

variable {r} in
lemma apart_preparedSegments (hkeyed : Keyed r.db) (op : RaftOperation) :
    (preparedSegments env r op).Pairwise (SegmentsApart sub) := by
  unfold preparedSegments
  cases op.type with
  | put => exact List.pairwise_singleton _ _
  | delete =>
    refine List.pairwise_map.mpr ((nodup_toDelete _ _ _).imp fun hne => ?_)
    exact apart_deleteSegment (hkeyed _) (hkeyed _) hne
  | leaseRevoke =>
    dsimp only
    split
    · exact List.pairwise_singleton _ _
    · exact .nil
  | leaseGrant => exact .nil
  | txn => exact .nil
  | other name => exact .nil

lemma apart_sentSegments (op : RaftOperation) :
    (sentSegments env r op).Pairwise (SegmentsApart sub) := by
  unfold sentSegments
  split
  · exact apart_txnSegments env r _
  · exact .nil

variable {r} in
theorem apart_segments (hkeyed : Keyed r.db) (ops : List RaftOperation) :
    (sent env r ops ++ queued env r ops).Pairwise (SegmentsApart sub) := by
  induction ops generalizing r with
  | nil => exact .nil
  | cons op ops ih =>
    have hrest := List.pairwise_append.mp (ih (hkeyed.prepared env op))
    obtain ⟨-,hwithin⟩ := within_prepared env r op
    -- all that comes later is apart from the segments of the operation
    have hlater : ∀ g ∈ sentSegments env r op ++ preparedSegments env r op,
        ∀ g' ∈ sent env (prepared env r op) ops ++ queued env (prepared env r op) ops,
        SegmentsApart sub g g' := by
      intro g hg g' hg'
      obtain ⟨hi,hafter⟩ := within_segments env (prepared env r op) ops g' hg'
      exact (hwithin g hg).apart hafter le_rfl
    have hown : ∀ g ∈ sentSegments env r op, ∀ g' ∈ preparedSegments env r op,
        SegmentsApart sub g g' := by
      intro g hg g' hg'
      unfold sentSegments at hg
      split at hg
      · rename_i htxn
        rw [preparedSegments,htxn] at hg'
        exact absurd hg' List.not_mem_nil
      · exact absurd hg List.not_mem_nil
    rw [sent,queued,List.pairwise_append,List.pairwise_append,List.pairwise_append]
    refine ⟨⟨apart_sentSegments env r op,hrest.1,fun g hg g' hg' => ?_⟩,
      ⟨apart_preparedSegments env hkeyed op,hrest.2.1,fun g hg g' hg' => ?_⟩,fun g hg g' hg' => ?_⟩
    · exact hlater g (List.mem_append_left _ hg) g' (List.mem_append_left _ hg')
    · exact hlater g (List.mem_append_right _ hg) g' (List.mem_append_right _ hg')
    · rcases List.mem_append.mp hg with hg|hg <;> rcases List.mem_append.mp hg' with hg'|hg'
      · exact hown g hg g' hg'
      · exact hlater g (List.mem_append_left _ hg) g' (List.mem_append_right _ hg')
      · exact (hlater g' (List.mem_append_right _ hg') g (List.mem_append_left _ hg)).symm
      · exact hrest.2.2 g hg g' hg'

end Separation
end MetaStore.RocksDB
