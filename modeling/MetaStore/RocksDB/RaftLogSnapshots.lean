import MetaStore.RocksDB.RaftLogTerms

/-! Snapshots of the raft storage. An installed snapshot keeps every entry behind its index,
whether the log had the snapshot's entry or not; and a snapshot can be created before the newest
one, with a term that is read from whatever snapshot is stored. -/
namespace MetaStore.RocksDB
open Std Transition

/-- The entry of the log at an index: its record, if the index lies between the bounds. -/
def RocksDBStorage.logEntry (s : RocksDBStorage) (i : UInt64) : Option Entry :=
  if s.firstIndex ≤ i ∧ i ≤ s.lastIndex then s.entryAt i else none

lemma logEntry_eq_some {s : RocksDBStorage} {i : UInt64} {e : Entry} :
    s.logEntry i = some e ↔ (s.firstIndex ≤ i ∧ i ≤ s.lastIndex) ∧ s.entryAt i = some e := by
  rw [RocksDBStorage.logEntry]
  split_ifs with h
  · simp [h]
  · simp [h]

/-- After the installation, entries are left behind the snapshot only if the log had the
snapshot's entry, and otherwise the log is empty and ends at the snapshot. -/
def KeepsExtensions (s : RocksDBStorage) (snap : Snapshot) (t : RocksDBStorage) : Prop :=
  ((∃ i e, snap.index < i ∧ t.logEntry i = some e) →
    ∃ e, s.logEntry snap.index = some e ∧ e.term = snap.term) ∧
  ((¬ ∃ i e, snap.index < i ∧ t.logEntry i = some e) →
    t.lastIndex = snap.index ∧ ∀ i, t.logEntry i = none)

/-- What a snapshot asks of the log it is installed in: entries behind it come with its own
entry, and without such entries the log does not end behind it. The other clauses are for the
empty snapshot, which installs nothing, and for the largest index, behind which the first index
is 0. -/
def Extended (s : RocksDBStorage) (snap : Snapshot) : Prop :=
  ((∃ i e, snap.index < i ∧ s.logEntry i = some e) →
    ∃ e, s.logEntry snap.index = some e ∧ e.term = snap.term) ∧
  ((¬ ∃ i e, snap.index < i ∧ s.logEntry i = some e) →
    s.lastIndex ≤ snap.index ∧ (snap.index = 0 → ∀ i, s.logEntry i = none) ∧
    (snap.index.toNat = 2^64-1 → ∀ i e, s.entryAt i = some e → s.logEntry i = some e))

section Installed
variable {s t : RocksDBStorage} {writeOK : Bool} {snap : Snapshot}

lemma firstIndex_le_of_applySnapshot (hempty : snap.index ≠ 0)
    (h : s.applySnapshot writeOK snap = some (t,.ok ())) :
    1 ≤ s.firstIndex.toNat ∧ s.firstIndex.toNat ≤ snap.index.toNat := by
  by_contra hout
  rw [RocksDBStorage.applySnapshot,if_neg (by simpa [RocksDBStorage.isEmptySnap] using hempty),
    if_pos] at h
  · exact absurd (Prod.mk.inj (Option.some.inj h)).2 (by simp)
  · have hlt := snap.index.toNat_lt
    rw [UInt64.le_iff_toNat_le,UInt64.toNat_sub]
    have h1 : (1 : UInt64).toNat = 1 := rfl
    have hfirst := s.firstIndex.toNat_lt
    omega

lemma logEntry_applySnapshot (hempty : snap.index ≠ 0) (hmax : snap.index.toNat ≠ 2^64-1)
    (h : s.applySnapshot writeOK snap = some (t,.ok ())) (i : UInt64) :
    t.logEntry i = if snap.index < i then s.logEntry i else none := by
  obtain ⟨hpos,hle⟩ := firstIndex_le_of_applySnapshot hempty h
  obtain ⟨h0,-⟩|⟨-,hnode,hfirst,hlast,hrecords⟩ := applySnapshot_inv h hpos
  · exact absurd h0 hempty
  have hlt := snap.index.toNat_lt
  have hfirst : t.firstIndex.toNat = snap.index.toNat+1 := by
    have h1 : (1 : UInt64).toNat = 1 := rfl
    rw [hfirst,UInt64.toNat_add]
    omega
  have hentry : snap.index.toNat < i.toNat → t.entryAt i = s.entryAt i := by
    intro hi
    rw [RocksDBStorage.entryAt,hnode,hrecords,if_neg (by omega)]
    rfl
  simp only [RocksDBStorage.logEntry,UInt64.le_iff_toNat_le,UInt64.lt_iff_toNat_lt]
  split_ifs with h1 h2 h3
  · exact hentry h2
  all_goals first | rfl | omega

/-- For every log and every snapshot that is accepted, only entries that extend the snapshot
are kept if and only if the log asks for no more. -/
theorem applySnapshot_keeps_extensions_iff
    (h : s.applySnapshot writeOK snap = some (t,.ok ())) :
    KeepsExtensions s snap t ↔ Extended s snap := by
  by_cases hempty : snap.index = 0
  · rw [RocksDBStorage.applySnapshot,if_pos (by simp [RocksDBStorage.isEmptySnap,hempty])] at h
    obtain ⟨rfl,-⟩ := Prod.mk.inj (Option.some.inj h)
    have hzero : s.lastIndex = snap.index ↔ s.lastIndex ≤ snap.index := by
      rw [hempty,← UInt64.toNat_inj,UInt64.le_iff_toNat_le]
      exact Nat.le_zero.symm
    have hmax : snap.index.toNat ≠ 2^64-1 := by
      rw [hempty]
      decide
    refine and_congr Iff.rfl (imp_congr_right fun _ => and_congr hzero ?_)
    exact ⟨fun h => ⟨fun _ => h,fun hc => absurd hc hmax⟩,fun h => h.1 hempty⟩
  obtain ⟨hpos,hle⟩ := firstIndex_le_of_applySnapshot hempty h
  obtain ⟨h0,-⟩|⟨-,hnode,hfirst,hlast,hrecords⟩ := applySnapshot_inv h hpos
  · exact absurd h0 hempty
  have hlt := snap.index.toNat_lt
  have hlastIndex : t.lastIndex = snap.index ↔ s.lastIndex ≤ snap.index := by
    rw [← UInt64.toNat_inj,hlast,UInt64.le_iff_toNat_le]
    omega
  by_cases hmax : snap.index.toNat = 2^64-1
  · -- no index is larger, and what is left are the records outside of the bounds
    have hbehind : ∀ u : RocksDBStorage, ¬ ∃ i e, snap.index < i ∧ u.logEntry i = some e := by
      rintro u ⟨i,e,hi,-⟩
      have := i.toNat_lt
      rw [UInt64.lt_iff_toNat_lt] at hi
      omega
    have hzero : t.firstIndex.toNat = 0 := by
      rw [hfirst,UInt64.toNat_add,hmax]
      rfl
    have hin : ∀ i, t.logEntry i = if s.firstIndex ≤ i ∧ i ≤ s.lastIndex then none
        else s.entryAt i := by
      intro i
      have hi := i.toNat_lt
      simp only [RocksDBStorage.logEntry,RocksDBStorage.entryAt,hnode,hrecords,
        UInt64.le_iff_toNat_le]
      rw [if_pos (by omega)]
      by_cases hin : s.firstIndex.toNat ≤ i.toNat ∧ i.toNat ≤ s.lastIndex.toNat
      · rw [if_pos (by omega),if_pos hin]
      · rw [if_neg (by omega),if_neg hin]
    simp only [KeepsExtensions,Extended,hbehind,not_false_eq_true,false_implies,true_implies,
      true_and,hempty,hmax]
    refine and_congr hlastIndex ⟨fun hnone i e he => ?_,fun hrec i => ?_⟩
    · have hi := hnone i
      rw [hin] at hi
      split_ifs at hi with hb
      · exact logEntry_eq_some.mpr ⟨hb,he⟩
      · rw [hi] at he
        cases he
    · rw [hin]
      split_ifs with hb
      · rfl
      · rw [Option.eq_none_iff_forall_ne_some]
        exact fun e he => hb (logEntry_eq_some.mp (hrec i e he)).1
  · have hentry := logEntry_applySnapshot hempty hmax h
    have hsome : (∃ i e, snap.index < i ∧ t.logEntry i = some e) ↔
        ∃ i e, snap.index < i ∧ s.logEntry i = some e := by
      refine exists_congr fun i => exists_congr fun e => and_congr_right fun hi => ?_
      rw [hentry,if_pos hi]
    unfold KeepsExtensions Extended
    rw [hsome]
    refine and_congr Iff.rfl (imp_congr_right fun hnone => ?_)
    rw [hlastIndex]
    refine and_congr_right fun _ => ⟨fun _ => ⟨fun h0 => absurd h0 hempty,fun hc => absurd hc hmax⟩,
      fun _ i => ?_⟩
    rw [hentry]
    split_ifs with hi
    · rw [Option.eq_none_iff_forall_ne_some]
      exact fun e he => hnone ⟨i,e,hi,he⟩
    · rfl

def RocksDBStorage.installed (s : RocksDBStorage) (snap : Snapshot) : RocksDBStorage :=
  match s.applySnapshot true snap with
  | some (t,_) => t
  | none => s

lemma applySnapshot_installed (h : (s.applySnapshot true snap).any fun p => p.2.isOk) :
    s.applySnapshot true snap = some (s.installed snap,.ok ()) := by
  unfold RocksDBStorage.installed
  cases happly : s.applySnapshot true snap with
  | none =>
    rw [happly] at h
    cases h
  | some p =>
    obtain ⟨t,r⟩ := p
    rw [happly] at h
    cases r with
    | error err => cases h
    | ok v => rfl

/-- Of three entries, a snapshot of the first two keeps the third one. -/
theorem applySnapshot_keeps_third :
    let s := (newRocksDBStorage ∅ (ascii "node_1")).appended
      [⟨1,1,.normal,[]⟩,⟨1,2,.normal,[]⟩,⟨1,3,.normal,[]⟩]
    let snap : Snapshot := ⟨[],2,1,{}⟩
    s.applySnapshot true snap = some (s.installed snap,.ok ()) ∧
      KeepsExtensions s snap (s.installed snap) := by
  intro s snap
  have h : s.applySnapshot true snap = some (s.installed snap,.ok ()) :=
    applySnapshot_installed (by decide)
  refine ⟨h,(applySnapshot_keeps_extensions_iff h).mpr ⟨fun _ => ?_,fun hnone => absurd ?_ hnone⟩⟩
  · exact ⟨⟨1,2,.normal,[]⟩,by decide,rfl⟩
  · exact ⟨3,⟨1,3,.normal,[]⟩,by decide,by decide⟩

/-- The entries of a deposed leader stay behind a snapshot of the new one. -/
theorem applySnapshot_keeps_stale_entry :
    let s := (newRocksDBStorage ∅ (ascii "node_1")).appended
      [⟨1,1,.normal,[]⟩,⟨1,2,.normal,[]⟩,⟨1,3,.normal,[]⟩]
    let snap : Snapshot := ⟨[],2,2,{}⟩
    s.applySnapshot true snap = some (s.installed snap,.ok ()) ∧
      (s.installed snap).logEntry 3 = some ⟨1,3,.normal,[]⟩ ∧
      s.logEntry 2 = some ⟨1,2,.normal,[]⟩ ∧ ¬ KeepsExtensions s snap (s.installed snap) := by
  intro s snap
  have hbefore : s.logEntry 2 = some ⟨1,2,.normal,[]⟩ := by decide
  have hafter : (s.installed snap).logEntry 3 = some ⟨1,3,.normal,[]⟩ := by decide
  refine ⟨applySnapshot_installed (by decide),hafter,hbefore,fun h => ?_⟩
  obtain ⟨e,he,hterm⟩ := h.1 ⟨3,⟨1,3,.normal,[]⟩,by decide,hafter⟩
  obtain rfl := Option.some.inj (hbefore.symm.trans he)
  exact absurd hterm (by decide)

end Installed

def RocksDBStorage.storedSnapshot (s : RocksDBStorage) : Option Snapshot :=
  match s.db[snapshotKey s.nodeID]? with
  | some (.snapshot snap) => some snap
  | _ => none

def Call.install (terms : UInt64 → UInt64) : Call → UInt64 → UInt64
  | applySnapshot snap =>
    if RocksDBStorage.isEmptySnap snap then terms else Function.update terms snap.index snap.term
  | _ => terms

/-- The terms after a call: of the entries in the log, of the snapshot that was installed, else
as before. -/
def Call.hold (terms : UInt64 → UInt64) (t : RocksDBStorage) (c : Call) (i : UInt64) : UInt64 :=
  match t.logEntry i with
  | some e => e.term
  | none => c.install terms i

def History.succeed (h : History) (c : Call) : Option History :=
  match c.run true h.storage with
  | some (t,.ok ()) => some ⟨t,c.hold h.terms t⟩
  | _ => none

/-- The index of the stored snapshot does not decrease, and a created one has the term of the
entry that the log held at its index. -/
def MetadataRight (h : History) (c : Call) (u : History) : Prop :=
  (∀ a ∈ h.storage.storedSnapshot, ∀ b ∈ u.storage.storedSnapshot, a.index ≤ b.index) ∧
  match c with
  | .createSnapshot index _ _ => ∀ b ∈ u.storage.storedSnapshot, b.term = h.terms index
  | _ => True

/-- No snapshot is installed or created before the stored one; and one that is created just
before the first index finds a stored snapshot with the term of that index. -/
def Call.KeepsMetadata (h : History) : Call → Prop
  | append _ => True
  | applySnapshot snap =>
    snap.index = 0 ∨ ∀ a ∈ h.storage.storedSnapshot, a.index ≤ snap.index
  | createSnapshot index _ _ =>
    (∀ a ∈ h.storage.storedSnapshot, a.index ≤ index) ∧
    (index = h.storage.firstIndex-1 →
      h.terms index = if RocksDBStorage.isEmptySnap h.storage.loadSnapshotUnsafe then 0
        else h.storage.loadSnapshotUnsafe.term)
  | compact _ => True

def History.Agrees (h : History) : Prop :=
  ∀ i e, h.storage.logEntry i = some e → h.terms i = e.term

section Stored
variable {h u : History} {c : Call}

lemma History.succeed_eq_some (hu : h.succeed c = some u) :
    c.run true h.storage = some (u.storage,.ok ()) ∧ u.terms = c.hold h.terms u.storage := by
  unfold History.succeed at hu
  split at hu
  · rename_i t hrun
    obtain rfl := Option.some.inj hu
    exact ⟨hrun,rfl⟩
  · cases hu

lemma History.agrees_succeed (hu : h.succeed c = some u) : u.Agrees := by
  obtain ⟨-,hterms⟩ := History.succeed_eq_some hu
  intro i e he
  rw [hterms,Call.hold,he]

lemma storedSnapshot_congr {s t : RocksDBStorage} (hnode : t.nodeID = s.nodeID)
    (hdb : t.db[snapshotKey s.nodeID]? = s.db[snapshotKey s.nodeID]?) :
    t.storedSnapshot = s.storedSnapshot := by
  rw [RocksDBStorage.storedSnapshot,hnode,hdb]
  rfl

lemma storedSnapshot_eq_some {s : RocksDBStorage} {nodeID : Bytes} {snap : Snapshot}
    (hnode : s.nodeID = nodeID) (hdb : s.db[snapshotKey nodeID]? = some (.snapshot snap)) :
    s.storedSnapshot = some snap := by
  rw [RocksDBStorage.storedSnapshot,hnode,hdb]

lemma metadataRight_of_eq (heq : u.storage.storedSnapshot = h.storage.storedSnapshot) :
    ∀ a ∈ h.storage.storedSnapshot, ∀ b ∈ u.storage.storedSnapshot, a.index ≤ b.index := by
  intro a ha b hb
  rw [heq] at hb
  rw [Option.mem_unique ha hb]
  exact UInt64.le_refl _

/-- The term of a created snapshot: behind the first index it is that of the log's entry. -/
lemma snapshotTerm_eq_iff (hagrees : h.Agrees) {index term : UInt64}
    (hlo : ¬ index < h.storage.firstIndex-1) (hhi : ¬ h.storage.lastIndex < index)
    (hterm : h.storage.snapshotTerm index = .ok term) :
    term = h.terms index ↔ (index = h.storage.firstIndex-1 →
      h.terms index = if RocksDBStorage.isEmptySnap h.storage.loadSnapshotUnsafe then 0
        else h.storage.loadSnapshotUnsafe.term) := by
  by_cases hfirst : index = h.storage.firstIndex-1
  · rw [RocksDBStorage.snapshotTerm,if_pos hfirst] at hterm
    rw [← Except.ok.inj hterm]
    exact ⟨fun heq _ => heq.symm,fun heq => (heq hfirst).symm⟩
  · refine iff_of_true ?_ fun hc => absurd hc hfirst
    rw [RocksDBStorage.snapshotTerm,if_neg hfirst] at hterm
    cases he : h.storage.entryAt index with
    | none =>
      rw [he] at hterm
      cases hterm
    | some e =>
      rw [he] at hterm
      rw [← Except.ok.inj hterm]
      refine (hagrees index e (logEntry_eq_some.mpr ⟨⟨?_,UInt64.not_lt.mp hhi⟩,he⟩)).symm
      have hlt := index.toNat_lt
      have h1 : (1 : UInt64).toNat = 1 := rfl
      have hbound := h.storage.firstIndex.toNat_lt
      rw [← UInt64.toNat_inj,UInt64.toNat_sub] at hfirst
      rw [UInt64.lt_iff_toNat_lt,UInt64.toNat_sub] at hlo
      rw [UInt64.le_iff_toNat_le]
      omega

lemma metadataRight_iff (hagrees : h.Agrees) (hu : h.succeed c = some u) :
    MetadataRight h c u ↔ c.KeepsMetadata h := by
  obtain ⟨hrun,-⟩ := History.succeed_eq_some hu
  cases c with
  | append entries =>
    have hdb := append_fixed hrun (by decide : Fixed (ascii "snapshot_meta")) (by decide)
    have heq := storedSnapshot_congr (append_nodeID hrun) hdb
    exact iff_of_true ⟨metadataRight_of_eq heq,trivial⟩ trivial
  | applySnapshot snap =>
    by_cases hempty : snap.index = 0
    · rw [Call.run,RocksDBStorage.applySnapshot,
        if_pos (by simp [RocksDBStorage.isEmptySnap,hempty])] at hrun
      obtain ⟨heq,-⟩ := Prod.mk.inj (Option.some.inj hrun)
      exact iff_of_true ⟨metadataRight_of_eq (by rw [heq]),trivial⟩ (.inl hempty)
    obtain ⟨h0,heq⟩|⟨hnode,-,-,hdb⟩ :=
      applySnapshot_fixed hrun (by decide : Fixed (ascii "snapshot_meta"))
    · exact absurd h0 hempty
    rw [if_neg (by decide),if_neg fun hc => absurd hc.2 (by decide),if_neg (by decide),
      if_pos rfl] at hdb
    simp only [MetadataRight,storedSnapshot_eq_some hnode hdb,Option.mem_some_iff,forall_eq',
      and_true,Call.KeepsMetadata,hempty,false_or]
  | createSnapshot index cs data =>
    obtain ⟨hstorage,hres⟩ := Prod.mk.inj (Option.some.inj hrun)
    cases hr : (h.storage.createSnapshot true index cs data).2 with
    | error err =>
      rw [hr] at hres
      cases hres
    | ok snap =>
    obtain ⟨hlo,hhi,hterm,hindex,hnew⟩ := createSnapshot_eq (Prod.ext hstorage hr)
    have hstored : u.storage.storedSnapshot = some snap := by
      rw [show u.storage = _ from hnew]
      exact storedSnapshot_eq_some rfl ExtTreeMap.getElem?_insert_self
    simp only [MetadataRight,hstored,Option.mem_some_iff,forall_eq',hindex,Call.KeepsMetadata]
    exact and_congr_right fun _ => snapshotTerm_eq_iff hagrees hlo hhi hterm
  | compact index =>
    have hcall : h.storage.compact true index = (u.storage,.ok ()) := Option.some.inj hrun
    obtain ⟨hnode,-,-,hdb⟩ := compact_fixed hcall (by decide : Fixed (ascii "snapshot_meta"))
    rw [if_neg (by decide)] at hdb
    exact iff_of_true ⟨metadataRight_of_eq (storedSnapshot_congr hnode hdb),trivial⟩ trivial

end Stored

lemma agrees_new {db : Database} {nodeID : Bytes} (h : Fresh db nodeID) :
    (newHistory db nodeID).Agrees := by
  have hs := represents_new h
  intro i e he
  have hentry : (newRocksDBStorage db nodeID).entryAt i = some e := (logEntry_eq_some.mp he).2
  rw [hs.entryAt_eq,Log.entryAt] at hentry
  simp at hentry

/-- In every sequence of successful calls on a new storage, the index of the stored snapshot
never decreases and every created snapshot has the term of the entry that the log held at its
index if and only if no snapshot is installed or created before the stored one, and every
snapshot that is created just before the first index finds the term of that index stored. -/
theorem snapshot_metadata_iff {db : Database} {nodeID : Bytes} (hfresh : Fresh db nodeID)
    (calls : List Call) :
    EveryStep History.succeed MetadataRight (newHistory db nodeID) calls ↔
      EveryStep History.succeed (fun h c _ => c.KeepsMetadata h) (newHistory db nodeID) calls := by
  have hstep : ∀ h : History, ∀ c ∈ calls, ∀ u, h.Agrees → h.succeed c = some u → u.Agrees :=
    fun h c _ u _ hu => History.agrees_succeed hu
  have hiff : ∀ (h : History) (c : Call) (u : History), h.Agrees → h.succeed c = some u →
      (MetadataRight h c u ↔ c.KeepsMetadata h) := fun h c u hagrees hu =>
    metadataRight_iff hagrees hu
  exact everyStep_congr hstep hiff (agrees_new hfresh)

/-- A snapshot in a log of two entries. -/
theorem snapshot_metadata_of_two :
    let calls : List Call :=
      [.append [⟨1,1,.normal,[]⟩,⟨2,2,.normal,[]⟩],.createSnapshot 2 {} []]
    (calls.foldlM History.succeed (newHistory ∅ (ascii "node_1"))).isSome ∧
      EveryStep History.succeed MetadataRight (newHistory ∅ (ascii "node_1")) calls := by
  intro calls
  refine ⟨by decide,(snapshot_metadata_iff (fun key => by simp) calls).mpr ?_⟩
  refine everyStep_cons.mpr fun h hh => ⟨trivial,everyStep_cons.mpr fun u _ =>
    ⟨⟨fun a ha => ?_,fun hc => ?_⟩,everyStep_nil u⟩⟩
  · have hnone : (History.succeed (newHistory ∅ (ascii "node_1"))
        (.append [⟨1,1,.normal,[]⟩,⟨2,2,.normal,[]⟩])).bind
          (fun h => h.storage.storedSnapshot) = none := by decide
    rw [hh] at hnone
    exact absurd ha (by rw [show h.storage.storedSnapshot = none from hnone]; simp)
  · have hfirst : (History.succeed (newHistory ∅ (ascii "node_1"))
        (.append [⟨1,1,.normal,[]⟩,⟨2,2,.normal,[]⟩])).map
          (fun h => h.storage.firstIndex) = some 1 := by decide
    rw [hh] at hfirst
    rw [show h.storage.firstIndex = 1 from Option.some.inj hfirst] at hc
    exact absurd hc (by decide)

/-- After a snapshot of five entries and the compaction of two, a snapshot is created at 2: its
index is below the stored one, and it takes the term of the fifth entry. -/
theorem snapshot_metadata_goes_back :
    let calls : List Call :=
      [.append [⟨1,1,.normal,[]⟩,⟨1,2,.normal,[]⟩,⟨1,3,.normal,[]⟩,⟨2,4,.normal,[]⟩,
        ⟨2,5,.normal,[]⟩],.createSnapshot 5 {} [],.compact 3]
    (calls.foldlM History.succeed (newHistory ∅ (ascii "node_1"))).map (fun h =>
        (h.storage.storedSnapshot.map Snapshot.index,h.terms 2)) = some (some 5,1) ∧
    ((calls ++ [Call.createSnapshot 2 {} []]).foldlM History.succeed
        (newHistory ∅ (ascii "node_1"))).map (fun h =>
          h.storage.storedSnapshot.map fun snap => (snap.index,snap.term)) = some (some (2,2)) := by
  intro calls
  exact ⟨by decide,by decide⟩

end MetaStore.RocksDB
