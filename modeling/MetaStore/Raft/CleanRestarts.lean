import MetaStore.Raft.RocksDBNode
import MetaStore.RocksDB.RaftLogSnapshots

/-! Restarts of the raft node of the RocksDB engine. The initialization installs the newest
snapshot file once more, and the raft storage refuses a snapshot whose entries it has dropped
already: the one it has just received, or the one that the previous start has installed. -/
namespace MetaStore.Raft
open RocksDB Transition

/-- A restart succeeds and leaves the entries behind the newest snapshot, the hard state and the
last index as they were. -/
structure RestartRight (cfg : RocksConfig) (n u : RaftNodeRocks) : Prop where
  running : u.running
  entries : ∀ i, (∀ snap ∈ n.file, snap.index < i) →
    u.raftStorage.db[logKey (nodeName cfg.id) i]? = n.raftStorage.db[logKey (nodeName cfg.id) i]?
  hardState : u.raftStorage.db[hardStateKey (nodeName cfg.id)]? =
    n.raftStorage.db[hardStateKey (nodeName cfg.id)]?
  lastIndex : ∀ i, getIndex n.raftStorage.db (lastIndexKey (nodeName cfg.id)) = some i →
    u.raftStorage.lastIndex = i ∧
      getIndex u.raftStorage.db (lastIndexKey (nodeName cfg.id)) = some i

/-- The newest snapshot is empty or inside of the stored log: not before the first index, not
behind the stored last index and not at the largest one. -/
def Restartable (cfg : RocksConfig) (n : RaftNodeRocks) : Prop :=
  ∀ snap ∈ n.file, snap.index = 0 ∨
    (newRocksDBStorage n.raftStorage.db (nodeName cfg.id)).firstIndex-1 < snap.index ∧
    ∀ i, getIndex n.raftStorage.db (lastIndexKey (nodeName cfg.id)) = some i →
      snap.index ≤ i ∧ snap.index.toNat ≠ 2^64-1

section Restart
variable (cfg : RocksConfig) {db : Database} {snap : Snapshot} {t : RocksDBStorage}
variable {file : Option Snapshot}

lemma initRocksDBStorage_of_empty (db : Database)
    (h : ∀ snap ∈ file, snap.index = 0) :
    initRocksDBStorage cfg db file = some (newRocksDBStorage db (nodeName cfg.id),.ok ()) := by
  cases file with
  | none => rfl
  | some snap =>
    have h0 : RocksDBStorage.isEmptySnap snap := by
      simp [RocksDBStorage.isEmptySnap,h snap rfl]
    simp [initRocksDBStorage,h0]

lemma initRocksDBStorage_of_snapshot (db : Database) (h : snap.index ≠ 0) :
    initRocksDBStorage cfg db (some snap) =
      ((newRocksDBStorage db (nodeName cfg.id)).applySnapshot true snap).map fun p =>
        (p.1,p.2.mapError fun e => s!"failed to apply snapshot: {e}") := by
  have h0 : ¬ RocksDBStorage.isEmptySnap snap := by simpa [RocksDBStorage.isEmptySnap] using h
  simp [initRocksDBStorage,h0]

lemma startRaft_of_ok
    (h : initRocksDBStorage cfg db file = some (t,.ok ())) :
    (startRaft cfg db file).running = true ∧ (startRaft cfg db file).raftStorage = t ∧
      (startRaft cfg db file).file = file := by
  rw [startRaft,h]
  exact ⟨rfl,rfl,rfl⟩

/-- The process does not end exactly if the initialization succeeds. -/
lemma exists_of_running (h : (startRaft cfg db file).running) :
    ∃ t, initRocksDBStorage cfg db file = some (t,.ok ()) := by
  unfold startRaft at h
  split at h
  · exact ⟨_,by assumption⟩
  · cases h
  · cases h

lemma applySnapshot_of_running (hne : snap.index ≠ 0)
    (h : (startRaft cfg db (some snap)).running) :
    ∃ t, (newRocksDBStorage db (nodeName cfg.id)).applySnapshot true snap = some (t,.ok ()) ∧
      (startRaft cfg db (some snap)).raftStorage = t := by
  obtain ⟨t,ht⟩ := exists_of_running cfg h
  have hstart := (startRaft_of_ok cfg ht).2.1
  rw [initRocksDBStorage_of_snapshot cfg _ hne] at ht
  obtain ⟨⟨s,r⟩,happly,hres⟩ := Option.map_eq_some_iff.mp ht
  obtain ⟨rfl,hr⟩ := Prod.mk.inj hres
  cases r with
  | error e => cases hr
  | ok _ => exact ⟨s,happly,hstart⟩

lemma running_of_applySnapshot (hne : snap.index ≠ 0)
    (h : (newRocksDBStorage db (nodeName cfg.id)).applySnapshot true snap = some (t,.ok ())) :
    (startRaft cfg db (some snap)).running ∧ (startRaft cfg db (some snap)).raftStorage = t := by
  have hinit := initRocksDBStorage_of_snapshot cfg db hne
  rw [h] at hinit
  obtain ⟨hrunning,hstorage,-⟩ := startRaft_of_ok cfg hinit
  exact ⟨hrunning,hstorage⟩

lemma not_running_of_le (hne : snap.index ≠ 0)
    (hle : snap.index ≤ (newRocksDBStorage db (nodeName cfg.id)).firstIndex-1) :
    ¬ (startRaft cfg db (some snap)).running := by
  intro h
  obtain ⟨t,ht,-⟩ := applySnapshot_of_running cfg hne h
  rw [RocksDBStorage.applySnapshot,if_neg (by simpa [RocksDBStorage.isEmptySnap] using hne),
    if_pos hle] at ht
  exact absurd (Prod.mk.inj (Option.some.inj ht)).2 (by simp)

lemma frame_of_applySnapshot (hne : snap.index ≠ 0)
    (h : (newRocksDBStorage db (nodeName cfg.id)).applySnapshot true snap = some (t,.ok ())) :
    (∀ i, snap.index < i →
      t.db[logKey (nodeName cfg.id) i]? = db[logKey (nodeName cfg.id) i]?) ∧
    t.db[hardStateKey (nodeName cfg.id)]? = db[hardStateKey (nodeName cfg.id)]? ∧
    t.lastIndex.toNat =
      max (newRocksDBStorage db (nodeName cfg.id)).lastIndex.toNat snap.index.toNat := by
  obtain ⟨hpos,-⟩ := firstIndex_le_of_applySnapshot hne h
  obtain ⟨h0,-⟩|⟨-,-,-,hlast,hrecords⟩ := applySnapshot_inv h hpos
  · exact absurd h0 hne
  obtain ⟨h0,-⟩|⟨-,-,-,hhard⟩ := applySnapshot_fixed h (by decide : Fixed (ascii "hard_state"))
  · exact absurd h0 hne
  rw [newRocksDBStorage_nodeID] at hrecords hhard
  refine ⟨fun i hi => ?_,?_,hlast⟩
  · rw [UInt64.lt_iff_toNat_lt] at hi
    rw [hrecords,if_neg (by omega),newRocksDBStorage_logKey]
  · rw [if_neg (by decide),if_neg fun hc => absurd hc.2 (by decide),if_neg (by decide),
      if_neg (by decide)] at hhard
    rw [hardStateKey,hhard]
    exact newRocksDBStorage_frame db _ (by decide)

/-- A restart is right exactly if the newest snapshot is inside of the stored log. -/
lemma restartRight_iff (n : RaftNodeRocks) :
    RestartRight cfg n (startRaft cfg n.raftStorage.db n.file) ↔ Restartable cfg n := by
  have hsynced := synced_newRocksDBStorage n.raftStorage.db (nodeName cfg.id)
  have hlastIndex := newRocksDBStorage_lastIndex n.raftStorage.db (nodeName cfg.id)
  by_cases hempty : ∀ snap ∈ n.file, snap.index = 0
  · refine iff_of_true ?_ fun snap hsnap => .inl (hempty snap hsnap)
    obtain ⟨hrunning,hstorage,-⟩ := startRaft_of_ok cfg
      (initRocksDBStorage_of_empty cfg n.raftStorage.db hempty)
    refine ⟨hrunning,fun i _ => ?_,?_,fun i hi => ?_⟩
    · rw [hstorage,newRocksDBStorage_logKey]
    · rw [hstorage]
      exact newRocksDBStorage_frame _ _ (by decide)
    · have hlast := hsynced.last
      rw [newRocksDBStorage_nodeID] at hlast
      rw [hi] at hlastIndex
      rw [hstorage,getIndex,hlast,hlastIndex]
      exact ⟨rfl,rfl⟩
  push Not at hempty
  obtain ⟨snap,hsnap,hne⟩ := hempty
  have hall : ∀ P : Snapshot → Prop, (∀ x ∈ n.file, P x) ↔ P snap := fun P => by
    rw [show n.file = some snap from hsnap]
    simp
  have hfile : n.file = some snap := hsnap
  rw [Restartable,hall]
  constructor
  · intro h
    right
    have hrunning := h.running
    rw [hfile] at hrunning
    obtain ⟨t,ht,hstorage⟩ := applySnapshot_of_running cfg hne hrunning
    obtain ⟨-,-,hlast⟩ := frame_of_applySnapshot cfg hne ht
    have hlt : (newRocksDBStorage n.raftStorage.db (nodeName cfg.id)).firstIndex-1 < snap.index := by
      by_contra hle
      exact not_running_of_le cfg hne (UInt64.not_lt.mp hle) hrunning
    refine ⟨hlt,fun i hi => ?_⟩
    have hkept := (h.lastIndex i hi).1
    rw [hfile,hstorage] at hkept
    rw [hi] at hlastIndex
    rw [hkept,hlastIndex,Option.getD_some] at hlast
    refine ⟨UInt64.le_iff_toNat_le.mpr (by omega),fun hmax => ?_⟩
    -- the loop over the old entries would not have ended
    refine (exists_applySnapshot_iff hne hlt).mp ⟨t,ht⟩ ⟨hmax,?_⟩
    have hbound := i.toNat_lt
    rw [hlastIndex,Option.getD_some]
    omega
  · rintro (h0 | ⟨hlt,hin⟩)
    · exact absurd h0 hne
    have hends : ¬ (snap.index.toNat = 2^64-1 ∧
        (newRocksDBStorage n.raftStorage.db (nodeName cfg.id)).lastIndex.toNat = 2^64-1) := by
      rintro ⟨hmax,hlast⟩
      cases hi : getIndex n.raftStorage.db (lastIndexKey (nodeName cfg.id)) with
      | some i => exact (hin i hi).2 hmax
      | none =>
        rw [hi] at hlastIndex
        rw [hlastIndex,Option.getD_none] at hlast
        rw [UInt64.lt_iff_toNat_lt] at hlt
        omega
    obtain ⟨t,ht⟩ := (exists_applySnapshot_iff hne hlt).mpr hends
    obtain ⟨hrunning,hstorage⟩ := running_of_applySnapshot cfg hne ht
    obtain ⟨hentries,hhard,hlast⟩ := frame_of_applySnapshot cfg hne ht
    have htsynced := hsynced.applySnapshot ht
    rw [hfile]
    refine ⟨hrunning,fun i hi => ?_,?_,fun i hi => ?_⟩
    · rw [hstorage]
      exact hentries i (hi snap hfile)
    · rw [hstorage,hhard]
    · have hle := UInt64.le_iff_toNat_le.mp (hin i hi).1
      rw [hi] at hlastIndex
      rw [hlastIndex,Option.getD_some] at hlast
      have heq : t.lastIndex = i := UInt64.toNat_inj.mp (by omega)
      have hstored := htsynced.last
      rw [applySnapshot_nodeID ht,newRocksDBStorage_nodeID] at hstored
      rw [hstorage,getIndex,hstored,heq]
      exact ⟨rfl,rfl⟩

end Restart

/-- In every run of a node, every restart succeeds and leaves the entries behind the newest
snapshot, the hard state and the last index as they were if and only if each time the newest
snapshot is inside of the stored log. -/
theorem clean_restarts_iff (cfg : RocksConfig) (events : List RocksEvent) :
    EveryStep (RaftNodeRocks.step cfg) (fun n e u => e = .restart → RestartRight cfg n u)
        (newRaftNodeRocks cfg) events ↔
      EveryStep (RaftNodeRocks.step cfg) (fun n e _ => e = .restart → Restartable cfg n)
        (newRaftNodeRocks cfg) events := by
  have hiff : ∀ (n : RaftNodeRocks) (e : RocksEvent) (u : RaftNodeRocks), True →
      n.step cfg e = some u →
      ((e = .restart → RestartRight cfg n u) ↔ (e = .restart → Restartable cfg n)) := by
    intro n e u _ hu
    refine imp_congr_right fun he => ?_
    rw [he] at hu
    rw [← Option.some.inj hu]
    exact restartRight_iff cfg n
  exact everyStep_congr (fun _ _ _ _ _ _ => trivial) hiff trivial

/-- A node that has received a snapshot at 5 and is started again before the store has installed
it: the storage refuses the snapshot, now and at every later start. -/
theorem restart_fails_after_received_snapshot :
    let cfg : RocksConfig := ⟨⟨1,fun _ => ⟨.other,0⟩,false,false,10000⟩,false,⟨fun _ => [],fun _ => none⟩⟩
    let rd : RocksReady := ⟨⟨1,0,5⟩,⟨[],5,1,{}⟩,[],[],none⟩
    ([.ready rd []].foldlM (RaftNodeRocks.step cfg) (newRaftNodeRocks cfg)).map (fun n =>
        (n.running,n.raftStorage.firstIndex,n.raftStorage.lastIndex)) = some (true,6,5) ∧
    ([.ready rd [],.restart].foldlM (RaftNodeRocks.step cfg) (newRaftNodeRocks cfg)).map
        (fun n => n.running) = some false ∧
    ([.ready rd [],.restart,.restart].foldlM (RaftNodeRocks.step cfg) (newRaftNodeRocks cfg)).map
        (fun n => n.running) = some false := by
  intro cfg rd
  exact ⟨by decide,by decide,by decide⟩

namespace RaftNodeRocks
variable {cfg : RocksConfig} {n u : RaftNodeRocks}

end RaftNodeRocks

namespace RaftNodeRocks
variable {cfg : RocksConfig} {n u : RaftNodeRocks}

end RaftNodeRocks

end MetaStore.Raft
