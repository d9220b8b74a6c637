import MetaStore.RocksDB.RaftLogRuns

/-! When the raft storage keeps an exact, contiguous log. An append that replaces the end of
the log by fewer entries leaves the last index where it was, so indexes without records stay
inside the bounds. -/
namespace MetaStore.RocksDB
open Std

inductive Call
  | append (entries : List Entry)
  | applySnapshot (snap : Snapshot)
  | createSnapshot (index : UInt64) (cs : ConfState) (data : Bytes)
  | compact (index : UInt64)

namespace Call

/-- The call ends without an error and leaves the storage `t`. -/
def Returns (s t : RocksDBStorage) : Call → Prop
  | append entries => ∃ writeOK, s.append writeOK entries = some (t,.ok ())
  | applySnapshot snap => ∃ writeOK, s.applySnapshot writeOK snap = some (t,.ok ())
  | createSnapshot index cs data => ∃ writeOK snap, s.createSnapshot writeOK index cs data = (t,.ok snap)
  | compact index => ∃ writeOK, s.compact writeOK index = (t,.ok ())

def Legal (s : RocksDBStorage) : Call → Prop
  | append entries => Log.Consecutive entries ∧
      ∀ e ∈ entries.head?, s.firstIndex ≤ e.index ∧ e.index.toNat ≤ s.lastIndex.toNat+1
  | _ => True

/-- An append reaches the end of the log, and no snapshot has the largest index. -/
def KeepsBounds (s : RocksDBStorage) : Call → Prop
  | append entries => ∀ last ∈ entries.getLast?, s.lastIndex ≤ last.index
  | applySnapshot snap => snap.index.toNat ≠ 2^64-1
  | _ => True

end Call

/-- After the call the log is contiguous, and an append has put its entries behind what was
there before them. -/
def Exact (s : RocksDBStorage) (c : Call) (t : RocksDBStorage) : Prop :=
  Contiguous t ∧ match c with
    | .append entries => ∀ e ∈ entries.head?, ∀ last ∈ entries.getLast?, t.lastIndex = last.index ∧
        t.entries = s.entries.take (e.index.toNat-s.firstIndex.toNat) ++ entries
    | _ => True

/-- Every step of a trace satisfies `P`. -/
def AllSteps (P : RocksDBStorage → Call → RocksDBStorage → Prop) :
    RocksDBStorage → List (Call × RocksDBStorage) → Prop
  | _,[] => True
  | s,(c,t) :: rest => P s c t ∧ AllSteps P t rest

section Steps
variable {s t : RocksDBStorage} {l : Log}

theorem Represents.append {writeOK : Bool} {e : Entry} {rest : List Entry} (hs : Represents s l)
    (h : s.append writeOK (e :: rest) = some (t,.ok ())) (hcons : Log.Consecutive (e :: rest))
    (hlo : l.first ≤ e.index.toNat) (hhi : e.index.toNat ≤ l.first+l.entries.length)
    (hlast : s.lastIndex.toNat ≤ e.index.toNat+rest.length) :
    Represents t (l.append e rest hcons hlo hhi) := by
  obtain ⟨hnode,htlast,htfirst,hrecords⟩ := append_inv h hcons
  have hslast := hs.last
  have hsfirst := hs.first
  have hlen : (l.append e rest hcons hlo hhi).entries.length =
      e.index.toNat-l.first+(rest.length+1) := by
    simp only [Log.append,List.length_append,List.length_take,List.length_cons]
    omega
  refine ⟨?_,?_,hs.pos,fun i => ?_⟩
  · rw [htfirst (by omega),hsfirst]
    rfl
  · rw [hlen,htlast]
    change _ = l.first+_
    omega
  · rw [hnode,hrecords,Log.entryAt_append]
    by_cases hi : e.index.toNat ≤ i.toNat
    · rw [if_pos hi,if_neg (by omega : ¬ i.toNat < e.index.toNat)]
      cases hx : (e :: rest)[i.toNat-e.index.toNat]? with
      | some x => rfl
      | none =>
        -- behind the new entries nothing is left
        have hout := List.getElem?_eq_none_iff.mp hx
        simp only [List.length_cons] at hout
        rw [Option.map_none,Option.getD_none,if_neg (by omega),hs.records,
          l.entryAt_eq_none (by omega)]
    · rw [if_neg hi,if_pos (by omega),hs.records]

theorem Represents.dropTo {n : ℕ} (hs : Represents s l) (hn : l.first ≤ n)
    (hnode : t.nodeID = s.nodeID) (hfirst : t.firstIndex.toNat = n)
    (hlast : t.lastIndex.toNat+1 = max (s.lastIndex.toNat+1) n)
    (hrecords : ∀ i : UInt64, t.db[logKey s.nodeID i]? =
      if i.toNat < n then none else s.db[logKey s.nodeID i]?) :
    Represents t (l.dropTo n hn) := by
  have hslast := hs.last
  have hpos := hs.pos
  refine ⟨hfirst,?_,hpos.trans hn,fun i => ?_⟩
  · simp only [Log.dropTo,List.length_drop]
    omega
  · rw [hnode,hrecords,Log.entryAt_dropTo,hs.records]
    split_ifs <;> first | rfl | omega

/-- One step: exactness is the condition, and the condition keeps a log represented. -/
theorem exact_iff_keepsBounds {c : Call} (hs : Represents s l) (hc : c.Returns s t)
    (hlegal : c.Legal s) :
    (Exact s c t ↔ c.KeepsBounds s) ∧ (c.KeepsBounds s → ∃ l', Represents t l') := by
  have hsfirst := hs.first
  have hslast := hs.last
  have hpos := hs.pos
  cases c with
  | append entries =>
    obtain ⟨writeOK,h⟩ := hc
    cases entries with
    | nil =>
      obtain ⟨rfl,-⟩ := Prod.mk.inj (Option.some.inj h)
      exact ⟨⟨fun _ => nofun,fun _ => ⟨hs.contiguous,nofun⟩⟩,fun _ => ⟨l,hs⟩⟩
    | cons e rest =>
      obtain ⟨hcons,hbounds⟩ := hlegal
      obtain ⟨hlo,hhi⟩ := hbounds e rfl
      rw [UInt64.le_iff_toNat_le] at hlo
      have hlen := hcons.index_getLast
      have hinv := append_inv h hcons
      have hgetLast : (e :: rest).getLast? = some ((e :: rest).getLast (List.cons_ne_nil e rest)) :=
        List.getLast?_eq_some_getLast _
      have hrep : s.lastIndex.toNat ≤ e.index.toNat+rest.length → Represents t _ :=
        fun hle => hs.append h hcons (by omega) (by omega) hle
      have hkeeps : (Call.append (e :: rest)).KeepsBounds s ↔
          s.lastIndex.toNat ≤ e.index.toNat+rest.length := by
        simp only [Call.KeepsBounds,hgetLast,Option.mem_some_iff,forall_eq',UInt64.le_iff_toNat_le,hlen]
      rw [hkeeps]
      refine ⟨⟨fun hexact => ?_,fun hle => ⟨(hrep hle).contiguous,?_⟩⟩,fun hle => ⟨_,hrep hle⟩⟩
      · have hlast := (hexact.2 e rfl _ hgetLast).1
        rw [← UInt64.toNat_inj,hlen] at hlast
        omega
      · rintro _ ⟨⟩ last hlast
        rw [hgetLast] at hlast
        obtain rfl := Option.some.inj hlast
        refine ⟨UInt64.toNat_inj.mp (by omega),?_⟩
        rw [(hrep hle).entries_eq,hs.entries_eq,hsfirst]
        rfl
  | applySnapshot snap =>
    obtain ⟨writeOK,h⟩ := hc
    rcases applySnapshot_inv h (by omega) with ⟨h0,rfl⟩ | ⟨hnew,hnode,htfirst,htlast,hrecords⟩
    · refine ⟨⟨fun _ => ?_,fun _ => ⟨hs.contiguous,trivial⟩⟩,fun _ => ⟨l,hs⟩⟩
      simp [Call.KeepsBounds,h0]
    · have hbound := snap.index.toNat_lt
      have hrep : snap.index.toNat ≠ 2^64-1 → Represents t (l.dropTo (snap.index.toNat+1) (by omega)) := by
        intro hne
        refine hs.dropTo (by omega) hnode ?_ (by omega) fun i => ?_
        · rw [htfirst,UInt64.toNat_add]
          have h1 : (1 : UInt64).toNat = 1 := rfl
          omega
        · rw [hrecords,hs.records]
          split_ifs <;> first | rfl | rw [l.entryAt_eq_none (by omega)]; rfl
      refine ⟨⟨fun hexact hmax => ?_,fun hne => ⟨(hrep hne).contiguous,trivial⟩⟩,
        fun hne => ⟨_,hrep hne⟩⟩
      -- the new first index wraps around to 0, where there is no record
      have hzero : t.firstIndex = 0 := by
        rw [htfirst]
        apply UInt64.toNat_inj.mp
        rw [UInt64.toNat_add,hmax]
        rfl
      have h0 := hexact.1 0
      have hnone : t.db[logKey t.nodeID 0]? = none := by
        have hz : (0 : UInt64).toNat = 0 := rfl
        rw [hnode,hrecords,if_neg (by omega),hs.records,l.entryAt_eq_none (by omega)]
        rfl
      rw [if_pos ⟨UInt64.le_iff_toNat_le.mpr (by rw [hzero]),
        UInt64.le_iff_toNat_le.mpr (Nat.zero_le _)⟩,hnone] at h0
      obtain ⟨e,he,-⟩ := h0
      exact absurd he nofun
  | createSnapshot index cs data =>
    obtain ⟨writeOK,snap,h⟩ := hc
    obtain ⟨hnode,hfirst,hlast,hrecords⟩ := createSnapshot_inv h
    have hrep : Represents t l :=
      ⟨by rw [hfirst,hsfirst],by rw [hlast,hslast],hpos,fun i => by rw [hnode,hrecords,hs.records]⟩
    exact ⟨⟨fun _ => trivial,fun _ => ⟨hrep.contiguous,trivial⟩⟩,fun _ => ⟨l,hrep⟩⟩
  | compact index =>
    obtain ⟨writeOK,h⟩ := hc
    obtain ⟨hlt,hle,hnode,hfirst,hlast,hrecords⟩ := compact_inv h
    have hrep : Represents t (l.dropTo index.toNat (by omega)) := by
      refine hs.dropTo (by omega) hnode (by rw [hfirst]) (by rw [hlast]; omega) fun i => ?_
      rw [hrecords,hs.records]
      split_ifs <;> first | rfl | omega | rw [l.entryAt_eq_none (by omega)]; rfl
    exact ⟨⟨fun _ => trivial,fun _ => ⟨hrep.contiguous,trivial⟩⟩,fun _ => ⟨_,hrep⟩⟩

end Steps

def Fresh (db : Database) (nodeID : Bytes) : Prop := ∀ key, db[prefixedKey nodeID key]? = none

theorem represents_new {db : Database} {nodeID : Bytes} (h : Fresh db nodeID) :
    Represents (newRocksDBStorage db nodeID) ⟨1,[],by simp⟩ := by
  have hfirst : getIndex db (firstIndexKey nodeID) = none := by
    rw [getIndex,firstIndexKey,h]
  have hne : firstIndexKey nodeID ≠ lastIndexKey nodeID :=
    fun heq => absurd (prefixedKey_injective nodeID heq) (by decide)
  have hlast : getIndex (db.insert (firstIndexKey nodeID) (.index 1)) (lastIndexKey nodeID) = none := by
    rw [getIndex,ExtTreeMap.getElem?_insert,if_neg (by simpa using hne),lastIndexKey,h]
  unfold newRocksDBStorage
  simp only [hfirst,hlast]
  refine ⟨rfl,rfl,le_rfl,fun i => ?_⟩
  have h1 := logKey_ne_prefixedKey nodeID i (by decide : (ascii "first_index").head? ≠ _)
  have h2 := logKey_ne_prefixedKey nodeID i (by decide : (ascii "last_index").head? ≠ _)
  simp only [ExtTreeMap.getElem?_insert,firstIndexKey,lastIndexKey]
  rw [if_neg (by simpa using h2.symm),if_neg (by simpa using h1.symm),logKey_eq_prefixedKey,h]
  simp [Log.entryAt]

theorem allSteps_exact_iff {s : RocksDBStorage} {l : Log} (hs : Represents s l)
    {trace : List (Call × RocksDBStorage)}
    (hrun : AllSteps (fun s c t => c.Returns s t ∧ c.Legal s) s trace) :
    AllSteps Exact s trace ↔ AllSteps (fun s c _ => c.KeepsBounds s) s trace := by
  induction trace generalizing s l with
  | nil => exact Iff.rfl
  | cons step trace ih =>
    obtain ⟨c,t⟩ := step
    obtain ⟨⟨hc,hlegal⟩,hrest⟩ := hrun
    obtain ⟨hstep,hnext⟩ := exact_iff_keepsBounds hs hc hlegal
    simp only [AllSteps,hstep]
    refine and_congr_right fun hkeeps => ?_
    obtain ⟨l',hl'⟩ := hnext hkeeps
    exact ih hl' hrest

/-- In every run of successful calls on a new storage, the log is exact after every call if and
only if every append reaches the end of the log before it and no snapshot has the largest
index. -/
theorem storage_log_exact_iff {db : Database} {nodeID : Bytes} (hfresh : Fresh db nodeID)
    {trace : List (Call × RocksDBStorage)}
    (hrun : AllSteps (fun s c t => c.Returns s t ∧ c.Legal s) (newRocksDBStorage db nodeID) trace) :
    AllSteps Exact (newRocksDBStorage db nodeID) trace ↔
      AllSteps (fun s c _ => c.KeepsBounds s) (newRocksDBStorage db nodeID) trace :=
  allSteps_exact_iff (represents_new hfresh) hrun

def RocksDBStorage.appended (s : RocksDBStorage) (entries : List Entry) : RocksDBStorage :=
  match s.append true entries with
  | some (t,_) => t
  | none => s

/-- Three entries, and a conflict at the second one that is replaced up to the end. -/
theorem storage_log_exact_after_conflict :
    let s := newRocksDBStorage ∅ (ascii "node_1")
    let a : List Entry := [⟨1,1,.normal,[]⟩,⟨1,2,.normal,[]⟩,⟨1,3,.normal,[]⟩]
    let b : List Entry := [⟨2,2,.normal,[]⟩,⟨2,3,.normal,[]⟩]
    let t := s.appended a
    AllSteps Exact s [(.append a,t),(.append b,t.appended b)] := by
  intro s a b t
  have hrun : AllSteps (fun s c t => c.Returns s t ∧ c.Legal s) s
      [(.append a,t),(.append b,t.appended b)] :=
    ⟨⟨⟨true,rfl⟩,by decide,by rintro e ⟨⟩; decide⟩,
      ⟨⟨true,rfl⟩,by decide,by rintro e ⟨⟩; decide⟩,trivial⟩
  refine (storage_log_exact_iff (fun key => by simp) hrun).mpr ⟨?_,?_,trivial⟩
  · rintro last ⟨⟩
    decide
  · rintro last ⟨⟩
    decide

/-- A new leader's single entry replaces three old ones: the last index stays at 3, and the
records of the entries 2 and 3 are gone. -/
theorem storage_log_stale_last_index :
    let s := newRocksDBStorage ∅ (ascii "node_1")
    let a : List Entry := [⟨1,1,.normal,[]⟩,⟨1,2,.normal,[]⟩,⟨1,3,.normal,[]⟩]
    let b : List Entry := [⟨2,1,.normal,[]⟩]
    let t := s.appended a
    let u := t.appended b
    AllSteps (fun s c t => c.Returns s t ∧ c.Legal s) s [(.append a,t),(.append b,u)] ∧
    u.lastIndex = 3 ∧ u.db[logKey (ascii "node_1") 3]? = none ∧ ¬ Exact t (.append b) u := by
  intro s a b t u
  refine ⟨⟨⟨⟨true,rfl⟩,by decide,by rintro e ⟨⟩; decide⟩,
    ⟨⟨true,rfl⟩,by decide,by rintro e ⟨⟩; decide⟩,trivial⟩,by decide,by decide,fun h => ?_⟩
  have hlast := (h.2 ⟨2,1,.normal,[]⟩ rfl ⟨2,1,.normal,[]⟩ rfl).1
  exact absurd hlast (by decide)

end MetaStore.RocksDB
