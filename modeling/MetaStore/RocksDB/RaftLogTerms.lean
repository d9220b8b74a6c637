import MetaStore.Library.Transition
import MetaStore.RocksDB.RaftLogExact
import MetaStore.RocksDB.RaftLogFields

/-! The contract of `Term`: from the index before the first one to the last one, it answers with
the term of the entry that was appended there or of the snapshot that was installed there. The
term before the first index is known from the stored snapshot only, and neither a compaction
nor the creation of a snapshot leaves one there. -/
namespace MetaStore.RocksDB
open Std Transition

structure History where
  storage : RocksDBStorage
  terms : UInt64 → UInt64

namespace Call

def run (writeOK : Bool) (s : RocksDBStorage) : Call → Option (RocksDBStorage × Except String Unit)
  | append entries => s.append writeOK entries
  | applySnapshot snap => s.applySnapshot writeOK snap
  | createSnapshot index cs data =>
    let p := s.createSnapshot writeOK index cs data
    some (p.1,p.2.map fun _ => ())
  | compact index => some (s.compact writeOK index)

def note (terms : UInt64 → UInt64) : Call → UInt64 → UInt64
  | append entries => entries.foldl (fun terms e => Function.update terms e.index e.term) terms
  | applySnapshot snap =>
    if RocksDBStorage.isEmptySnap snap then terms else Function.update terms snap.index snap.term
  | createSnapshot _ _ _ => terms
  | compact _ => terms

/-- Appends are contiguous, snapshots are created in the log and compactions go no further than
the newest snapshot. -/
def Proper (s : RocksDBStorage) : Call → Prop
  | append entries => Log.Consecutive entries ∧
      ∀ e ∈ entries.head?, s.firstIndex ≤ e.index ∧ e.index.toNat ≤ s.lastIndex.toNat+1
  | applySnapshot _ => True
  | createSnapshot index _ _ => s.firstIndex ≤ index ∧ index ≤ s.lastIndex
  | compact index => index ≤ s.loadSnapshotUnsafe.index

instance (s : RocksDBStorage) (c : Call) : Decidable (c.Proper s) := by
  unfold Proper
  cases c <;> infer_instance

/-- Which calls keep the contract: an append that is written ends at or behind the last index
and one that is not written does not end behind it, an installed snapshot has not the largest
index and one that is not written is not behind the last index, a snapshot is created only
while the log starts at 1, and no compaction succeeds. -/
def KeepsTerms (s : RocksDBStorage) (writeOK : Bool) : Call → Prop
  | append entries => ∀ last ∈ entries.getLast?,
      if writeOK then s.lastIndex ≤ last.index else last.index ≤ s.lastIndex
  | applySnapshot snap => if writeOK then snap.index.toNat ≠ 2^64-1 else snap.index ≤ s.lastIndex
  | createSnapshot _ _ _ => writeOK → s.firstIndex = 1
  | compact index => writeOK → index ≤ s.firstIndex ∨ s.lastIndex < index

end Call

namespace History

def step (h : History) (l : Bool × Call) : Option History :=
  if l.2.Proper h.storage then
    (l.2.run l.1 h.storage).map fun p =>
      ⟨p.1,if p.2.isOk then l.2.note h.terms else h.terms⟩
  else none

def TermsRight (h : History) : Prop :=
  ∀ i : UInt64, h.storage.firstIndex.toNat ≤ i.toNat+1 → i ≤ h.storage.lastIndex →
    h.storage.term i = .ok (h.terms i)

end History

section Answers
variable {s t : RocksDBStorage} {l : Log} {terms : UInt64 → UInt64}
variable {i : UInt64}

lemma toNat_pred {a : UInt64} (h : 1 ≤ a.toNat) : (a-1).toNat = a.toNat-1 :=
  UInt64.toNat_sub_of_le a 1 (UInt64.le_iff_toNat_le.mpr h)

lemma term_of_firstIndex_le (hpos : 1 ≤ s.firstIndex.toNat)
    (hlo : s.firstIndex.toNat ≤ i.toNat) (hhi : i ≤ s.lastIndex) :
    s.term i =
      (s.entryAt i).elim (.error RocksDBStorage.errUnavailable) fun e => .ok e.term := by
  have hpred := toNat_pred hpos
  rw [UInt64.le_iff_toNat_le] at hhi
  rw [RocksDBStorage.term,if_neg,if_neg,if_neg]
  · cases s.entryAt i <;> rfl
  · intro h
    rw [h] at hlo
    omega
  · rw [UInt64.lt_iff_toNat_lt]
    omega
  · rw [UInt64.lt_iff_toNat_lt]
    omega

def boundaryTerm (s : RocksDBStorage) : Except String UInt64 :=
  if !RocksDBStorage.isEmptySnap s.loadSnapshotUnsafe &&
      s.loadSnapshotUnsafe.index == s.firstIndex-1 then .ok s.loadSnapshotUnsafe.term
  else if s.firstIndex-1 = 0 then .ok 0
  else .error RocksDBStorage.errCompacted

lemma term_pred (hle : s.firstIndex-1 ≤ s.lastIndex) : s.term (s.firstIndex-1) = boundaryTerm s := by
  rw [UInt64.le_iff_toNat_le] at hle
  rw [RocksDBStorage.term,if_neg,if_neg,if_pos rfl]
  · rfl
  · rw [UInt64.lt_iff_toNat_lt]
    omega
  · rw [UInt64.lt_iff_toNat_lt]
    omega

lemma Represents.pred_le (hs : Represents s l) : s.firstIndex-1 ≤ s.lastIndex := by
  have hfirst := hs.first
  have hlast := hs.last
  have hpos := hs.pos
  rw [UInt64.le_iff_toNat_le,toNat_pred (by omega)]
  omega

lemma Represents.entryAt_eq (hs : Represents s l) (i : UInt64) :
    s.entryAt i = l.entryAt i.toNat := by
  rw [RocksDBStorage.entryAt,hs.records]
  cases l.entryAt i.toNat <;> rfl

lemma Represents.exists_entryAt (hs : Represents s l)
    (hlo : s.firstIndex.toNat ≤ i.toNat) (hhi : i ≤ s.lastIndex) : ∃ e, s.entryAt i = some e := by
  have hfirst := hs.first
  have hlast := hs.last
  rw [UInt64.le_iff_toNat_le] at hhi
  obtain ⟨e,he,-⟩ := l.exists_entryAt (by omega : l.first ≤ i.toNat) (by omega)
  exact ⟨e,by rw [hs.entryAt_eq,he]⟩

lemma Represents.le_of_entryAt (hs : Represents s l) {e : Entry}
    (h : s.entryAt i = some e) : s.firstIndex.toNat ≤ i.toNat ∧ i ≤ s.lastIndex := by
  have hfirst := hs.first
  have hlast := hs.last
  rw [UInt64.le_iff_toNat_le]
  by_contra hout
  rw [hs.entryAt_eq,l.entryAt_eq_none (by omega)] at h
  cases h

/-- The contract of a storage that represents a log: one part for the entries, one for the index
before them. -/
lemma termsRight_iff (hs : Represents s l) :
    History.TermsRight ⟨s,terms⟩ ↔
      (∀ i e, s.entryAt i = some e → e.term = terms i) ∧
        boundaryTerm s = .ok (terms (s.firstIndex-1)) := by
  have hfirst := hs.first
  have hpos := hs.pos
  have hpred := toNat_pred (by omega : 1 ≤ s.firstIndex.toNat)
  constructor
  · intro h
    refine ⟨fun i e he => ?_,?_⟩
    · obtain ⟨hlo,hhi⟩ := hs.le_of_entryAt he
      have hi := h i (by dsimp only; omega) hhi
      dsimp only at hi
      rw [term_of_firstIndex_le (by omega) hlo hhi,he] at hi
      exact Except.ok.inj hi
    · rw [← term_pred hs.pred_le]
      exact h (s.firstIndex-1) (by dsimp only; omega) hs.pred_le
  · rintro ⟨hentries,hboundary⟩ i hlo hhi
    dsimp only at hlo hhi ⊢
    by_cases hi : s.firstIndex.toNat ≤ i.toNat
    · obtain ⟨e,he⟩ := hs.exists_entryAt hi hhi
      rw [term_of_firstIndex_le (by omega) hi hhi,he]
      exact congrArg Except.ok (hentries i e he)
    · obtain rfl : i = s.firstIndex-1 := UInt64.toNat_inj.mp (by omega)
      rw [term_pred hs.pred_le,hboundary]

lemma boundaryTerm_congr (hnode : t.nodeID = s.nodeID) (hfirst : t.firstIndex = s.firstIndex)
    (hsnap : t.db[snapshotKey s.nodeID]? = s.db[snapshotKey s.nodeID]?) :
    boundaryTerm t = boundaryTerm s := by
  have hload : t.loadSnapshotUnsafe = s.loadSnapshotUnsafe := by
    rw [RocksDBStorage.loadSnapshotUnsafe,RocksDBStorage.loadSnapshotUnsafe,hnode,hsnap,hfirst]
  rw [boundaryTerm,boundaryTerm,hload,hfirst]

lemma getElem?_snapshotKey (hpos : 1 ≤ s.firstIndex.toNat)
    (h : s.firstIndex.toNat ≤ s.loadSnapshotUnsafe.index.toNat) :
    s.db[snapshotKey s.nodeID]? = some (.snapshot s.loadSnapshotUnsafe) := by
  unfold RocksDBStorage.loadSnapshotUnsafe at h ⊢
  split
  · assumption
  · rename_i hnone
    split at h
    · rename_i snap hsome
      exact absurd hsome (hnone snap)
    · dsimp only at h
      rw [toNat_pred hpos] at h
      omega

lemma not_termsRight_of_entryAt_none (hpos : 1 ≤ s.firstIndex.toNat)
    (hlo : s.firstIndex.toNat ≤ i.toNat) (hhi : i ≤ s.lastIndex) (h : s.entryAt i = none) :
    ¬ History.TermsRight ⟨s,terms⟩ := by
  intro hright
  have hi := hright i (by dsimp only; omega) hhi
  dsimp only at hi
  rw [term_of_firstIndex_le hpos hlo hhi,h] at hi
  cases hi

end Answers

section Notes
variable {entries : List Entry} (terms : UInt64 → UInt64)

lemma note_append_of_not_mem {i : UInt64} (h : ∀ e ∈ entries, e.index ≠ i) :
    (Call.append entries).note terms i = terms i := by
  induction entries generalizing terms with
  | nil => rfl
  | cons e rest ih =>
    obtain ⟨he,hrest⟩ := List.forall_mem_cons.mp h
    exact (ih (Function.update terms e.index e.term) hrest).trans
      (Function.update_of_ne he.symm e.term terms)

lemma note_append_of_mem (hnodup : (entries.map Entry.index).Nodup) {e : Entry} (he : e ∈ entries) :
    (Call.append entries).note terms e.index = e.term := by
  induction entries generalizing terms with
  | nil => cases he
  | cons a rest ih =>
    obtain ⟨ha,hrest⟩ := List.nodup_cons.mp hnodup
    obtain rfl|he := List.mem_cons.mp he
    · have hne : ∀ x ∈ rest, x.index ≠ e.index := fun x hx hxe =>
        ha (List.mem_map.mpr ⟨x,hx,hxe⟩)
      exact (note_append_of_not_mem (Function.update terms e.index e.term) hne).trans
        (Function.update_self e.index e.term terms)
    · exact ih (Function.update terms a.index a.term) hrest he

end Notes

section Steps
variable {s t : RocksDBStorage} {l : Log} {terms : UInt64 → UInt64}
variable {w : Bool} {r : Except String Unit}

lemma termsRight_append {e : Entry} {rest : List Entry} (hs : Represents s l)
    (hright : History.TermsRight ⟨s,terms⟩) (h : s.append true (e :: rest) = some (t,.ok ()))
    (hcons : Log.Consecutive (e :: rest)) (hlo : l.first ≤ e.index.toNat)
    (hhi : e.index.toNat ≤ l.first+l.entries.length)
    (hle : s.lastIndex.toNat ≤ e.index.toNat+rest.length) :
    History.TermsRight ⟨t,(Call.append (e :: rest)).note terms⟩ := by
  obtain ⟨hentries,hboundary⟩ := (termsRight_iff hs).mp hright
  have ht := hs.append h hcons hlo hhi hle
  obtain ⟨hnode,hlast,hfirst,-⟩ := append_inv h hcons
  have hsfirst := hs.first
  have hpos := hs.pos
  have hfirst := hfirst (by omega)
  have hbelow : ∀ i : UInt64, i.toNat < e.index.toNat →
      (Call.append (e :: rest)).note terms i = terms i := by
    refine fun i hi => note_append_of_not_mem terms fun y hy hyi => ?_
    obtain ⟨j,hj⟩ := List.mem_iff_getElem?.mp hy
    have := hcons.index_getElem? j y hj
    rw [hyi] at this
    omega
  refine (termsRight_iff ht).mpr ⟨fun i x hx => ?_,?_⟩
  · rw [ht.entryAt_eq,Log.entryAt_append] at hx
    split_ifs at hx with hi
    · rw [← hs.entryAt_eq] at hx
      rw [hentries i x hx,hbelow i (by omega)]
    · have hindex := hcons.index_getElem? _ x hx
      obtain rfl : x.index = i := UInt64.toNat_inj.mp (by omega)
      exact (note_append_of_mem terms hcons.nodup_index (List.mem_of_getElem? hx)).symm
  · have hpred := toNat_pred (by omega : 1 ≤ s.firstIndex.toNat)
    rw [boundaryTerm_congr hnode hfirst (append_fixed h (by decide) (by decide)),hboundary,hfirst,
      hbelow _ (by omega)]

lemma append_step {entries : List Entry}
    (hs : Represents s l) (hright : History.TermsRight ⟨s,terms⟩)
    (hproper : (Call.append entries).Proper s) (h : s.append w entries = some (t,r)) :
    (History.TermsRight ⟨t,if r.isOk then (Call.append entries).note terms else terms⟩ ↔
        (Call.append entries).KeepsTerms s w) ∧
      ((Call.append entries).KeepsTerms s w → ∃ l', Represents t l') := by
  cases entries with
  | nil =>
    obtain ⟨rfl,rfl⟩ := Prod.mk.inj (Option.some.inj h)
    exact ⟨⟨fun _ last hlast => absurd hlast (by simp),fun _ => hright⟩,fun _ => ⟨l,hs⟩⟩
  | cons e rest =>
  obtain ⟨hcons,hbounds⟩ := hproper
  obtain ⟨hlo,hhi⟩ := hbounds e rfl
  rw [UInt64.le_iff_toNat_le] at hlo
  have hlen := hcons.index_getLast
  have hsfirst := hs.first
  have hslast := hs.last
  have hpos := hs.pos
  have hgetLast : (e :: rest).getLast? = some ((e :: rest).getLast (List.cons_ne_nil e rest)) :=
    List.getLast?_eq_some_getLast _
  simp only [Call.KeepsTerms,hgetLast,Option.mem_some_iff,forall_eq']
  obtain ⟨old,hold,hres⟩ := Option.map_eq_some_iff.mp h
  cases w with
  | true =>
    obtain ⟨ht,rfl⟩ := Prod.mk.inj hres
    simp only [if_true,UInt64.le_iff_toNat_le,hlen]
    refine ⟨⟨fun hnew => ?_,fun hle => ?_⟩,fun hle => ⟨_,hs.append h hcons (by omega) (by omega) hle⟩⟩
    · -- the record of the last index is gone
      by_contra hlt
      obtain ⟨hnode,hlast,hfirst,hrecords⟩ := append_inv h hcons
      have hfirst := congrArg UInt64.toNat (hfirst (by omega))
      refine not_termsRight_of_entryAt_none (i := s.lastIndex) (by omega) (by omega)
        (UInt64.le_iff_toNat_le.mpr (by omega)) ?_ hnew
      have hout : (e :: rest)[s.lastIndex.toNat-e.index.toNat]? = none :=
        List.getElem?_eq_none (by simp only [List.length_cons]; omega)
      rw [RocksDBStorage.entryAt,hnode,hrecords,if_pos (by omega),hout,Option.map_none,
        Option.getD_none,if_pos le_rfl]
    · exact termsRight_append hs hright h hcons (by omega) (by omega) hle
  | false =>
    obtain ⟨rfl,rfl⟩ := Prod.mk.inj hres
    simp only [Bool.false_eq_true,if_false,UInt64.le_iff_toNat_le,UInt64.lt_iff_toNat_lt,hlen]
    have hfirst : ¬ (if s.lastIndex.toNat < e.index.toNat+rest.length
        then ((e :: rest).getLast (List.cons_ne_nil e rest)).index else s.lastIndex).toNat <
          s.firstIndex.toNat := by
      split_ifs <;> omega
    rw [if_neg hfirst]
    by_cases hle : e.index.toNat+rest.length ≤ s.lastIndex.toNat
    · rw [if_neg (by omega)]
      exact ⟨⟨fun _ => hle,fun _ => hright⟩,fun _ => ⟨l,hs⟩⟩
    · rw [if_pos (by omega)]
      refine ⟨⟨fun hnew => absurd hnew ?_,fun h => absurd h hle⟩,fun h => absurd h hle⟩
      refine not_termsRight_of_entryAt_none
        (i := ((e :: rest).getLast (List.cons_ne_nil e rest)).index) (by dsimp only; omega)
        (by dsimp only; omega) (UInt64.le_refl _) ?_
      exact (hs.entryAt_eq _).trans (l.entryAt_eq_none (by omega))

lemma termsRight_applySnapshot {snap : Snapshot} (hs : Represents s l)
    (hright : History.TermsRight ⟨s,terms⟩) (h : s.applySnapshot true snap = some (t,.ok ()))
    (hempty : snap.index ≠ 0) (hmax : snap.index.toNat ≠ 2^64-1) (ht : ∃ l', Represents t l') :
    History.TermsRight ⟨t,Function.update terms snap.index snap.term⟩ := by
  obtain ⟨l',ht⟩ := ht
  have hsfirst := hs.first
  have hpos := hs.pos
  have hlt := snap.index.toNat_lt
  obtain ⟨hentries,-⟩ := (termsRight_iff hs).mp hright
  obtain ⟨h0,-⟩|⟨hnew,hnode,htfirst,-,hrecords⟩ := applySnapshot_inv h (by omega)
  · exact absurd h0 hempty
  obtain ⟨h0,-⟩|⟨-,-,-,hsnap⟩ := applySnapshot_fixed h (by decide : Fixed (ascii "snapshot_meta"))
  · exact absurd h0 hempty
  have hpred : t.firstIndex-1 = snap.index := by
    rw [htfirst]
    exact UInt64.add_sub_cancel snap.index 1
  refine (termsRight_iff ht).mpr ⟨fun i x hx => ?_,?_⟩
  · obtain ⟨hlo,-⟩ := ht.le_of_entryAt hx
    rw [htfirst,UInt64.toNat_add] at hlo
    have h1 : (1 : UInt64).toNat = 1 := rfl
    have hne : i ≠ snap.index := by
      rintro rfl
      omega
    rw [RocksDBStorage.entryAt,hnode,hrecords,if_neg (by omega)] at hx
    rw [hentries i x hx,Function.update_of_ne hne]
  · have hload : t.loadSnapshotUnsafe = snap := by
      rw [RocksDBStorage.loadSnapshotUnsafe,hnode,snapshotKey,hsnap,if_neg (by decide),
        if_neg (fun hc => absurd hc.2 (by decide)),if_neg (by decide),if_pos rfl]
    rw [boundaryTerm,hload,hpred,Function.update_self,if_pos]
    simpa [RocksDBStorage.isEmptySnap] using hempty

lemma applySnapshot_step {snap : Snapshot}
    (hs : Represents s l) (hright : History.TermsRight ⟨s,terms⟩)
    (h : s.applySnapshot w snap = some (t,r)) :
    (History.TermsRight ⟨t,if r.isOk then (Call.applySnapshot snap).note terms else terms⟩ ↔
        (Call.applySnapshot snap).KeepsTerms s w) ∧
      ((Call.applySnapshot snap).KeepsTerms s w → ∃ l', Represents t l') := by
  have hsfirst := hs.first
  have hslast := hs.last
  have hpos := hs.pos
  have hpred := toNat_pred (by omega : 1 ≤ s.firstIndex.toNat)
  have hbound := s.firstIndex.toNat_lt
  -- a call that leaves the storage alone has a snapshot before the end of the log
  have hsame : t = s → snap.index.toNat ≤ s.lastIndex.toNat → snap.index.toNat ≠ 2^64-1 →
      (if r.isOk then (Call.applySnapshot snap).note terms else terms) = terms →
      (History.TermsRight ⟨t,if r.isOk then (Call.applySnapshot snap).note terms else terms⟩ ↔
        (Call.applySnapshot snap).KeepsTerms s w) ∧
      ((Call.applySnapshot snap).KeepsTerms s w → ∃ l', Represents t l') := by
    rintro rfl hle hne hterms
    have hkeeps : (Call.applySnapshot snap).KeepsTerms t w := by
      cases w
      · exact UInt64.le_iff_toNat_le.mpr hle
      · exact hne
    rw [hterms]
    exact ⟨iff_of_true hright hkeeps,fun _ => ⟨l,hs⟩⟩
  by_cases hempty : RocksDBStorage.isEmptySnap snap
  · rw [RocksDBStorage.applySnapshot,if_pos hempty] at h
    obtain ⟨rfl,rfl⟩ := Prod.mk.inj (Option.some.inj h)
    have h0 : snap.index = 0 := by simpa [RocksDBStorage.isEmptySnap] using hempty
    refine hsame rfl ?_ ?_ ?_
    · rw [h0]
      exact Nat.zero_le _
    · rw [h0]
      decide
    · exact if_pos hempty
  by_cases hold : snap.index ≤ s.firstIndex-1
  · rw [RocksDBStorage.applySnapshot,if_neg hempty,if_pos hold] at h
    obtain ⟨rfl,rfl⟩ := Prod.mk.inj (Option.some.inj h)
    rw [UInt64.le_iff_toNat_le] at hold
    exact hsame rfl (by omega) (by omega) rfl
  have hnonzero : snap.index ≠ 0 := by simpa [RocksDBStorage.isEmptySnap] using hempty
  have hcall := h
  rw [RocksDBStorage.applySnapshot,if_neg hempty,if_neg hold] at h
  obtain ⟨old,hidx,h⟩ := Option.map_eq_some_iff.mp h
  cases w with
  | true =>
    obtain ⟨-,rfl⟩ := Prod.mk.inj h
    obtain ⟨hexact,hnext⟩ := exact_iff_keepsBounds (c := .applySnapshot snap) hs ⟨true,hcall⟩ trivial
    refine ⟨⟨fun hnew hmax => ?_,fun hmax => ?_⟩,hnext⟩
    · -- the first index wraps around to 0
      obtain ⟨h0,-⟩|⟨-,-,htfirst,htlast,-⟩ := applySnapshot_inv hcall (by omega)
      · exact hnonzero h0
      have hzero : t.firstIndex = 0 := by
        rw [htfirst]
        apply UInt64.toNat_inj.mp
        rw [UInt64.toNat_add,hmax]
        rfl
      have hterm := hnew 0 (by dsimp only; rw [hzero]; decide) (UInt64.le_iff_toNat_le.mpr (Nat.zero_le _))
      dsimp only at hterm
      rw [RocksDBStorage.term,hzero,if_pos (by decide)] at hterm
      cases hterm
    · have hnote : (Call.applySnapshot snap).note terms =
          Function.update terms snap.index snap.term := if_neg hempty
      rw [hnote]
      exact termsRight_applySnapshot hs hright hcall hnonzero hmax (hnext hmax)
  | false =>
    obtain ⟨rfl,rfl⟩ := Prod.mk.inj h
    by_cases hlt : s.lastIndex < snap.index
    · have hkeeps : ¬ (Call.applySnapshot snap).KeepsTerms s false := fun hle =>
        absurd (UInt64.le_iff_toNat_le.mp hle) (by rw [UInt64.lt_iff_toNat_lt] at hlt; omega)
      refine ⟨iff_of_false ?_ hkeeps,fun h => absurd h hkeeps⟩
      rw [if_pos hlt]
      rw [UInt64.le_iff_toNat_le] at hold
      refine not_termsRight_of_entryAt_none (i := snap.index) (by dsimp only; omega)
        (by dsimp only; omega) (UInt64.le_refl _) ?_
      rw [UInt64.lt_iff_toNat_lt] at hlt
      exact (hs.entryAt_eq _).trans (l.entryAt_eq_none (by omega))
    · rw [if_neg hlt]
      exact ⟨iff_of_true hright (UInt64.not_lt.mp hlt),fun _ => ⟨l,hs⟩⟩

lemma createSnapshot_step {index : UInt64} {cs : ConfState} {data : Bytes}
    (hs : Represents s l) (hright : History.TermsRight ⟨s,terms⟩)
    (hproper : (Call.createSnapshot index cs data).Proper s) :
    (History.TermsRight ⟨(s.createSnapshot w index cs data).1,terms⟩ ↔
        (Call.createSnapshot index cs data).KeepsTerms s w) ∧
      ((Call.createSnapshot index cs data).KeepsTerms s w →
        ∃ l', Represents (s.createSnapshot w index cs data).1 l') := by
  have hsfirst := hs.first
  have hpos := hs.pos
  have hpred := toNat_pred (by omega : 1 ≤ s.firstIndex.toNat)
  obtain ⟨hlo,hhi⟩ := hproper
  rw [UInt64.le_iff_toNat_le] at hlo
  obtain ⟨e,he⟩ := hs.exists_entryAt hlo hhi
  have hne : index ≠ s.firstIndex-1 := by
    rintro rfl
    omega
  obtain ⟨snap,hsnap⟩ : ∃ snap : Snapshot, snap = ⟨data,index,e.term,cs⟩ := ⟨_,rfl⟩
  have hcall : s.createSnapshot w index cs data =
      if w then ({ s with db := s.db.insert (snapshotKey s.nodeID) (.snapshot snap) },.ok snap)
      else (s,.error "failed to save snapshot") := by
    rw [hsnap,RocksDBStorage.createSnapshot,if_neg (by rw [UInt64.lt_iff_toNat_lt]; omega),
      if_neg (UInt64.not_lt.mpr hhi),RocksDBStorage.snapshotTerm,if_neg hne,he]
  cases w with
  | false =>
    rw [hcall]
    exact ⟨iff_of_true hright (fun h => absurd h (by simp)),fun _ => ⟨l,hs⟩⟩
  | true =>
  obtain ⟨hexact,hnext⟩ := exact_iff_keepsBounds (c := .createSnapshot index cs data) hs
    ⟨true,snap,hcall⟩ trivial
  obtain ⟨l',ht⟩ := hnext trivial
  obtain ⟨hentries,hboundary⟩ := (termsRight_iff hs).mp hright
  rw [hcall]
  refine ⟨?_,fun _ => ⟨l',ht⟩⟩
  have hnew : boundaryTerm { s with db := s.db.insert (snapshotKey s.nodeID) (.snapshot snap) } =
      if s.firstIndex-1 = 0 then .ok 0 else .error RocksDBStorage.errCompacted := by
    simp only [boundaryTerm,RocksDBStorage.loadSnapshotUnsafe,ExtTreeMap.getElem?_insert_self]
    rw [if_neg]
    simp [hsnap,hne]
  have hone : s.firstIndex-1 = 0 ↔ s.firstIndex = 1 := by
    rw [← UInt64.toNat_inj,← UInt64.toNat_inj,hpred]
    have h1 : (1 : UInt64).toNat = 1 := rfl
    have h0 : (0 : UInt64).toNat = 0 := rfl
    omega
  refine (termsRight_iff ht).trans ?_
  rw [hnew]
  constructor
  · rintro ⟨-,h⟩ -
    by_contra hfirst
    rw [if_neg (hone.not.mpr hfirst)] at h
    cases h
  · intro hkeeps
    have hfirst := hone.mpr (hkeeps rfl)
    obtain ⟨-,-,-,hrecords⟩ := createSnapshot_inv hcall
    refine ⟨fun i x hx => hentries i x ?_,?_⟩
    · rw [RocksDBStorage.entryAt] at hx ⊢
      rwa [hrecords] at hx
    · -- nothing lies before the first entry, so the old answer was 0 too
      rw [if_pos hfirst]
      dsimp only
      rw [← hboundary,boundaryTerm,hfirst,if_neg,if_pos rfl]
      simp [RocksDBStorage.isEmptySnap]

lemma compact_step {index : UInt64} (hs : Represents s l)
    (hright : History.TermsRight ⟨s,terms⟩) (hproper : (Call.compact index).Proper s) :
    (History.TermsRight ⟨(s.compact w index).1,terms⟩ ↔ (Call.compact index).KeepsTerms s w) ∧
      ((Call.compact index).KeepsTerms s w → ∃ l', Represents (s.compact w index).1 l') := by
  have hsfirst := hs.first
  have hpos := hs.pos
  by_cases hout : index ≤ s.firstIndex ∨ s.lastIndex < index
  · have hsame : (s.compact w index).1 = s := by
      rw [RocksDBStorage.compact]
      split_ifs with h1 h2
      · rfl
      · rfl
      · exact (hout.elim h1 h2).elim
      · rfl
    rw [hsame]
    exact ⟨iff_of_true hright (fun _ => hout),fun _ => ⟨l,hs⟩⟩
  obtain ⟨hfirst,hlast⟩ := not_or.mp hout
  cases w with
  | false =>
    have hsame : (s.compact false index).1 = s := by
      rw [RocksDBStorage.compact,if_neg hfirst,if_neg hlast]
      rfl
    rw [hsame]
    exact ⟨iff_of_true hright (fun h => absurd h (by simp)),fun _ => ⟨l,hs⟩⟩
  | true =>
  have hcall : s.compact true index = ((s.compact true index).1,.ok ()) := by
    rw [RocksDBStorage.compact,if_neg hfirst,if_neg hlast]
    rfl
  have hkeeps : ¬ (Call.compact index).KeepsTerms s true := fun h => hout (h rfl)
  refine ⟨iff_of_false ?_ hkeeps,fun h => absurd h hkeeps⟩
  obtain ⟨-,hnext⟩ := exact_iff_keepsBounds (c := .compact index) hs ⟨true,hcall⟩ trivial
  obtain ⟨l',ht⟩ := hnext trivial
  obtain ⟨hlt,-,hnode,htfirst,-,-⟩ := compact_inv hcall
  obtain ⟨-,-,-,hsnap⟩ := compact_fixed hcall (by decide : Fixed (ascii "snapshot_meta"))
  rw [if_neg (by decide)] at hsnap
  have hpred := toNat_pred (by omega : 1 ≤ index.toNat)
  have h0 : (0 : UInt64).toNat = 0 := rfl
  have hstored := getElem?_snapshotKey (by omega)
    (hlt.le.trans (UInt64.le_iff_toNat_le.mp hproper))
  have hload : (s.compact true index).1.loadSnapshotUnsafe = s.loadSnapshotUnsafe := by
    rw [RocksDBStorage.loadSnapshotUnsafe,hnode,snapshotKey,hsnap]
    rw [snapshotKey] at hstored
    rw [hstored]
  intro hnew
  have hboundary := ((termsRight_iff ht).mp hnew).2
  rw [boundaryTerm,hload,htfirst,if_neg,if_neg] at hboundary
  · cases hboundary
  · rw [← UInt64.toNat_inj,hpred]
    omega
  · have hne : s.loadSnapshotUnsafe.index ≠ index-1 := by
      intro heq
      have hle := UInt64.le_iff_toNat_le.mp hproper
      rw [heq] at hle
      omega
    simp [hne]

end Steps

lemma History.step_iff {h u : History} {w : Bool} {c : Call} (hs : ∃ l, Represents h.storage l)
    (hright : h.TermsRight) (hstep : h.step (w,c) = some u) :
    (u.TermsRight ↔ c.KeepsTerms h.storage w) ∧
      (c.KeepsTerms h.storage w → ∃ l, Represents u.storage l) := by
  obtain ⟨l,hs⟩ := hs
  unfold History.step at hstep
  split_ifs at hstep with hproper
  obtain ⟨⟨t,r⟩,hrun,rfl⟩ := Option.map_eq_some_iff.mp hstep
  cases c with
  | append entries => exact append_step hs hright hproper hrun
  | applySnapshot snap => exact applySnapshot_step hs hright hrun
  | createSnapshot index cs data =>
    obtain ⟨rfl,-⟩ := Prod.mk.inj (Option.some.inj hrun)
    simp only [Call.note,ite_self]
    exact createSnapshot_step hs hright hproper
  | compact index =>
    obtain ⟨rfl,-⟩ := Prod.mk.inj (Option.some.inj hrun)
    simp only [Call.note,ite_self]
    exact compact_step hs hright hproper

def newHistory (db : Database) (nodeID : Bytes) : History :=
  ⟨newRocksDBStorage db nodeID,fun _ => 0⟩

lemma termsRight_new {db : Database} {nodeID : Bytes} (h : Fresh db nodeID) :
    (newHistory db nodeID).TermsRight := by
  have hs := represents_new h
  have hfirst : (newRocksDBStorage db nodeID).firstIndex = 1 := UInt64.toNat_inj.mp hs.first
  refine (termsRight_iff hs).mpr ⟨fun i e he => ?_,?_⟩
  · rw [hs.entryAt_eq,Log.entryAt] at he
    simp at he
  · rw [boundaryTerm,hfirst,if_neg,if_pos (by decide)]
    simp [RocksDBStorage.isEmptySnap]

/-- In every run of proper calls on a new storage, `Term` keeps its contract in every state
reached if and only if every append ends at or behind the last index, no snapshot is created in
a log that starts behind 1 and no compaction succeeds, but for calls whose write fails, which
must not reach behind the last index, and snapshots at the largest index. -/
theorem term_contract_iff {db : Database} {nodeID : Bytes} (hfresh : Fresh db nodeID)
    (calls : List (Bool × Call)) :
    EveryState History.step History.TermsRight (newHistory db nodeID) calls ↔
      EveryStep History.step (fun h l _ => l.2.KeepsTerms h.storage l.1) (newHistory db nodeID)
        calls := by
  have hstep : ∀ (h : History) (l : Bool × Call) (u : History), (∃ g, Represents h.storage g) →
      h.TermsRight → h.step l = some u →
      (u.TermsRight ↔ l.2.KeepsTerms h.storage l.1) ∧
        (l.2.KeepsTerms h.storage l.1 → ∃ g, Represents u.storage g) :=
    fun h l u hs hright hu => History.step_iff hs hright hu
  exact always_iff_of_invariant hstep ⟨_,represents_new hfresh⟩ (termsRight_new hfresh) calls

/-- Three entries and a snapshot of the first two. -/
theorem term_contract_with_snapshot :
    let calls : List (Bool × Call) :=
      [(true,.append [⟨1,1,.normal,[]⟩,⟨1,2,.normal,[]⟩,⟨1,3,.normal,[]⟩]),
        (true,.createSnapshot 2 {} [])]
    (calls.foldlM History.step (newHistory ∅ (ascii "node_1"))).isSome ∧
    EveryState History.step History.TermsRight (newHistory ∅ (ascii "node_1")) calls := by
  intro calls
  refine ⟨by decide,(term_contract_iff (fun key => by simp) calls).mpr ?_⟩
  refine everyStep_cons.mpr fun h hh => ⟨?_,everyStep_cons.mpr fun u _ => ⟨fun _ => ?_,
    everyStep_nil u⟩⟩
  · rintro last ⟨⟩
    decide
  · have hfirst : (History.step (newHistory ∅ (ascii "node_1"))
        (true,.append [⟨1,1,.normal,[]⟩,⟨1,2,.normal,[]⟩,⟨1,3,.normal,[]⟩])).map
          (fun h => h.storage.firstIndex) = some 1 := by decide
    rw [hh] at hfirst
    exact Option.some.inj hfirst

/-- After three entries, a snapshot of the first two and the compaction of the first one, the
first index is 2 and the term before it is lost. -/
theorem term_lost_by_compaction :
    let calls : List (Bool × Call) :=
      [(true,.append [⟨1,1,.normal,[]⟩,⟨1,2,.normal,[]⟩,⟨1,3,.normal,[]⟩]),
        (true,.createSnapshot 2 {} []),(true,.compact 2)]
    (calls.foldlM History.step (newHistory ∅ (ascii "node_1"))).map (fun h =>
        (h.storage.firstIndex,h.storage.lastIndex,h.terms 1,h.storage.term 1)) =
      some (2,3,1,.error RocksDBStorage.errCompacted) := by
  intro calls
  rfl

end MetaStore.RocksDB
