import MetaStore.RocksDB.RaftLogFields

/-! What the raft storage answers. `Entries` returns as much of the range as fits, and a call whose
write fails may leave bounds in memory that the database does not have. -/
namespace MetaStore.RocksDB

section Entries
variable {s : RocksDBStorage} {entSize : Entry → UInt64}
variable {is : List UInt64} {es : List Entry}

def totalSize (entSize : Entry → UInt64) (es : List Entry) : ℕ :=
  (es.map fun e => (entSize e).toNat).sum

@[simp] lemma totalSize_nil : totalSize entSize [] = 0 := rfl

@[simp] lemma totalSize_append (es es' : List Entry) :
    totalSize entSize (es ++ es') = totalSize entSize es+totalSize entSize es' := by
  simp [totalSize]

@[simp] lemma totalSize_cons (e : Entry) (es : List Entry) :
    totalSize entSize (e :: es) = (entSize e).toNat+totalSize entSize es := by
  simp [totalSize]

def Fits (entSize : Entry → UInt64) (maxSize : UInt64) (es : List Entry) : Prop :=
  es.length = 1 ∨ totalSize entSize es ≤ maxSize.toNat

/-- The loop takes `k` more entries; it stops at the end or before the entry that does not fit. -/
lemma entriesLoop_eq (hpos : ∀ e, 0 < entSize e)
    (his : is.map s.entryAt = es.map some) {ents : List Entry} {size : UInt64}
    (hsize : size.toNat = totalSize entSize ents)
    (hsum : totalSize entSize (ents ++ es) < 2^64) (maxSize : UInt64) :
    ∃ k ≤ es.length, s.entriesLoop entSize maxSize is ents size = .ok (ents ++ es.take k) ∧
      (k ≠ 0 → Fits entSize maxSize (ents ++ es.take k)) ∧
      (k < es.length → ents ++ es.take k ≠ [] ∧
        maxSize.toNat < totalSize entSize (ents ++ es.take (k+1))) := by
  induction es generalizing is ents size with
  | nil =>
    obtain rfl := List.map_eq_nil_iff.mp his
    exact ⟨0,le_rfl,by simp [RocksDBStorage.entriesLoop],by simp,by simp⟩
  | cons e es ih =>
    obtain ⟨i,is,rfl,hi,his⟩ := List.map_eq_cons_iff.mp his
    have hadd : (size+entSize e).toNat = totalSize entSize (ents ++ [e]) := by
      simp only [totalSize_append,totalSize_cons,totalSize_nil] at hsum ⊢
      rw [UInt64.toNat_add,hsize,Nat.mod_eq_of_lt (by omega)]
      omega
    rw [RocksDBStorage.entriesLoop,hi]
    dsimp only
    by_cases hstop : 0 < size ∧ maxSize < size+entSize e
    · rw [if_pos hstop]
      refine ⟨0,Nat.zero_le _,by simp,by simp,fun _ => ⟨?_,?_⟩⟩
      · rintro hnil
        rw [List.take_zero,List.append_nil] at hnil
        rw [hnil] at hsize
        exact absurd (UInt64.lt_iff_toNat_lt.mp hstop.1) (by simp [hsize])
      · have hlt := UInt64.lt_iff_toNat_lt.mp hstop.2
        simpa [hadd] using hlt
    · rw [if_neg hstop]
      obtain ⟨k,hk,hloop,hfits,hnext⟩ := ih his hadd (by simpa using hsum)
      refine ⟨k+1,by simpa using hk,by simpa using hloop,fun _ => ?_,fun hlt => ?_⟩
      · by_cases hk0 : k = 0
        · -- the entry is the first one, or the sum with it is within the limit
          subst hk0
          rw [not_and_or,UInt64.not_lt,UInt64.not_lt,UInt64.le_iff_toNat_le,UInt64.le_iff_toNat_le,
            hadd] at hstop
          rcases hstop with hzero | hle
          · cases ents with
            | nil => exact .inl rfl
            | cons e' ents =>
              have := UInt64.lt_iff_toNat_lt.mp (hpos e')
              simp only [totalSize_cons,UInt64.toNat_zero] at hsize hzero this
              omega
          · exact .inr (by simpa using hle)
        · simpa using hfits hk0
      · simpa using hnext (by simpa using hlt)

/-- The stored entries `lo,...,hi-1`. -/
def RocksDBStorage.slice (s : RocksDBStorage) (lo hi : UInt64) : List Entry :=
  (indexesBelow lo hi).filterMap s.entryAt

def Complete (s : RocksDBStorage) : Prop :=
  ∀ i, s.firstIndex ≤ i → i ≤ s.lastIndex → ∃ e, s.entryAt i = some e ∧ e.index = i

lemma filterMap_entryAt (h : ∀ i ∈ is, ∃ e, s.entryAt i = some e ∧ e.index = i) :
    is.map s.entryAt = (is.filterMap s.entryAt).map some ∧
      (is.filterMap s.entryAt).map Entry.index = is := by
  induction is with
  | nil => exact ⟨rfl,rfl⟩
  | cons i is ih =>
    obtain ⟨e,he,hindex⟩ := h i List.mem_cons_self
    obtain ⟨hmap,hindexes⟩ := ih fun j hj => h j (List.mem_cons_of_mem i hj)
    rw [List.filterMap_cons_some he,List.map_cons,List.map_cons,List.map_cons,he,hmap,hindex,hindexes]
    exact ⟨rfl,rfl⟩

lemma Complete.slice (hs : Complete s) {lo hi : UInt64} (hlo : s.firstIndex ≤ lo) (hlt : lo < hi)
    (hhi : hi ≤ s.lastIndex+1) :
    (indexesBelow lo hi).map s.entryAt = (s.slice lo hi).map some ∧
      (s.slice lo hi).map Entry.index = indexesBelow lo hi := by
  refine filterMap_entryAt fun i hi' => ?_
  obtain ⟨hle,hlt'⟩ := (mem_indexesBelow (UInt64.le_of_lt hlt) i).mp hi'
  refine hs i (UInt64.le_trans hlo (UInt64.le_iff_toNat_le.mpr hle)) ?_
  rw [UInt64.le_iff_toNat_le,UInt64.toNat_add] at *
  have hlast := s.lastIndex.toNat_lt
  simp only [UInt64.toNat_one] at hhi
  omega

structure Longest (entSize : Entry → UInt64) (maxSize : UInt64) (all es : List Entry) : Prop where
  nonempty : es ≠ []
  isPrefix : es <+: all
  fits : Fits entSize maxSize es
  longest : ∀ p, p <+: all → p ≠ [] → Fits entSize maxSize p → p.length ≤ es.length

lemma totalSize_le_of_prefix {p : List Entry} (h : p <+: es) :
    totalSize entSize p ≤ totalSize entSize es := by
  obtain ⟨rest,rfl⟩ := h
  rw [totalSize_append]
  exact Nat.le_add_right _ _

lemma longest_entriesLoop (hpos : ∀ e, 0 < entSize e)
    (his : is.map s.entryAt = es.map some) (hne : es ≠ []) (hsum : totalSize entSize es < 2^64)
    (maxSize : UInt64) :
    ∃ es', s.entriesLoop entSize maxSize is [] 0 = .ok es' ∧ Longest entSize maxSize es es' := by
  have hzero : (0 : UInt64).toNat = totalSize entSize [] := rfl
  obtain ⟨k,hk,hloop,hfits,hnext⟩ := entriesLoop_eq hpos his hzero (by simpa using hsum) maxSize
  simp only [List.nil_append] at hloop hfits hnext
  have hlength := List.length_pos_of_ne_nil hne
  have hk0 : k ≠ 0 := by
    rintro rfl
    exact (hnext hlength).1 List.take_zero
  refine ⟨es.take k,hloop,?_,List.take_prefix k es,hfits hk0,fun p hp _ hpfits => ?_⟩
  · simp [hne,hk0]
  · -- a longer part has the entry that does not fit
    by_contra hlt
    rw [List.length_take_of_le hk,not_le] at hlt
    have hover := (hnext (hlt.trans_le hp.length_le)).2
    have hle : totalSize entSize (es.take (k+1)) ≤ totalSize entSize p := by
      rw [List.prefix_iff_eq_take.mp hp]
      exact totalSize_le_of_prefix (List.take_prefix_take_left hlt)
    rcases hpfits with hone | hfit <;> omega

end Entries

inductive Mutation
  | append (entries : List Entry)
  | applySnapshot (snap : Snapshot)
  | compact (compactIndex : UInt64)

namespace Mutation

/-- What the call leaves and returns; an endless loop is `none`. -/
def run (writeOK : Bool) (s : RocksDBStorage) : Mutation → Option (RocksDBStorage × Except String Unit)
  | append entries => s.append writeOK entries
  | applySnapshot snap => s.applySnapshot writeOK snap
  | compact compactIndex => some (s.compact writeOK compactIndex)

/-- A call that changes no bound in memory before its write: an append within the log, a snapshot
that is out of date or within the log. -/
def Harmless (s : RocksDBStorage) : Mutation → Prop
  | append entries => ∀ e ∈ entries.head?, ∀ last ∈ entries.getLast?, last.index ≤ s.lastIndex ∧
      (s.firstIndex ≤ s.lastIndex ∨ e.index = s.firstIndex)
  | applySnapshot snap => snap.index ≤ s.firstIndex-1 ∨ snap.index ≤ s.lastIndex
  | compact _ => True

end Mutation

/-- A call leaves the bounds that are stored, and if it fails it changes no answer. -/
structure Sound (s t : RocksDBStorage) (result : Except String Unit) : Prop where
  synced : Synced t
  reopened : newRocksDBStorage t.db t.nodeID = t
  bounds : ∀ err, result = .error err → t.firstIndex = s.firstIndex ∧ t.lastIndex = s.lastIndex
  entries : ∀ err, result = .error err → ∀ entSize lo hi maxSize,
    t.entriesBetween entSize lo hi maxSize = s.entriesBetween entSize lo hi maxSize
  term : ∀ err, result = .error err → ∀ i, t.term i = s.term i

section Failures
variable {s t : RocksDBStorage} {m : Mutation} {result : Except String Unit}

lemma Synced.sound (ht : Synced t) (h : ∀ err, result = .error err → t = s) : Sound s t result where
  synced := ht
  reopened := newRocksDBStorage_of_synced ht
  bounds err he := by rw [h err he]; exact ⟨rfl,rfl⟩
  entries err he := by rw [h err he]; exact fun _ _ _ _ => rfl
  term err he := by rw [h err he]; exact fun _ => rfl

lemma Synced.eq (hs : Synced s) (ht : Synced t) (hdb : t.db = s.db) (hnode : t.nodeID = s.nodeID) :
    t = s := by
  rw [← newRocksDBStorage_of_synced hs,← newRocksDBStorage_of_synced ht,hdb,hnode]

lemma Synced.run (hs : Synced s) (h : m.run true s = some (t,result)) : Sound s t result := by
  cases result with
  | ok _ =>
    refine Synced.sound ?_ fun err he => by cases he
    cases m with
    | append entries => exact hs.append h
    | applySnapshot snap => exact hs.applySnapshot h
    | compact c => exact hs.compact (Option.some.inj h)
  | error err =>
    have heq : t = s := by
      cases m with
      | append entries =>
        cases entries with
        | nil => cases h
        | cons e rest =>
          obtain ⟨old,-,hold⟩ := Option.map_eq_some_iff.mp h
          cases hold
      | applySnapshot snap => exact applySnapshot_error h
      | compact c =>
        have h := Option.some.inj h
        unfold RocksDBStorage.compact at h
        split_ifs at h <;> cases h <;> rfl
    subst heq
    exact hs.sound fun _ _ => rfl

lemma run_false (h : m.run false s = some (t,result)) :
    t.db = s.db ∧ t.nodeID = s.nodeID ∧ (t = s ↔ m.Harmless s) := by
  have hmoved : ∀ first last : UInt64, ({ s with firstIndex := first, lastIndex := last } = s) ↔
      first = s.firstIndex ∧ last = s.lastIndex := by
    obtain ⟨db,nodeID,firstIndex,lastIndex⟩ := s
    simp
  cases m with
  | append entries =>
    cases entries with
    | nil =>
      cases h
      exact ⟨rfl,rfl,iff_of_true rfl fun e he => by cases he⟩
    | cons e rest =>
      obtain ⟨old,-,hold⟩ := Option.map_eq_some_iff.mp h
      cases hold
      refine ⟨rfl,rfl,(hmoved _ _).trans ?_⟩
      simp only [Mutation.Harmless,List.head?_cons,Option.mem_some_iff,forall_eq',
        List.getLast?_eq_some_getLast (List.cons_ne_nil e rest),← UInt64.not_lt]
      by_cases hlt : s.lastIndex < ((e :: rest).getLast (List.cons_ne_nil e rest)).index
      · rw [if_pos hlt]
        exact iff_of_false (fun hc => UInt64.ne_of_lt hlt hc.2.symm) fun hc => hc.1 hlt
      · rw [if_neg hlt,and_iff_left rfl,and_iff_right hlt,ite_eq_right_iff,imp_iff_not_or]
  | applySnapshot snap =>
    have h : s.applySnapshot false snap = some (t,result) := h
    unfold RocksDBStorage.applySnapshot at h
    by_cases hempty : RocksDBStorage.isEmptySnap snap
    · rw [if_pos hempty] at h
      cases h
      have hzero : snap.index = 0 := by simpa [RocksDBStorage.isEmptySnap] using hempty
      refine ⟨rfl,rfl,iff_of_true rfl (.inr ?_)⟩
      rw [hzero]
      exact UInt64.le_iff_toNat_le.mpr (Nat.zero_le _)
    by_cases hold : snap.index ≤ s.firstIndex-1
    · rw [if_neg hempty,if_pos hold] at h
      cases h
      exact ⟨rfl,rfl,iff_of_true rfl (.inl hold)⟩
    rw [if_neg hempty,if_neg hold] at h
    obtain ⟨old,-,h⟩ := Option.map_eq_some_iff.mp h
    cases h
    refine ⟨rfl,rfl,(hmoved _ _).trans ?_⟩
    rw [Mutation.Harmless,or_iff_right hold,and_iff_right rfl,← UInt64.not_lt]
    by_cases hlt : s.lastIndex < snap.index
    · rw [if_pos hlt]
      exact iff_of_false (UInt64.ne_of_lt hlt).symm (not_not.mpr hlt)
    · rw [if_neg hlt]
      exact iff_of_true rfl hlt
  | compact c =>
    have h := Option.some.inj h
    rw [RocksDBStorage.compact,if_neg Bool.false_ne_true] at h
    split_ifs at h <;> cases h <;> exact ⟨rfl,rfl,iff_of_true rfl trivial⟩

lemma Synced.sound_iff (hs : Synced s) {writeOK : Bool} (h : m.run writeOK s = some (t,result)) :
    Sound s t result ↔ (writeOK = false → m.Harmless s) := by
  cases writeOK with
  | true => exact iff_of_true (hs.run h) (by simp)
  | false =>
    obtain ⟨hdb,hnode,hharmless⟩ := run_false h
    rw [← hharmless,eq_self,true_imp_iff]
    refine ⟨fun hsound => hs.eq hsound.synced hdb hnode,?_⟩
    rintro rfl
    exact hs.sound fun _ _ => rfl

end Failures

/-- `P` holds of every call of a sequence, each with the fate of its write. -/
def EachCall (P : RocksDBStorage → Mutation → Bool → RocksDBStorage → Except String Unit → Prop) :
    RocksDBStorage → List (Mutation × Bool) → Prop
  | _,[] => True
  | s,(m,writeOK) :: calls =>
    ∀ t result, m.run writeOK s = some (t,result) → P s m writeOK t result ∧ EachCall P t calls

/-- The bounds in memory are those in the database after every call exactly if the calls whose writes
fail are harmless. -/
theorem caches_on_disk_iff (db : Database) (nodeID : Bytes) (calls : List (Mutation × Bool)) :
    EachCall (fun s _ _ t result => Sound s t result) (newRocksDBStorage db nodeID) calls ↔
      EachCall (fun s m writeOK _ _ => writeOK = false → m.Harmless s)
        (newRocksDBStorage db nodeID) calls := by
  suffices hall : ∀ s, Synced s → (EachCall (fun s _ _ t result => Sound s t result) s calls ↔
      EachCall (fun s m writeOK _ _ => writeOK = false → m.Harmless s) s calls) from
    hall _ (synced_newRocksDBStorage db nodeID)
  induction calls with
  | nil => exact fun _ _ => Iff.rfl
  | cons call calls ih =>
    intro s hs
    refine forall₂_congr fun t result => forall_congr' fun h => ?_
    dsimp only
    rw [← hs.sound_iff h]
    exact and_congr_right fun hsound => ih t hsound.synced

/-- The first append fails: the bounds in memory have its entry, the database does not. -/
theorem caches_ahead_of_disk :
    let s := newRocksDBStorage ∅ []
    ∃ t, s.append false [⟨1,1,.normal,[]⟩] = some (t,.error "write failed") ∧ s.lastIndex = 0 ∧
      t.lastIndex = 1 ∧ (newRocksDBStorage t.db t.nodeID).lastIndex = 0 :=
  ⟨_,rfl,rfl,rfl,rfl⟩

end MetaStore.RocksDB
