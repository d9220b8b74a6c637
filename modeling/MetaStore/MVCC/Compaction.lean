import MetaStore.MVCC.CompactedItems
import MetaStore.MVCC.Reads

/-! Which compactions go unnoticed. `Compact` drops every revision before its target, also the
newest one of a key that lives on, and the mark of a key whose deletion is kept. A compaction
that meets neither case gives a store that answers like the one before it, now and after any
further calls. -/
namespace MetaStore.MVCC
open Std

/-! ### A store and its compaction -/

/-- Two stores that differ by a compaction at `c` and agree on everything written since. -/
structure Twins (c : ℤ) (s s' : MemoryStore) : Prop where
  positive : 0 < c
  reached : c ≤ s.current.main
  closed : s'.closed = s.closed
  current : s'.current = s.current
  uncompacted : s.compactedRev.lessThan ⟨c,0⟩ = true
  compacted : s'.compactedRev = ⟨c,0⟩
  records : ∀ rev : Revision, s'.revisionStore[rev]? =
    (s.revisionStore[rev]?).filter fun _ => rev.greaterThanOrEqual ⟨c,0⟩
  items : ∀ key, (s.item key).Twin c (s'.item key)
  -- nothing that a read at `c` could still return has been dropped
  dropped : ∀ key, key ≠ [] → ∀ rev, KeyItem.newest ⟨c,0⟩ (s.item key).generations = some rev →
    rev.greaterThanOrEqual ⟨c,0⟩ = false → s.record rev = none

namespace Twins
variable {c : ℤ} {s s' : MemoryStore}
variable {rev : Revision} {key : Bytes}

lemma record_eq (h : Twins c s s') (hrev : rev.greaterThanOrEqual ⟨c,0⟩ = true) :
    s'.revisionStore[rev]? = s.revisionStore[rev]? := by
  rw [h.records]
  cases s.revisionStore[rev]? <;> simp [hrev]

lemma liveItem_eq_none_iff (h : Twins c s s') (key : Bytes) :
    s'.liveItem key = none ↔ s.liveItem key = none := by
  rw [MemoryStore.liveItem_eq_none,MemoryStore.liveItem_eq_none,(h.items key).deleted]

lemma lastRecord_eq (h : Twins c s s') {ki ki' : KeyItem}
    (hki : s.liveItem key = some ki) (hki' : s'.liveItem key = some ki') :
    s'.lastRecord ki' = s.lastRecord ki := by
  obtain ⟨hlive,rfl⟩ := MemoryStore.liveItem_eq_some.1 hki
  obtain ⟨-,rfl⟩ := MemoryStore.liveItem_eq_some.1 hki'
  have htwin := h.items key
  rw [MemoryStore.lastRecord,MemoryStore.lastRecord,htwin.lastRevision_eq hlive,
    h.record_eq (htwin.last hlive)]

lemma liveItem_cases (h : Twins c s s') (key : Bytes) :
    (s.liveItem key = none ∧ s'.liveItem key = none) ∨
      ∃ ki ki', s.liveItem key = some ki ∧ s'.liveItem key = some ki' ∧
        s'.lastRecord ki' = s.lastRecord ki := by
  cases hki : s.liveItem key with
  | none => exact .inl ⟨rfl,(h.liveItem_eq_none_iff key).2 hki⟩
  | some ki =>
    cases hki' : s'.liveItem key with
    | none => exact absurd ((h.liveItem_eq_none_iff key).1 hki') (by simp [hki])
    | some ki' => exact .inr ⟨ki,ki',rfl,rfl,h.lastRecord_eq hki hki'⟩

lemma liveRecord_eq (h : Twins c s s') : s'.liveRecord = s.liveRecord := by
  funext key
  unfold MemoryStore.liveRecord
  obtain ⟨hnone,hnone'⟩ | ⟨ki,ki',hki,hki',hlast⟩ := h.liveItem_cases key
  · rw [hnone,hnone',Option.bind_none,Option.bind_none]
  · rw [hki,hki']
    exact hlast

lemma previousInfo_eq (h : Twins c s s') (rev : Revision) (key : Bytes) :
    s'.previousInfo rev key = s.previousInfo rev key := by
  unfold MemoryStore.previousInfo
  obtain ⟨hnone,hnone'⟩ | ⟨ki,ki',hki,hki',hlast⟩ := h.liveItem_cases key
  · rw [hnone,hnone']
  · simp only [hki,hki',hlast]

lemma visit_zero (h : Twins c s s') (key : Bytes) :
    KeyIndex.visit .zero (key,s'.item key) = KeyIndex.visit .zero (key,s.item key) := by
  have htwin := h.items key
  have hzero : Revision.zero.isZero = true := rfl
  simp only [KeyIndex.visit,hzero,if_true,htwin.deleted]
  cases hdel : (s.item key).isDeleted with
  | true => rfl
  | false => simp only [htwin.lastRevision_eq hdel]

lemma keysToDelete_eq (h : Twins c s s') (start : Bytes) (stop : Option Bytes) :
    s'.keysToDelete start stop = s.keysToDelete start stop := by
  have hrange : (s'.keyIndex.range start stop .zero).filterMap some =
      (s.keyIndex.range start stop .zero).filterMap some :=
    MemoryStore.range_filterMap_congr fun key _ => by rw [h.visit_zero key]
  rw [List.filterMap_some,List.filterMap_some] at hrange
  rw [MemoryStore.keysToDelete,MemoryStore.keysToDelete,hrange]

lemma executeGet_eq (h : Twins c s s') (op : Op) : s'.executeGet op = s.executeGet op := by
  unfold MemoryStore.executeGet
  cases op.stop with
  | none => simp only [h.liveRecord_eq]
  | some stop =>
    simp only
    congr 1
    refine MemoryStore.range_filterMap_congr fun key _ => ?_
    rw [h.visit_zero key]
    cases hvisit : KeyIndex.visit .zero (key,s.item key) with
    | none => rfl
    | some found =>
      obtain ⟨hlive,-,rfl⟩ := KeyIndex.visit_zero_eq_some_iff.1 hvisit
      simp only [Option.bind_some,h.record_eq ((h.items key).last hlive)]

lemma write (h : Twins c s s') {t t' : MemoryStore} {kv : KeyValue}
    {new new' : KeyItem} (w : MemoryStore.WritesItem s t key rev kv new)
    (w' : MemoryStore.WritesItem s' t' key rev kv new') (hrev : c < rev.main)
    (htwin : new.Twin c new')
    (hnewest : KeyItem.newest ⟨c,0⟩ new.generations =
      KeyItem.newest ⟨c,0⟩ (s.item key).generations) : Twins c t t' where
  positive := h.positive
  reached := by rw [w.current]; exact h.reached
  closed := by rw [w'.closed,w.closed,h.closed]
  current := by rw [w'.current,w.current,h.current]
  uncompacted := by rw [w.compacted]; exact h.uncompacted
  compacted := by rw [w'.compacted]; exact h.compacted
  records r := by
    rw [w.store,w'.store,ExtTreeMap.getElem?_insert,ExtTreeMap.getElem?_insert]
    split
    · next heq =>
      obtain rfl := LawfulEqCmp.eq_of_compare heq
      have hge : rev.greaterThanOrEqual ⟨c,0⟩ = true :=
        Revision.greaterThanOrEqual_iff.2 (Or.inl hrev)
      rw [hge]
      rfl
    · exact h.records r
  items k := by
    obtain rfl | hk := eq_or_ne k key
    · rwa [w.self,w'.self]
    · rw [w.other k hk,w'.other k hk]
      exact h.items k
  dropped k hk r hr hlt := by
    have hold : KeyItem.newest ⟨c,0⟩ (s.item k).generations = some r := by
      obtain rfl | hne := eq_or_ne k key
      · rwa [w.self,hnewest] at hr
      · rwa [w.other k hne] at hr
    have hne : ¬ compare rev r = .eq := by
      intro heq
      obtain rfl := LawfulEqCmp.eq_of_compare heq
      have hlt := mt Revision.greaterThanOrEqual_iff.2 (Bool.eq_false_iff.1 hlt)
      exact hlt (Or.inl hrev)
    have := h.dropped k hk r hold hlt
    rwa [MemoryStore.record,w.store,ExtTreeMap.getElem?_insert,if_neg hne]

lemma after_target (hrev : c < rev.main) :
    rev.greaterThanOrEqual ⟨c,0⟩ = true ∧ rev.lessThanOrEqual ⟨c,0⟩ = false := by
  rw [← Bool.not_eq_true,Revision.greaterThanOrEqual_iff,Revision.lessThanOrEqual_iff]
  dsimp only
  omega

lemma putAt (h : Twins c s s') (hrev : c < rev.main) (key value : Bytes)
    (lease : ℤ) : Twins c (s.putAt rev key value lease) (s'.putAt rev key value lease) := by
  obtain ⟨hge,hle⟩ := after_target hrev
  have w' := s'.putAt_writesItem rev key value lease
  rw [h.previousInfo_eq] at w'
  exact h.write (s.putAt_writesItem rev key value lease) w' hrev ((h.items key).put hge)
    (KeyItem.newest_of_concat hle ((s.item key).revisions_put rev))

lemma tombstone (h : Twins c s s') (hrev : c < rev.main)
    {ki ki' : KeyItem} (hki : s.liveItem key = some ki) (hki' : s'.liveItem key = some ki') :
    Twins c (s.tombstone rev key ki) (s'.tombstone rev key ki') := by
  obtain ⟨hge,hle⟩ := after_target hrev
  have hlive := (MemoryStore.liveItem_eq_some.1 hki).1
  have w' := s'.tombstone_writesItem rev key ki'
  rw [h.lastRecord_eq hki hki'] at w'
  exact h.write (s.tombstone_writesItem rev key ki) w' hrev ((h.items key).delete hlive hge)
    (KeyItem.newest_of_concat hle (KeyItem.revisions_delete hlive rev))

lemma deleteKeys {base : Revision} (hbase : c < base.main) (keys : List Bytes) (h : Twins c s s')
    (i deleted last : ℤ) :
    let done := MemoryStore.deleteKeys base i keys (s,deleted,last)
    let done' := MemoryStore.deleteKeys base i keys (s',deleted,last)
    Twins c done.1 done'.1 ∧ done'.2 = done.2 := by
  induction keys generalizing s s' i deleted last with
  | nil => exact ⟨h,rfl⟩
  | cons key keys ih =>
    rw [MemoryStore.deleteKeys,MemoryStore.deleteKeys]
    obtain ⟨hnone,hnone'⟩ | ⟨ki,ki',hki,hki',-⟩ := h.liveItem_cases key
    · rw [hnone,hnone']
      exact ih h _ _ _
    · rw [hki,hki']
      have hrev : c < (⟨base.main,base.sub+i⟩ : Revision).main := hbase
      exact ih (h.tombstone hrev hki hki') _ _ _

lemma executeOp (h : Twins c s s') (hrev : c < rev.main) (op : Op) :
    Twins c (s.executeOp op rev).1 (s'.executeOp op rev).1 ∧
      (s'.executeOp op rev).2 = (s.executeOp op rev).2 := by
  obtain ⟨type,key,stop,value,lease⟩ := op
  cases type with
  | put => exact ⟨h.putAt hrev key value lease,rfl⟩
  | get => exact ⟨h,h.executeGet_eq _⟩
  | delete =>
    simp only [MemoryStore.executeOp,MemoryStore.executeDelete]
    obtain ⟨hnone,hnone'⟩ | ⟨ki,ki',hki,hki',-⟩ := h.liveItem_cases key
    · rw [hnone,hnone']
      exact ⟨h,rfl⟩
    · rw [hki,hki']
      exact ⟨h.tombstone hrev hki hki',rfl⟩
  | deleteRange =>
    simp only [MemoryStore.executeOp,MemoryStore.executeDeleteRange]
    rw [h.keysToDelete_eq]
    obtain ⟨htwins,hcount⟩ := h.deleteKeys hrev (s.keysToDelete key stop) 0 0 0
    exact ⟨htwins,by rw [hcount]⟩
  | other code => exact ⟨h,rfl⟩

lemma executeOps {txnRev : Revision} (hrev : c < txnRev.main) (ops : List Op) (h : Twins c s s')
    (i : ℤ) :
    Twins c (MemoryStore.executeOps txnRev i ops s).1 (MemoryStore.executeOps txnRev i ops s').1 ∧
      (MemoryStore.executeOps txnRev i ops s').2 = (MemoryStore.executeOps txnRev i ops s).2 := by
  induction ops generalizing s s' i with
  | nil => exact ⟨h,rfl⟩
  | cons op ops ih =>
    rw [MemoryStore.executeOps,MemoryStore.executeOps]
    have hop : c < (⟨txnRev.main,i⟩ : Revision).main := hrev
    obtain ⟨hfirst,hresponse⟩ := h.executeOp hop op
    obtain ⟨hrest,hresponses⟩ := ih hfirst (i+1)
    exact ⟨hrest,by simp only [hresponse,hresponses]⟩

lemma next (h : Twins c s s') : Twins c s.next s'.next where
  positive := h.positive
  reached := by have := h.reached; dsimp only [MemoryStore.next]; omega
  closed := h.closed
  current := by dsimp only [MemoryStore.next]; rw [h.current]
  uncompacted := h.uncompacted
  compacted := h.compacted
  records := h.records
  items := h.items
  dropped := h.dropped

lemma next_main (h : Twins c s s') : c < s.next.current.main := by
  have := h.reached
  dsimp only [MemoryStore.next]
  omega

theorem step (h : Twins c s s') (call : Call) :
    Twins c (s.step call) (s'.step call) ∧ s'.answer call = s.answer call := by
  cases call with
  | put key value lease =>
    simp only [MemoryStore.step,MemoryStore.answer,MemoryStore.put,h.closed]
    split_ifs
    · exact ⟨h,rfl⟩
    · exact ⟨h,rfl⟩
    · rw [h.next.current]
      exact ⟨h.next.putAt h.next_main key value lease,rfl⟩
  | delete key =>
    simp only [MemoryStore.step,MemoryStore.answer,MemoryStore.delete,h.closed]
    split_ifs
    · exact ⟨h,rfl⟩
    · exact ⟨h,rfl⟩
    · obtain ⟨hnone,hnone'⟩ | ⟨ki,ki',hki,hki',-⟩ := h.liveItem_cases key
      · rw [hnone,hnone',h.current]
        exact ⟨h,rfl⟩
      · rw [hki,hki',h.next.current]
        exact ⟨h.next.tombstone h.next_main hki hki',rfl⟩
  | deleteRange start stop =>
    simp only [MemoryStore.step,MemoryStore.answer,MemoryStore.deleteRange,h.closed,h.current,
      h.next.current,h.keysToDelete_eq]
    obtain ⟨hdone,hcounts⟩ :=
      h.next.deleteKeys h.next_main (s.keysToDelete start stop) 0 0 0
    simp only [hcounts,hdone.current]
    split_ifs
    · exact ⟨h,rfl⟩
    · exact ⟨h,rfl⟩
    · exact ⟨h,rfl⟩
    · exact ⟨⟨hdone.positive,hdone.reached,hdone.closed,rfl,hdone.uncompacted,hdone.compacted,
        hdone.records,hdone.items,hdone.dropped⟩,rfl⟩
    · exact ⟨hdone,rfl⟩
  | commit txn =>
    simp only [MemoryStore.step,MemoryStore.answer,MemoryStore.commit,h.closed,h.liveRecord_eq,
      h.next.current]
    split_ifs
    · exact ⟨h,rfl⟩
    · cases succeeded s.liveRecord txn.conditions with
      | none => exact ⟨h,rfl⟩
      | some b =>
        obtain ⟨hdone,hresponses⟩ := Twins.executeOps h.next_main
          (if b then txn.thenOps else txn.elseOps) h.next 0
        exact ⟨hdone,by simp only [hresponses]; rfl⟩

/-- A read at or after the compaction finds the same record. -/
lemma lookup_eq (h : Twins c s s') (hs : s.WellFormed) (hs' : s'.WellFormed)
    (hkey : key ≠ []) {atRev : Revision} (hat : atRev.greaterThanOrEqual ⟨c,0⟩ = true) :
    s'.lookup key atRev = s.lookup key atRev := by
  have hat := Revision.greaterThanOrEqual_iff.1 hat
  have hpos := h.positive
  have hzero : atRev.isZero = false := Revision.isZero_of_main_pos (by dsimp only at hat; omega)
  have hle : (⟨c,0⟩ : Revision).lessThanOrEqual atRev = true := Revision.lessThanOrEqual_iff.2 hat
  rw [hs.lookup_eq key hzero,hs'.lookup_eq key hzero,(h.items key).newest_eq (hs.layered key)
    fun rev hrev => (hs.bounds key rev hrev).2.1]
  cases hfound : KeyItem.newest atRev (s.item key).generations with
  | none => rfl
  | some rev =>
    rw [Option.filter_some,Option.bind_some]
    cases hge : rev.greaterThanOrEqual ⟨c,0⟩ with
    | true =>
      rw [if_pos rfl,Option.bind_some,MemoryStore.record,MemoryStore.record,h.record_eq hge]
    | false =>
      have hge' := mt Revision.greaterThanOrEqual_iff.2 (Bool.eq_false_iff.1 hge)
      have hearly : rev.lessThanOrEqual ⟨c,0⟩ = true := Revision.lessThanOrEqual_iff.2 (by omega)
      rw [h.dropped key hkey rev (KeyItem.newest_of_le hle hearly hfound) hge]
      rfl

end Twins

/-! ### Answers -/

namespace MemoryStore

/-- The results of reads at 0 and from `c` on are the same in two stores. -/
structure SameReads (c : ℤ) (s s' : MemoryStore) : Prop where
  get : ∀ key r, r = 0 ∨ c ≤ r → s'.get key r = s.get key r
  range : ∀ start stop r limit, r = 0 ∨ c ≤ r →
    s'.range start stop r limit = s.range start stop r limit

/-- After the calls of any list the stores have given the same answers and the reads from `c`
on are the same. -/
def Preserves (c : ℤ) (s s' : MemoryStore) : Prop :=
  ∀ calls : List Call, s'.answers calls = s.answers calls ∧
    SameReads c (calls.foldl step s) (calls.foldl step s')

/-- Every key that is not marked as deleted was last written at `c` or later, every other key
only before `c`, and every record that a read at `c` returns was written at `c`. -/
structure Compactable (s : MemoryStore) (c : ℤ) : Prop where
  live : ∀ (key : Bytes) (ki : KeyItem), s.keyIndex[key]? = some ki → ki.isDeleted = false →
    c ≤ ki.lastRevision.main
  deleted : ∀ (key : Bytes) (ki : KeyItem), s.keyIndex[key]? = some ki → ki.isDeleted = true →
    ∀ rev ∈ ki.revisions, rev.main < c
  read : ∀ key kv, s.get key c = .ok kv → kv.modRevision = c

theorem sameReads_of_twins {c : ℤ} {s s' : MemoryStore} (h : Twins c s s') (hs : s.WellFormed)
    (hs' : s'.WellFormed) : SameReads c s s' := by
  have hcurrent := hs.current
  have hreached := h.reached
  have hpos := h.positive
  have hat : ∀ r : ℤ, r = 0 ∨ c ≤ r →
      (if r = 0 then s.current else ⟨r,0⟩ : Revision).greaterThanOrEqual ⟨c,0⟩ = true := by
    intro r hr
    split_ifs with hzero
    · exact (Revision.greaterThanOrEqual_main_iff hcurrent.2).2 hreached
    · exact (Revision.greaterThanOrEqual_main_iff le_rfl).2 (hr.resolve_left hzero)
  have hchecks : ∀ atRev : Revision, atRev.greaterThanOrEqual ⟨c,0⟩ = true →
      atRev.isZero = false ∧ atRev.lessThan s.compactedRev = false ∧
        atRev.lessThan ⟨c,0⟩ = false := by
    intro atRev hge
    have hge := Revision.greaterThanOrEqual_iff.1 hge
    have hlt := Revision.lessThan_iff.1 h.uncompacted
    simp only [← Bool.not_eq_true,Revision.lessThan_iff,Revision.isZero,Bool.and_eq_true,
      decide_eq_true_iff]
    dsimp only at hge hlt ⊢
    omega
  constructor
  · intro key r hr
    by_cases hkey : key = []
    · simp only [get,if_pos hkey]
    cases hclosed : s.closed with
    | true => simp only [get,if_neg hkey,h.closed,hclosed,if_true]
    | false =>
      obtain ⟨hzero,hcompacted,hcompacted'⟩ := hchecks _ (hat r hr)
      have hget := s.get_eq_lookup hkey hclosed r hzero
      have hget' := s'.get_eq_lookup hkey (h.closed.trans hclosed) r
      rw [h.current,h.compacted] at hget'
      rw [hget,hget' hzero,hcompacted,hcompacted',h.lookup_eq hs hs' hkey (hat r hr)]
  · intro start stop r limit hr
    by_cases hstart : start = []
    · simp only [range,if_pos hstart]
    obtain ⟨hzero,hcompacted,hcompacted'⟩ := hchecks _ (hat r hr)
    have hrecords := range_filterMap_congr fun key (hspan : inSpan start stop key = true) =>
      h.lookup_eq hs hs' (ne_nil_of_inSpan hstart hspan) (hat r hr)
    simp only [range,if_neg hstart,h.closed,h.current,h.compacted,hcompacted,hcompacted',
      collect_eq]
    rw [hrecords]

lemma compact_eq_ok {s s' : MemoryStore} {c : ℤ} (h : s.compact c = .ok s') :
    s.closed = false ∧ s.compactedRev.lessThan ⟨c,0⟩ = true ∧
      (⟨c,0⟩ : Revision).greaterThan s.current = false ∧
      s' = { s with
        keyIndex := (s.keyIndex.compact ⟨c,0⟩).1
        revisionStore := s.revisionStore.filter fun r _ => !r.lessThan ⟨c,0⟩
        compactedRev := ⟨c,0⟩ } := by
  unfold compact at h
  dsimp only at h
  split_ifs at h with hclosed hold hfuture
  have hlt : s.compactedRev.lessThan ⟨c,0⟩ = true := by
    have hold := mt Revision.lessThanOrEqual_iff.2 hold
    exact Revision.lessThan_iff.2 (by dsimp only at hold ⊢; omega)
  exact ⟨Bool.eq_false_iff.2 hclosed,hlt,Bool.eq_false_iff.2 hfuture,(Except.ok.inj h).symm⟩

section Compacted
variable {s s' : MemoryStore} {c : ℤ}
variable {key : Bytes}

lemma item_compact (h : s.compact c = .ok s') (key : Bytes) :
    s'.item key = (s.item key).compacted ⟨c,0⟩ := by
  obtain ⟨-,-,-,rfl⟩ := compact_eq_ok h
  simp only [item,KeyIndex.compact,ExtTreeMap.getElem?_filterMap']
  cases s.keyIndex[key]? <;> rfl

lemma revisionStore_compact (h : s.compact c = .ok s') (rev : Revision) :
    s'.revisionStore[rev]? =
      (s.revisionStore[rev]?).filter fun _ => rev.greaterThanOrEqual ⟨c,0⟩ := by
  obtain ⟨-,-,-,rfl⟩ := compact_eq_ok h
  simp only [ExtTreeMap.getElem?_filter',Revision.greaterThanOrEqual_eq_not_lessThan]

lemma WellFormed.compact (hs : s.WellFormed) (h : s.compact c = .ok s') : s'.WellFormed where
  layered key := by
    rw [item_compact h]
    exact (hs.layered key).compacted _
  bounds key rev hrev := by
    rw [item_compact h] at hrev
    have := hs.bounds key rev ((KeyItem.revisions_compacted_sublist _ _).subset hrev)
    obtain ⟨-,-,-,rfl⟩ := compact_eq_ok h
    exact this
  stored rev kv hkv := by
    rw [revisionStore_compact h] at hkv
    exact hs.stored rev kv (Option.filter_eq_some_iff.1 hkv).1
  current := by
    obtain ⟨-,-,-,rfl⟩ := compact_eq_ok h
    exact hs.current
  compacted := by
    obtain ⟨-,hlt,-,rfl⟩ := compact_eq_ok h
    have hlt := Revision.lessThan_iff.1 hlt
    have := hs.compacted
    dsimp only at hlt ⊢
    omega

lemma WellFormed.act (hs : s.WellFormed) (action : Action) : (s.act action).WellFormed := by
  cases action with
  | call call => exact hs.step call
  | compact rev =>
    simp only [MemoryStore.act]
    cases hcompact : s.compact rev with
    | error e => exact hs
    | ok s' => exact hs.compact hcompact
  | close =>
    simp only [MemoryStore.act,MemoryStore.close]
    split_ifs
    · exact hs
    · exact ⟨hs.layered,hs.bounds,hs.stored,hs.current,hs.compacted⟩

lemma wellFormed_new : WellFormed .new where
  layered key := by simpa [item,new] using KeyItem.Layered.empty _
  bounds key rev hrev := by simp [item,new,KeyItem.revisions] at hrev
  stored rev kv hkv := by simp [new] at hkv
  current := ⟨le_rfl,le_rfl⟩
  compacted := ⟨le_rfl,rfl⟩

theorem wellFormed_after (actions : List Action) : (after actions).WellFormed := by
  induction actions using List.reverseRecOn with
  | nil => exact wellFormed_new
  | append_singleton actions action ih =>
    rw [after,List.foldl_append]
    exact ih.act action

lemma get_at_compaction (hs : s.WellFormed) (h : s.compact c = .ok s')
    (hkey : key ≠ []) : s.get key c = found (s.lookup key ⟨c,0⟩) ∧
      s'.get key c = found (s'.lookup key ⟨c,0⟩) ∧ (⟨c,0⟩ : Revision).isZero = false := by
  obtain ⟨hopen,hlt,hfuture,rfl⟩ := compact_eq_ok h
  have hlt' := Revision.lessThan_iff.1 hlt
  have hcompacted := hs.compacted
  have hzero : (⟨c,0⟩ : Revision).isZero = false :=
    Revision.isZero_of_main_pos (by dsimp only at hlt' ⊢; omega)
  have hc : c ≠ 0 := by
    rintro rfl
    simp [Revision.isZero] at hzero
  have hearly : (⟨c,0⟩ : Revision).lessThan s.compactedRev = false := by
    rw [← Bool.not_eq_true,Revision.lessThan_iff]
    dsimp only at hlt' ⊢
    omega
  have hself : (⟨c,0⟩ : Revision).lessThan ⟨c,0⟩ = false := by
    rw [← Bool.not_eq_true,Revision.lessThan_iff]
    dsimp only
    omega
  have hget := s.get_eq_lookup hkey hopen c
  simp only [if_neg hc] at hget
  refine ⟨?_,?_,hzero⟩
  · rw [hget hzero,hearly,hfuture]
    rfl
  · have hget' := get_eq_lookup { s with
      keyIndex := (s.keyIndex.compact ⟨c,0⟩).1
      revisionStore := s.revisionStore.filter fun r _ => !r.lessThan ⟨c,0⟩
      compactedRev := ⟨c,0⟩ } hkey hopen c
    simp only [if_neg hc] at hget'
    rw [hget' hzero,hself,hfuture]
    rfl

lemma Compactable.item_live (h : s.Compactable c)
    (hlive : (s.item key).isDeleted = false) :
    (s.item key).lastRevision ∈ (s.item key).revisions ∧ c ≤ (s.item key).lastRevision.main := by
  refine ⟨List.mem_of_getLast? (KeyItem.getLast?_revisions hlive),?_⟩
  obtain ⟨hget,-⟩ := liveItem_eq_some_iff.1 (liveItem_eq_some.2 ⟨hlive,rfl⟩)
  exact h.live key _ hget hlive

lemma Compactable.item_deleted (h : s.Compactable c)
    (hdel : (s.item key).isDeleted = true) : ∀ rev ∈ (s.item key).revisions, rev.main < c := by
  intro rev hrev
  unfold item at hdel hrev
  cases hget : s.keyIndex[key]? with
  | none => simp [hget,KeyItem.revisions] at hrev
  | some ki =>
    rw [hget] at hdel hrev
    exact h.deleted key ki hget hdel rev hrev

theorem Compactable.twins (hs : s.WellFormed) (h : s.compact c = .ok s')
    (hcond : s.Compactable c) : Twins c s s' := by
  obtain ⟨hopen,hlt,hfuture,hs'⟩ := compact_eq_ok h
  have hlt' := Revision.lessThan_iff.1 hlt
  have hfuture' := mt Revision.greaterThan_iff.2 (Bool.eq_false_iff.1 hfuture)
  have hcompacted := hs.compacted
  have hcurrent := hs.current
  dsimp only at hlt' hfuture'
  refine ⟨by omega,by omega,by rw [hs'],by rw [hs'],hlt,by rw [hs'],revisionStore_compact h,?_,?_⟩
  · intro key
    rw [item_compact h]
    have hsub : ∀ rev ∈ (s.item key).revisions, 0 ≤ rev.sub := fun rev hrev =>
      (hs.bounds key rev hrev).2.1
    refine ⟨?_,?_,fun hlive => ?_⟩
    · cases hdel : (s.item key).isDeleted with
      | true =>
        rw [KeyItem.isDeleted_compacted_iff]
        exact fun rev hrev => (Revision.greaterThanOrEqual_main_eq_false_iff (hsub rev hrev)).2
          (hcond.item_deleted hdel rev hrev)
      | false =>
        obtain ⟨hmem,hmain⟩ := hcond.item_live hdel
        rw [← Bool.not_eq_true,KeyItem.isDeleted_compacted_iff]
        intro hnone
        have := (Revision.greaterThanOrEqual_main_eq_false_iff (hsub _ hmem)).1 (hnone _ hmem)
        omega
    · rw [KeyItem.generations_compacted,List.filter_eq_self]
      intro g hg
      obtain ⟨old,-,hold⟩ := List.mem_filterMap.1 hg
      rw [KeyItem.isEmpty_of_compact hold]
      rfl
    · obtain ⟨hmem,hmain⟩ := hcond.item_live hlive
      exact (Revision.greaterThanOrEqual_main_iff (hsub _ hmem)).2 hmain
  · intro key hkey rev hrev hge
    obtain ⟨hget,-,hzero⟩ := get_at_compaction hs h hkey
    rw [hs.lookup_eq key hzero,hrev,Option.bind_some] at hget
    cases hrecord : s.record rev with
    | none => rfl
    | some kv =>
      -- a read at the target would return the record, which was written before it
      rw [hrecord] at hget
      have hmod := (hs.stored rev kv (Option.filter_eq_some_iff.1 hrecord).1).2
      have hsub := (hs.bounds key rev (KeyItem.mem_of_newest hrev).1).2.1
      have hlt := (Revision.greaterThanOrEqual_main_eq_false_iff hsub).1 hge
      have := hcond.read key kv hget
      omega

end Compacted

lemma answer_delete {s : MemoryStore} (h : s.closed = false) (key : Bytes) :
    s.answer (.commit ⟨[],[{ type := .delete, key := key }],[]⟩) =
      .commit (.ok ⟨true,s.current.main+1,
        [{ type := .delete, deleted := if (s.item key).isDeleted then 0 else 1 }]⟩) := by
  have hnext : s.next.liveItem key = s.liveItem key := rfl
  have hmain : s.next.current.main = s.current.main+1 := rfl
  cases hki : s.liveItem key with
  | none =>
    simp [answer,commit,h,succeeded,executeOps,executeOp,executeDelete,hnext,hki,
      liveItem_eq_none.1 hki,Except.map,hmain]
  | some ki =>
    simp [answer,commit,h,succeeded,executeOps,executeOp,executeDelete,hnext,hki,
      (liveItem_eq_some.1 hki).1,Except.map,hmain]

section Compacted
variable {s s' : MemoryStore} {c : ℤ}

lemma Preserves.isDeleted_eq (h : s.compact c = .ok s') (hpres : Preserves c s s') (key : Bytes) :
    (s'.item key).isDeleted = (s.item key).isDeleted := by
  obtain ⟨hopen,-,-,hs'⟩ := compact_eq_ok h
  have hopen' : s'.closed = false := by rw [hs']; exact hopen
  have hanswers := (hpres [.commit ⟨[],[{ type := .delete, key := key }],[]⟩]).1
  simp only [answers,answer_delete hopen,answer_delete hopen',List.cons.injEq,and_true,
    Answer.commit.injEq,Except.ok.injEq,TxnResponse.mk.injEq,OpResponse.mk.injEq] at hanswers
  have hcount := hanswers.2.2
  cases hdel : (s.item key).isDeleted <;> cases hdel' : (s'.item key).isDeleted <;>
    simp [hdel,hdel'] at hcount ⊢

theorem Preserves.compactable (hs : s.WellFormed) (h : s.compact c = .ok s')
    (hpres : Preserves c s s') : s.Compactable c := by
  have hdeleted := hpres.isDeleted_eq h
  simp only [item_compact h] at hdeleted
  have hitem : ∀ (key : Bytes) (ki : KeyItem), s.keyIndex[key]? = some ki → s.item key = ki :=
    fun key ki hki => by rw [item,hki]; rfl
  refine ⟨fun key ki hki hlive => ?_,fun key ki hki hdel rev hrev => ?_,fun key kv hget => ?_⟩
  · obtain rfl := hitem key ki hki
    have hkept := (hdeleted key).trans hlive
    rw [← Bool.not_eq_true,KeyItem.isDeleted_compacted_iff] at hkept
    push Not at hkept
    obtain ⟨rev,hrev,hge⟩ := hkept
    have hmain := (Revision.greaterThanOrEqual_main_iff (hs.bounds key rev hrev).2.1).1
      (Bool.eq_true_of_not_eq_false hge)
    have hlast := (s.item key).main_le_lastRevision (hs.layered key) hlive rev hrev
    omega
  · obtain rfl := hitem key ki hki
    have hnone := KeyItem.isDeleted_compacted_iff.1 ((hdeleted key).trans hdel) rev hrev
    exact (Revision.greaterThanOrEqual_main_eq_false_iff (hs.bounds key rev hrev).2.1).1 hnone
  · have hkey : key ≠ [] := by
      rintro rfl
      simp [get] at hget
    obtain ⟨-,hget',hzero⟩ := get_at_compaction hs h hkey
    have hs' := hs.compact h
    have hsame : s'.get key c = s.get key c := (hpres []).2.get key c (Or.inr le_rfl)
    rw [hsame,hget,hs'.lookup_eq key hzero,item_compact h,KeyItem.generations_compacted,
      KeyItem.newest_compact (hs.layered key).mains (hs.layered key).increasing fun rev hrev =>
        (hs.bounds key rev hrev).2.1] at hget'
    cases hfound : KeyItem.newest ⟨c,0⟩ (s.item key).generations with
    | none => simp [hfound,found] at hget'
    | some rev =>
      obtain ⟨hmem,hle⟩ := KeyItem.mem_of_newest hfound
      cases hge : rev.greaterThanOrEqual ⟨c,0⟩ with
      | false => simp [hfound,hge,found,Option.filter_some] at hget'
      | true =>
        rw [hfound,Option.filter_some,if_pos hge,Option.bind_some] at hget'
        cases hrecord : s'.record rev with
        | none => simp [hrecord,found] at hget'
        | some kv' =>
          simp only [hrecord,found,Except.ok.injEq] at hget'
          obtain rfl := hget'
          have hmod := (hs'.stored rev kv (Option.filter_eq_some_iff.1 hrecord).1).2
          have hge := (Revision.greaterThanOrEqual_main_iff (hs.bounds key rev hmem).2.1).1 hge
          have hle := Revision.lessThanOrEqual_iff.1 hle
          dsimp only at hle
          omega

end Compacted

lemma preserves_of_twins {c : ℤ} {s s' : MemoryStore} (h : Twins c s s') (hs : s.WellFormed)
    (hs' : s'.WellFormed) : Preserves c s s' := by
  intro calls
  induction calls generalizing s s' with
  | nil => exact ⟨rfl,sameReads_of_twins h hs hs'⟩
  | cons call calls ih =>
    obtain ⟨hnext,hanswer⟩ := h.step call
    obtain ⟨hanswers,hreads⟩ := ih hnext (hs.step call) (hs'.step call)
    exact ⟨by rw [answers,answers,hanswer,hanswers],hreads⟩

end MemoryStore

/-- A compaction at `c` changes no read from `c` on and no later answer exactly when it drops
nothing that is still needed. -/
theorem preserves_compact_iff (actions : List Action) {c : ℤ} {s' : MemoryStore}
    (h : (MemoryStore.after actions).compact c = .ok s') :
    MemoryStore.Preserves c (MemoryStore.after actions) s' ↔
      (MemoryStore.after actions).Compactable c := by
  have hs := MemoryStore.wellFormed_after actions
  exact ⟨fun hpres => hpres.compactable hs h,fun hcond =>
    MemoryStore.preserves_of_twins (hcond.twins hs h) hs (hs.compact h)⟩

/-- A key that is deleted for good, and one that is written at the target of the compaction. -/
theorem preserves_compact_of_deleted :
    let s := MemoryStore.after [.call (.put [97] [1] 0),.call (.delete [97]),.call (.put [98] [2] 0)]
    ∃ s', s.compact 3 = .ok s' ∧ MemoryStore.Preserves 3 s s' := by
  intro s
  have hitems : s.keyIndex.toList = [([97],⟨[⟨⟨1,0⟩,[⟨1,0⟩,⟨2,0⟩]⟩,⟨⟨2,0⟩,[]⟩],⟨2,0⟩⟩),
      ([98],⟨[⟨⟨3,0⟩,[⟨3,0⟩]⟩],⟨3,0⟩⟩)] := by decide
  have hmem : ∀ (key : Bytes) (ki : KeyItem), s.keyIndex[key]? = some ki →
      (key,ki) ∈ s.keyIndex.toList := fun key ki hki =>
    ExtTreeMap.mem_toList_iff_getElem?_eq_some.2 hki
  simp only [hitems,List.mem_cons,List.not_mem_nil,or_false,Prod.mk.injEq] at hmem
  have hcompact : ∃ s', s.compact 3 = .ok s' := ⟨_,rfl⟩
  obtain ⟨s',hs'⟩ := hcompact
  refine ⟨s',hs',(preserves_compact_iff _ hs').2 ⟨?_,?_,?_⟩⟩
  · intro key ki hki
    obtain ⟨-,rfl⟩ | ⟨-,rfl⟩ := hmem key ki hki <;> decide
  · intro key ki hki
    obtain ⟨-,rfl⟩ | ⟨-,rfl⟩ := hmem key ki hki <;> decide
  · intro key kv hget
    cases hki : s.keyIndex[key]? with
    | none =>
      have hkey : key ≠ [] := by
        rintro rfl
        cases hget
      have hfound := (MemoryStore.get_at_compaction (MemoryStore.wellFormed_after _) hs' hkey).1
      have hnone : s.lookup key ⟨3,0⟩ = none := by
        rw [MemoryStore.lookup,MemoryStore.item,hki]
        rfl
      rw [hnone] at hfound
      cases hfound.symm.trans hget
    | some ki =>
      obtain ⟨rfl,-⟩ | ⟨rfl,-⟩ := hmem key ki hki
      · have herror : s.get [97] 3 = .error .keyNotFound := by decide
        cases herror.symm.trans hget
      · have hok : s.get [98] 3 = .ok ⟨[98],[2],3,3,1,0⟩ := by decide
        obtain rfl := Except.ok.inj (hok.symm.trans hget)
        rfl

/-- A key that was last written before the target is lost, and a deleted key whose tombstone is
kept can be deleted once more. -/
theorem compact_loses_live_key :
    (let s := MemoryStore.after [.call (.put [97] [1] 0),.call (.put [98] [2] 0)]
     ∃ s', s.compact 2 = .ok s' ∧ s.get [97] 0 = .ok ⟨[97],[1],1,1,1,0⟩ ∧
      s'.get [97] 0 = .error .keyNotFound ∧ s'.get [97] 2 = .error .keyNotFound) ∧
    let s := MemoryStore.after [.call (.put [97] [1] 0),.call (.delete [97])]
    ∃ s', s.compact 2 = .ok s' ∧ (s.delete [97]).map Prod.fst = .ok (2,0) ∧
      (s'.delete [97]).map Prod.fst = .ok (3,1) := by
  refine ⟨⟨_,rfl,by decide,?_,?_⟩,_,rfl,by decide,?_⟩
  · simp only [MemoryStore.get,KeyIndex.getRevision,KeyIndex.compact,ExtTreeMap.getElem?_filterMap',
      ExtTreeMap.getElem?_filter']
    decide
  · simp only [MemoryStore.get,KeyIndex.getRevision,KeyIndex.compact,ExtTreeMap.getElem?_filterMap',
      ExtTreeMap.getElem?_filter']
    decide
  · simp only [MemoryStore.delete,MemoryStore.liveItem,KeyIndex.compact,
      ExtTreeMap.getElem?_filterMap']
    decide

/-! ### Repeated compactions -/

section Repeated
variable {a b : Revision}

lemma Revision.before_of_before {r : Revision} (hab : a.lessThan b = true)
    (h : r.greaterThanOrEqual a = false) : r.greaterThanOrEqual b = false := by
  rw [greaterThanOrEqual_eq_not_lessThan,Bool.not_eq_false',lessThan_iff] at *
  omega

lemma Generation.compact_bind (hab : a.lessThan b = true) (g : Generation) :
    (g.compact a).bind (Generation.compact b) = g.compact b := by
  have hdrop : ∀ revs : List Revision, (revs.dropWhile (!·.greaterThanOrEqual a)).dropWhile
      (!·.greaterThanOrEqual b) = revs.dropWhile (!·.greaterThanOrEqual b) := by
    intro revs
    induction revs with
    | nil => rfl
    | cons r revs ih =>
      cases hr : r.greaterThanOrEqual a with
      | true => simp [hr]
      | false => simp [hr,ih,Revision.before_of_before hab hr]
  rw [compact,compact,← hdrop]
  cases g.revisions.dropWhile (!·.greaterThanOrEqual a) <;> rfl

lemma KeyItem.compact_bind (hab : a.lessThan b = true) (ki : KeyItem) :
    (ki.compact a).bind (KeyItem.compact b) = ki.compact b := by
  have hgens : (ki.generations.filterMap (Generation.compact a)).filterMap (Generation.compact b) =
      ki.generations.filterMap (Generation.compact b) := by
    rw [List.filterMap_filterMap]
    exact List.filterMap_congr fun g _ => g.compact_bind hab
  rw [KeyItem.compact,KeyItem.compact,← hgens]
  cases ki.generations.filterMap (Generation.compact a) <;> rfl

end Repeated

namespace MemoryStore
variable {s s' : MemoryStore} {c d : ℤ}

lemma max?_cons (c : ℤ) (l : List ℤ) : (c :: l).max? = some ((l.filter (c < ·)).max?.getD c) := by
  rw [List.max?_eq_some_iff]
  cases h : (l.filter (c < ·)).max? with
  | none =>
    rw [List.max?_eq_none_iff,List.filter_eq_nil_iff] at h
    exact ⟨List.mem_cons_self,fun b hb => by grind⟩
  | some d =>
    obtain ⟨hd,hmax⟩ := List.max?_eq_some_iff.1 h
    rw [List.mem_filter,decide_eq_true_iff] at hd
    refine ⟨List.mem_cons_of_mem c hd.1,fun b hb => ?_⟩
    by_cases hb' : c < b
    · exact hmax b (by grind)
    · exact (Int.not_lt.1 hb').trans hd.2.le

lemma isOk_compact_iff (s : MemoryStore) (c : ℤ) : (s.compact c).isOk = true ↔
    s.closed = false ∧ s.compactedRev.lessThan ⟨c,0⟩ = true ∧
      (⟨c,0⟩ : Revision).greaterThan s.current = false := by
  constructor
  · intro h
    cases hc : s.compact c with
    | error e => simp [hc,Except.isOk,Except.toBool] at h
    | ok s' =>
      obtain ⟨hclosed,hold,hfuture,-⟩ := compact_eq_ok hc
      exact ⟨hclosed,hold,hfuture⟩
  · rintro ⟨hclosed,hold,hfuture⟩
    have hle : (⟨c,0⟩ : Revision).lessThanOrEqual s.compactedRev = false := by
      rw [Revision.lessThan_iff] at hold
      rw [← Bool.not_eq_true,Revision.lessThanOrEqual_iff]
      dsimp only at hold ⊢
      omega
    simp [compact,hclosed,hle,hfuture,Except.isOk,Except.toBool]

lemma isOk_compact_of_compact (h : s.compact c = .ok s') (d : ℤ) :
    (s'.compact d).isOk = ((s.compact d).isOk && decide (c < d)) := by
  obtain ⟨-,hold,-,rfl⟩ := compact_eq_ok h
  rw [Bool.eq_iff_iff,Bool.and_eq_true,isOk_compact_iff,isOk_compact_iff,decide_eq_true_iff]
  simp only [Revision.lessThan_iff] at hold ⊢
  grind

lemma compact_of_compact (h : s.compact c = .ok s') (hd : (s'.compact d).isOk = true) :
    s'.compact d = s.compact d := by
  have hboth := hd
  rw [isOk_compact_of_compact h,Bool.and_eq_true,decide_eq_true_iff] at hboth
  have hlt : (⟨c,0⟩ : Revision).lessThan ⟨d,0⟩ = true := Revision.lessThan_iff.2 (.inl hboth.2)
  cases h₁ : s.compact d with
  | error e => simp [h₁,Except.isOk,Except.toBool] at hboth
  | ok t =>
    cases h₂ : s'.compact d with
    | error e => simp [h₂,Except.isOk,Except.toBool] at hd
    | ok t' =>
      obtain ⟨-,-,-,rfl⟩ := compact_eq_ok h
      obtain ⟨-,-,-,rfl⟩ := compact_eq_ok h₁
      obtain ⟨-,-,-,rfl⟩ := compact_eq_ok h₂
      congr 2
      · ext1 key
        simp only [KeyIndex.compact,ExtTreeMap.getElem?_filterMap',Option.bind_assoc,
          KeyItem.compact_bind hlt]
      · ext1 rev
        have hrev : rev.lessThan ⟨c,0⟩ = true → rev.lessThan ⟨d,0⟩ = true := fun h => by
          rw [Revision.lessThan_iff] at *
          omega
        simp only [ExtTreeMap.getElem?_filter',Option.filter_filter]
        congr 1
        grind

/-- Compactions in any number and order leave the store of a single one, whose target is the largest
of those that the store accepts. -/
theorem compactions_eq (s : MemoryStore) (targets : List ℤ) :
    Except.ok (targets.foldl (fun s c => s.act (.compact c)) s) =
      match (targets.filter fun c => (s.compact c).isOk).max? with
      | none => Except.ok s
      | some c => s.compact c := by
  induction targets generalizing s with
  | nil => rfl
  | cons c targets ih =>
    rw [List.foldl_cons,ih,List.filter_cons]
    cases h : s.compact c with
    | error e => simp [act,h,Except.toOption,Except.isOk,Except.toBool]
    | ok s' =>
      have hact : s.act (.compact c) = s' := by simp [act,h,Except.toOption]
      have hfilter : (targets.filter fun d => (s'.compact d).isOk) =
          (targets.filter fun d => (s.compact d).isOk).filter (c < ·) := by
        rw [List.filter_filter]
        exact List.filter_congr fun d _ => by rw [isOk_compact_of_compact h,Bool.and_comm]
      have hok : (Except.ok s' : Except Error MemoryStore).isOk = true := rfl
      rw [hact,hfilter,if_pos hok,max?_cons]
      cases hlater : ((targets.filter fun d => (s.compact d).isOk).filter (c < ·)).max? with
      | none => exact h.symm
      | some d =>
        have hd := (List.max?_eq_some_iff.1 hlater).1
        rw [← hfilter] at hd
        exact compact_of_compact h (List.mem_filter.1 hd).2

end MemoryStore
end MetaStore.MVCC
