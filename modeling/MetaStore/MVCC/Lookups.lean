import MetaStore.MVCC.Compaction
import MetaStore.MVCC.IndexAgreement

/-! Look-ups. The key index finds the last change of a key that is not after a revision, and a range
read of the store collects the records that reads of single keys find. -/
namespace MetaStore.MVCC
open Std

inductive Change
  | put (key : Bytes) (rev : Revision)
  | delete (key : Bytes) (rev : Revision)

namespace Change

def key : Change → Bytes
  | put key _ => key
  | delete key _ => key

def rev : Change → Revision
  | put _ rev => rev
  | delete _ rev => rev

def isDeletion : Change → Bool
  | put _ _ => false
  | delete _ _ => true

def apply (idx : KeyIndex) : Change → KeyIndex
  | put key rev => idx.put key rev
  | delete key rev => idx.delete key rev

def succeeds (idx : KeyIndex) : Change → Bool
  | put _ _ => true
  | delete key _ => (idx[key]?.map fun ki => !ki.isDeleted).getD false

def recorded (key : Bytes) : KeyIndex → List Change → List Change
  | _,[] => []
  | idx,c :: cs =>
    (if c.key = key ∧ c.succeeds idx then [c] else []) ++ recorded key (c.apply idx) cs

end Change

/-- The largest revision that is not after `atRev`, or zero. -/
def IsLatest (revs : List Revision) (atRev result : Revision) : Prop :=
  (result ∈ revs ∧ result.lessThanOrEqual atRev ∧
    ∀ rev ∈ revs, rev.lessThanOrEqual atRev → rev.lessThanOrEqual result) ∨
  (∀ rev ∈ revs, ¬ rev.lessThanOrEqual atRev) ∧ result = .zero

namespace KeyItem

lemma isLatest_latest {revs : List Revision} (h : revs.Pairwise (· < ·)) (atRev : Revision) :
    IsLatest revs atRev ((latest revs atRev).getD .zero) := by
  unfold latest
  cases hlast : (revs.filter (·.lessThanOrEqual atRev)).getLast? with
  | none =>
    rw [List.getLast?_eq_none_iff,List.filter_eq_nil_iff] at hlast
    exact .inr ⟨hlast,rfl⟩
  | some rev =>
    obtain ⟨init,hinit⟩ := List.getLast?_eq_some_iff.mp hlast
    have hmem : ∀ r, r ∈ init ++ [rev] ↔ r ∈ revs ∧ r.lessThanOrEqual atRev = true := fun r => by
      rw [← hinit,List.mem_filter]
    have hsorted := h.filter (·.lessThanOrEqual atRev)
    rw [hinit,List.pairwise_append] at hsorted
    obtain ⟨hrev,hle⟩ := (hmem rev).mp (List.mem_append_right init List.mem_cons_self)
    refine .inl ⟨hrev,hle,fun r hr hr' => ?_⟩
    rcases List.mem_append.mp ((hmem r).mpr ⟨hr,hr'⟩) with hr | hr
    · have hlt := Revision.lt_iff.mp (hsorted.2.2 r hr rev List.mem_cons_self)
      exact Revision.lessThanOrEqual_iff.mpr (by dsimp only [Option.getD_some]; omega)
    · rw [List.mem_singleton.mp hr]
      exact Revision.lessThanOrEqual_iff.mpr (by dsimp only [Option.getD_some]; omega)

end KeyItem

structure Tracks (idx : KeyIndex) (key : Bytes) (changes : List Change) : Prop where
  revisions : (idx[key]?.getD ⟨[],.zero⟩).revisions = changes.map Change.rev
  ordered : (idx[key]?.getD ⟨[],.zero⟩).Ordered
  last : idx[key]?.map KeyItem.isDeleted = changes.getLast?.map Change.isDeletion

namespace KeyIndex

lemma getElem?_put (idx : KeyIndex) (k key : Bytes) (rev : Revision) :
    (idx.put k rev)[key]? =
      if k = key then some ((idx[key]?.getD ⟨[],.zero⟩).put rev) else idx[key]? := by
  unfold put
  by_cases hk : k = key
  · subst hk
    cases idx[k]? <;> simp [KeyItem.put,KeyItem.currentGeneration]
  · rw [if_neg hk]
    cases idx[k]? <;> simp [ExtTreeMap.getElem?_insert,hk]

lemma getElem?_delete (idx : KeyIndex) (k key : Bytes) (rev : Revision) :
    (idx.delete k rev)[key]? = if k = key then idx[key]?.map (·.delete rev) else idx[key]? := by
  unfold delete
  by_cases hk : k = key
  · subst hk
    cases h : idx[k]? <;> simp [h]
  · rw [if_neg hk]
    cases idx[k]? <;> simp [ExtTreeMap.getElem?_insert,hk]

end KeyIndex

namespace Tracks
variable {idx : KeyIndex} {key : Bytes} {changes : List Change}

lemma congr (h : Tracks idx key changes) {idx' : KeyIndex} (heq : idx'[key]? = idx[key]?) :
    Tracks idx' key changes := by
  obtain ⟨hrevs,hordered,hlast⟩ := h
  rw [← heq] at hrevs hordered hlast
  exact ⟨hrevs,hordered,hlast⟩

lemma step (h : Tracks idx key changes) (c : Change) (hnew : ∀ d ∈ changes, d.rev < c.rev) :
    Tracks (c.apply idx) key (changes ++ if c.key = key ∧ c.succeeds idx then [c] else []) := by
  have hbelow : ∀ r ∈ (idx[key]?.getD ⟨[],.zero⟩).revisions, r < c.rev := by
    intro r hr
    rw [h.revisions] at hr
    obtain ⟨d,hd,rfl⟩ := List.mem_map.mp hr
    exact hnew d hd
  cases c with
  | put k rev =>
    by_cases hk : k = key
    · subst hk
      have hget : ((Change.put k rev).apply idx)[k]? =
          some ((idx[k]?.getD ⟨[],.zero⟩).put rev) := by
        rw [Change.apply,KeyIndex.getElem?_put,if_pos rfl]
      rw [if_pos ⟨rfl,rfl⟩]
      refine ⟨?_,?_,?_⟩
      · rw [hget,Option.getD_some,KeyItem.revisions_put,h.revisions,List.map_append]
        rfl
      · rw [hget]
        exact h.ordered.put hbelow
      · rw [hget,Option.map_some,KeyItem.isDeleted_put,List.getLast?_concat]
        rfl
    · rw [if_neg fun hc => hk hc.1,List.append_nil]
      exact h.congr (by rw [Change.apply,KeyIndex.getElem?_put,if_neg hk])
  | delete k rev =>
    by_cases hk : k = key
    · subst hk
      have hget : ((Change.delete k rev).apply idx)[k]? = idx[k]?.map (·.delete rev) := by
        rw [Change.apply,KeyIndex.getElem?_delete,if_pos rfl]
      cases hitem : idx[k]? with
      | none =>
        rw [if_neg fun hc => by simp [Change.succeeds,hitem] at hc,List.append_nil]
        exact h.congr (by rw [hget,hitem]; rfl)
      | some ki =>
        have hrevs := h.revisions
        have hordered := h.ordered
        rw [hitem] at hget hbelow hrevs hordered
        cases hdeleted : ki.isDeleted with
        | true =>
          rw [if_neg fun hc => by simp [Change.succeeds,hitem,hdeleted] at hc,List.append_nil]
          exact h.congr (by rw [hget,hitem,Option.map_some,KeyItem.delete_of_deleted hdeleted])
        | false =>
          rw [if_pos ⟨rfl,by simp [Change.succeeds,hitem,hdeleted]⟩]
          refine ⟨?_,?_,?_⟩
          · rw [hget,Option.map_some,Option.getD_some,KeyItem.revisions_delete hdeleted,
              List.map_append,← hrevs]
            rfl
          · rw [hget]
            exact hordered.delete hdeleted hbelow
          · rw [hget,Option.map_some,Option.map_some,KeyItem.isDeleted_delete,List.getLast?_concat]
            rfl
    · rw [if_neg fun hc => hk hc.1,List.append_nil]
      exact h.congr (by rw [Change.apply,KeyIndex.getElem?_delete,if_neg hk])

lemma run (h : Tracks idx key changes) (calls : List Change)
    (hnew : ∀ d ∈ changes, ∀ c ∈ calls, d.rev < c.rev)
    (hcalls : (calls.map Change.rev).Pairwise (· < ·)) :
    Tracks (calls.foldl Change.apply idx) key (changes ++ Change.recorded key idx calls) := by
  induction calls generalizing idx changes with
  | nil => simpa [Change.recorded] using h
  | cons c calls ih =>
    rw [List.map_cons,List.pairwise_cons] at hcalls
    rw [Change.recorded,← List.append_assoc]
    refine ih (h.step c fun d hd => hnew d hd c List.mem_cons_self) (fun d hd e he => ?_) hcalls.2
    rcases List.mem_append.mp hd with hd | hd
    · exact hnew d hd e (List.mem_cons_of_mem c he)
    · split_ifs at hd
      · rw [List.mem_singleton.mp hd]
        exact hcalls.1 e.rev (List.mem_map_of_mem he)
      · cases hd

end Tracks

/-- Look-ups in an index that was filled with increasing revisions. -/
theorem key_index_exact (calls : List Change) (hcalls : (calls.map Change.rev).Pairwise (· < ·))
    (key : Bytes) :
    let idx := calls.foldl Change.apply ∅
    let changes := Change.recorded key ∅ calls
    (∀ atRev, IsLatest (changes.map Change.rev) atRev (idx.getRevision key atRev)) ∧
      (∀ ki, idx[key]? = some ki → ki.revisions.Pairwise (· < ·)) ∧
      idx[key]?.map KeyItem.isDeleted = changes.getLast?.map Change.isDeletion := by
  intro idx changes
  have hempty : Tracks ∅ key [] := by
    refine ⟨by simp [KeyItem.revisions],?_,by simp⟩
    rw [ExtTreeMap.getElem?_empty]
    exact ⟨List.Pairwise.nil,fun g hg => by cases hg⟩
  have htracks : Tracks idx key changes := hempty.run calls (by simp) hcalls
  refine ⟨fun atRev => ?_,fun ki hki => ?_,htracks.last⟩
  · have hfind : idx.getRevision key atRev =
        (idx[key]?.getD ⟨[],.zero⟩).findRevision atRev := by
      unfold KeyIndex.getRevision
      cases idx[key]? <;> rfl
    rw [hfind,htracks.ordered.findRevision_eq,← htracks.revisions]
    exact KeyItem.isLatest_latest htracks.ordered.increasing atRev
  · have hordered := htracks.ordered
    rw [hki] at hordered
    exact hordered.increasing

theorem key_index_exact_recreated :
    let calls : List Change := [.put [97] ⟨1,0⟩,.delete [97] ⟨2,0⟩,.put [97] ⟨3,0⟩]
    let idx := calls.foldl Change.apply ∅
    IsLatest ((Change.recorded [97] ∅ calls).map Change.rev) ⟨2,0⟩ (idx.getRevision [97] ⟨2,0⟩) :=
  (key_index_exact [.put [97] ⟨1,0⟩,.delete [97] ⟨2,0⟩,.put [97] ⟨3,0⟩] 
    (by simp [Change.rev,Revision.lt_iff]) [97]).1 ⟨2,0⟩

namespace MemoryStore
variable {s : MemoryStore}
variable {stop : Option Bytes} {key : Bytes}

lemma closed_step (s : MemoryStore) (call : Call) : (s.step call).closed = s.closed := by
  cases call with
  | put key value lease =>
    simp only [step,put,written]
    split_ifs <;> rfl
  | delete key =>
    simp only [step,delete,written]
    split_ifs
    · rfl
    · rfl
    · cases s.liveItem key <;> rfl
  | deleteRange start stop =>
    have hdone := (deleteKeys_fields s.next.current (s.keysToDelete start stop) s.next 0 0 0).2.2
    simp only [step,deleteRange,written]
    split_ifs <;> first | rfl | exact hdone
  | commit txn =>
    simp only [step,commit,written]
    split_ifs
    · rfl
    · cases succeeded s.liveRecord txn.conditions with
      | none => rfl
      | some b => exact (executeOps_fields s.next.current _ s.next 0).2.2

lemma closed_after {actions : List Action} (h : .close ∉ actions) : (after actions).closed = false := by
  induction actions using List.reverseRecOn with
  | nil => rfl
  | append_singleton actions action ih =>
    rw [List.mem_append,not_or,List.mem_singleton] at h
    rw [after,List.foldl_append]
    change ((after actions).act action).closed = false
    cases action with
    | call call => exact (closed_step _ call).trans (ih h.1)
    | compact rev =>
      rw [act]
      cases hcompact : (after actions).compact rev with
      | error e => exact ih h.1
      | ok s' =>
        obtain ⟨hopen,-,-,rfl⟩ := compact_eq_ok hcompact
        exact hopen
    | close => exact absurd rfl h.2

lemma WellFormed.get_eq (h : s.WellFormed) (hkey : key ≠ []) (hopen : s.closed = false)
    (rev : ℤ) : let atRev : Revision := if rev = 0 then s.current else ⟨rev,0⟩
    s.get key rev =
      if atRev.lessThan s.compactedRev then .error .compacted
      else if atRev.greaterThan s.current then .error .futureRevision
      else found (s.lookup key atRev) := by
  intro atRev
  cases hzero : atRev.isZero with
  | false => exact s.get_eq_lookup hkey hopen rev hzero
  | true =>
    have hcurrent : s.current.main = 0 := by
      simp only [Revision.isZero,Bool.and_eq_true,decide_eq_true_iff,atRev] at hzero
      split_ifs at hzero with hrev
      · exact hzero.1
      · exact absurd hzero.1 hrev
    have hnone : ∀ r, r ∉ (s.item key).revisions := fun r hr => by
      have := h.bounds key r hr
      omega
    have hdeleted : (s.item key).isDeleted = true := by
      by_contra hlive
      have hlast := KeyItem.getLast?_revisions (Bool.not_eq_true _ ▸ hlive)
      exact hnone _ (List.mem_of_getLast? hlast)
    have hfind : (s.item key).findRevision atRev = .zero := by
      rw [(h.layered key).findRevision_eq]
      cases hnewest : KeyItem.newest atRev (s.item key).generations with
      | none => rfl
      | some r => exact absurd (KeyItem.mem_of_newest hnewest).1 (hnone r)
    have hlookup : s.lookup key atRev = none := by
      simp only [lookup,KeyIndex.visit,hzero,hdeleted,if_true]
      rfl
    simp only [get,if_neg hkey,hopen,Bool.false_eq_true,if_false,getRevision_eq]
    rw [hlookup]
    change (if atRev.lessThan _ then _ else if atRev.greaterThan _ then _ else
      if ((s.item key).findRevision atRev).isZero then _ else _) = _
    rw [hfind]
    rfl

def pairs (s : MemoryStore) (start : Bytes) (stop : Option Bytes) (atRev : Revision) :
    List (Bytes × KeyValue) :=
  (s.keyIndex.range start stop atRev).filterMap fun item => (s.record item.2).map (item.1,·)

lemma mem_range {start : Bytes} {atRev rev : Revision} :
    (key,rev) ∈ s.keyIndex.range start stop atRev ↔
      inSpan start stop key = true ∧ KeyIndex.visit atRev (key,s.item key) = some (key,rev) := by
  simp only [KeyIndex.range,List.mem_filterMap,List.mem_filter,Prod.exists,
    ExtTreeMap.mem_toList_iff_getElem?_eq_some]
  constructor
  · rintro ⟨k,ki,⟨hget,hspan⟩,hvisit⟩
    obtain rfl : key = k := KeyIndex.fst_of_visit hvisit
    exact ⟨hspan,by rwa [item,hget]⟩
  · rintro ⟨hspan,hvisit⟩
    cases hget : s.keyIndex[key]? with
    | none =>
      rw [item,hget] at hvisit
      cases hz : atRev.isZero <;> simp [KeyIndex.visit,hz] at hvisit <;> cases hvisit.1
    | some ki =>
      rw [item,hget] at hvisit
      exact ⟨key,ki,⟨hget,hspan⟩,hvisit⟩

lemma mem_pairs {start : Bytes} {atRev : Revision} {kv : KeyValue} :
    (key,kv) ∈ s.pairs start stop atRev ↔
      inSpan start stop key = true ∧ s.lookup key atRev = some kv := by
  simp only [pairs,List.mem_filterMap,Prod.exists,mem_range,Option.map_eq_some_iff,Prod.mk.injEq,
    lookup,Option.bind_eq_some_iff]
  constructor
  · rintro ⟨k,rev,⟨hspan,hvisit⟩,kv',hrecord,rfl,rfl⟩
    exact ⟨hspan,k,rev,hvisit,hrecord⟩
  · rintro ⟨hspan,k,rev,hvisit,hrecord⟩
    obtain rfl : k = key := KeyIndex.fst_of_visit hvisit
    exact ⟨k,rev,⟨hspan,hvisit⟩,kv,hrecord,rfl,rfl⟩

lemma pairwise_pairs (s : MemoryStore) (start : Bytes) (stop : Option Bytes) (atRev : Revision) :
    ((s.pairs start stop atRev).map Prod.fst).Pairwise (· < ·) := by
  have hkeys : s.keyIndex.toList.Pairwise fun a b => a.1 < b.1 :=
    ExtTreeMap.ordered_keys_toList.imp fun hlt => (Bytes.compare_eq_lt_iff _ _).mp hlt
  have hwalk : (s.keyIndex.range start stop atRev).Pairwise fun a b => a.1 < b.1 :=
    (hkeys.filter _).filterMap (KeyIndex.visit atRev) fun a a' hlt b hb b' hb' => by
      rwa [KeyIndex.fst_of_visit hb,KeyIndex.fst_of_visit hb']
  rw [List.pairwise_map]
  refine hwalk.filterMap _ fun a a' hlt b hb b' hb' => ?_
  obtain ⟨kv,-,rfl⟩ := Option.map_eq_some_iff.mp hb
  obtain ⟨kv',-,rfl⟩ := Option.map_eq_some_iff.mp hb'
  exact hlt

end MemoryStore

/-- The first `limit` items; all of them without a limit. -/
def firstOf {α : Type*} (limit : ℤ) (items : List α) : List α :=
  if 0 < limit then items.take limit.toNat else items

/-- A range read fails where reads of single keys fail, and else collects what they return. -/
structure Collects (s : MemoryStore) (start : Bytes) (stop : Option Bytes) (rev limit : ℤ) :
    Prop where
  fails : ∀ e ∈ [Error.compacted,.futureRevision], ∀ key, key ≠ [] →
    (s.range start stop rev limit = .error e ↔ s.get key rev = .error e)
  collects : (∃ e ∈ [Error.compacted,.futureRevision], s.range start stop rev limit = .error e) ∨
    ∃ found : List (Bytes × KeyValue), (found.map Prod.fst).Pairwise (· < ·) ∧
      (∀ key kv, (key,kv) ∈ found ↔ inSpan start stop key = true ∧ s.get key rev = .ok kv) ∧
      s.range start stop rev limit =
        .ok ((firstOf limit found).map Prod.snd,(firstOf limit found).length)

theorem range_collects_gets {actions : List Action} (hopen : .close ∉ actions) {start : Bytes}
    (hstart : start ≠ []) (stop : Option Bytes) (rev limit : ℤ) :
    Collects (.after actions) start stop rev limit := by
  have hopen := MemoryStore.closed_after hopen
  have hs := MemoryStore.wellFormed_after actions
  generalize MemoryStore.after actions = s at hopen hs ⊢
  obtain ⟨atRev,hat⟩ : ∃ atRev : Revision, atRev = if rev = 0 then s.current else ⟨rev,0⟩ := ⟨_,rfl⟩
  have hget : ∀ key, key ≠ [] → s.get key rev = if atRev.lessThan s.compactedRev then .error .compacted
      else if atRev.greaterThan s.current then .error .futureRevision
      else found (s.lookup key atRev) := fun key hkey => by
    rw [hat]
    exact hs.get_eq hkey hopen rev
  have hrange : s.range start stop rev limit =
      if atRev.lessThan s.compactedRev then .error .compacted
      else if atRev.greaterThan s.current then .error .futureRevision
      else .ok ((firstOf limit (s.pairs start stop atRev)).map Prod.snd,
        (firstOf limit (s.pairs start stop atRev)).length) := by
    have hrecords : ((s.keyIndex.range start stop atRev).filterMap fun item => s.record item.2) =
        (s.pairs start stop atRev).map Prod.snd := by
      rw [MemoryStore.pairs,List.map_filterMap]
      refine List.filterMap_congr fun item _ => ?_
      rw [Option.map_map]
      exact Option.map_id'.symm
    have hcollect : s.collect limit 0 (s.keyIndex.range start stop atRev) =
        (firstOf limit (s.pairs start stop atRev)).map Prod.snd := by
      rw [MemoryStore.collect_eq,hrecords,firstOf,sub_zero]
      split_ifs
      · rw [List.map_take]
      · rfl
    simp only [MemoryStore.range,if_neg hstart,hopen,Bool.false_eq_true,if_false,← hat,hcollect,
      List.length_map]
  have hfound : ∀ (o : Option KeyValue) e, e ∈ [Error.compacted,.futureRevision] → found o ≠ .error e := by
    rintro (- | kv) e he heq
    · cases heq
      simp at he
    · cases heq
  by_cases hcompacted : atRev.lessThan s.compactedRev
  · simp only [if_pos hcompacted] at hget hrange
    exact ⟨fun e _ key hkey => by rw [hget key hkey,hrange]; simp,.inl ⟨_,by simp,hrange⟩⟩
  by_cases hfuture : atRev.greaterThan s.current
  · simp only [if_neg hcompacted,if_pos hfuture] at hget hrange
    exact ⟨fun e _ key hkey => by rw [hget key hkey,hrange]; simp,.inl ⟨_,by simp,hrange⟩⟩
  simp only [if_neg hcompacted,if_neg hfuture] at hget hrange
  refine ⟨fun e he key hkey => ?_,.inr ⟨s.pairs start stop atRev,s.pairwise_pairs start stop atRev,
    fun key kv => ?_,hrange⟩⟩
  · rw [hget key hkey,hrange]
    exact iff_of_false (by simp) (hfound _ e he)
  · rw [MemoryStore.mem_pairs]
    refine and_congr_right fun hspan => ?_
    rw [hget key (MemoryStore.ne_nil_of_inSpan hstart hspan)]
    cases s.lookup key atRev <;> simp [found]

theorem range_collects_gets_compacted :
    Collects (.after [.call (.put [97] [1] 0),.call (.delete [97]),.compact 2]) [97] none 0 1 :=
  range_collects_gets (by simp) (by decide) none 0 1

end MetaStore.MVCC
