import MetaStore.MVCC.Layered

/-! Reads of the store in terms of one look-up for each key: `Get` returns what the look-up of
its key finds, and a walk over the index is a walk over the look-ups of the keys in its
range. -/
namespace MetaStore.MVCC
open Std

namespace MemoryStore

def record (s : MemoryStore) (rev : Revision) : Option KeyValue :=
  (s.revisionStore[rev]?).filter fun kv => decide (kv.version ≠ 0)

def lookup (s : MemoryStore) (key : Bytes) (atRev : Revision) : Option KeyValue :=
  (KeyIndex.visit atRev (key,s.item key)).bind fun found => s.record found.2

lemma WellFormed.lookup_eq {s : MemoryStore} (h : s.WellFormed) (key : Bytes) {atRev : Revision}
    (hat : atRev.isZero = false) :
    s.lookup key atRev = (KeyItem.newest atRev (s.item key).generations).bind s.record := by
  simp only [lookup,KeyIndex.visit,hat,(h.layered key).findRevision_eq]
  cases hfound : KeyItem.newest atRev (s.item key).generations with
  | none => rfl
  | some rev =>
    have hpos := (h.bounds key rev (KeyItem.mem_of_newest hfound).1).1
    have hzero : rev.isZero = false := Revision.isZero_of_main_pos hpos
    simp [hzero]

lemma range_filterMap_eq {γ : Type*} (s : MemoryStore) (start : Bytes) (stop : Option Bytes)
    (atRev : Revision) (g : Bytes × Revision → Option γ) :
    (s.keyIndex.range start stop atRev).filterMap g =
      (s.keyIndex.filterMap fun key ki =>
        if inSpan start stop key then (KeyIndex.visit atRev (key,ki)).bind g else none).toList.map
          Prod.snd := by
  rw [KeyIndex.range,List.filterMap_filterMap,ExtTreeMap.toList_filterMap,List.map_filterMap,
    List.filterMap_filter]
  refine List.filterMap_congr fun item _ => ?_
  cases inSpan start stop item.1 with
  | false => rfl
  | true => simp

lemma range_filterMap_congr {γ : Type*} {s s' : MemoryStore} {start : Bytes} {stop : Option Bytes}
    {atRev : Revision} {g g' : Bytes × Revision → Option γ}
    (h : ∀ key, inSpan start stop key = true →
      (KeyIndex.visit atRev (key,s.item key)).bind g =
        (KeyIndex.visit atRev (key,s'.item key)).bind g') :
    (s.keyIndex.range start stop atRev).filterMap g =
      (s'.keyIndex.range start stop atRev).filterMap g' := by
  have hnew : ∀ key, KeyIndex.visit atRev (key,⟨[],.zero⟩) = none := by
    intro key
    cases hz : atRev.isZero <;> simp [KeyIndex.visit,hz] <;> rfl
  have hget : ∀ (t : MemoryStore) (f : Bytes × Revision → Option γ) (key : Bytes),
      (t.keyIndex[key]?.bind fun ki => (KeyIndex.visit atRev (key,ki)).bind f) =
        (KeyIndex.visit atRev (key,t.item key)).bind f := by
    intro t f key
    unfold item
    cases t.keyIndex[key]? with
    | none => rw [Option.getD_none,hnew]; rfl
    | some ki => rfl
  rw [range_filterMap_eq,range_filterMap_eq]
  congr 2
  refine ExtTreeMap.ext_getElem? fun key => ?_
  rw [ExtTreeMap.getElem?_filterMap',ExtTreeMap.getElem?_filterMap']
  cases hspan : inSpan start stop key with
  | false => simp
  | true =>
    simp only [if_true]
    rw [hget,hget]
    exact h key hspan

lemma collect_eq (s : MemoryStore) (limit count : ℤ) (items : List (Bytes × Revision)) :
    s.collect limit count items =
      if 0 < limit then (items.filterMap fun item => s.record item.2).take (limit-count).toNat
      else items.filterMap fun item => s.record item.2 := by
  induction items generalizing count with
  | nil => simp [collect]
  | cons item items ih =>
    rw [collect]
    by_cases hstop : 0 < limit ∧ limit ≤ count
    · have hzero : (limit-count).toNat = 0 := by omega
      rw [if_pos hstop,if_pos hstop.1,hzero,List.take_zero]
    · rw [if_neg hstop,List.filterMap_cons]
      unfold record at ih ⊢
      cases s.revisionStore[item.2]? with
      | none => exact ih count
      | some kv =>
        by_cases hv : kv.version = 0
        · simp only [hv,if_true,Option.filter_some,ne_eq,not_true_eq_false,decide_false]
          exact ih count
        · simp only [hv,if_false,Option.filter_some,ne_eq,not_false_eq_true,decide_true,if_true]
          rw [ih (count+1)]
          split_ifs with hlimit
          · have hsucc : (limit-count).toNat = (limit-(count+1)).toNat+1 := by omega
            rw [hsucc,List.take_succ_cons]
          · rfl

lemma get_eq_lookup (s : MemoryStore) {key : Bytes} (hkey : key ≠ []) (hopen : s.closed = false)
    (rev : ℤ) : let atRev : Revision := if rev = 0 then s.current else ⟨rev,0⟩
    atRev.isZero = false → s.get key rev =
      if atRev.lessThan s.compactedRev then .error .compacted
      else if atRev.greaterThan s.current then .error .futureRevision
      else found (s.lookup key atRev) := by
  intro atRev hzero
  simp only [get,if_neg hkey,hopen,Bool.false_eq_true,if_false,getRevision_eq]
  change (if atRev.lessThan _ then _ else if atRev.greaterThan _ then _ else _) = _
  congr 2
  simp only [lookup,KeyIndex.visit,hzero,Bool.false_eq_true,if_false]
  cases hrev : ((s.item key).findRevision atRev).isZero with
  | true => simp [found]
  | false =>
    simp only [Bool.false_eq_true,if_false,Option.bind_some,record]
    cases s.revisionStore[(s.item key).findRevision atRev]? with
    | none => rfl
    | some kv => by_cases hv : kv.version = 0 <;> simp [hv,found,Option.filter_some]

lemma ne_nil_of_inSpan {start key : Bytes} {stop : Option Bytes} (hstart : start ≠ [])
    (h : inSpan start stop key = true) : key ≠ [] := by
  rintro rfl
  rw [inSpan,Bool.and_eq_true,decide_eq_true_iff] at h
  exact hstart (List.le_nil.1 h.1)

end MemoryStore

end MetaStore.MVCC
