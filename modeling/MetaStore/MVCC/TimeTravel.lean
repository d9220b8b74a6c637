import MetaStore.MVCC.Timeline

/-! Reads of past revisions. `Get` looks for revisions up to sub-revision 0 of the main
revision it is given, so that the store shows one snapshot for every main revision as long as
no call writes under a later sub-revision. -/
namespace MetaStore.MVCC
open Std

namespace MemoryStore

def recorded (s : MemoryStore) (key : Bytes) : List Revision :=
  ((s.keyIndex[key]?).map KeyItem.revisions).getD []

/-- The record at the last revision up to `atRev`, unless it is a tombstone. -/
def readAt (s : MemoryStore) (key : Bytes) (atRev : Revision) : Option KeyValue :=
  ((KeyItem.latest (s.recorded key) atRev).bind (s.revisionStore[·]?)).filter
    fun kv => decide (kv.version ≠ 0)

def live (s : MemoryStore) : Set Bytes := {key | s.liveItem key ≠ none}

end MemoryStore

def found : Option KeyValue → Except Error KeyValue
  | some kv => .ok kv
  | none => .error .keyNotFound

def FlatOps (live : Set Bytes) : List Op → Prop
  | [] => True
  | op :: ops => (op.writes live).Subsingleton ∧ ∀ o ∈ ops, o.writes (op.liveAfter live) = ∅

def Call.Flat (s : MemoryStore) : Call → Prop
  | .put .. => True
  | .delete _ => True
  | .deleteRange start stop =>
    start ≠ [] → (s.live ∩ {key | inSpan start stop key = true}).Subsingleton
  | .commit txn =>
    ∀ b, succeeded s.liveRecord txn.conditions = some b →
      FlatOps s.live (if b then txn.thenOps else txn.elseOps)

def FlatFrom : MemoryStore → List Call → Prop
  | _,[] => True
  | s,call :: calls => call.Flat s ∧ FlatFrom (s.step call) calls

structure Represents (s : MemoryStore) (t : Timeline) : Prop where
  opened : s.closed = false
  uncompacted : s.compactedRev = .zero
  current : s.current = ⟨t.current,0⟩
  nonneg : 0 ≤ t.current
  ordered : ∀ (key : Bytes) (ki : KeyItem), s.keyIndex[key]? = some ki → ki.Ordered
  bounds : ∀ key, ∀ rev ∈ s.recorded key, 0 < rev.main ∧ rev.main ≤ t.current ∧ rev.sub = 0
  live : ∀ key, s.liveRecord key = t.latest key
  stored : ∀ key ki, s.liveItem key = some ki → s.lastRecord ki ≠ none
  positive : ∀ key kv, t.latest key = some kv → 0 < kv.version
  reads : ∀ key r, 0 ≤ r → r ≤ t.current → s.readAt key ⟨r,0⟩ = t.view r key

namespace MemoryStore
variable {s : MemoryStore} {ki : KeyItem} {key : Bytes}

lemma recorded_of_some
    (h : s.keyIndex[key]? = some ki) : s.recorded key = ki.revisions := by
  rw [recorded,h]
  rfl

lemma liveItem_eq_some_iff :
    s.liveItem key = some ki ↔ s.keyIndex[key]? = some ki ∧ ki.isDeleted = false := by
  rw [liveItem]
  split
  · next hnone => simp [hnone]
  · next item hitem =>
    split
    · next hdel =>
      rw [hitem]
      refine ⟨fun h => absurd h (by simp),fun h => ?_⟩
      rw [← Option.some.inj h.1,hdel] at h
      exact absurd h.2 (by decide)
    · next hdel =>
      rw [hitem]
      refine ⟨fun h => ⟨h,?_⟩,fun h => h.1⟩
      rw [← Option.some.inj h]
      exact Bool.eq_false_iff.mpr hdel

lemma lastRevision_mem
    (hitem : s.liveItem key = some ki) : ki.lastRevision ∈ s.recorded key := by
  obtain ⟨hget,hlive⟩ := liveItem_eq_some_iff.mp hitem
  rw [recorded_of_some hget]
  exact List.mem_of_getLast? (KeyItem.getLast?_revisions hlive)

end MemoryStore

namespace Represents
variable {s : MemoryStore} {t : Timeline}

lemma live_eq (h : Represents s t) : s.live = t.latest.live := by
  ext key
  change s.liveItem key ≠ none ↔ t.latest key ≠ none
  rw [← h.live key,MemoryStore.liveRecord]
  cases hitem : s.liveItem key with
  | none => simp
  | some ki => simpa using h.stored key ki hitem

lemma isZero_eq_false (h : Represents s t) {key : Bytes} {rev : Revision}
    (hrev : rev ∈ s.recorded key) : rev.isZero = false :=
  Revision.isZero_of_main_pos (h.bounds key rev hrev).1

lemma getRevision_eq (h : Represents s t) (key : Bytes) (atRev : Revision) :
    s.keyIndex.getRevision key atRev = (KeyItem.latest (s.recorded key) atRev).getD .zero := by
  rw [KeyIndex.getRevision,MemoryStore.recorded]
  cases hitem : s.keyIndex[key]? with
  | none => rfl
  | some ki => exact (h.ordered key ki hitem).findRevision_eq atRev

theorem get_eq (h : Represents s t) {key : Bytes} (hkey : key ≠ []) {r : ℤ} (hlow : 0 ≤ r)
    (hhigh : r ≤ t.current) (rev : ℤ) (hrev : (if rev = 0 then s.current else ⟨rev,0⟩) = ⟨r,0⟩) :
    s.get key rev = found (t.view r key) := by
  have hcompacted : (Revision.mk r 0).lessThan s.compactedRev = false := by
    rw [h.uncompacted,← Bool.not_eq_true,Revision.lessThan_iff]
    simp only [Revision.zero]
    omega
  have hfuture : (Revision.mk r 0).greaterThan s.current = false := by
    rw [h.current,← Bool.not_eq_true,Revision.greaterThan_iff]
    dsimp only
    omega
  rw [← h.reads key r hlow hhigh]
  simp only [MemoryStore.get,if_neg hkey,h.opened,hrev,hcompacted,hfuture,h.getRevision_eq,
    MemoryStore.readAt]
  cases hlatest : KeyItem.latest (s.recorded key) ⟨r,0⟩ with
  | none => rfl
  | some keyRev =>
    have hmem : keyRev ∈ s.recorded key :=
      List.mem_of_mem_filter (List.mem_of_getLast? hlatest)
    simp only [Option.getD_some,Option.bind_some,h.isZero_eq_false hmem]
    cases s.revisionStore[keyRev]? with
    | none => rfl
    | some kv => by_cases hv : kv.version = 0 <;> simp [hv,found,Option.filter]

end Represents

structure Writes (s s' : MemoryStore) (key : Bytes) (rev : Revision) (kv : KeyValue) : Prop where
  closed : s'.closed = s.closed
  compactedRev : s'.compactedRev = s.compactedRev
  current : s'.current = s.current
  store : s'.revisionStore = s.revisionStore.insert rev kv
  others : ∀ k, k ≠ key → s'.keyIndex[k]? = s.keyIndex[k]?
  item : ∃ ki, s'.keyIndex[key]? = some ki ∧ ki.revisions = s.recorded key ++ [rev] ∧
    ki.isDeleted = decide (kv.version = 0) ∧
    ((∀ old : KeyItem, s.keyIndex[key]? = some old → old.Ordered) →
      (∀ r ∈ s.recorded key, r < rev) → ki.Ordered)

namespace Writes
variable {s s' : MemoryStore} {key : Bytes} {rev : Revision} {kv : KeyValue}
variable {k : Bytes}

lemma recorded_self (w : Writes s s' key rev kv) : s'.recorded key = s.recorded key ++ [rev] := by
  obtain ⟨ki,hki,hrevs,-⟩ := w.item
  rw [MemoryStore.recorded_of_some hki,hrevs]

lemma recorded_of_ne (w : Writes s s' key rev kv) (hk : k ≠ key) :
    s'.recorded k = s.recorded k := by
  rw [MemoryStore.recorded,w.others k hk]
  rfl

lemma getElem?_self (w : Writes s s' key rev kv) : s'.revisionStore[rev]? = some kv := by
  rw [w.store,ExtTreeMap.getElem?_insert_self]

lemma getElem?_of_ne (w : Writes s s' key rev kv) {r : Revision} (hr : r ≠ rev) :
    s'.revisionStore[r]? = s.revisionStore[r]? := by
  rw [w.store,ExtTreeMap.getElem?_insert,if_neg]
  exact fun heq => hr (LawfulEqCmp.eq_of_compare heq).symm

lemma readAt_eq (w : Writes s s' key rev kv) (hnew : ∀ k, rev ∉ s.recorded k)
    {atRev : Revision} (h : k ≠ key ∨ atRev < rev) : s'.readAt k atRev = s.readAt k atRev := by
  have hlatest : KeyItem.latest (s'.recorded k) atRev = KeyItem.latest (s.recorded k) atRev := by
    by_cases hk : k = key
    · subst hk
      have hlt : atRev < rev := h.resolve_left (fun hne => hne rfl)
      rw [w.recorded_self,KeyItem.latest_append,KeyItem.latest_eq_none,Option.none_or]
      intro r hr
      rwa [List.mem_singleton.mp hr]
    · rw [w.recorded_of_ne hk]
  rw [MemoryStore.readAt,MemoryStore.readAt,hlatest]
  cases hrev : KeyItem.latest (s.recorded k) atRev with
  | none => rfl
  | some r =>
    have hmem : r ∈ s.recorded k := List.mem_of_mem_filter (List.mem_of_getLast? hrev)
    have hne : r ≠ rev := fun heq => hnew k (heq ▸ hmem)
    simp only [Option.bind_some,w.getElem?_of_ne hne]

lemma readAt_self (w : Writes s s' key rev kv) :
    s'.readAt key rev = if kv.version = 0 then none else some kv := by
  have hlast : KeyItem.latest [rev] rev = some rev := by
    rw [KeyItem.latest_of_forall_le]
    · rfl
    · intro r hr
      rw [List.mem_singleton.mp hr,Revision.lessThanOrEqual_iff]
      omega
  rw [MemoryStore.readAt,w.recorded_self,KeyItem.latest_append,hlast,Option.some_or,
    Option.bind_some,w.getElem?_self]
  by_cases hv : kv.version = 0 <;> simp [Option.filter,hv]

lemma liveItem_of_ne (w : Writes s s' key rev kv) (hk : k ≠ key) :
    s'.liveItem k = s.liveItem k := by
  rw [MemoryStore.liveItem,MemoryStore.liveItem,w.others k hk]

lemma liveItem_self (w : Writes s s' key rev kv) :
    (kv.version = 0 ∧ s'.liveItem key = none) ∨
      (kv.version ≠ 0 ∧ ∃ ki, s'.liveItem key = some ki ∧ ki.lastRevision = rev) := by
  obtain ⟨ki,hki,hrevs,hdel,-⟩ := w.item
  by_cases hv : kv.version = 0
  · refine Or.inl ⟨hv,?_⟩
    rw [decide_eq_true hv] at hdel
    simp [MemoryStore.liveItem,hki,hdel]
  · rw [decide_eq_false hv] at hdel
    refine Or.inr ⟨hv,ki,MemoryStore.liveItem_eq_some_iff.mpr ⟨hki,hdel⟩,?_⟩
    have hlast := KeyItem.getLast?_revisions hdel
    rw [hrevs,List.getLast?_concat] at hlast
    exact (Option.some.inj hlast).symm

lemma lastRecord_of_ne (w : Writes s s' key rev kv) (hnew : ∀ k, rev ∉ s.recorded k)
    {ki : KeyItem} (hki : s.liveItem k = some ki) : s'.lastRecord ki = s.lastRecord ki := by
  have hne : ki.lastRevision ≠ rev := fun heq =>
    hnew k (heq ▸ MemoryStore.lastRevision_mem hki)
  rw [MemoryStore.lastRecord,MemoryStore.lastRecord,w.getElem?_of_ne hne]

lemma lastRecord_self (w : Writes s s' key rev kv) (hrev : rev.isZero = false) {ki : KeyItem}
    (hki : ki.lastRevision = rev) : s'.lastRecord ki = some kv := by
  rw [MemoryStore.lastRecord,hki,if_neg (by rw [hrev]; decide),w.getElem?_self]

lemma liveRecord_eq (w : Writes s s' key rev kv) (hnew : ∀ k, rev ∉ s.recorded k)
    (hrev : rev.isZero = false) :
    s'.liveRecord = Function.update s.liveRecord key (if kv.version = 0 then none else some kv) := by
  funext k
  by_cases hk : k = key
  · subst hk
    rw [Function.update_self,MemoryStore.liveRecord]
    obtain ⟨hv,hnone⟩ | ⟨hv,ki,hki,hlast⟩ := w.liveItem_self
    · rw [hnone,if_pos hv,Option.bind_none]
    · rw [hki,if_neg hv,Option.bind_some,w.lastRecord_self hrev hlast]
  · rw [Function.update_of_ne hk,MemoryStore.liveRecord,MemoryStore.liveRecord,w.liveItem_of_ne hk]
    cases hki : s.liveItem k with
    | none => rfl
    | some ki => exact w.lastRecord_of_ne hnew hki

end Writes

section Representation
variable {s s' : MemoryStore} {t : Timeline} {key : Bytes} {kv : KeyValue}
variable {ops : List Op} {stop : Option Bytes} {ki : KeyItem}

def Fresh (s : MemoryStore) (t : Timeline) : Prop :=
  ∀ key, ∀ rev ∈ s.recorded key, rev.main < t.current

theorem Represents.write (h : Represents s t) (hfresh : Fresh s t)
    (w : Writes s s' key ⟨t.current,0⟩ kv) (hpos : 0 < t.current) (hversion : 0 ≤ kv.version) :
    Represents s' (t.amend (Function.update t.latest key
      (if kv.version = 0 then none else some kv))) := by
  have hnew : ∀ k, (⟨t.current,0⟩ : Revision) ∉ s.recorded k := fun k hmem =>
    absurd (hfresh k _ hmem) (lt_irrefl _)
  have hzero : (⟨t.current,0⟩ : Revision).isZero = false :=
    Revision.isZero_of_main_pos (by dsimp only; omega)
  have hlive : s.liveRecord = t.latest := funext h.live
  refine ⟨w.closed.trans h.opened,w.compactedRev.trans h.uncompacted,w.current.trans h.current,
    h.nonneg,?_,?_,?_,?_,?_,?_⟩
  · intro k ki hki
    by_cases hk : k = key
    · subst hk
      obtain ⟨new,hget,-,-,hordered⟩ := w.item
      obtain rfl : new = ki := Option.some.inj (hget.symm.trans hki)
      exact hordered (h.ordered k) fun r hr => Revision.lt_iff.mpr (Or.inl (hfresh k r hr))
    · exact h.ordered k ki ((w.others k hk).symm.trans hki)
  · intro k r hr
    by_cases hk : k = key
    · subst hk
      rw [w.recorded_self] at hr
      rcases List.mem_append.mp hr with hr | hr
      · exact h.bounds k r hr
      · rw [List.mem_singleton.mp hr]
        exact ⟨hpos,le_rfl,rfl⟩
    · rw [w.recorded_of_ne hk] at hr
      exact h.bounds k r hr
  · intro k
    rw [Timeline.latest_amend,w.liveRecord_eq hnew hzero,hlive]
  · intro k ki hki
    by_cases hk : k = key
    · subst hk
      obtain ⟨-,hnone⟩ | ⟨-,new,hitem,hlast⟩ := w.liveItem_self
      · exact absurd (hnone.symm.trans hki) (by simp)
      · obtain rfl : new = ki := Option.some.inj (hitem.symm.trans hki)
        rw [w.lastRecord_self hzero hlast]
        exact Option.some_ne_none kv
    · rw [w.liveItem_of_ne hk] at hki
      rw [w.lastRecord_of_ne hnew hki]
      exact h.stored k ki hki
  · intro k kv' hkv
    rw [Timeline.latest_amend] at hkv
    by_cases hk : k = key
    · subst hk
      rw [Function.update_self] at hkv
      split at hkv
      · exact absurd hkv (by simp)
      · next hv =>
        obtain rfl := Option.some.inj hkv
        omega
    · rw [Function.update_of_ne hk] at hkv
      exact h.positive k kv' hkv
  · intro k r hlow hhigh
    by_cases hr : r = t.current
    · subst hr
      change _ = (t.amend _).latest k
      rw [Timeline.latest_amend]
      by_cases hk : k = key
      · subst hk
        rw [Function.update_self]
        exact w.readAt_self
      · rw [Function.update_of_ne hk,w.readAt_eq hnew (Or.inl hk)]
        exact h.reads k _ hlow hhigh
    · have hlt : r < t.current := by dsimp only [Timeline.amend] at hhigh; omega
      rw [w.readAt_eq hnew (Or.inr (Revision.lt_iff.mpr (Or.inl hlt))),Timeline.view_amend hr]
      exact h.reads k r hlow hhigh

lemma Represents.next (h : Represents s t) : Represents s.next (t.advance t.latest) where
  opened := h.opened
  uncompacted := h.uncompacted
  current := by rw [MemoryStore.next,h.current]; rfl
  nonneg := by have := h.nonneg; dsimp only [Timeline.advance]; omega
  ordered := h.ordered
  bounds key rev hrev := by
    obtain ⟨hlow,hhigh,hsub⟩ := h.bounds key rev hrev
    exact ⟨hlow,by dsimp only [Timeline.advance]; omega,hsub⟩
  live key := by rw [Timeline.latest_advance]; exact h.live key
  stored := h.stored
  positive key kv hkv := by rw [Timeline.latest_advance] at hkv; exact h.positive key kv hkv
  reads key r hlow hhigh := by
    by_cases hr : r ≤ t.current
    · rw [Timeline.view_advance hr]
      exact h.reads key r hlow hr
    · obtain rfl : r = t.current+1 := by dsimp only [Timeline.advance] at hhigh; omega
      have hsame : KeyItem.latest (s.recorded key) ⟨t.current+1,0⟩ =
          KeyItem.latest (s.recorded key) ⟨t.current,0⟩ := by
        rw [KeyItem.latest_of_forall_le,KeyItem.latest_of_forall_le]
        all_goals
          intro rev hrev
          obtain ⟨-,hle,hsub⟩ := h.bounds key rev hrev
          exact Revision.lessThanOrEqual_iff.mpr (by dsimp only; omega)
      have hview : (t.advance t.latest).view (t.current+1) key = t.view t.current key :=
        congrFun (t.latest_advance t.latest) key
      rw [hview,← h.reads key _ h.nonneg le_rfl]
      change ((KeyItem.latest (s.recorded key) _).bind _).filter _ = _
      rw [hsame]
      rfl

lemma Represents.fresh_next (h : Represents s t) : Fresh s.next (t.advance t.latest) := by
  intro key rev hrev
  have := (h.bounds key rev hrev).2.1
  dsimp only [Timeline.advance]
  omega

omit key in
lemma getElem?_insert_of_ne {idx : KeyIndex} {k key : Bytes} (h : k ≠ key) :
    (idx.insert key ki)[k]? = idx[k]? := by
  rw [ExtTreeMap.getElem?_insert,if_neg]
  exact fun heq => h (LawfulEqCmp.eq_of_compare heq).symm

lemma putAt_writes (s : MemoryStore) (rev : Revision) (key value : Bytes) (lease : ℤ)
    (hversion : (s.previousInfo rev key).2 ≠ 0) :
    Writes s (s.putAt rev key value lease) key rev
      ⟨key,value,(s.previousInfo rev key).1,rev.main,(s.previousInfo rev key).2,lease⟩ where
  closed := rfl
  compactedRev := rfl
  current := rfl
  store := rfl
  others k hk := by
    rw [MemoryStore.putAt]
    dsimp only [KeyIndex.put]
    split <;> exact getElem?_insert_of_ne hk
  item := by
    rw [decide_eq_false hversion,MemoryStore.putAt,MemoryStore.recorded]
    dsimp only [KeyIndex.put]
    cases hitem : s.keyIndex[key]? with
    | none =>
      refine ⟨⟨[⟨rev,[rev]⟩],rev⟩,ExtTreeMap.getElem?_insert_self,rfl,rfl,fun _ _ => ⟨?_,?_⟩⟩
      · exact List.pairwise_singleton _ _
      · intro g hg r hr
        obtain rfl := List.mem_singleton.mp hg
        obtain rfl := List.mem_singleton.mp hr
        exact Revision.lessThanOrEqual_iff.mpr (by dsimp only; omega)
    | some ki =>
      exact ⟨ki.put rev,ExtTreeMap.getElem?_insert_self,ki.revisions_put rev,ki.isDeleted_put rev,
        fun hordered hrev => (hordered ki rfl).put hrev⟩

lemma tombstone_writes (hki : s.liveItem key = some ki) (rev : Revision) :
    Writes s (s.tombstone rev key ki) key rev
      ⟨key,[],((s.lastRecord ki).map KeyValue.createRevision).getD 0,rev.main,0,0⟩ where
  closed := rfl
  compactedRev := rfl
  current := rfl
  store := rfl
  others k hk := by
    rw [MemoryStore.tombstone]
    dsimp only [KeyIndex.delete]
    split
    · rfl
    · exact getElem?_insert_of_ne hk
  item := by
    obtain ⟨hget,hlive⟩ := MemoryStore.liveItem_eq_some_iff.mp hki
    rw [MemoryStore.tombstone,MemoryStore.recorded_of_some hget]
    dsimp only [KeyIndex.delete]
    rw [hget]
    exact ⟨ki.delete rev,ExtTreeMap.getElem?_insert_self,KeyItem.revisions_delete hlive rev,
      ki.isDeleted_delete rev,fun hordered hrev => (hordered ki rfl).delete hlive hrev⟩

lemma Represents.previousInfo_eq (h : Represents s t) (rev : Revision) (key : Bytes) :
    s.previousInfo rev key =
      match t.latest key with
      | none => (rev.main,1)
      | some prev => (prev.createRevision,prev.version+1) := by
  rw [← h.live key,MemoryStore.previousInfo,MemoryStore.liveRecord]
  cases hitem : s.liveItem key with
  | none => rfl
  | some ki =>
    cases hrecord : s.lastRecord ki with
    | none => exact absurd hrecord (h.stored key ki hitem)
    | some prev => simp [hrecord]

lemma Represents.putAt (h : Represents s t) (hfresh : Fresh s t) (hpos : 0 < t.current)
    (key value : Bytes) (lease : ℤ) :
    Represents (s.putAt ⟨t.current,0⟩ key value lease)
      (t.amend (t.latest.put t.current key value lease)) := by
  have hinfo := h.previousInfo_eq ⟨t.current,0⟩ key
  have hversion : 0 < (s.previousInfo ⟨t.current,0⟩ key).2 := by
    rw [hinfo]
    split
    · exact Int.one_pos
    · next prev hprev =>
      have := h.positive key prev hprev
      dsimp only
      omega
  have hwrite := h.write hfresh (putAt_writes s ⟨t.current,0⟩ key value lease (by omega)) hpos
    hversion.le
  rw [if_neg (by dsimp only; omega),hinfo] at hwrite
  rw [Snapshot.put]
  cases hlatest : t.latest key <;> rw [hlatest] at hwrite <;> exact hwrite

lemma Represents.tombstone (h : Represents s t) (hfresh : Fresh s t) (hpos : 0 < t.current)
    (hki : s.liveItem key = some ki) :
    Represents (s.tombstone ⟨t.current,0⟩ key ki) (t.amend (t.latest.delete key)) :=
  h.write hfresh (tombstone_writes hki _) hpos le_rfl

lemma MemoryStore.mem_keysToDelete {s : MemoryStore}
    (h : ∀ key ki, s.liveItem key = some ki → ki.lastRevision.isZero = false) (start : Bytes)
    (stop : Option Bytes) (k : Bytes) :
    k ∈ s.keysToDelete start stop ↔ k ∈ s.live ∩ {key | inSpan start stop key = true} := by
  rw [MemoryStore.keysToDelete,KeyIndex.range,List.mem_map]
  simp only [List.mem_filterMap,List.mem_filter,Prod.exists,KeyIndex.visit_zero_eq_some_iff,
    ExtTreeMap.mem_toList_iff_getElem?_eq_some]
  constructor
  · rintro ⟨a,rev,⟨k',ki,⟨hget,hspan⟩,hdel,-,heq⟩,rfl⟩
    obtain ⟨rfl,rfl⟩ := Prod.mk.inj heq
    refine ⟨?_,hspan⟩
    change s.liveItem a ≠ none
    rw [MemoryStore.liveItem_eq_some_iff.mpr ⟨hget,hdel⟩]
    exact Option.some_ne_none ki
  · rintro ⟨hlive,hspan⟩
    obtain ⟨ki,hki⟩ := Option.ne_none_iff_exists'.mp hlive
    obtain ⟨hget,hdel⟩ := MemoryStore.liveItem_eq_some_iff.mp hki
    exact ⟨k,ki.lastRevision,⟨k,ki,⟨hget,hspan⟩,hdel,h k ki hki,rfl⟩,rfl⟩

lemma MemoryStore.keysToDelete_of_quiet {s : MemoryStore}
    (h : ∀ key ki, s.liveItem key = some ki → ki.lastRevision.isZero = false) {start : Bytes}
    (hquiet : s.live ∩ {key | inSpan start stop key = true} = ∅) :
    s.keysToDelete start stop = [] := by
  rw [List.eq_nil_iff_forall_not_mem]
  intro k hk
  have hk := (MemoryStore.mem_keysToDelete h start stop k).mp hk
  exact absurd hquiet (Set.nonempty_iff_ne_empty.mp ⟨k,hk⟩)

lemma Represents.mem_keysToDelete (h : Represents s t) (start : Bytes) (stop : Option Bytes)
    (k : Bytes) :
    k ∈ s.keysToDelete start stop ↔ k ∈ s.live ∩ {key | inSpan start stop key = true} :=
  MemoryStore.mem_keysToDelete
    (fun _ _ hki => h.isZero_eq_false (MemoryStore.lastRevision_mem hki)) start stop k

lemma Represents.keysToDelete_cases (h : Represents s t) {start : Bytes}
    (hsub : (s.live ∩ {key | inSpan start stop key = true}).Subsingleton) :
    (s.keysToDelete start stop = [] ∧ ∀ k, inSpan start stop k = true → t.latest k = none) ∨
      ∃ k ki, s.keysToDelete start stop = [k] ∧ s.liveItem k = some ki ∧
        inSpan start stop k = true ∧ t.latest.deleteRange start stop = t.latest.delete k := by
  have hmem := h.mem_keysToDelete start stop
  have hnodup := s.keyIndex.nodup_range start stop .zero
  change (s.keysToDelete start stop).Nodup at hnodup
  have hlatest : ∀ k, k ∉ s.live → t.latest k = none := by
    intro k hk
    rw [h.live_eq] at hk
    exact not_not.mp hk
  cases hkeys : s.keysToDelete start stop with
  | nil =>
    refine Or.inl ⟨rfl,fun k hspan => hlatest k fun hlive => ?_⟩
    have := (hmem k).mpr ⟨hlive,hspan⟩
    rw [hkeys] at this
    exact List.not_mem_nil this
  | cons k rest =>
    have hk := (hmem k).mp (by rw [hkeys]; exact List.mem_cons_self)
    obtain ⟨ki,hki⟩ := Option.ne_none_iff_exists'.mp hk.1
    refine Or.inr ⟨k,ki,?_,hki,hk.2,?_⟩
    · cases rest with
      | nil => rfl
      | cons k' rest =>
        have hk' := (hmem k').mp (by rw [hkeys]; simp)
        rw [hkeys,hsub hk' hk] at hnodup
        exact absurd hnodup (by simp)
    · funext k'
      by_cases heq : k' = k
      · subst heq
        rw [Snapshot.delete,Function.update_self,Snapshot.deleteRange,
          if_pos (show inSpan start stop k' = true from hk.2)]
      · rw [Snapshot.delete,Function.update_of_ne heq,Snapshot.deleteRange]
        split
        · next hspan => exact (hlatest k' fun hlive => heq (hsub ⟨hlive,hspan⟩ hk)).symm
        · rfl

lemma deleteKeys_singleton (hki : s.liveItem key = some ki) (base : Revision) :
    MemoryStore.deleteKeys base 0 [key] (s,0,0) = (s.tombstone base key ki,1,0) := by
  simp [MemoryStore.deleteKeys,hki]

lemma Represents.executeOp (h : Represents s t) (hfresh : Fresh s t) (hpos : 0 < t.current)
    {op : Op} (hsub : (op.writes s.live).Subsingleton) :
    Represents (s.executeOp op ⟨t.current,0⟩).1 (t.amend (t.latest.execute t.current op)) := by
  obtain ⟨type,key,stop,value,lease⟩ := op
  cases type with
  | put => exact h.putAt hfresh hpos key value lease
  | get => exact t.amend_latest.symm ▸ h
  | delete =>
    change Represents (s.executeDelete _ _).1 (t.amend (t.latest.delete key))
    rw [MemoryStore.executeDelete]
    cases hki : s.liveItem key with
    | none =>
      have hnone : t.latest key = none := by
        rw [← h.live key,MemoryStore.liveRecord,hki,Option.bind_none]
      rw [Snapshot.delete,Function.update_eq_self_iff.mpr hnone.symm,t.amend_latest]
      exact h
    | some ki => exact h.tombstone hfresh hpos hki
  | deleteRange =>
    change Represents (s.executeDeleteRange _ _).1 (t.amend (t.latest.deleteRange key stop))
    rw [MemoryStore.executeDeleteRange]
    obtain ⟨hkeys,hnone⟩ | ⟨k,ki,hkeys,hki,-,hdelete⟩ := h.keysToDelete_cases hsub
    · have hsame : t.latest.deleteRange key stop = t.latest := by
        funext k
        rw [Snapshot.deleteRange]
        split
        · next hspan => exact (hnone k hspan).symm
        · rfl
      rw [hkeys,hsame,t.amend_latest]
      exact h
    · rw [hkeys,deleteKeys_singleton hki,hdelete]
      exact h.tombstone hfresh hpos hki
  | other code => exact t.amend_latest.symm ▸ h

lemma MemoryStore.executeOp_of_quiet {s : MemoryStore}
    (h : ∀ key ki, s.liveItem key = some ki → ki.lastRevision.isZero = false) {op : Op}
    (hquiet : op.writes s.live = ∅) (rev : Revision) : (s.executeOp op rev).1 = s := by
  obtain ⟨type,key,stop,value,lease⟩ := op
  cases type with
  | put => exact absurd hquiet (Set.singleton_ne_empty key)
  | get => rfl
  | delete =>
    change (s.executeDelete _ _).1 = s
    rw [MemoryStore.executeDelete]
    cases hki : s.liveItem key with
    | none => rfl
    | some ki =>
      have hlive : key ∈ s.live := by
        change s.liveItem key ≠ none
        rw [hki]
        exact Option.some_ne_none ki
      exact absurd hquiet (Set.nonempty_iff_ne_empty.mp ⟨key,hlive,rfl⟩)
  | deleteRange =>
    change (s.executeDeleteRange _ _).1 = s
    rw [MemoryStore.executeDeleteRange,MemoryStore.keysToDelete_of_quiet h hquiet]
    rfl
  | other code => rfl

lemma Represents.executeOp_of_quiet (h : Represents s t) {op : Op} (hquiet : op.writes s.live = ∅)
    (rev : Revision) : (s.executeOp op rev).1 = s :=
  MemoryStore.executeOp_of_quiet
    (fun _ _ hki => h.isZero_eq_false (MemoryStore.lastRevision_mem hki)) hquiet rev

lemma Represents.executeOps_of_quiet (h : Represents s t)
    (hquiet : ∀ op ∈ ops, op.writes s.live = ∅) (rev : Revision) (i : ℤ) :
    (MemoryStore.executeOps rev i ops s).1 = s := by
  induction ops generalizing i with
  | nil => rfl
  | cons op ops ih =>
    have hop := h.executeOp_of_quiet (hquiet op List.mem_cons_self) ⟨rev.main,i⟩
    rw [MemoryStore.executeOps]
    dsimp only
    rw [hop]
    exact ih (fun o ho => hquiet o (List.mem_cons_of_mem _ ho)) (i+1)

lemma foldl_execute_of_quiet {m : Snapshot}
    (hquiet : ∀ op ∈ ops, op.writes m.live = ∅) (main : ℤ) :
    ops.foldl (Snapshot.execute main) m = m := by
  induction ops with
  | nil => rfl
  | cons op ops ih =>
    rw [List.foldl_cons,Snapshot.execute_of_quiet (hquiet op List.mem_cons_self)]
    exact ih fun o ho => hquiet o (List.mem_cons_of_mem _ ho)

lemma Represents.executeOps (h : Represents s t) (hfresh : Fresh s t) (hpos : 0 < t.current)
    (hflat : FlatOps s.live ops) {rev : Revision} (hrev : rev.main = t.current) :
    Represents (MemoryStore.executeOps rev 0 ops s).1
      (t.amend (ops.foldl (Snapshot.execute t.current) t.latest)) := by
  cases ops with
  | nil => exact t.amend_latest.symm ▸ h
  | cons op ops =>
    obtain ⟨hsub,hquiet⟩ := hflat
    have hfirst := h.executeOp hfresh hpos hsub
    have hlive : (t.latest.execute t.current op).live = op.liveAfter s.live := by
      rw [Snapshot.live_execute,h.live_eq]
    have hlater : ∀ o ∈ ops, o.writes (s.executeOp op ⟨t.current,0⟩).1.live = ∅ := by
      intro o ho
      rw [hfirst.live_eq,Timeline.latest_amend,hlive]
      exact hquiet o ho
    rw [MemoryStore.executeOps]
    dsimp only
    rw [hrev,hfirst.executeOps_of_quiet hlater,List.foldl_cons,foldl_execute_of_quiet]
    · exact hfirst
    · intro o ho
      rw [hlive]
      exact hquiet o ho

end Representation

section Steps
variable {s : MemoryStore} {t : Timeline}

lemma Represents.current_next (h : Represents s t) :
    s.next.current = ⟨(t.advance t.latest).current,0⟩ ∧ 0 < (t.advance t.latest).current := by
  have := h.nonneg
  exact ⟨h.next.current,by dsimp only [Timeline.advance]; omega⟩

lemma Represents.step_put (h : Represents s t) (key value : Bytes) (lease : ℤ) :
    Represents (s.step (.put key value lease)) (t.step (.put key value lease)) := by
  by_cases hkey : key = []
  · have hs : s.step (.put key value lease) = s := by
      simp [MemoryStore.step,MemoryStore.put,written,hkey]
    rw [hs,Timeline.step,if_pos hkey]
    exact h
  · have hs : s.step (.put key value lease) = s.next.putAt s.next.current key value lease := by
      simp [MemoryStore.step,MemoryStore.put,written,hkey,h.opened]
    have hput := h.next.putAt h.fresh_next h.current_next.2 key value lease
    rw [Timeline.amend_advance,Timeline.latest_advance] at hput
    rw [hs,h.current_next.1,Timeline.step,if_neg hkey]
    exact hput

lemma Represents.next_tombstone (h : Represents s t) {key : Bytes} {ki : KeyItem}
    (hki : s.liveItem key = some ki) :
    Represents (s.next.tombstone s.next.current key ki) (t.advance (t.latest.delete key)) := by
  have hki' : s.next.liveItem key = some ki := hki
  have hdelete := h.next.tombstone h.fresh_next h.current_next.2 hki'
  rw [Timeline.amend_advance,Timeline.latest_advance] at hdelete
  rw [h.current_next.1]
  exact hdelete

lemma Represents.latest_ne_none (h : Represents s t) {key : Bytes} {ki : KeyItem}
    (hki : s.liveItem key = some ki) : t.latest key ≠ none := by
  rw [← h.live key,MemoryStore.liveRecord,hki,Option.bind_some]
  exact h.stored key ki hki

lemma Represents.step_delete (h : Represents s t) (key : Bytes) :
    Represents (s.step (.delete key)) (t.step (.delete key)) := by
  by_cases hkey : key = []
  · have hs : s.step (.delete key) = s := by
      simp [MemoryStore.step,MemoryStore.delete,written,hkey]
    rw [hs,Timeline.step,if_pos (Or.inl hkey)]
    exact h
  cases hki : s.liveItem key with
  | none =>
    have hs : s.step (.delete key) = s := by
      simp [MemoryStore.step,MemoryStore.delete,written,hkey,h.opened,hki]
    have hnone : t.latest key = none := by
      rw [← h.live key,MemoryStore.liveRecord,hki,Option.bind_none]
    rw [hs,Timeline.step,if_pos (Or.inr hnone)]
    exact h
  | some ki =>
    have hs : s.step (.delete key) = s.next.tombstone s.next.current key ki := by
      simp [MemoryStore.step,MemoryStore.delete,written,hkey,h.opened,hki]
    rw [hs,Timeline.step,if_neg (not_or.mpr ⟨hkey,h.latest_ne_none hki⟩)]
    exact h.next_tombstone hki

lemma Represents.step_deleteRange (h : Represents s t) {start : Bytes} {stop : Option Bytes}
    (hflat : (Call.deleteRange start stop).Flat s) :
    Represents (s.step (.deleteRange start stop)) (t.step (.deleteRange start stop)) := by
  by_cases hstart : start = []
  · have hs : s.step (.deleteRange start stop) = s := by
      simp [MemoryStore.step,MemoryStore.deleteRange,written,hstart]
    rw [hs,Timeline.step,if_pos (Or.inl hstart)]
    exact h
  obtain ⟨hkeys,hnone⟩ | ⟨k,ki,hkeys,hki,hspan,hdel⟩ := h.keysToDelete_cases (hflat hstart)
  · have hs : s.step (.deleteRange start stop) = s := by
      simp [MemoryStore.step,MemoryStore.deleteRange,written,hstart,h.opened,hkeys]
    rw [hs,Timeline.step,if_pos (Or.inr hnone)]
    exact h
  · have hloop := deleteKeys_singleton (show s.next.liveItem k = some ki from hki) s.next.current
    have hs : s.step (.deleteRange start stop) = s.next.tombstone s.next.current k ki := by
      simp [MemoryStore.step,MemoryStore.deleteRange,written,hstart,h.opened,hkeys,hloop]
    have hsome : ¬ ∀ k, inSpan start stop k = true → t.latest k = none := fun hall =>
      h.latest_ne_none hki (hall k hspan)
    rw [hs,Timeline.step,if_neg (not_or.mpr ⟨hstart,hsome⟩),hdel]
    exact h.next_tombstone hki

lemma Represents.step_commit (h : Represents s t) {txn : Txn} (hflat : (Call.commit txn).Flat s) :
    Represents (s.step (.commit txn)) (t.step (.commit txn)) := by
  have hlive : s.liveRecord = t.latest := funext h.live
  cases hb : succeeded s.liveRecord txn.conditions with
  | none =>
    have hs : s.step (.commit txn) = s := by
      simp [MemoryStore.step,MemoryStore.commit,written,h.opened,hb]
    have ht : t.step (.commit txn) = t := by simp [Timeline.step,← hlive,hb]
    rw [hs,ht]
    exact h
  | some b =>
    have hs : s.step (.commit txn) = (MemoryStore.executeOps s.next.current 0
        (if b then txn.thenOps else txn.elseOps) s.next).1 := by
      simp [MemoryStore.step,MemoryStore.commit,written,h.opened,hb]
    have ht : t.step (.commit txn) = t.advance ((if b then txn.thenOps else txn.elseOps).foldl
        (Snapshot.execute (t.current+1)) t.latest) := by
      simp [Timeline.step,← hlive,hb]
    have hmain : s.next.current.main = (t.advance t.latest).current := by rw [h.current_next.1]
    have hops := h.next.executeOps h.fresh_next h.current_next.2 (hflat b hb) hmain
    rw [Timeline.amend_advance,Timeline.latest_advance] at hops
    rw [hs,ht]
    exact hops

theorem Represents.step (h : Represents s t) {call : Call} (hflat : call.Flat s) :
    Represents (s.step call) (t.step call) := by
  cases call with
  | put key value lease => exact h.step_put key value lease
  | delete key => exact h.step_delete key
  | deleteRange start stop => exact h.step_deleteRange hflat
  | commit txn => exact h.step_commit hflat

end Steps

lemma represents_new : Represents .new .empty where
  opened := rfl
  uncompacted := rfl
  current := rfl
  nonneg := le_rfl
  ordered key ki hki := absurd hki (by simp [MemoryStore.new])
  bounds key rev hrev := absurd hrev (by simp [MemoryStore.recorded,MemoryStore.new])
  live key := by simp [MemoryStore.liveRecord,MemoryStore.liveItem,MemoryStore.new]; rfl
  stored key ki hki := absurd hki (by simp [MemoryStore.liveItem,MemoryStore.new])
  positive key kv hkv := absurd hkv (by simp [Timeline.latest,Timeline.empty])
  reads key r _ _ := by simp [MemoryStore.readAt,MemoryStore.recorded,MemoryStore.new,KeyItem.latest]; rfl

lemma Represents.foldl {s : MemoryStore} {t : Timeline} (h : Represents s t) (calls : List Call)
    (hflat : FlatFrom s calls) :
    Represents (calls.foldl MemoryStore.step s) (calls.foldl Timeline.step t) := by
  induction calls generalizing s t with
  | nil => exact h
  | cons call calls ih => exact ih (h.step hflat.1) hflat.2

/-- When every call writes under sub-revision 0 only, a read at a main revision gives the
snapshot of that revision, and a read at 0 is one at the current revision. -/
theorem get_run_eq_found_view (calls : List Call) (h : FlatFrom .new calls) :
    let s := MemoryStore.run calls
    let t := Timeline.run calls
    s.currentRevision = t.current ∧
    (∀ key, key ≠ [] → ∀ r, 1 ≤ r → r ≤ s.currentRevision →
      s.get key r = found (t.view r key)) ∧
    ∀ key, s.get key 0 = s.get key s.currentRevision := by
  intro s t
  have hrep : Represents s t := represents_new.foldl calls h
  have hcurrent : s.currentRevision = t.current := by rw [MemoryStore.currentRevision,hrep.current]
  refine ⟨hcurrent,fun key hkey r hlow hhigh => ?_,fun key => ?_⟩
  · exact hrep.get_eq hkey (by omega) (by omega) r (if_neg (by omega))
  · by_cases hkey : key = []
    · rw [MemoryStore.get,MemoryStore.get,if_pos hkey,if_pos hkey]
    · rw [hcurrent,hrep.get_eq hkey hrep.nonneg le_rfl 0 (by rw [if_pos rfl,hrep.current])]
      rw [hrep.get_eq hkey hrep.nonneg le_rfl t.current]
      split
      · exact hrep.current
      · rfl

/-- A range deletion that finds one key and a transaction with one operation. -/
theorem get_run_deletes_one_key :
    let calls : List Call := [.put [97] [1] 0,.put [98] [2] 0,.deleteRange [97] (some [98]),
      .commit ⟨[],[{ type := .put, key := [99], value := [3] }],[]⟩]
    FlatFrom .new calls ∧
      (MemoryStore.run calls).get [97] 2 = found ((Timeline.run calls).view 2 [97]) := by
  intro calls
  have hrep : Represents (MemoryStore.run (calls.take 2)) (Timeline.run (calls.take 2)) :=
    represents_new.foldl (calls.take 2) ⟨trivial,trivial,trivial⟩
  have hkeys : (MemoryStore.run (calls.take 2)).keysToDelete [97] (some [98]) = [[97]] := by decide
  have hflat : FlatFrom .new calls := by
    refine ⟨trivial,trivial,fun _ => ?_,fun b hb => ?_,trivial⟩
    · intro k hk k' hk'
      have hmem := (hrep.mem_keysToDelete [97] (some [98]) k).mpr hk
      have hmem' := (hrep.mem_keysToDelete [97] (some [98]) k').mpr hk'
      rw [hkeys,List.mem_singleton] at hmem hmem'
      rw [hmem,hmem']
    · obtain rfl : true = b := Option.some.inj hb
      exact ⟨Set.subsingleton_singleton,fun o ho => absurd ho List.not_mem_nil⟩
  have hcurrent : (MemoryStore.run calls).currentRevision = 4 := by decide
  refine ⟨hflat,(get_run_eq_found_view calls hflat).2.1 [97] (by decide) 2 (by decide) ?_⟩
  rw [hcurrent]
  decide

/-- A transaction puts two keys and only the first is ever visible at its revision. A range
deletion of two keys hides the first at its revision and the second at revision 0 only. -/
theorem get_run_misses_later_sub_revisions :
    let puts : List Call := [.commit ⟨[],[{ type := .put, key := [97], value := [1] },
      { type := .put, key := [98], value := [2] }],[]⟩]
    let deletes : List Call := [.put [97] [1] 0,.put [98] [2] 0,.deleteRange [97] none]
    (MemoryStore.run puts).currentRevision = 1 ∧
    (MemoryStore.run puts).get [97] 1 = .ok ⟨[97],[1],1,1,1,0⟩ ∧
    (MemoryStore.run puts).get [98] 1 = .error .keyNotFound ∧
    (Timeline.run puts).view 1 [98] = some ⟨[98],[2],1,1,1,0⟩ ∧
    (MemoryStore.run deletes).currentRevision = 3 ∧
    (MemoryStore.run deletes).get [97] 3 = .error .keyNotFound ∧
    (MemoryStore.run deletes).get [98] 3 = .ok ⟨[98],[2],2,2,1,0⟩ ∧
    (MemoryStore.run deletes).get [98] 0 = .error .keyNotFound := by
  refine ⟨?_,?_,?_,?_,?_,?_,?_,?_⟩ <;> decide

end MetaStore.MVCC
