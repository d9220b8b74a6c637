import MetaStore.MVCC.TimeTravel

/-! What holds in every state of the store, whatever was called. Operations of one transaction
may reuse sub-revisions, so the history of a key need not be increasing; but its main revisions
never decrease, and within one generation the revisions do increase. -/
namespace MetaStore.MVCC
open Std

namespace KeyItem
variable {rev : Revision} {ki : KeyItem}

/-- Main revisions do not decrease, each generation is increasing, and none has a revision from
before its creation. -/
structure Layered (ki : KeyItem) : Prop where
  mains : ki.revisions.Pairwise fun a b => a.main ≤ b.main
  increasing : ∀ g ∈ ki.generations, g.revisions.Pairwise (· < ·)
  created : ∀ g ∈ ki.generations, ∀ rev ∈ g.revisions, g.created.lessThanOrEqual rev = true

def newest (atRev : Revision) (gens : List Generation) : Option Revision :=
  gens.reverse.findSome? fun g => latest g.revisions atRev

lemma newest_eq_latest (atRev : Revision) (gens : List Generation) :
    newest atRev gens = latest (gens.flatMap Generation.revisions) atRev := by
  induction gens using List.reverseRecOn with
  | nil => rfl
  | append_singleton gens g ih =>
    rw [List.flatMap_append,List.flatMap_singleton,latest_append,← ih,newest,List.reverse_append]
    simp only [List.reverse_singleton,List.singleton_append,List.findSome?_cons]
    cases latest g.revisions atRev <;> rfl

lemma mem_of_newest {atRev : Revision} {gens : List Generation}
    (h : newest atRev gens = some rev) :
    rev ∈ gens.flatMap Generation.revisions ∧ rev.lessThanOrEqual atRev = true := by
  rw [newest_eq_latest] at h
  exact List.mem_filter.1 (List.mem_of_getLast? h)

theorem Layered.findRevision_eq (h : ki.Layered) (atRev : Revision) :
    ki.findRevision atRev = (newest atRev ki.generations).getD .zero := by
  rw [newest_eq_latest]
  exact findRevision_eq_latest h.increasing h.created atRev

lemma forall_lt_of_last {revs : List Revision} {last : Revision}
    (h : revs.Pairwise (· < ·)) (hlast : revs.getLast? = some last) (hlt : last < rev) :
    ∀ r ∈ revs, r < rev := by
  obtain ⟨init,rfl⟩ := List.getLast?_eq_some_iff.1 hlast
  intro r hr
  obtain hr | hr := List.mem_append.1 hr
  · have h₁ := Revision.lt_iff.1 ((List.pairwise_append.1 h).2.2 r hr last (by simp))
    have h₂ := Revision.lt_iff.1 hlt
    exact Revision.lt_iff.2 (by omega)
  · rwa [List.mem_singleton.1 hr]

lemma lastRevision_put (ki : KeyItem) (rev : Revision) : (ki.put rev).lastRevision = rev := by
  have hlast := getLast?_revisions (ki.isDeleted_put rev)
  rw [revisions_put,List.getLast?_concat] at hlast
  exact (Option.some.inj hlast).symm

lemma exists_last_generation (h : ki.isDeleted = false) :
    ∃ init gen, ki.generations = init ++ [gen] ∧ gen.isEmpty = false ∧
      gen.revisions.getLast? = some ki.lastRevision := by
  obtain ⟨gen,hgen,hne⟩ := exists_generation_of_live h
  refine ⟨_,gen,eq_append_of_currentGeneration hgen,hne,?_⟩
  cases hrevs : gen.revisions.getLast? with
  | none =>
    have hnil : gen.isEmpty = true := by
      rw [Generation.isEmpty,List.getLast?_eq_none_iff.1 hrevs]
      rfl
    exact absurd hnil (by rw [hne]; decide)
  | some rev => simp [lastRevision,hgen,Generation.lastRevision,hrevs]

lemma put_of_append {init : List Generation} {gen : Generation}
    (h : ki.generations = init ++ [gen]) (hne : gen.isEmpty = false) (rev : Revision) :
    (ki.put rev).generations = init ++ [⟨gen.created,gen.revisions ++ [rev]⟩] := by
  have hgen : ki.currentGeneration = some gen := by
    rw [currentGeneration,h,List.getLast?_concat]
  rw [put_of_live hgen hne,h,List.dropLast_concat]

lemma generations_put (ki : KeyItem) (rev : Revision) :
    (ki.isDeleted = true ∧ (ki.put rev).generations = ki.generations ++ [⟨rev,[rev]⟩]) ∨
      ∃ init gen, ki.isDeleted = false ∧ ki.generations = init ++ [gen] ∧
        gen.revisions.getLast? = some ki.lastRevision ∧
        (ki.put rev).generations = init ++ [⟨gen.created,gen.revisions ++ [rev]⟩] := by
  cases hdel : ki.isDeleted with
  | true => exact .inl ⟨rfl,by rw [put_of_deleted hdel]⟩
  | false =>
    obtain ⟨init,gen,hgens,hne,hlast⟩ := exists_last_generation hdel
    exact .inr ⟨init,gen,rfl,hgens,hlast,put_of_append hgens hne rev⟩

lemma generations_delete (h : ki.isDeleted = false) (rev : Revision) :
    (ki.delete rev).generations = (ki.put rev).generations ++ [⟨rev,[]⟩] := by
  obtain ⟨gen,hgen,hne⟩ := exists_generation_of_live h
  rw [delete_of_live hgen hne]

lemma Layered.empty (modified : Revision) : Layered ⟨[],modified⟩ :=
  ⟨List.Pairwise.nil,fun _ hg => absurd hg List.not_mem_nil,fun _ hg => absurd hg List.not_mem_nil⟩

lemma Layered.put (h : ki.Layered)
    (hmain : ∀ r ∈ ki.revisions, r.main ≤ rev.main)
    (hlast : ki.isDeleted = false → ki.lastRevision < rev) : (ki.put rev).Layered := by
  have hself : rev.lessThanOrEqual rev = true := Revision.lessThanOrEqual_iff.2 (by omega)
  refine ⟨?_,?_,?_⟩
  · rw [revisions_put,List.pairwise_append]
    refine ⟨h.mains,List.pairwise_singleton _ _,fun a ha b hb => ?_⟩
    rw [List.mem_singleton.1 hb]
    exact hmain a ha
  · obtain ⟨-,hgens⟩ | ⟨init,gen,hdel,hgens,hgen,hput⟩ := ki.generations_put rev
    · rw [hgens,List.forall_mem_append]
      exact ⟨h.increasing,List.forall_mem_singleton.2 (List.pairwise_singleton _ _)⟩
    · have hinc := h.increasing
      rw [hgens,List.forall_mem_append,List.forall_mem_singleton] at hinc
      rw [hput,List.forall_mem_append,List.forall_mem_singleton,List.pairwise_append]
      refine ⟨hinc.1,hinc.2,List.pairwise_singleton _ _,fun a ha b hb => ?_⟩
      rw [List.mem_singleton.1 hb]
      exact forall_lt_of_last hinc.2 hgen (hlast hdel) a ha
  · obtain ⟨-,hgens⟩ | ⟨init,gen,hdel,hgens,hgen,hput⟩ := ki.generations_put rev
    · rw [hgens,List.forall_mem_append]
      exact ⟨h.created,List.forall_mem_singleton.2 (List.forall_mem_singleton.2 hself)⟩
    · have hcreated := h.created
      rw [hgens,List.forall_mem_append,List.forall_mem_singleton] at hcreated
      rw [hput,List.forall_mem_append,List.forall_mem_singleton]
      refine ⟨hcreated.1,List.forall_mem_append.2 ⟨hcreated.2,List.forall_mem_singleton.2 ?_⟩⟩
      have hlow := Revision.lessThanOrEqual_iff.1 (hcreated.2 _ (List.mem_of_getLast? hgen))
      have hhigh := Revision.lt_iff.1 (hlast hdel)
      exact Revision.lessThanOrEqual_iff.2 (by dsimp only; omega)

lemma Layered.delete (h : ki.Layered) (hlive : ki.isDeleted = false)
    (hmain : ∀ r ∈ ki.revisions, r.main ≤ rev.main)
    (hlast : ki.lastRevision < rev) : (ki.delete rev).Layered := by
  have hput := h.put hmain fun _ => hlast
  refine ⟨?_,?_,?_⟩
  · rw [revisions_delete hlive,← revisions_put]
    exact hput.mains
  · rw [generations_delete hlive,List.forall_mem_append]
    exact ⟨hput.increasing,List.forall_mem_singleton.2 List.Pairwise.nil⟩
  · rw [generations_delete hlive,List.forall_mem_append]
    exact ⟨hput.created,List.forall_mem_singleton.2 fun r hr => absurd hr List.not_mem_nil⟩

end KeyItem

namespace MemoryStore
variable {key : Bytes}

def item (s : MemoryStore) (key : Bytes) : KeyItem := s.keyIndex[key]?.getD ⟨[],.zero⟩

lemma getRevision_eq (s : MemoryStore) (key : Bytes) (atRev : Revision) :
    s.keyIndex.getRevision key atRev = (s.item key).findRevision atRev := by
  unfold KeyIndex.getRevision item
  cases s.keyIndex[key]? <;> rfl

lemma liveItem_eq (s : MemoryStore) (key : Bytes) :
    s.liveItem key = if (s.item key).isDeleted then none else some (s.item key) := by
  unfold liveItem item
  cases s.keyIndex[key]? <;> rfl

lemma liveItem_eq_some {s : MemoryStore} {ki : KeyItem} :
    s.liveItem key = some ki ↔ (s.item key).isDeleted = false ∧ s.item key = ki := by
  rw [liveItem_eq]
  cases (s.item key).isDeleted <;> simp

lemma liveItem_eq_none {s : MemoryStore} :
    s.liveItem key = none ↔ (s.item key).isDeleted = true := by
  rw [liveItem_eq]
  cases (s.item key).isDeleted <;> simp

lemma item_putAt_self (s : MemoryStore) (rev : Revision) (key value : Bytes) (lease : ℤ) :
    (s.putAt rev key value lease).item key = (s.item key).put rev := by
  simp only [item,putAt,KeyIndex.put]
  cases s.keyIndex[key]? with
  | none =>
    rw [ExtTreeMap.getElem?_insert_self]
    rfl
  | some ki =>
    rw [ExtTreeMap.getElem?_insert_self]
    rfl

lemma item_putAt_of_ne (s : MemoryStore) (rev : Revision) {k : Bytes} (value : Bytes)
    (lease : ℤ) (h : k ≠ key) : (s.putAt rev key value lease).item k = s.item k := by
  simp only [item,putAt,KeyIndex.put]
  cases s.keyIndex[key]? <;> simp only [getElem?_insert_of_ne h]

lemma item_tombstone_self {s : MemoryStore} (ki : KeyItem) (rev : Revision) :
    (s.tombstone rev key ki).item key = (s.item key).delete rev := by
  simp only [item,tombstone,KeyIndex.delete]
  cases h : s.keyIndex[key]? with
  | none =>
    rw [h]
    rfl
  | some old =>
    rw [ExtTreeMap.getElem?_insert_self]
    rfl

lemma item_tombstone_of_ne (s : MemoryStore) (rev : Revision) {k : Bytes} (ki : KeyItem)
    (h : k ≠ key) : (s.tombstone rev key ki).item k = s.item k := by
  simp only [item,tombstone,KeyIndex.delete]
  cases s.keyIndex[key]? <;> simp only [getElem?_insert_of_ne h]

structure WellFormed (s : MemoryStore) : Prop where
  layered : ∀ key, (s.item key).Layered
  bounds : ∀ key, ∀ rev ∈ (s.item key).revisions,
    0 < rev.main ∧ 0 ≤ rev.sub ∧ rev.main ≤ s.current.main
  stored : ∀ (rev : Revision) (kv : KeyValue), s.revisionStore[rev]? = some kv →
    0 < rev.main ∧ kv.modRevision = rev.main
  current : 0 ≤ s.current.main ∧ 0 ≤ s.current.sub
  compacted : 0 ≤ s.compactedRev.main ∧ s.compactedRev.sub = 0

/-- The live keys were last written before `rev`. -/
def Below (s : MemoryStore) (rev : Revision) : Prop :=
  ∀ key, (s.item key).isDeleted = false → (s.item key).lastRevision < rev

variable {s : MemoryStore} {rev : Revision}

lemma Below.mono (h : s.Below rev) {rev' : Revision}
    (hle : rev.lessThanOrEqual rev' = true) : s.Below rev' := by
  intro key hlive
  have h₁ := Revision.lt_iff.1 (h key hlive)
  have h₂ := Revision.lessThanOrEqual_iff.1 hle
  exact Revision.lt_iff.2 (by omega)

structure WritesItem (s s' : MemoryStore) (key : Bytes) (rev : Revision) (kv : KeyValue)
    (new : KeyItem) : Prop where
  self : s'.item key = new
  other : ∀ k, k ≠ key → s'.item k = s.item k
  store : s'.revisionStore = s.revisionStore.insert rev kv
  closed : s'.closed = s.closed
  current : s'.current = s.current
  compacted : s'.compactedRev = s.compactedRev

lemma putAt_writesItem (s : MemoryStore) (rev : Revision) (key value : Bytes) (lease : ℤ) :
    WritesItem s (s.putAt rev key value lease) key rev
      ⟨key,value,(s.previousInfo rev key).1,rev.main,(s.previousInfo rev key).2,lease⟩
      ((s.item key).put rev) where
  self := s.item_putAt_self rev key value lease
  other _ hk := s.item_putAt_of_ne rev value lease hk
  store := rfl
  closed := rfl
  current := rfl
  compacted := rfl

lemma tombstone_writesItem (s : MemoryStore) (rev : Revision) (key : Bytes) (ki : KeyItem) :
    WritesItem s (s.tombstone rev key ki) key rev
      ⟨key,[],((s.lastRecord ki).map KeyValue.createRevision).getD 0,rev.main,0,0⟩
      ((s.item key).delete rev) where
  self := item_tombstone_self ki rev
  other _ hk := s.item_tombstone_of_ne rev ki hk
  store := rfl
  closed := rfl
  current := rfl
  compacted := rfl

lemma WellFormed.write (h : s.WellFormed) {s' : MemoryStore} {kv : KeyValue}
    {new : KeyItem} (w : WritesItem s s' key rev kv new) (hmain : rev.main = s.current.main)
    (hpos : 0 < rev.main) (hsub : 0 ≤ rev.sub) (hmod : kv.modRevision = rev.main)
    (hlayered : new.Layered) (hrevs : new.revisions = (s.item key).revisions ++ [rev]) :
    s'.WellFormed where
  layered k := by
    obtain rfl | hk := eq_or_ne k key
    · rwa [w.self]
    · rw [w.other k hk]
      exact h.layered k
  bounds k r hr := by
    rw [w.current]
    obtain rfl | hk := eq_or_ne k key
    · rw [w.self,hrevs] at hr
      obtain hr | hr := List.mem_append.1 hr
      · exact h.bounds k r hr
      · rw [List.mem_singleton.1 hr]
        exact ⟨hpos,hsub,hmain.le⟩
    · rw [w.other k hk] at hr
      exact h.bounds k r hr
  stored r kv' hr := by
    rw [w.store,ExtTreeMap.getElem?_insert] at hr
    split at hr
    · next heq =>
      obtain rfl := Option.some.inj hr
      obtain rfl := LawfulEqCmp.eq_of_compare heq
      exact ⟨hpos,hmod⟩
    · exact h.stored r kv' hr
  current := by rw [w.current]; exact h.current
  compacted := by rw [w.compacted]; exact h.compacted

lemma WellFormed.main_le (h : s.WellFormed) (hmain : rev.main = s.current.main) (key : Bytes) :
    ∀ r ∈ (s.item key).revisions, r.main ≤ rev.main := fun r hr => by
  rw [hmain]
  exact (h.bounds key r hr).2.2

lemma WellFormed.putAt (h : s.WellFormed) (hbelow : s.Below rev)
    (hmain : rev.main = s.current.main) (hpos : 0 < rev.main) (hsub : 0 ≤ rev.sub)
    (key value : Bytes) (lease : ℤ) : (s.putAt rev key value lease).WellFormed :=
  h.write (s.putAt_writesItem rev key value lease) hmain hpos hsub rfl
    ((h.layered key).put (h.main_le hmain key) (hbelow key)) ((s.item key).revisions_put rev)

lemma WellFormed.tombstone (h : s.WellFormed) {ki : KeyItem}
    (hki : s.liveItem key = some ki) (hlast : ki.lastRevision < rev)
    (hmain : rev.main = s.current.main) (hpos : 0 < rev.main) (hsub : 0 ≤ rev.sub) :
    (s.tombstone rev key ki).WellFormed := by
  obtain ⟨hlive,rfl⟩ := liveItem_eq_some.1 hki
  exact h.write (s.tombstone_writesItem rev key _) hmain hpos hsub rfl
    ((h.layered key).delete hlive (h.main_le hmain key) hlast) (KeyItem.revisions_delete hlive rev)

lemma Below.putAt (h : s.Below rev) {rev' : Revision} (hlt : rev < rev') (key value : Bytes)
    (lease : ℤ) : (s.putAt rev key value lease).Below rev' := by
  intro k hlive
  obtain rfl | hk := eq_or_ne k key
  · rw [item_putAt_self,KeyItem.lastRevision_put]
    exact hlt
  · rw [item_putAt_of_ne _ _ _ _ hk] at hlive ⊢
    have h₁ := Revision.lt_iff.1 (h k hlive)
    have h₂ := Revision.lt_iff.1 hlt
    exact Revision.lt_iff.2 (by omega)

lemma Below.tombstone (h : s.Below rev) (at' : Revision) (key : Bytes) (ki : KeyItem) :
    (s.tombstone at' key ki).Below rev := by
  intro k hlive
  obtain rfl | hk := eq_or_ne k key
  · rw [item_tombstone_self,KeyItem.isDeleted_delete] at hlive
    exact absurd hlive (by decide)
  · rw [item_tombstone_of_ne _ _ _ hk] at hlive ⊢
    exact h k hlive

lemma WellFormed.deleteKeys (h : s.WellFormed) {base : Revision} (keys : List Bytes)
    {i : ℤ} (deleted : ℤ) {last : ℤ} (hbelow : s.Below base) (hmain : base.main = s.current.main)
    (hpos : 0 < base.main) (hsub : 0 ≤ base.sub) (hi : 0 ≤ i) (hlast : 0 ≤ last) :
    let done := MemoryStore.deleteKeys base i keys (s,deleted,last)
    done.1.WellFormed ∧ done.1.Below base ∧ done.1.current = s.current ∧ 0 ≤ done.2.2 := by
  induction keys generalizing s i deleted last with
  | nil => exact ⟨h,hbelow,rfl,hlast⟩
  | cons key keys ih =>
    rw [MemoryStore.deleteKeys]
    cases hki : s.liveItem key with
    | none => exact ih h deleted hbelow hmain (by omega) hlast
    | some ki =>
      have hlt : ki.lastRevision < ⟨base.main,base.sub+i⟩ := by
        obtain ⟨hlive,rfl⟩ := liveItem_eq_some.1 hki
        have := Revision.lt_iff.1 (hbelow key hlive)
        exact Revision.lt_iff.2 (by dsimp only; omega)
      exact ih (h.tombstone hki hlt hmain hpos (by dsimp only; omega)) (deleted+1)
        (hbelow.tombstone _ key ki) hmain (by omega) hi

lemma WellFormed.executeOps {txnRev : Revision} (ops : List Op) {i : ℤ} (h : s.WellFormed)
    (hbelow : s.Below ⟨txnRev.main,i⟩) (hmain : txnRev.main = s.current.main)
    (hpos : 0 < txnRev.main) (hi : 0 ≤ i) :
    (MemoryStore.executeOps txnRev i ops s).1.WellFormed := by
  induction ops generalizing s i with
  | nil => exact h
  | cons op ops ih =>
    have hle : (⟨txnRev.main,i⟩ : Revision).lessThanOrEqual ⟨txnRev.main,i+1⟩ = true :=
      Revision.lessThanOrEqual_iff.2 (by dsimp only; omega)
    rw [MemoryStore.executeOps]
    obtain ⟨type,key,stop,value,lease⟩ := op
    cases type with
    | put =>
      exact ih (h.putAt hbelow hmain hpos hi key value lease)
        (hbelow.putAt (Revision.lt_iff.2 (by dsimp only; omega)) key value lease) hmain (by omega)
    | get => exact ih h (hbelow.mono hle) hmain (by omega)
    | delete =>
      simp only [executeOp,executeDelete]
      cases hki : s.liveItem key with
      | none => exact ih h (hbelow.mono hle) hmain (by omega)
      | some ki =>
        have hlt : ki.lastRevision < ⟨txnRev.main,i⟩ := by
          obtain ⟨hlive,rfl⟩ := liveItem_eq_some.1 hki
          exact hbelow key hlive
        exact ih (h.tombstone hki hlt hmain hpos hi) ((hbelow.tombstone _ key ki).mono hle) hmain
          (by omega)
    | deleteRange =>
      obtain ⟨hwf,hbelow',hcurrent,-⟩ := h.deleteKeys (s.keysToDelete key stop) 0 hbelow
        hmain hpos hi le_rfl le_rfl
      exact ih hwf (hbelow'.mono hle) (hmain.trans (by rw [← hcurrent]; rfl)) (by omega)
    | other code => exact ih h (hbelow.mono hle) hmain (by omega)

lemma WellFormed.next (h : s.WellFormed) : s.next.WellFormed where
  layered := h.layered
  bounds key r hr := by
    obtain ⟨hpos,hsub,hle⟩ := h.bounds key r hr
    exact ⟨hpos,hsub,by dsimp only [MemoryStore.next]; omega⟩
  stored := h.stored
  current := ⟨by have := h.current.1; dsimp only [MemoryStore.next]; omega,le_rfl⟩
  compacted := h.compacted

lemma WellFormed.below_next (h : s.WellFormed) : s.next.Below s.next.current := by
  intro key hlive
  have hmem : (s.item key).lastRevision ∈ (s.item key).revisions :=
    List.mem_of_getLast? (KeyItem.getLast?_revisions hlive)
  have hle := (h.bounds key _ hmem).2.2
  exact Revision.lt_iff.2 (Or.inl (by dsimp only [MemoryStore.next]; exact Int.lt_add_one_of_le hle))

lemma WellFormed.next_pos (h : s.WellFormed) : 0 < s.next.current.main := by
  have := h.current.1
  dsimp only [MemoryStore.next]
  omega

theorem WellFormed.step (h : s.WellFormed) (call : Call) : (s.step call).WellFormed := by
  cases call with
  | put key value lease =>
    simp only [MemoryStore.step,MemoryStore.put]
    split_ifs
    · exact h
    · exact h
    · exact h.next.putAt h.below_next rfl h.next_pos le_rfl key value lease
  | delete key =>
    simp only [MemoryStore.step,MemoryStore.delete]
    split_ifs
    · exact h
    · exact h
    · cases hki : s.liveItem key with
      | none => exact h
      | some ki =>
        have hlt : ki.lastRevision < s.next.current := by
          obtain ⟨hlive,rfl⟩ := liveItem_eq_some.1 hki
          exact h.below_next key hlive
        exact h.next.tombstone hki hlt rfl h.next_pos le_rfl
  | deleteRange start stop =>
    simp only [MemoryStore.step,MemoryStore.deleteRange]
    obtain ⟨hwf,-,hcurrent,hlast⟩ := h.next.deleteKeys (s.keysToDelete start stop) 0 h.below_next
      rfl h.next_pos le_rfl le_rfl le_rfl
    split_ifs
    · exact h
    · exact h
    · exact h
    · refine ⟨hwf.layered,hwf.bounds,hwf.stored,⟨hwf.current.1,hlast⟩,hwf.compacted⟩
    · exact hwf
  | commit txn =>
    simp only [MemoryStore.step,MemoryStore.commit]
    split_ifs
    · exact h
    · cases succeeded s.liveRecord txn.conditions with
      | none => exact h
      | some b =>
        exact h.next.executeOps _ h.below_next rfl h.next_pos le_rfl

end MemoryStore

end MetaStore.MVCC
