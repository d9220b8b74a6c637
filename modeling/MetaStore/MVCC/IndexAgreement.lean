import MetaStore.Library.Journal
import MetaStore.MVCC.Layered

/-! The index and the records of the store in memory. Every write puts one revision into the
index and one record under that revision, so that the two agree as long as no revision is used
twice. A range deletion in a transaction uses one sub-revision for each key that it finds,
starting with its own position, and the operations after it may use them again. -/
namespace MetaStore.MVCC
open Std

/-- No operation that writes stands at a position that an earlier range deletion has used. The
position of the first operation is `i`, and `free` is the first position that is not used. -/
def SeparateOps (live : Set Bytes) (free i : ℤ) : List Op → Prop
  | [] => True
  | op :: ops => (op.writes live = ∅ ∨ free ≤ i) ∧
    SeparateOps (op.liveAfter live) (max free (i+(op.writes live).ncard)) (i+1) ops

def Call.Separate (s : MemoryStore) : Call → Prop
  | .commit txn =>
    ∀ b, succeeded s.liveRecord txn.conditions = some b →
      SeparateOps s.live 0 0 (if b then txn.thenOps else txn.elseOps)
  | _ => True

def SeparateFrom : MemoryStore → List Call → Prop
  | _,[] => True
  | s,call :: calls => call.Separate s ∧ SeparateFrom (s.step call) calls

namespace MemoryStore
variable {main : ℤ} {keys : List Bytes} {key : Bytes}

/-- Every revision of the index has its own record, of the key that the index has it for, and
the revisions of a key increase. -/
structure Agrees (s : MemoryStore) : Prop where
  stored : ∀ key, ∀ rev ∈ s.recorded key, ∃ kv, s.revisionStore[rev]? = some kv ∧ kv.key = key
  one : ∀ key key' rev, rev ∈ s.recorded key → rev ∈ s.recorded key' → key = key'
  increasing : ∀ key, (s.recorded key).Pairwise (· < ·)

/-- The journal has all revisions of the index, with the keys they were written for; a record
is of the last key that was written under its revision. -/
structure Journaled (s : MemoryStore) (journal : List (Bytes × Revision)) : Prop where
  opened : s.closed = false
  nonneg : 0 ≤ s.current.main
  bounds : ∀ entry ∈ journal, 0 < entry.2.main ∧ entry.2.main ≤ s.current.main
  recorded : ∀ key, s.recorded key = Journal.history journal key
  written : ∀ rev, (s.revisionStore[rev]?).map KeyValue.key =
    (journal.reverse.find? fun entry => decide (entry.2 = rev)).map Prod.fst

lemma recorded_eq (s : MemoryStore) (key : Bytes) : s.recorded key = (s.item key).revisions := by
  unfold recorded item
  cases s.keyIndex[key]? <;> rfl

lemma mem_live {s : MemoryStore} :
    key ∈ s.live ↔ (s.item key).isDeleted = false := by
  change s.liveItem key ≠ none ↔ _
  rw [Ne,liveItem_eq_none,Bool.not_eq_true]

variable {s s' : MemoryStore} {journal : List (Bytes × Revision)}

theorem Journaled.agrees (h : s.Journaled journal)
    (hincreasing : (journal.map Prod.snd).Pairwise (· < ·)) : s.Agrees := by
  have hnodup : (journal.map Prod.snd).Nodup := hincreasing.imp fun {a b} hlt heq => by
    have := Revision.lt_iff.mp hlt
    rw [heq] at this
    omega
  refine ⟨fun key rev hrev => ?_,fun key key' rev hrev hrev' => ?_,fun key => ?_⟩
  · rw [h.recorded,Journal.mem_history] at hrev
    have hkey := h.written rev
    rw [Journal.find?_reverse_of_mem hnodup hrev,Option.map_some,Option.map_eq_some_iff] at hkey
    exact hkey
  · rw [h.recorded,Journal.mem_history] at hrev hrev'
    exact congrArg Prod.fst (List.inj_on_of_nodup_map hnodup hrev hrev' rfl)
  · rw [h.recorded]
    exact hincreasing.sublist (Journal.history_sublist journal key)

theorem Journaled.nodup (h : s.Journaled journal) (hagrees : s.Agrees) :
    (journal.map Prod.snd).Nodup := by
  refine Journal.nodup_of_histories (fun (r : Revision) (hr : r < r) => ?_) (fun key => ?_)
    fun key key' rev => ?_
  · have := Revision.lt_iff.mp hr
    omega
  · rw [← h.recorded]
    exact hagrees.increasing key
  · rw [← h.recorded,← h.recorded]
    exact hagrees.one key key' rev

lemma Journaled.write (h : s.Journaled journal) {rev : Revision} {kv : KeyValue}
    {new : KeyItem} (w : WritesItem s s' key rev kv new) (hkey : kv.key = key)
    (hrevs : new.revisions = (s.item key).revisions ++ [rev]) (hpos : 0 < rev.main)
    (hmain : rev.main = s.current.main) : s'.Journaled (journal ++ [(key,rev)]) where
  opened := w.closed.trans h.opened
  nonneg := by rw [w.current]; exact h.nonneg
  bounds entry hentry := by
    rw [w.current]
    obtain hentry | hentry := List.mem_append.mp hentry
    · exact h.bounds entry hentry
    · rw [List.mem_singleton.mp hentry]
      exact ⟨hpos,hmain.le⟩
  recorded k := by
    rw [Journal.history_append,← h.recorded,recorded_eq,recorded_eq]
    obtain rfl | hk := eq_or_ne k key
    · rw [w.self,hrevs,Journal.history_singleton_self]
    · rw [w.other k hk,Journal.history_singleton_of_ne hk,List.append_nil]
  written r := by
    rw [w.store,ExtTreeMap.getElem?_insert,List.reverse_append]
    simp only [List.reverse_singleton,List.singleton_append,List.find?_cons]
    by_cases hr : rev = r
    · subst hr
      simp [hkey]
    · have hcmp : compare rev r ≠ .eq := fun heq => hr (LawfulEqCmp.eq_of_compare heq)
      simpa [hr,hcmp] using h.written r

lemma Journaled.putAt (h : s.Journaled journal) (rev : Revision) (hpos : 0 < rev.main)
    (hmain : rev.main = s.current.main) (key value : Bytes) (lease : ℤ) :
    (s.putAt rev key value lease).Journaled (journal ++ [(key,rev)]) :=
  h.write (s.putAt_writesItem rev key value lease) rfl ((s.item key).revisions_put rev) hpos hmain

lemma Journaled.tombstone (h : s.Journaled journal) (rev : Revision) (hpos : 0 < rev.main)
    (hmain : rev.main = s.current.main) {ki : KeyItem}
    (hki : s.liveItem key = some ki) :
    (s.tombstone rev key ki).Journaled (journal ++ [(key,rev)]) :=
  h.write (s.tombstone_writesItem rev key ki) rfl
    (KeyItem.revisions_delete (liveItem_eq_some.mp hki).1 rev) hpos hmain

lemma Journaled.next (h : s.Journaled journal) : s.next.Journaled journal where
  opened := h.opened
  nonneg := by have := h.nonneg; dsimp only [MemoryStore.next]; omega
  bounds entry hentry := by
    have := h.bounds entry hentry
    dsimp only [MemoryStore.next]
    omega
  recorded := h.recorded
  written := h.written

lemma Journaled.next_pos (h : s.Journaled journal) : 0 < s.next.current.main := by
  have := h.nonneg
  dsimp only [MemoryStore.next]
  omega

lemma live_putAt (s : MemoryStore) (rev : Revision) (key value : Bytes) (lease : ℤ) :
    (s.putAt rev key value lease).live = insert key s.live := by
  ext k
  rw [mem_live,Set.mem_insert_iff,mem_live]
  obtain rfl | hk := eq_or_ne k key
  · rw [item_putAt_self,KeyItem.isDeleted_put]
    simp
  · rw [item_putAt_of_ne _ _ _ _ hk]
    simp [hk]

lemma live_tombstone (s : MemoryStore) (rev : Revision) (key : Bytes) (ki : KeyItem) :
    (s.tombstone rev key ki).live = s.live \ {key} := by
  ext k
  rw [mem_live,Set.mem_sdiff,mem_live]
  obtain rfl | hk := eq_or_ne k key
  · rw [item_tombstone_self,KeyItem.isDeleted_delete]
    simp
  · rw [item_tombstone_of_ne _ _ _ hk]
    simp [hk]

def entries (main : ℤ) : ℤ → List Bytes → List (Bytes × Revision)
  | _,[] => []
  | i,key :: keys => (key,⟨main,i⟩) :: entries main (i+1) keys

lemma mem_entries {i : ℤ} {entry : Bytes × Revision}
    (h : entry ∈ entries main i keys) :
    entry.2.main = main ∧ i ≤ entry.2.sub ∧ entry.2.sub < i+keys.length := by
  induction keys generalizing i with
  | nil => exact absurd h List.not_mem_nil
  | cons key keys ih =>
    rw [List.length_cons,Nat.cast_succ]
    obtain rfl | h := List.mem_cons.mp h
    · exact ⟨rfl,le_rfl,by dsimp only; omega⟩
    · obtain ⟨hmain,hlow,hhigh⟩ := ih h
      exact ⟨hmain,by omega,by omega⟩

lemma exists_entry {i : ℤ} {p : ℤ} (hlow : i ≤ p)
    (hhigh : p < i+keys.length) : ∃ key, (key,⟨main,p⟩) ∈ entries main i keys := by
  induction keys generalizing i with
  | nil => exact absurd hhigh (by simpa using hlow)
  | cons key keys ih =>
    rw [List.length_cons,Nat.cast_succ] at hhigh
    obtain rfl | hne := eq_or_ne i p
    · exact ⟨key,List.mem_cons_self⟩
    · obtain ⟨k,hk⟩ := ih (show i+1 ≤ p by omega) (by omega)
      exact ⟨k,List.mem_cons_of_mem _ hk⟩

lemma entries_increasing (main i : ℤ) (keys : List Bytes) :
    ((entries main i keys).map Prod.snd).Pairwise (· < ·) := by
  induction keys generalizing i with
  | nil => exact List.Pairwise.nil
  | cons key keys ih =>
    refine List.pairwise_cons.mpr ⟨fun rev hrev => ?_,ih (i+1)⟩
    obtain ⟨entry,hentry,rfl⟩ := List.mem_map.mp hrev
    obtain ⟨hmain,hlow,-⟩ := mem_entries hentry
    exact Revision.lt_iff.mpr (Or.inr ⟨hmain.symm,by dsimp only; omega⟩)

lemma Journaled.lastRevision_ne_zero (h : s.Journaled journal) {ki : KeyItem}
    (hki : s.liveItem key = some ki) : ki.lastRevision.isZero = false := by
  have hmem := lastRevision_mem hki
  rw [h.recorded,Journal.mem_history] at hmem
  exact Revision.isZero_of_main_pos (h.bounds _ hmem).1

lemma Journaled.deleteKeys (h : s.Journaled journal) (base : Revision) (hpos : 0 < base.main)
    (hmain : base.main = s.current.main) (hlive : ∀ key ∈ keys, key ∈ s.live)
    (hnodup : keys.Nodup) (i deleted last : ℤ) :
    (MemoryStore.deleteKeys base i keys (s,deleted,last)).1.Journaled
      (journal ++ entries base.main (base.sub+i) keys) := by
  induction keys generalizing s journal i deleted last with
  | nil =>
    rw [MemoryStore.deleteKeys,entries,List.append_nil]
    exact h
  | cons key keys ih =>
    obtain ⟨hnew,hnodup⟩ := List.nodup_cons.mp hnodup
    obtain ⟨ki,hki⟩ := Option.ne_none_iff_exists'.mp (hlive key List.mem_cons_self)
    have hrest : ∀ k ∈ keys, k ∈ (s.tombstone ⟨base.main,base.sub+i⟩ key ki).live := by
      intro k hk
      rw [live_tombstone]
      exact ⟨hlive k (List.mem_cons_of_mem _ hk),fun heq => hnew (heq ▸ hk)⟩
    have htomb := h.tombstone ⟨base.main,base.sub+i⟩ hpos hmain hki
    have hdone := ih htomb hmain hrest hnodup (i+1) (deleted+1) i
    rw [List.append_assoc,← add_assoc] at hdone
    rw [MemoryStore.deleteKeys,hki]
    exact hdone

lemma live_deleteKeys (base : Revision) (keys : List Bytes) (s : MemoryStore)
    (i deleted last : ℤ) : (MemoryStore.deleteKeys base i keys (s,deleted,last)).1.live =
      s.live \ {key | key ∈ keys} := by
  induction keys generalizing s i deleted last with
  | nil => simp [MemoryStore.deleteKeys]
  | cons key keys ih =>
    rw [MemoryStore.deleteKeys]
    cases hki : s.liveItem key with
    | none =>
      have hdead : key ∉ s.live := fun hlive => hlive hki
      dsimp only
      rw [ih]
      ext k
      simp only [Set.mem_sdiff,Set.mem_ofPred_eq,List.mem_cons,not_or]
      exact ⟨fun hk => ⟨hk.1,fun heq => hdead (heq ▸ hk.1),hk.2⟩,fun hk => ⟨hk.1,hk.2.2⟩⟩
    | some ki =>
      dsimp only
      rw [ih,live_tombstone]
      ext k
      simp [and_assoc,not_or]

lemma live_executeOp (h : ∀ key ki, s.liveItem key = some ki → ki.lastRevision.isZero = false)
    (op : Op) (rev : Revision) : (s.executeOp op rev).1.live = op.liveAfter s.live := by
  obtain ⟨type,key,stop,value,lease⟩ := op
  cases type with
  | put => exact live_putAt s rev key value lease
  | get => simp [MemoryStore.executeOp,Op.liveAfter,Op.writes]
  | delete =>
    simp only [MemoryStore.executeOp,executeDelete]
    cases hki : s.liveItem key with
    | none =>
      have hdead : key ∉ s.live := fun hlive => hlive hki
      simp [Op.liveAfter,Op.writes,hdead]
    | some ki => simp [Op.liveAfter,Op.writes,live_tombstone]
  | deleteRange =>
    have hset : {k | k ∈ s.keysToDelete key stop} =
        s.live ∩ {k | inSpan key stop k = true} := Set.ext (mem_keysToDelete h key stop)
    simp only [MemoryStore.executeOp,executeDeleteRange,live_deleteKeys,hset]
    rfl
  | other code => simp [MemoryStore.executeOp,Op.liveAfter,Op.writes]

lemma Journaled.executeOp (h : s.Journaled journal) (hpos : 0 < main)
    (hmain : main = s.current.main) (op : Op) (i : ℤ) :
    ∃ keys : List Bytes, keys.Nodup ∧ {key | key ∈ keys} = op.writes s.live ∧
      (s.executeOp op ⟨main,i⟩).1.Journaled (journal ++ entries main i keys) := by
  obtain ⟨type,key,stop,value,lease⟩ := op
  have hidle : s.Journaled (journal ++ entries main i []) := by
    rw [entries,List.append_nil]
    exact h
  cases type with
  | put =>
    exact ⟨[key],List.nodup_singleton key,by simp [Op.writes],
      h.putAt ⟨main,i⟩ hpos hmain key value lease⟩
  | get => exact ⟨[],List.nodup_nil,by simp [Op.writes],hidle⟩
  | delete =>
    simp only [MemoryStore.executeOp,executeDelete]
    cases hki : s.liveItem key with
    | none =>
      have hdead : key ∉ s.live := fun hlive => hlive hki
      exact ⟨[],List.nodup_nil,by simp [Op.writes,hdead],hidle⟩
    | some ki =>
      have hlive : key ∈ s.live := mem_live.mpr (liveItem_eq_some.mp hki).1
      refine ⟨[key],List.nodup_singleton key,?_,h.tombstone ⟨main,i⟩ hpos hmain hki⟩
      ext k
      simp only [List.mem_singleton,Set.mem_ofPred_eq,Op.writes,Set.mem_inter_iff,
        Set.mem_singleton_iff]
      exact ⟨fun hk => ⟨hk ▸ hlive,hk⟩,fun hk => hk.2⟩
  | deleteRange =>
    have hmem := mem_keysToDelete (fun _ _ hki => h.lastRevision_ne_zero hki) key stop
    have hdone := h.deleteKeys ⟨main,i⟩ hpos hmain (fun k hk => ((hmem k).mp hk).1)
      (s.keyIndex.nodup_range key stop .zero) 0 0 0
    rw [add_zero] at hdone
    exact ⟨s.keysToDelete key stop,s.keyIndex.nodup_range key stop .zero,Set.ext hmem,hdone⟩
  | other code => exact ⟨[],List.nodup_nil,by simp [Op.writes],hidle⟩

lemma deleteKeys_fields (base : Revision) (keys : List Bytes) (s : MemoryStore)
    (i deleted last : ℤ) :
    let done := MemoryStore.deleteKeys base i keys (s,deleted,last)
    done.1.current = s.current ∧ done.1.compactedRev = s.compactedRev ∧ done.1.closed = s.closed := by
  induction keys generalizing s i deleted last with
  | nil => exact ⟨rfl,rfl,rfl⟩
  | cons key keys ih =>
    rw [MemoryStore.deleteKeys]
    cases s.liveItem key with
    | none => exact ih ..
    | some ki => exact ih ..

lemma executeOp_fields (s : MemoryStore) (op : Op) (rev : Revision) :
    (s.executeOp op rev).1.current = s.current ∧
      (s.executeOp op rev).1.compactedRev = s.compactedRev ∧
      (s.executeOp op rev).1.closed = s.closed := by
  obtain ⟨type,key,stop,value,lease⟩ := op
  cases type with
  | put => exact ⟨rfl,rfl,rfl⟩
  | get => exact ⟨rfl,rfl,rfl⟩
  | delete =>
    simp only [MemoryStore.executeOp,executeDelete]
    cases s.liveItem key <;> exact ⟨rfl,rfl,rfl⟩
  | deleteRange => exact deleteKeys_fields ..
  | other code => exact ⟨rfl,rfl,rfl⟩

lemma executeOps_fields (txnRev : Revision) (ops : List Op) (s : MemoryStore) (i : ℤ) :
    let done := MemoryStore.executeOps txnRev i ops s
    done.1.current = s.current ∧ done.1.compactedRev = s.compactedRev ∧ done.1.closed = s.closed := by
  induction ops generalizing s i with
  | nil => exact ⟨rfl,rfl,rfl⟩
  | cons op ops ih =>
    obtain ⟨hcurrent,hcompacted,hclosed⟩ := executeOp_fields s op ⟨txnRev.main,i⟩
    rw [← hcurrent,← hcompacted,← hclosed]
    exact ih ..

/-- The positions of a journal that are used, from `i` on, when `free` is the first free one. -/
def Covers (journal : List (Bytes × Revision)) (main free i : ℤ) : Prop :=
  ∀ p, i ≤ p → p < free → ∃ key, (key,⟨main,p⟩) ∈ journal

/-- Separate operations use increasing sub-revisions, and others use one a second time. -/
lemma Journaled.executeOps (h : s.Journaled journal) (txnRev : Revision) (hpos : 0 < txnRev.main)
    (hmain : txnRev.main = s.current.main) (ops : List Op) (i free : ℤ) :
    ∃ more, (MemoryStore.executeOps txnRev i ops s).1.Journaled (journal ++ more) ∧
      (∀ entry ∈ more, entry.2.main = txnRev.main) ∧
      (SeparateOps s.live free i ops →
        (more.map Prod.snd).Pairwise (· < ·) ∧ ∀ entry ∈ more, free ≤ entry.2.sub ∧ i ≤ entry.2.sub) ∧
      (¬ SeparateOps s.live free i ops → Covers journal txnRev.main free i →
        ¬ ((journal ++ more).map Prod.snd).Nodup) := by
  induction ops generalizing s journal i free with
  | nil =>
    refine ⟨[],?_,fun _ he => absurd he List.not_mem_nil,fun _ => ⟨List.Pairwise.nil,fun _ he =>
      absurd he List.not_mem_nil⟩,fun hnot => absurd trivial hnot⟩
    rw [List.append_nil]
    exact h
  | cons op ops ih =>
    obtain ⟨keys,hnodup,hwrites,hdone⟩ := h.executeOp hpos hmain op i
    have hlive := live_executeOp (fun _ _ hki => h.lastRevision_ne_zero hki) op ⟨txnRev.main,i⟩
    have hcount : (op.writes s.live).ncard = keys.length := by
      rw [← hwrites,← List.toFinset_card_of_nodup hnodup,← Set.ncard_coe_finset]
      simp
    have hempty : op.writes s.live = ∅ ↔ keys = [] := by
      rw [← hwrites,Set.eq_empty_iff_forall_notMem,List.eq_nil_iff_forall_not_mem]
      rfl
    have hmain' : txnRev.main = (s.executeOp op ⟨txnRev.main,i⟩).1.current.main := by
      rw [(executeOp_fields s op _).1,hmain]
    obtain ⟨more,hjournal,hmains,hseparate,hclash⟩ := ih hdone hmain' (i+1)
      (max free (i+keys.length))
    rw [hlive] at hseparate hclash
    rw [List.append_assoc] at hjournal
    refine ⟨entries txnRev.main i keys ++ more,hjournal,?_,?_,?_⟩
    · intro entry hentry
      obtain hentry | hentry := List.mem_append.mp hentry
      · exact (mem_entries hentry).1
      · exact hmains entry hentry
    · rintro ⟨hfree,hrest⟩
      rw [hcount] at hrest
      obtain ⟨hincreasing,hbounds⟩ := hseparate hrest
      refine ⟨?_,?_⟩
      · rw [List.map_append,List.pairwise_append]
        refine ⟨entries_increasing ..,hincreasing,fun a ha b hb => ?_⟩
        obtain ⟨entry,hentry,rfl⟩ := List.mem_map.mp ha
        obtain ⟨later,hlater,rfl⟩ := List.mem_map.mp hb
        obtain ⟨heq,-,hhigh⟩ := mem_entries hentry
        have hlow := (hbounds later hlater).1
        exact Revision.lt_iff.mpr (Or.inr ⟨heq.trans (hmains later hlater).symm,by omega⟩)
      · intro entry hentry
        obtain hentry | hentry := List.mem_append.mp hentry
        · have hlow := (mem_entries hentry).2.1
          obtain hnone | hfree := hfree
          · rw [hempty.mp hnone] at hentry
            exact absurd hentry List.not_mem_nil
          · exact ⟨by omega,hlow⟩
        · have := hbounds entry hentry
          omega
    · intro hnot hcovers
      rw [SeparateOps,hcount,not_and_or] at hnot
      obtain hused | hnot := hnot
      · -- the first key of the operation takes a used position
        obtain ⟨hsome,hlt⟩ := not_or.mp hused
        obtain ⟨key,rest,rfl⟩ := List.exists_cons_of_ne_nil fun hnil => hsome (hempty.mpr hnil)
        obtain ⟨earlier,hearlier⟩ := hcovers i le_rfl (by omega)
        rw [List.map_append,List.nodup_append]
        rintro ⟨-,-,hne⟩
        exact hne _ (List.mem_map_of_mem hearlier) _
          (List.mem_map_of_mem (List.mem_append_left more List.mem_cons_self)) rfl
      · rw [← List.append_assoc]
        refine hclash hnot fun p hlow hhigh => ?_
        by_cases hp : p < free
        · obtain ⟨key,hkey⟩ := hcovers p (by omega) hp
          exact ⟨key,List.mem_append_left _ hkey⟩
        · obtain ⟨key,hkey⟩ := exists_entry (show i ≤ p by omega)
            (show p < i+keys.length by omega)
          exact ⟨key,List.mem_append_right _ hkey⟩

lemma Journaled.step_put (h : s.Journaled journal) (key value : Bytes) (lease : ℤ) :
    ∃ more, (s.step (.put key value lease)).Journaled (journal ++ more) ∧
      (∀ entry ∈ more, entry.2.main = s.current.main+1) ∧ (more.map Prod.snd).Pairwise (· < ·) := by
  by_cases hkey : key = []
  · refine ⟨[],?_,by simp,by simp⟩
    simpa [MemoryStore.step,MemoryStore.put,MVCC.written,hkey] using h
  · refine ⟨[(key,s.next.current)],?_,by simp [MemoryStore.next],by simp⟩
    have hput := h.next.putAt _ h.next_pos rfl key value lease
    simpa [MemoryStore.step,MemoryStore.put,MVCC.written,hkey,h.opened] using hput

lemma Journaled.step_delete (h : s.Journaled journal) (key : Bytes) :
    ∃ more, (s.step (.delete key)).Journaled (journal ++ more) ∧
      (∀ entry ∈ more, entry.2.main = s.current.main+1) ∧ (more.map Prod.snd).Pairwise (· < ·) := by
  by_cases hkey : key = []
  · refine ⟨[],?_,by simp,by simp⟩
    simpa [MemoryStore.step,MemoryStore.delete,MVCC.written,hkey] using h
  cases hki : s.liveItem key with
  | none =>
    refine ⟨[],?_,by simp,by simp⟩
    simpa [MemoryStore.step,MemoryStore.delete,MVCC.written,hkey,h.opened,hki] using h
  | some ki =>
    refine ⟨[(key,s.next.current)],?_,by simp [MemoryStore.next],by simp⟩
    have hdelete := h.next.tombstone _ h.next_pos rfl (show s.next.liveItem key = some ki from hki)
    simpa [MemoryStore.step,MemoryStore.delete,MVCC.written,hkey,h.opened,hki] using hdelete

lemma Journaled.step_deleteRange (h : s.Journaled journal) (start : Bytes) (stop : Option Bytes) :
    ∃ more, (s.step (.deleteRange start stop)).Journaled (journal ++ more) ∧
      (∀ entry ∈ more, entry.2.main = s.current.main+1) ∧ (more.map Prod.snd).Pairwise (· < ·) := by
  by_cases hidle : start = [] ∨ s.keysToDelete start stop = []
  · have hs : s.step (.deleteRange start stop) = s := by
      obtain hstart | hkeys := hidle
      · simp [MemoryStore.step,MemoryStore.deleteRange,MVCC.written,hstart]
      · by_cases hstart : start = []
        · simp [MemoryStore.step,MemoryStore.deleteRange,MVCC.written,hstart]
        · simp [MemoryStore.step,MemoryStore.deleteRange,MVCC.written,hstart,h.opened,hkeys]
    refine ⟨[],?_,by simp,by simp⟩
    rw [hs,List.append_nil]
    exact h
  obtain ⟨hstart,hkeys⟩ := not_or.mp hidle
  have hmem := mem_keysToDelete (fun _ _ hki => h.lastRevision_ne_zero hki) start stop
  have hlive : ∀ k ∈ s.keysToDelete start stop, k ∈ s.next.live := fun k hk => ((hmem k).mp hk).1
  have hdone := h.next.deleteKeys s.next.current h.next_pos rfl hlive
    (s.keyIndex.nodup_range start stop .zero) 0 0 0
  refine ⟨entries (s.current.main+1) (0+0) (s.keysToDelete start stop),?_,
    fun entry hentry => (mem_entries hentry).1,entries_increasing ..⟩
  simp only [MemoryStore.step,MemoryStore.deleteRange,if_neg hstart,h.opened,if_neg hkeys,
    Bool.false_eq_true,if_false]
  split
  · exact ⟨hdone.opened,hdone.nonneg,hdone.bounds,hdone.recorded,hdone.written⟩
  · exact hdone

lemma Journaled.step_commit (h : s.Journaled journal) (txn : Txn) :
    ∃ more, (s.step (.commit txn)).Journaled (journal ++ more) ∧
      (∀ entry ∈ more, entry.2.main = s.current.main+1) ∧
      ((Call.commit txn).Separate s → (more.map Prod.snd).Pairwise (· < ·)) ∧
      (¬ (Call.commit txn).Separate s → ¬ ((journal ++ more).map Prod.snd).Nodup) := by
  cases hb : succeeded s.liveRecord txn.conditions with
  | none =>
    refine ⟨[],?_,by simp,by simp,fun hnot => absurd (fun b hb' => ?_) hnot⟩
    · simpa [MemoryStore.step,MemoryStore.commit,MVCC.written,h.opened,hb] using h
    · exact absurd (hb.symm.trans hb') (by simp)
  | some b =>
    obtain ⟨more,hdone,hmains,hseparate,hclash⟩ := h.next.executeOps s.next.current
      h.next_pos rfl (if b then txn.thenOps else txn.elseOps) 0 0
    refine ⟨more,?_,hmains,fun hsep => (hseparate (hsep b hb)).1,fun hnot => ?_⟩
    · simpa [MemoryStore.step,MemoryStore.commit,MVCC.written,h.opened,hb] using hdone
    · refine hclash (fun hsep => hnot fun b' hb' => ?_) fun p hlow hhigh => by omega
      obtain rfl : b = b' := Option.some.inj (hb.symm.trans hb')
      exact hsep

lemma Journaled.step (h : s.Journaled journal) (call : Call) :
    ∃ more, (s.step call).Journaled (journal ++ more) ∧
      (∀ entry ∈ more, entry.2.main = s.current.main+1) ∧
      (call.Separate s → (more.map Prod.snd).Pairwise (· < ·)) ∧
      (¬ call.Separate s → ¬ ((journal ++ more).map Prod.snd).Nodup) := by
  cases call with
  | put key value lease =>
    obtain ⟨more,hdone,hmains,hincreasing⟩ := h.step_put key value lease
    exact ⟨more,hdone,hmains,fun _ => hincreasing,fun hnot => absurd trivial hnot⟩
  | delete key =>
    obtain ⟨more,hdone,hmains,hincreasing⟩ := h.step_delete key
    exact ⟨more,hdone,hmains,fun _ => hincreasing,fun hnot => absurd trivial hnot⟩
  | deleteRange start stop =>
    obtain ⟨more,hdone,hmains,hincreasing⟩ := h.step_deleteRange start stop
    exact ⟨more,hdone,hmains,fun _ => hincreasing,fun hnot => absurd trivial hnot⟩
  | commit txn => exact h.step_commit txn

/-- A run whose calls are separate keeps an increasing journal; in any other run a revision is
used twice, and stays so. -/
lemma Journaled.foldl (h : s.Journaled journal) (calls : List Call) :
    ∃ more, (calls.foldl MemoryStore.step s).Journaled (journal ++ more) ∧
      ((journal.map Prod.snd).Pairwise (· < ·) → SeparateFrom s calls →
        ((journal ++ more).map Prod.snd).Pairwise (· < ·)) ∧
      (¬ SeparateFrom s calls → ¬ ((journal ++ more).map Prod.snd).Nodup) := by
  induction calls generalizing s journal with
  | nil =>
    rw [← List.append_nil journal] at h
    exact ⟨[],h,fun hj _ => by rwa [List.append_nil],fun hnot => absurd trivial hnot⟩
  | cons call calls ih =>
    obtain ⟨more,hdone,hmains,hseparate,hclash⟩ := h.step call
    obtain ⟨rest,hrest,hincreasing,htwice⟩ := ih hdone
    rw [List.append_assoc] at hrest hincreasing htwice
    refine ⟨more ++ rest,hrest,fun hj hsep => hincreasing ?_ hsep.2,fun hnot => ?_⟩
    · rw [List.map_append,List.pairwise_append]
      refine ⟨hj,hseparate hsep.1,fun a ha b hb => ?_⟩
      obtain ⟨entry,hentry,rfl⟩ := List.mem_map.mp ha
      obtain ⟨new,hnew,rfl⟩ := List.mem_map.mp hb
      have hle := (h.bounds entry hentry).2
      have heq := hmains new hnew
      exact Revision.lt_iff.mpr (Or.inl (by omega))
    · by_cases hcall : call.Separate s
      · exact htwice fun hsep => hnot ⟨hcall,hsep⟩
      · rw [← List.append_assoc,List.map_append]
        exact fun hnodup => hclash hcall (List.nodup_append.mp hnodup).1

lemma journaled_new : Journaled .new [] where
  opened := rfl
  nonneg := le_rfl
  bounds _ hentry := absurd hentry List.not_mem_nil
  recorded key := by simp [MemoryStore.recorded,MemoryStore.new]
  written rev := by simp [MemoryStore.new]

end MemoryStore

/-- The index and the records agree after some calls exactly when no transaction among them has
an operation that writes at a position used by an earlier range deletion of its list. -/
theorem run_agrees_iff (calls : List Call) :
    (MemoryStore.run calls).Agrees ↔ SeparateFrom .new calls := by
  obtain ⟨journal,hjournal,hincreasing,htwice⟩ := MemoryStore.journaled_new.foldl calls
  rw [List.nil_append] at hjournal hincreasing htwice
  refine ⟨fun hagrees => ?_,fun hsep => hjournal.agrees (hincreasing List.Pairwise.nil hsep)⟩
  by_contra hnot
  exact htwice hnot (hjournal.nodup hagrees)

/-- A range deletion of two keys and a put after it use one revision for two keys, and the
record of the put takes the place of a tombstone. -/
theorem run_reuses_sub_revision :
    let s := MemoryStore.run [.put [97] [1] 0,.put [98] [2] 0,
      .commit ⟨[],[{ type := .deleteRange, key := [97], stop := some [99] },
        { type := .put, key := [99], value := [3] }],[]⟩]
    s.recorded [98] = [⟨2,0⟩,⟨3,1⟩] ∧ s.recorded [99] = [⟨3,1⟩] ∧
      s.revisionStore[(⟨3,1⟩ : Revision)]? = some ⟨[99],[3],3,3,1,0⟩ ∧ ¬ s.Agrees := by
  intro s
  have hb : s.recorded [98] = [⟨2,0⟩,⟨3,1⟩] := by decide
  have hc : s.recorded [99] = [⟨3,1⟩] := by decide
  refine ⟨hb,hc,by decide,fun h => ?_⟩
  have hone := h.one [98] [99] ⟨3,1⟩ (by rw [hb]; decide) (by rw [hc]; decide)
  exact absurd hone (by decide)

end MetaStore.MVCC
