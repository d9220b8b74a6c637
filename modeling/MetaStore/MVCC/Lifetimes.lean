import MetaStore.Library.Transition
import MetaStore.MVCC.Timeline
import MetaStore.MVCC.Tracking

/-! The creation revision, version and modification revision of the records over RocksDB, beside
the snapshots that a history of calls should leave. A put takes them from a record that the index
names: it may be the tombstone of an earlier life of the key, and in a transaction it may still be
in the batch, where it is not seen. -/
namespace MetaStore.MVCC
open Std

def Call.request : Call → Request
  | .put key value lease => .put key value lease
  | .delete key => .delete key
  | .deleteRange start stop => .deleteRange start stop
  | .commit txn => .commit txn

def RocksDBStore.step (s : RocksDBStore) (call : Call) : RocksDBStore :=
  (s.serve true call.request).2

namespace Lifetimes
open RocksDBStore

noncomputable def step (state : RocksDBStore × Timeline) (call : Call) :
    Option (RocksDBStore × Timeline) :=
  some (state.1.step call,state.2.step call)

/-- The current record of every live key has the creation revision, the version and the
modification revision of its present life. -/
def Kept (state : RocksDBStore × Timeline) : Prop :=
  ∀ key kv, state.2.latest key = some kv → ∃ current, state.1.liveRecord key = some current ∧
    current.createRevision = kv.createRevision ∧ current.version = kv.version ∧
    current.modRevision = kv.modRevision

/-- The puts of every key since it was last deleted, over the operations of a transaction. -/
def countPuts (puts : Bytes → ℕ) (op : Op) : Bytes → ℕ :=
  match op.type with
  | .put => Function.update puts op.key (puts op.key+1)
  | .delete => Function.update puts op.key 0
  | .deleteRange => fun key => if inSpan op.key op.stop key then 0 else puts key
  | .get => puts
  | .other _ => puts

/-- A put is not the first one after a deletion, and no transaction puts a key twice without
deleting it in between. -/
def Orderly (s : RocksDBStore) : Call → Prop
  | .put key _ _ => key = [] ∨ key ∈ s.live ∨ (s.item key).revisions = []
  | .commit txn => ∀ b, succeeded s.liveRecord txn.conditions = some b →
      ∀ key, (if b then txn.thenOps else txn.elseOps).foldl countPuts (fun _ => 0) key ≤ 1
  | .delete _ => True
  | .deleteRange _ _ => True

section Index
variable (s : RocksDBStore) (rev : Revision) {key k : Bytes}

lemma liveItem_put_self :
    { s with keyIndex := s.keyIndex.put key rev : RocksDBStore }.liveItem key =
      some ((s.item key).put rev) := by
  have hitem : _ = (s.item key).put rev := item_put_self s rev
  exact liveItem_eq_some.mpr ⟨by rw [hitem,KeyItem.isDeleted_put],hitem⟩

lemma liveItem_put_of_ne (h : k ≠ key) :
    { s with keyIndex := s.keyIndex.put key rev : RocksDBStore }.liveItem k = s.liveItem k := by
  rw [liveItem_eq,liveItem_eq,item_put_of_ne _ _ h]

lemma liveItem_delete_self :
    { s with keyIndex := s.keyIndex.delete key rev : RocksDBStore }.liveItem key = none :=
  liveItem_eq_none.mpr (by rw [item_delete_self,KeyItem.isDeleted_delete])

lemma liveItem_delete_of_ne (h : k ≠ key) :
    { s with keyIndex := s.keyIndex.delete key rev : RocksDBStore }.liveItem k = s.liveItem k := by
  rw [liveItem_eq,liveItem_eq,item_delete_of_ne _ _ h]

lemma liveRecord_put {rev : Revision} (hrev : rev.isZero = false) {kv : KeyValue}
    {t : RocksDBStore} (hindex : t.keyIndex = s.keyIndex.put key rev)
    (hdb : t.db.records = WriteBatch.write s.db.records [.put ⟨key,rev⟩ kv]) :
    t.liveRecord key = some kv := by
  have hrecord := Filling.overlay_append ⟨s,[]⟩ (t := s) rfl key key rev rev kv
  rw [if_pos ⟨rfl,rfl⟩] at hrecord
  have hitem : t.liveItem key = some ((s.item key).put rev) := by
    rw [← liveItem_put_self s rev,liveItem,liveItem,hindex]
  rw [liveRecord,hitem,Option.bind_some,lastRecord,KeyItem.lastRevision_put,hrev,record,hdb]
  exact hrecord

end Index

/-- What is known of a live key after `puts` puts of it in the batch. The first one is recorded
as it should be, and every later one as the first of an unknown creation. -/
structure Follows (f : Filling) (main : ℤ) (key : Bytes) (ki : KeyItem) (puts : ℕ)
    (expected : KeyValue) : Prop where
  positive : 0 < ki.lastRevision.main
  old : puts = 0 → ki.lastRevision.main < main
  new : 0 < puts → ki.lastRevision.main = main
  version : 1 ≤ expected.version ∧ puts ≤ expected.version
  stored : ∃ kv, f.overlay key ki.lastRevision = some kv ∧ (puts ≤ 1 → kv = expected) ∧
    (2 ≤ puts → kv.version = 1)

lemma Follows.isZero_eq_false {f : Filling} {main : ℤ} {key : Bytes} {ki : KeyItem} {puts : ℕ}
    {expected : KeyValue} (h : Follows f main key ki puts expected) :
    ki.lastRevision.isZero = false := Revision.isZero_of_main_pos h.positive

/-- The batch of a call with main revision `main`, beside the snapshot it should lead to. -/
structure Fills (main : ℤ) (f : Filling) (m : Snapshot) (puts : Bytes → ℕ) : Prop where
  batch : ∀ op ∈ f.records, op.key.rev.main = main ∧
    ∀ kv, op.value = some kv → kv.createRevision ≤ main
  before : ∀ (k : StorageKey) (kv : KeyValue), f.store.db.records[k]? = some kv →
    k.rev.main < main ∧ kv.createRevision ≤ main
  dead : ∀ key, f.store.liveItem key = none → m key = none ∧ puts key = 0
  live : ∀ key ki, f.store.liveItem key = some ki →
    ∃ expected, m key = some expected ∧ Follows f main key ki (puts key) expected

namespace Fills
variable {main : ℤ} {f : Filling} {m : Snapshot} {puts : Bytes → ℕ}
variable {key : Bytes} {rev : Revision} {t : RocksDBStore} {ki : KeyItem}

lemma follows_of_ne (hdb : t.db = f.store.db) {k : Bytes} (hk : k ≠ key)
    (rev : Revision) (kv : KeyValue) {n : ℕ} {expected : KeyValue}
    (h : Follows f main k ki n expected) :
    Follows ⟨t,f.records ++ [.put ⟨key,rev⟩ kv]⟩ main k ki n expected where
  positive := h.positive
  old := h.old
  new := h.new
  version := h.version
  stored := by
    rw [f.overlay_append hdb,if_neg fun hand => hk hand.1.symm]
    exact h.stored

lemma batch_append (h : Fills main f m puts) {kv : KeyValue}
    (hmain : rev.main = main) (hcreate : kv.createRevision ≤ main) :
    ∀ op ∈ f.records ++ [.put ⟨key,rev⟩ kv], op.key.rev.main = main ∧
      ∀ kv, op.value = some kv → kv.createRevision ≤ main := by
  intro op hop
  obtain hop | hop := List.mem_append.mp hop
  · exact h.batch op hop
  · rw [List.mem_singleton.mp hop]
    refine ⟨hmain,fun kv' hkv' => ?_⟩
    rwa [← Option.some.inj hkv']

/-- Records of before the batch are found, those of the batch are not. -/
lemma record_eq (h : Fills main f m puts)
    (hki : f.store.liveItem key = some ki) :
    (puts key = 0 → f.store.lastRecord key ki = m key) ∧
      (0 < puts key → f.store.lastRecord key ki = none) := by
  obtain ⟨expected,hexpected,hfollows⟩ := h.live key ki hki
  simp only [lastRecord,hfollows.isZero_eq_false,Bool.false_eq_true,if_false]
  constructor
  · intro hputs
    obtain ⟨kv,hkv,hfirst,-⟩ := hfollows.stored
    have hold := hfollows.old hputs
    rw [Filling.overlay_of_old fun op hop => ?_] at hkv
    · rw [hkv,hexpected,hfirst (by omega)]
    · have := (h.batch op hop).1
      omega
  · intro hputs
    have hnew := hfollows.new hputs
    cases hrecord : f.store.record key ki.lastRevision with
    | none => rfl
    | some kv =>
      have := (h.before _ _ hrecord).1
      dsimp only at this
      omega

lemma create_le (h : Fills main f m puts) (hmain : 0 ≤ main) (key : Bytes) (rev : Revision) :
    (following (f.store.record key rev)).1 ≤ main := by
  cases hrecord : f.store.record key rev with
  | none => exact hmain
  | some kv => exact (h.before _ _ hrecord).2

lemma liveInfo_eq (h : Fills main f m puts) (hmain : rev.main = main) (key : Bytes)
    (value : Bytes) (lease : ℤ) : ∃ expected, m.put main key value lease key = some expected ∧
      1 ≤ expected.version ∧ puts key+1 ≤ expected.version ∧
      (puts key = 0 → (⟨key,value,(f.store.liveInfo rev key).1,rev.main,
        (f.store.liveInfo rev key).2,lease⟩ : KeyValue) = expected) ∧
      (0 < puts key → (f.store.liveInfo rev key).2 = 1) := by
  rw [Snapshot.put,Function.update_self]
  cases hki : f.store.liveItem key with
  | none =>
    obtain ⟨hnone,hputs⟩ := h.dead key hki
    have hinfo : f.store.liveInfo rev key = (rev.main,1) := by rw [liveInfo,hki]
    rw [hnone,hputs,hinfo]
    exact ⟨_,rfl,le_rfl,le_rfl,fun _ => by simp only [hmain],fun hlt => absurd hlt (lt_irrefl 0)⟩
  | some ki =>
    obtain ⟨expected,hexpected,hfollows⟩ := h.live key ki hki
    obtain ⟨hold,hnew⟩ := h.record_eq hki
    obtain ⟨hone,hversion⟩ := hfollows.version
    have hinfo : f.store.liveInfo rev key = following (f.store.lastRecord key ki) := by
      rw [liveInfo,hki]
    rw [hexpected,hinfo]
    refine ⟨_,rfl,by dsimp only; omega,by dsimp only; omega,fun hputs => ?_,fun hputs => ?_⟩
    · rw [hold hputs,hexpected,hmain]
      rfl
    · rw [hnew hputs]
      rfl

lemma liveInfo_create_le (h : Fills main f m puts) (hpos : 0 < main)
    (hmain : rev.main = main) (key : Bytes) : (f.store.liveInfo rev key).1 ≤ main := by
  unfold liveInfo
  cases hki : f.store.liveItem key with
  | none => exact hmain.le
  | some ki =>
    dsimp only [lastRecord]
    split
    · exact hpos.le
    · exact h.create_le hpos.le key _

lemma put (h : Fills main f m puts) (hpos : 0 < main) (hmain : rev.main = main)
    (key value : Bytes) (lease : ℤ) {info : ℤ × ℤ} (hinfo : info = f.store.liveInfo rev key) :
    Fills main ⟨{ f.store with keyIndex := f.store.keyIndex.put key rev },
        f.records ++ [.put ⟨key,rev⟩ ⟨key,value,info.1,rev.main,info.2,lease⟩]⟩
      (m.put main key value lease) (Function.update puts key (puts key+1)) := by
  subst hinfo
  refine ⟨h.batch_append hmain (h.liveInfo_create_le hpos hmain key),h.before,
    fun k hk => ?_,fun k ki hki => ?_⟩
  · obtain rfl | hne := eq_or_ne k key
    · rw [liveItem_put_self] at hk
      exact absurd hk (Option.some_ne_none _)
    · rw [liveItem_put_of_ne _ _ hne] at hk
      rw [Snapshot.put,Function.update_of_ne hne,Function.update_of_ne hne]
      exact h.dead k hk
  · obtain rfl | hne := eq_or_ne k key
    · rw [liveItem_put_self] at hki
      obtain rfl := Option.some.inj hki
      obtain ⟨expected,hexpected,hone,hversion,hfirst,hlater⟩ := h.liveInfo_eq hmain k value lease
      rw [Function.update_self]
      refine ⟨expected,hexpected,?_⟩
      have hlast := KeyItem.lastRevision_put (f.store.item k) rev
      constructor
      · rw [hlast]
        omega
      · intro hzero
        omega
      · intro _
        rw [hlast,hmain]
      · exact ⟨hone,by push_cast; exact hversion⟩
      · rw [hlast,f.overlay_append (t := { f.store with keyIndex := f.store.keyIndex.put k rev })
          rfl,if_pos ⟨rfl,rfl⟩]
        exact ⟨_,rfl,fun hle => hfirst (by omega),fun hle => hlater (by omega)⟩
    · rw [liveItem_put_of_ne _ _ hne] at hki
      obtain ⟨expected,hexpected,hfollows⟩ := h.live k ki hki
      rw [Snapshot.put,Function.update_of_ne hne,Function.update_of_ne hne]
      exact ⟨expected,hexpected,follows_of_ne
        (t := { f.store with keyIndex := f.store.keyIndex.put key rev }) rfl hne rev _ hfollows⟩

lemma delete (h : Fills main f m puts) (hpos : 0 < main) (hmain : rev.main = main)
    (key : Bytes) (ki : KeyItem) :
    Fills main (f.delete rev key ki) (m.delete key) (Function.update puts key 0) := by
  have hcreate : (f.store.tombstone rev key ki).createRevision ≤ main := by
    dsimp only [tombstone,lastRecord]
    split
    · exact hpos.le
    · cases hrecord : f.store.record key ki.lastRevision with
      | none => exact hpos.le
      | some kv => exact (h.before _ _ hrecord).2
  refine ⟨h.batch_append hmain hcreate,h.before,fun k hk => ?_,fun k kj hkj => ?_⟩
  · obtain rfl | hne := eq_or_ne k key
    · rw [Snapshot.delete,Function.update_self,Function.update_self]
      exact ⟨rfl,rfl⟩
    · rw [Filling.delete,liveItem_delete_of_ne _ _ hne] at hk
      rw [Snapshot.delete,Function.update_of_ne hne,Function.update_of_ne hne]
      exact h.dead k hk
  · obtain rfl | hne := eq_or_ne k key
    · rw [Filling.delete,liveItem_delete_self] at hkj
      exact absurd hkj.symm (Option.some_ne_none _)
    · rw [Filling.delete,liveItem_delete_of_ne _ _ hne] at hkj
      obtain ⟨expected,hexpected,hfollows⟩ := h.live k kj hkj
      rw [Snapshot.delete,Function.update_of_ne hne,Function.update_of_ne hne]
      exact ⟨expected,hexpected,follows_of_ne
        (t := { f.store with keyIndex := f.store.keyIndex.delete key rev }) rfl hne rev _ hfollows⟩

lemma of_dead (h : Fills main f m puts) (hkey : f.store.liveItem key = none) :
    m.delete key = m ∧ Function.update puts key 0 = puts := by
  obtain ⟨hnone,hputs⟩ := h.dead key hkey
  exact ⟨by rw [Snapshot.delete,← hnone,Function.update_eq_self],
    by rw [← hputs,Function.update_eq_self]⟩

lemma deleteKeys (h : Fills main f m puts) (hpos : 0 < main) {base : Revision}
    (hmain : base.main = main) (keys : List Bytes) (i deleted : ℤ) :
    Fills main (RocksDBStore.deleteKeys base i keys (f,deleted)).1
      (fun key => if key ∈ keys then none else m key)
      (fun key => if key ∈ keys then 0 else puts key) := by
  induction keys generalizing f m puts i deleted with
  | nil => simpa [RocksDBStore.deleteKeys] using h
  | cons key keys ih =>
    have hsnapshot : (fun k => if k ∈ key :: keys then none else m k) =
        fun k => if k ∈ keys then none else m.delete key k := by
      funext k
      by_cases hk : k = key <;> by_cases hmem : k ∈ keys <;>
        simp [Snapshot.delete,hk,hmem]
    have hputs : (fun k => if k ∈ key :: keys then 0 else puts k) =
        fun k => if k ∈ keys then 0 else Function.update puts key 0 k := by
      funext k
      by_cases hk : k = key <;> by_cases hmem : k ∈ keys <;>
        simp [hk,hmem]
    rw [hsnapshot,hputs,RocksDBStore.deleteKeys]
    cases hki : f.store.liveItem key with
    | none =>
      obtain ⟨hsame,hcount⟩ := h.of_dead hki
      rw [hsame,hcount]
      exact ih h (i+1) deleted
    | some ki =>
      have hrev : (⟨base.main,base.sub+i⟩ : Revision).main = main := hmain
      exact ih (h.delete hpos hrev key ki) (i+1) (deleted+1)

lemma mem_keysToDelete (h : Fills main f m puts) (start : Bytes) (stop : Option Bytes)
    (key : Bytes) : key ∈ f.store.keysToDelete start stop ↔
      inSpan start stop key = true ∧ f.store.liveItem key ≠ none := by
  have hzero : ∀ k ki, f.store.shadow.liveItem k = some ki → ki.lastRevision.isZero = false := by
    intro k ki hki
    obtain ⟨expected,-,hfollows⟩ := h.live k ki hki
    exact hfollows.isZero_eq_false
  rw [and_comm]
  exact MemoryStore.mem_keysToDelete hzero start stop key

lemma deleteRange (h : Fills main f m puts) (hpos : 0 < main) {base : Revision}
    (hmain : base.main = main) (start : Bytes) (stop : Option Bytes) :
    Fills main
      (RocksDBStore.deleteKeys base 0 (f.store.keysToDelete start stop) (f,0)).1
      (m.deleteRange start stop) (fun key => if inSpan start stop key then 0 else puts key) := by
  have hdone := h.deleteKeys hpos hmain (f.store.keysToDelete start stop) 0 0
  have hsnapshot : m.deleteRange start stop =
      fun key => if key ∈ f.store.keysToDelete start stop then none else m key := by
    funext key
    simp only [Snapshot.deleteRange,h.mem_keysToDelete]
    by_cases hspan : inSpan start stop key = true
    · by_cases hlive : f.store.liveItem key = none
      · simp [hspan,hlive,(h.dead key hlive).1]
      · simp [hspan,hlive]
    · simp [hspan]
  have hputs : (fun key => if inSpan start stop key then 0 else puts key) =
      fun key => if key ∈ f.store.keysToDelete start stop then 0 else puts key := by
    funext key
    simp only [h.mem_keysToDelete]
    by_cases hspan : inSpan start stop key = true
    · by_cases hlive : f.store.liveItem key = none
      · simp [hspan,hlive,(h.dead key hlive).2]
      · simp [hspan,hlive]
    · simp [hspan]
  rw [hsnapshot,hputs]
  exact hdone

lemma executeOp (h : Fills main f m puts) (hpos : 0 < main) (op : Op)
    (hmain : rev.main = main) :
    Fills main (RocksDBStore.executeOp f op rev).1 (m.execute main op) (countPuts puts op) := by
  obtain ⟨type,key,stop,value,lease⟩ := op
  cases type with
  | put => exact h.put hpos hmain key value lease rfl
  | get => exact h
  | delete =>
    simp only [RocksDBStore.executeOp,executeDelete]
    cases hki : f.store.liveItem key with
    | none =>
      obtain ⟨hsame,hcount⟩ := h.of_dead hki
      simp only [Snapshot.execute,countPuts,hsame,hcount]
      exact h
    | some ki => exact h.delete hpos hmain key ki
  | deleteRange => exact h.deleteRange hpos hmain key stop
  | other code => exact h

lemma executeOps (h : Fills main f m puts) (hpos : 0 < main) (ops : List Op) {txnRev : Revision}
    (hmain : txnRev.main = main) (i : ℤ) :
    Fills main (RocksDBStore.executeOps txnRev i ops f).1 (ops.foldl (Snapshot.execute main) m)
      (ops.foldl countPuts puts) := by
  induction ops generalizing f m puts i with
  | nil => exact h
  | cons op ops ih =>
    have hrev : (⟨txnRev.main,i⟩ : Revision).main = main := hmain
    exact ih (h.executeOp hpos op hrev) (i+1)

lemma follows_liveRecord (h : Fills main f m puts)
    (hindex : t.keyIndex = f.store.keyIndex)
    (hdb : t.db.records = WriteBatch.write f.store.db.records f.records)
    (hki : f.store.liveItem key = some ki) :
    t.liveRecord key = f.overlay key ki.lastRevision := by
  obtain ⟨expected,-,hfollows⟩ := h.live key ki hki
  have hlive : t.liveItem key = some ki := by
    rw [← hki,liveItem,liveItem,hindex]
  rw [liveRecord,hlive,Option.bind_some,lastRecord,hfollows.isZero_eq_false,record,hdb]
  rfl

lemma liveRecord_eq (h : Fills main f m puts)
    (hindex : t.keyIndex = f.store.keyIndex)
    (hdb : t.db.records = WriteBatch.write f.store.db.records f.records)
    (hputs : ∀ key, puts key ≤ 1) (key : Bytes) : t.liveRecord key = m key := by
  cases hki : f.store.liveItem key with
  | none =>
    have hlive : t.liveItem key = none := by
      rw [← hki,liveItem,liveItem,hindex]
    rw [liveRecord,hlive,(h.dead key hki).1]
    rfl
  | some ki =>
    obtain ⟨expected,hexpected,hfollows⟩ := h.live key ki hki
    obtain ⟨kv,hkv,hfirst,-⟩ := hfollows.stored
    rw [h.follows_liveRecord hindex hdb hki,hkv,hexpected,hfirst (hputs key)]

lemma version_ne (h : Fills main f m puts)
    (hindex : t.keyIndex = f.store.keyIndex)
    (hdb : t.db.records = WriteBatch.write f.store.db.records f.records)
    (hputs : 2 ≤ puts key) : ∃ expected kv, m key = some expected ∧ t.liveRecord key = some kv ∧
      kv.version ≠ expected.version := by
  cases hki : f.store.liveItem key with
  | none =>
    have := (h.dead key hki).2
    omega
  | some ki =>
    obtain ⟨expected,hexpected,hfollows⟩ := h.live key ki hki
    obtain ⟨kv,hkv,-,hlater⟩ := hfollows.stored
    refine ⟨expected,kv,hexpected,by rw [h.follows_liveRecord hindex hdb hki,hkv],?_⟩
    have := hfollows.version.2
    have := hlater hputs
    omega

end Fills

structure Faithful (s : RocksDBStore) (t : Timeline) : Prop where
  opened : s.closed = false
  indexed : s.WellIndexed
  current : s.currentRev.main = t.current
  latest : ∀ key, s.liveRecord key = t.latest key
  live : ∀ key, t.latest key = none → s.liveItem key = none
  versions : ∀ key kv, t.latest key = some kv → 1 ≤ kv.version
  before : ∀ (k : StorageKey) (kv : KeyValue), s.db.records[k]? = some kv →
    k.rev.main ≤ s.currentRev.main ∧ kv.createRevision ≤ s.currentRev.main

namespace Faithful
variable {s : RocksDBStore} {t : Timeline}

lemma kept (h : Faithful s t) : Kept (s,t) := by
  intro key kv hkv
  exact ⟨kv,(h.latest key).trans hkv,rfl,rfl,rfl⟩

lemma fills (h : Faithful s t) :
    Fills (s.currentRev.main+1) ⟨s.next,[]⟩ t.latest (fun _ => 0) where
  batch op hop := absurd hop List.not_mem_nil
  before k kv hkv := by
    have := h.before k kv hkv
    omega
  dead key hkey := by
    refine ⟨?_,rfl⟩
    have hlive : s.liveItem key = none := hkey
    rw [← h.latest,liveRecord,hlive]
    rfl
  live key ki hki := by
    have hki : s.liveItem key = some ki := hki
    obtain ⟨expected,hexpected⟩ : ∃ expected, t.latest key = some expected := by
      refine Option.ne_none_iff_exists'.mp fun hnone => ?_
      rw [h.live key hnone] at hki
      exact absurd hki.symm (Option.some_ne_none ki)
    have hmem : ki.lastRevision ∈ (s.shadow.item key).revisions := by
      rw [← MemoryStore.recorded_eq]
      exact MemoryStore.lastRevision_mem hki
    obtain ⟨hpos,-,hle⟩ := h.indexed.bounds key _ hmem
    have hle : ki.lastRevision.main ≤ s.currentRev.main := hle
    have hzero : ki.lastRevision.isZero = false :=
      h.indexed.lastRevision_ne_zero key ki hki
    refine ⟨expected,hexpected,hpos,fun _ => by omega,fun hlt => absurd hlt (lt_irrefl 0),
      ⟨h.versions key expected hexpected,?_⟩,expected,?_,fun _ => rfl,fun hle => by omega⟩
    · have := h.versions key expected hexpected
      push_cast
      omega
    · have hrecord := h.latest key
      rw [liveRecord,hki,Option.bind_some,lastRecord,hzero,hexpected] at hrecord
      exact hrecord

lemma of_fills {main : ℤ} {f : Filling} {m : Snapshot} {puts : Bytes → ℕ}
    (h : Fills main f m puts) (hputs : ∀ key, puts key ≤ 1) (hopened : s.closed = false)
    (hindexed : s.WellIndexed) (hindex : s.keyIndex = f.store.keyIndex)
    (hdb : s.db.records = WriteBatch.write f.store.db.records f.records)
    (hmain : s.currentRev.main = main) (hcurrent : t.current = main) (hlatest : t.latest = m) :
    Faithful s t where
  opened := hopened
  indexed := hindexed
  current := hmain.trans hcurrent.symm
  latest key := by rw [h.liveRecord_eq hindex hdb hputs,hlatest]
  live key hkey := by
    have hsame : s.liveItem key = f.store.liveItem key := by rw [liveItem,liveItem,hindex]
    rw [hsame]
    cases hki : f.store.liveItem key with
    | none => rfl
    | some ki =>
      obtain ⟨expected,hexpected,-⟩ := h.live key ki hki
      rw [hlatest,hexpected] at hkey
      exact absurd hkey (Option.some_ne_none _)
  versions key kv hkv := by
    rw [hlatest] at hkv
    cases hki : f.store.liveItem key with
    | none =>
      rw [(h.dead key hki).1] at hkv
      exact absurd hkv.symm (Option.some_ne_none _)
    | some ki =>
      obtain ⟨expected,hexpected,hfollows⟩ := h.live key ki hki
      rw [hexpected] at hkv
      exact Option.some.inj hkv ▸ hfollows.version.1
  before k kv hkv := by
    rw [hdb,WriteBatch.getElem?_write] at hkv
    rw [hmain]
    cases hpending : WriteBatch.pending f.records k with
    | none =>
      rw [hpending] at hkv
      have := h.before k kv hkv
      omega
    | some value =>
      rw [hpending] at hkv
      obtain ⟨op,hop,hkey,hvalue⟩ := WriteBatch.exists_of_pending_eq_some hpending
      obtain ⟨hrev,hcreate⟩ := h.batch op hop
      have hkv : value = some kv := hkv
      rw [hkey] at hrev
      exact ⟨hrev.le,hcreate kv (hvalue.trans hkv)⟩

lemma iff_of_fills {main : ℤ} {f : Filling} {m : Snapshot} {puts : Bytes → ℕ}
    (h : Fills main f m puts) (hopened : s.closed = false)
    (hindexed : s.WellIndexed) (hindex : s.keyIndex = f.store.keyIndex)
    (hdb : s.db.records = WriteBatch.write f.store.db.records f.records)
    (hmain : s.currentRev.main = main) (hcurrent : t.current = main) (hlatest : t.latest = m) :
    (Kept (s,t) ↔ ∀ key, puts key ≤ 1) ∧ ((∀ key, puts key ≤ 1) → Faithful s t) := by
  have hfaithful := fun hputs =>
    of_fills h hputs hopened hindexed hindex hdb hmain hcurrent hlatest
  refine ⟨⟨fun hkept key => ?_,fun hputs => (hfaithful hputs).kept⟩,hfaithful⟩
  by_contra hlt
  have htwo : 2 ≤ puts key := by omega
  obtain ⟨expected,kv,hexpected,hkv,hversion⟩ := h.version_ne hindex hdb htwo
  obtain ⟨current,hcur,-,hsame,-⟩ := hkept key expected (by rw [← hexpected,← hlatest])
  rw [hkv] at hcur
  exact hversion (Option.some.inj hcur ▸ hsame)

lemma current_pos (h : Faithful s t) : 0 < s.currentRev.main+1 := h.indexed.next_pos

lemma le_next (h : Faithful s t) (key : Bytes) :
    ∀ rev ∈ (s.item key).revisions, rev.lessThanOrEqual s.next.currentRev = true := by
  intro rev hrev
  have hle : rev.main ≤ s.currentRev.main := (h.indexed.bounds key rev hrev).2.2
  exact Revision.lessThanOrEqual_iff.mpr (Or.inl (show rev.main < s.currentRev.main+1 by omega))

lemma getRevision_eq (h : Faithful s t) (key : Bytes) (rev : Revision) :
    s.keyIndex.getRevision key rev =
      (KeyItem.newest rev (s.item key).generations).getD .zero := by
  have hfind := (h.indexed.layered key).findRevision_eq rev
  exact (MemoryStore.getRevision_eq s.shadow key rev).trans hfind

/-- The look-up of a put finds what it should for a live key and for one without revisions. -/
lemma foundInfo_of_orderly (h : Faithful s t) {key : Bytes}
    (hkey : key ∈ s.live ∨ (s.item key).revisions = []) :
    s.next.foundInfo s.next.currentRev key = s.next.liveInfo s.next.currentRev key := by
  have hfound : s.next.keyIndex.getRevision key s.next.currentRev =
      (KeyItem.newest s.next.currentRev (s.item key).generations).getD .zero :=
    h.getRevision_eq key _
  have hitem : s.next.liveItem key = s.liveItem key := rfl
  cases hki : s.liveItem key with
  | none =>
    have hrevs := hkey.resolve_left fun hlive => hlive hki
    have hnone : KeyItem.newest s.next.currentRev (s.item key).generations = none := by
      refine Option.eq_none_iff_forall_not_mem.mpr fun rev hrev => ?_
      have hmem : rev ∈ (s.item key).revisions := (KeyItem.mem_of_newest hrev).1
      rw [hrevs] at hmem
      exact absurd hmem List.not_mem_nil
    rw [foundInfo,liveInfo,hfound,hnone,hitem,hki]
    rfl
  | some ki =>
    obtain ⟨hlive,hsame⟩ := liveItem_eq_some.mp hki
    have hsome : KeyItem.newest s.next.currentRev (s.item key).generations =
        some (s.item key).lastRevision := KeyItem.newest_of_live hlive (h.le_next key)
    have hzero : ki.lastRevision.isZero = false := h.indexed.lastRevision_ne_zero key ki hki
    rw [foundInfo,liveInfo,hfound,hsome,hitem,hki,hsame]
    simp only [Option.getD_some,hzero,lastRecord,Bool.false_eq_true,if_false]

lemma foundInfo_of_recorded (h : Faithful s t) {key : Bytes}
    (hrevs : (s.item key).revisions ≠ []) :
    (s.next.foundInfo s.next.currentRev key).1 ≤ s.currentRev.main := by
  have hfound : s.next.keyIndex.getRevision key s.next.currentRev =
      (KeyItem.newest s.next.currentRev (s.item key).generations).getD .zero :=
    h.getRevision_eq key _
  obtain ⟨rev,hrev⟩ := KeyItem.exists_newest hrevs (h.le_next key)
  have hmem : rev ∈ s.shadow.recorded key := by
    rw [MemoryStore.recorded_eq]
    exact (KeyItem.mem_of_newest hrev).1
  have hzero : rev.isZero = false := h.indexed.isZero_eq_false hmem
  rw [foundInfo,hfound,hrev]
  simp only [Option.getD_some,hzero,Bool.false_eq_true,if_false]
  have hrecord : s.next.record key rev = s.record key rev := rfl
  rw [hrecord]
  cases hkv : s.record key rev with
  | none => exact h.indexed.current.1
  | some kv => exact (h.before _ _ hkv).2

lemma step_put (h : Faithful s t) (key value : Bytes) (lease : ℤ) :
    (Kept ((s.put true key value lease).2,t.step (.put key value lease)) ↔
        Orderly s (.put key value lease)) ∧
      (Orderly s (.put key value lease) →
        Faithful (s.put true key value lease).2 (t.step (.put key value lease))) := by
  have hindexed := h.indexed.put key value lease
  by_cases hkey : key = []
  · have hsame : (s.put true key value lease).2 = s := by rw [RocksDBStore.put,if_pos hkey]
    rw [hsame,Timeline.step,if_pos hkey]
    exact ⟨⟨fun _ => Or.inl hkey,fun _ => h.kept⟩,fun _ => h⟩
  rw [Timeline.step,if_neg hkey]
  simp only [RocksDBStore.put,if_neg hkey,h.opened,Bool.false_eq_true,if_false,if_true]
    at hindexed ⊢
  have hrev : s.next.currentRev.main = s.currentRev.main+1 := rfl
  by_cases horderly : key ∈ s.live ∨ (s.item key).revisions = []
  · have hfills := h.fills.put h.current_pos hrev key value lease (h.foundInfo_of_orderly horderly)
    have hputs : ∀ k, Function.update (fun _ => 0) key (0+1) k ≤ 1 := fun k => by
      by_cases hk : k = key <;> simp [hk]
    have hiff : Orderly s (.put key value lease) ↔
        ∀ k, Function.update (fun _ => 0) key (0+1) k ≤ 1 :=
      iff_of_true (Or.inr horderly) hputs
    rw [hiff]
    exact iff_of_fills hfills h.opened hindexed rfl rfl hrev (by rw [h.current]; rfl)
      (by rw [Timeline.latest_advance,h.current])
  · have hnot : ¬ Orderly s (.put key value lease) := fun hor => horderly (hor.resolve_left hkey)
    refine ⟨⟨fun hkept => ?_,fun hor => absurd hor hnot⟩,fun hor => absurd hor hnot⟩
    obtain ⟨hdead,hrevs⟩ := not_or.mp horderly
    have hnone := (h.fills.dead key (not_not.mp hdead)).1
    have hcreate := h.foundInfo_of_recorded hrevs
    have hzero : s.next.currentRev.isZero = false := by
      have := h.current_pos
      exact Revision.isZero_of_main_pos (by rw [hrev]; omega)
    obtain ⟨current,hcurrent,hsame,-⟩ := hkept key
      ⟨key,value,t.current+1,t.current+1,1,lease⟩ (by
        rw [Timeline.latest_advance,Snapshot.put,Function.update_self,hnone])
    rw [liveRecord_put s.next hzero rfl rfl] at hcurrent
    obtain rfl := Option.some.inj hcurrent
    have := h.current
    dsimp only at hsame
    omega

lemma step_delete (h : Faithful s t) (key : Bytes) :
    Faithful (s.delete true key).2 (t.step (.delete key)) := by
  have hindexed := h.indexed.delete key
  by_cases hidle : key = [] ∨ t.latest key = none
  · have hsame : (s.delete true key).2 = s := by
      by_cases hkey : key = []
      · rw [RocksDBStore.delete,if_pos hkey]
      · simp only [RocksDBStore.delete,if_neg hkey,h.opened,Bool.false_eq_true,if_false,
          h.live key (hidle.resolve_left hkey)]
    rw [hsame,Timeline.step,if_pos hidle]
    exact h
  rw [Timeline.step,if_neg hidle]
  obtain ⟨hkey,hlive⟩ := not_or.mp hidle
  cases hki : s.liveItem key with
  | none =>
    rw [← h.latest,liveRecord,hki] at hlive
    exact absurd rfl hlive
  | some ki =>
    have hrev : s.next.currentRev.main = s.currentRev.main+1 := rfl
    have hfills := h.fills.delete h.current_pos hrev key ki
    simp only [RocksDBStore.delete,if_neg hkey,h.opened,Bool.false_eq_true,if_false,hki,if_true]
      at hindexed ⊢
    refine of_fills hfills (fun k => ?_) h.opened hindexed rfl rfl rfl ?_ (t.latest_advance _)
    · by_cases hk : k = key <;> simp [hk]
    · rw [h.current]
      rfl

lemma step_deleteRange (h : Faithful s t) (start : Bytes) (stop : Option Bytes) :
    Faithful (s.deleteRange true start stop).2 (t.step (.deleteRange start stop)) := by
  have hindexed := h.indexed.deleteRange start stop
  have hmem : ∀ key, key ∈ s.keysToDelete start stop ↔
      inSpan start stop key = true ∧ s.liveItem key ≠ none := h.fills.mem_keysToDelete start stop
  have hnone : ∀ key, t.latest key = none ↔ s.liveItem key = none := by
    refine fun key => ⟨h.live key,fun hkey => ?_⟩
    rw [← h.latest,liveRecord,hkey]
    rfl
  have hempty : s.keysToDelete start stop = [] ↔
      ∀ key, inSpan start stop key = true → t.latest key = none := by
    simp only [List.eq_nil_iff_forall_not_mem,hmem,hnone,not_and,not_not]
  by_cases hidle : start = [] ∨ ∀ key, inSpan start stop key = true → t.latest key = none
  · rw [deleteRange_of_idle true (hidle.imp_right fun hall => Or.inr (hempty.mpr hall)),
      Timeline.step,if_pos hidle]
    exact h
  have hfound : ¬ (start = [] ∨ s.closed = true ∨ s.keysToDelete start stop = []) := by
    rw [h.opened,hempty]
    simpa using hidle
  have hrev : s.next.currentRev.main = s.currentRev.main+1 := rfl
  have hfills := h.fills.deleteRange h.current_pos hrev start stop
  have hstore := (deleteKeys_index s.next.currentRev (s.keysToDelete start stop)
    (show (⟨s.next,[]⟩ : Filling).store.keyIndex = s.next.shadow.keyIndex from rfl) 0 0 0).1
  rw [deleteRange_of_found hfound] at hindexed ⊢
  rw [Timeline.step,if_neg hidle]
  refine of_fills hfills (fun k => ?_) ?_ hindexed rfl rfl ?_ ?_ (t.latest_advance _)
  · split <;> omega
  · dsimp only
    rw [hstore]
    exact h.opened
  · dsimp only
    rw [hstore]
    rfl
  · rw [h.current]
    rfl

lemma step_commit (h : Faithful s t) (txn : Txn) :
    (Kept ((s.commit true txn).2,t.step (.commit txn)) ↔ Orderly s (.commit txn)) ∧
      (Orderly s (.commit txn) → Faithful (s.commit true txn).2 (t.step (.commit txn))) := by
  have hindexed := h.indexed.commit txn
  have hlatest : t.latest = s.liveRecord := funext fun key => (h.latest key).symm
  cases hb : succeeded s.liveRecord txn.conditions with
  | none =>
    have hstep : t.step (.commit txn) = t := by
      rw [Timeline.step,hlatest,hb]
    have horderly : Orderly s (.commit txn) := fun b hsome => by
      rw [hb] at hsome
      exact absurd hsome.symm (Option.some_ne_none b)
    rw [commit_of_idle true (Or.inr hb),hstep]
    exact ⟨⟨fun _ => horderly,fun _ => h.kept⟩,fun _ => h⟩
  | some b =>
    have hrev : s.next.currentRev.main = s.currentRev.main+1 := rfl
    have hstep : t.step (.commit txn) = t.advance ((if b then txn.thenOps else txn.elseOps).foldl
        (Snapshot.execute (t.current+1)) t.latest) := by
      rw [Timeline.step,hlatest,hb]
    have horderly : Orderly s (.commit txn) ↔ ∀ key,
        (if b then txn.thenOps else txn.elseOps).foldl countPuts (fun _ => 0) key ≤ 1 := by
      refine ⟨fun hall => hall b hb,fun hall b' hb' => ?_⟩
      obtain rfl : b = b' := Option.some.inj (hb.symm.trans hb')
      exact hall
    have hfills := h.fills.executeOps h.current_pos (if b then txn.thenOps else txn.elseOps) hrev 0
    have hstore := executeOps_index s.next.currentRev (if b then txn.thenOps else txn.elseOps)
      (show (⟨s.next,[]⟩ : Filling).store.keyIndex = s.next.shadow.keyIndex from rfl) 0
    rw [commit_of_some h.opened hb] at hindexed ⊢
    rw [horderly,hstep]
    refine iff_of_fills hfills ?_ hindexed rfl rfl ?_ ?_ ?_
    · dsimp only
      rw [hstore]
      exact h.opened
    · dsimp only
      rw [hstore]
      rfl
    · rw [h.current]
      rfl
    · rw [Timeline.latest_advance,h.current]

theorem step_iff (h : Faithful s t) (call : Call) :
    (Kept (s.step call,t.step call) ↔ Orderly s call) ∧
      (Orderly s call → Faithful (s.step call) (t.step call)) := by
  cases call with
  | put key value lease => exact h.step_put key value lease
  | delete key =>
    have hstep := h.step_delete key
    exact ⟨iff_of_true hstep.kept trivial,fun _ => hstep⟩
  | deleteRange start stop =>
    have hstep := h.step_deleteRange start stop
    exact ⟨iff_of_true hstep.kept trivial,fun _ => hstep⟩
  | commit txn => exact h.step_commit txn

lemma start : Faithful .empty .empty where
  opened := rfl
  indexed := wellIndexed_empty
  current := rfl
  latest _ := rfl
  live _ _ := rfl
  versions key kv hkv := absurd hkv.symm (Option.some_ne_none kv)
  before k kv hkv := absurd hkv (by simp [RocksDBStore.empty,RocksDBStore.new])

end Faithful

/-- The metadata is right after every call of a history exactly if every call is orderly in the
state that it meets. -/
theorem lifetimes_kept_iff (calls : List Call) :
    Transition.EveryState step Kept (.empty,.empty) calls ↔
      Transition.EveryStep step (fun state call _ => Orderly state.1 call) (.empty,.empty) calls := by
  have hstep : ∀ state call next, Faithful state.1 state.2 → Kept state →
      step state call = some next → (Kept next ↔ Orderly state.1 call) ∧
        (Orderly state.1 call → Faithful next.1 next.2) := by
    intro state call next hinv _ hnext
    obtain rfl := Option.some.inj hnext
    exact hinv.step_iff call
  exact Transition.always_iff_of_invariant hstep Faithful.start Faithful.start.kept calls

/-- A key that is put again after a deletion gets its old creation revision back, and two puts of
a transaction count once. -/
theorem lifetimes_lost :
    let again : List Call := [.put [97] [1] 0,.delete [97],.put [97] [2] 0]
    let twice : List Call := [.commit ⟨[],[{ type := .put, key := [97], value := [1] },
      { type := .put, key := [97], value := [2] }],[]⟩]
    (again.foldl RocksDBStore.step .empty).liveRecord [97] = some ⟨[97],[2],1,3,1,0⟩ ∧
      (Timeline.run again).latest [97] = some ⟨[97],[2],3,3,1,0⟩ ∧
      (twice.foldl RocksDBStore.step .empty).liveRecord [97] = some ⟨[97],[2],0,1,1,0⟩ ∧
      (Timeline.run twice).latest [97] = some ⟨[97],[2],1,1,2,0⟩ := by
  refine ⟨?_,?_,?_,?_⟩ <;> decide +kernel

end Lifetimes

end MetaStore.MVCC
