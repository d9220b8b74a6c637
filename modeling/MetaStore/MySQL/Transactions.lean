import MetaStore.Memory.Metadata
import MetaStore.MySQL.PrefixRange

/-! The transactions of the MySQL front end (api/mysql/handler.go and query.go) on the memory engine.
Writes are buffered, the revisions of the records that are read are noted, and a commit compares them
under the lock of the store. A statement arrives parsed, and the proposals of a handler are applied. -/
namespace MetaStore.MySQL
open Std Memory Relation

inductive TxOp
  | put (key value : Bytes)
  | delete (key : Bytes)
  deriving DecidableEq

/-- A transaction in `MySQLHandler.transaction` is active. -/
structure Transaction where
  operations : List TxOp
  readSet : ExtTreeMap Bytes ℤ
  startRev : ℤ

def Transaction.compares (tx : Transaction) : List Compare :=
  tx.readSet.toList.map fun (key,expectedRev) =>
    ⟨.mod,.equal,key,{ modRevision := expectedRev }⟩

def TxOp.thenOp : TxOp → Op
  | .put key value => { type := .put, key := key, value := value }
  | .delete key => { type := .delete, key := key }

structure MySQLHandler where
  store : MemoryEtcd
  transaction : Option Transaction

inductive ErrorCode
  | unknownError | lockDeadlock
  deriving DecidableEq

structure MyError where
  code : ErrorCode
  message : String

/-- The rows are the records from which the selected columns are taken. -/
structure Result where
  affectedRows : ℤ
  rows : List KeyValue := []

inductive WhereClause
  | like (likePrefix : Bytes)
  | key (key : Bytes)

inductive Statement
  | begin
  | select (whereClause : Option WhereClause)
  | write (op : TxOp)
  | commit
  | rollback

namespace MySQLHandler

/-- The engine answers from its latest data, whatever revision is asked for. -/
def selected (h : MySQLHandler) : Option WhereClause → List KeyValue
  | none => (h.store.rangeUnlocked [] noUpperBound 100).kvs
  | some (.like likePrefix) =>
    (h.store.rangeUnlocked likePrefix (getPrefixEndKey likePrefix) 1000).kvs
  | some (.key key) => (h.store.rangeUnlocked key [] 1).kvs

def handleBegin (h : MySQLHandler) : MySQLHandler × Except MyError Result :=
  match h.transaction with
  | some _ => (h,.error ⟨.unknownError,"transaction already active"⟩)
  | none => ({ h with transaction := some ⟨[],∅,h.store.revision⟩ },.ok ⟨0,[]⟩)

def handleSelect (h : MySQLHandler) (whereClause : Option WhereClause) :
    MySQLHandler × Except MyError Result :=
  let kvs := h.selected whereClause
  ({ h with transaction := h.transaction.map fun tx =>
      { tx with readSet := kvs.foldl (fun m kv => m.insert kv.key kv.modRevision) tx.readSet } },
    .ok ⟨kvs.length,kvs⟩)

/-- `handleInsert`, `handleUpdate` and `handleDelete`. -/
def handleWrite (h : MySQLHandler) (op : TxOp) : MySQLHandler × Except MyError Result :=
  match h.transaction,op with
  | some tx,op =>
    ({ h with transaction := some { tx with operations := tx.operations ++ [op] } },.ok ⟨1,[]⟩)
  | none,.put key value => ({ h with store := (h.store.putDirect key value 0).1 },.ok ⟨1,[]⟩)
  | none,.delete key =>
    let r := h.store.deleteDirect key []
    ({ h with store := r.1 },.ok ⟨r.2.1,[]⟩)

def handleCommit (clock : Clock) (h : MySQLHandler) : MySQLHandler × Except MyError Result :=
  match h.transaction with
  | none => (h,.ok ⟨0,[]⟩)
  | some tx =>
    if tx.operations = [] then (⟨h.store,none⟩,.ok ⟨0,[]⟩)
    else
      let r := h.store.applyTxnWithShardLocks clock tx.compares
        (tx.operations.map TxOp.thenOp) []
      (⟨r.1,none⟩,match r.2 with
        | .error e => .error ⟨.unknownError,"transaction commit failed: " ++ e⟩
        | .ok txnResp =>
          if txnResp.succeeded then .ok ⟨tx.operations.length,[]⟩
          else .error ⟨.lockDeadlock,
            "transaction conflict: data was modified by another transaction"⟩)

def handleRollback (h : MySQLHandler) : MySQLHandler × Except MyError Result :=
  ({ h with transaction := none },.ok ⟨0,[]⟩)

def execute (clock : Clock) (h : MySQLHandler) : Statement → MySQLHandler × Except MyError Result
  | .begin => h.handleBegin
  | .select whereClause => h.handleSelect whereClause
  | .write op => h.handleWrite op
  | .commit => h.handleCommit clock
  | .rollback => h.handleRollback

end MySQLHandler

def TxOp.apply (s : MemoryEtcd) : TxOp → MemoryEtcd
  | .put key value => (s.putDirect key value 0).1
  | .delete key => (s.deleteUnlocked key []).1

lemma txnOps_thenOp (clock : Clock) (ops : List TxOp) (s : MemoryEtcd) :
    ∃ responses, s.txnOps clock (ops.map TxOp.thenOp) = (ops.foldl TxOp.apply s,.ok responses) := by
  induction ops generalizing s with
  | nil => exact ⟨[],rfl⟩
  | cons op ops ih =>
    -- no lease is named, so nothing is refused
    obtain ⟨response,hop⟩ : ∃ r, s.txnOp clock op.thenOp = (op.apply s,.ok r) := by
      cases op <;> exact ⟨_,rfl⟩
    obtain ⟨responses,hrest⟩ := ih (op.apply s)
    refine ⟨response :: responses,?_⟩
    rw [List.map_cons,MemoryEtcd.txnOps,hop]
    simp only [hrest]
    rfl

def conflict : MyError :=
  ⟨.lockDeadlock,"transaction conflict: data was modified by another transaction"⟩

lemma MySQLHandler.handleCommit_eq (clock : Clock) {h : MySQLHandler} {tx : Transaction}
    (htx : h.transaction = some tx) (hops : tx.operations ≠ []) :
    h.handleCommit clock = if h.store.compares tx.compares then
      (⟨tx.operations.foldl TxOp.apply h.store,none⟩,.ok ⟨tx.operations.length,[]⟩)
      else (⟨h.store,none⟩,.error conflict) := by
  obtain ⟨responses,hthen⟩ := txnOps_thenOp clock tx.operations h.store
  simp only [handleCommit,htx,if_neg hops,MemoryEtcd.applyTxnWithShardLocks,MemoryEtcd.txnUnlocked]
  cases h.store.compares tx.compares with
  | true => simp [hthen,Except.map]
  | false => simp [MemoryEtcd.txnOps,Except.map,conflict]

/-! ### Revisions as names of records -/

lemma sane_of_reachable {s : MemoryEtcd} (h : Reachable s) : Sane s.kvData s.revision :=
  h.holds Sane.kept ⟨Int.le_refl 0,.empty,by simp,by simp,by simp,by simp⟩

/-- The record is in the store's past, and any other record of its key has a greater revision. -/
structure Stamp (kv : KeyValue) (m : ShardedMap) (revision : ℤ) : Prop where
  past : kv.modRevision ≤ revision
  later : ∀ kv', m.get kv.key = some kv' → kv' = kv ∨ kv.modRevision < kv'.modRevision

namespace Stamp
variable {kv : KeyValue} {m : ShardedMap} {revision : ℤ}

lemma of_get (hm : Sane m revision) (h : m.get kv.key = some kv) : Stamp kv m revision :=
  ⟨hm.mod _ kv h,fun _ h' => .inl (Option.some.inj (h'.symm.trans h))⟩

lemma draw (h : Stamp kv m revision) : Stamp kv m (revision+1) :=
  ⟨by have := h.past; omega,h.later⟩

lemma delete (h : Stamp kv m revision) (key : Bytes) : Stamp kv (m.delete key) revision := by
  refine ⟨h.past,fun kv' hget => h.later kv' ?_⟩
  rw [ShardedMap.get_delete] at hget
  split_ifs at hget
  exact hget

lemma set (h : Stamp kv m revision) (key : Bytes) {kv' : KeyValue}
    (hnew : kv.modRevision < kv'.modRevision) : Stamp kv (m.set key kv') revision := by
  refine ⟨h.past,fun kv₁ hget => ?_⟩
  rw [ShardedMap.get_set] at hget
  split_ifs at hget
  · exact .inr (Option.some.inj hget ▸ hnew)
  · exact h.later kv₁ hget

lemma batchApplyPut {ops : List RaftOperation} {s t : MemoryEtcd} (h : Stamp kv s.kvData s.revision)
    (hbatch : BatchApplyPut ops s t) : Stamp kv t.kvData t.revision := by
  -- a number that a goroutine holds was drawn after the record was written
  refine hbatch.invariant_of_both (P := fun s => Stamp kv s.kvData s.revision)
    (Q := fun a => ∀ op n, a = PutStep.store op n → kv.modRevision < n) ?_ ?_ h ?_
  · intro a s ha hs
    cases a with
    | draw op => exact hs.draw
    | store op n => exact hs.set op.key (ha op n rfl)
    | link op => exact hs
  · rintro a s _ hs b hb op n rfl
    cases a with
    | draw op' =>
      cases List.mem_singleton.mp hb
      exact Int.lt_add_one_of_le hs.past
    | store op' n' => cases List.mem_singleton.mp hb
    | link op' => cases hb
  · intro i a ha op n han
    obtain ⟨op',-,rfl⟩ := List.mem_map.mp (List.mem_filter.mp ha).1
    cases han

lemma kept (kv : KeyValue) (clock : Clock) :
    Kept clock (fun _ => True) fun s => Stamp kv s.kvData s.revision where
  tick h := h
  draw h := h.draw
  delete key h := h.delete key
  detach _ _ h := h
  put _ _ _ h := h.draw.set _ (Int.lt_add_one_of_le h.past)
  grant _ _ h := h
  eraseLease _ h := h
  batchApplyPut _ h hbatch := h.batchApplyPut hbatch

end Stamp

/-! ### What other connections do -/

/-- What other connections and the applied log do to the store. -/
inductive Advance : MemoryEtcd → MemoryEtcd → Prop
  | batch {s t : MemoryEtcd} {w w' : Waiters} (clock : Clock) (ops : List RaftOperation) :
      ApplyBatch clock ops ⟨s,w⟩ ⟨t,w'⟩ → Advance s t
  | legacy {s : MemoryEtcd} (key val : Bytes) : Advance s (s.applyLegacyOp key val)
  | renew {s : MemoryEtcd} (clock : Clock) (id : ℤ) : Advance s (s.leaseRenew clock id).1

/-- The store goes on by changes that keep what every clock keeps. -/
def Continues (s t : MemoryEtcd) : Prop :=
  ∀ P : ShardedMap → ℤ → Prop, (∀ clock, Kept clock (fun _ => True) fun s => P s.kvData s.revision) →
    P s.kvData s.revision → P t.kvData t.revision

lemma Advance.continues {s t : MemoryEtcd} (h : Advance s t) : Continues s t := by
  intro P hP hs
  cases h with
  | batch clock ops hbatch =>
    exact (hP clock).applyBatch (m := ⟨s,_⟩) hs (fun op _ => .of_forall (fun _ => trivial) op) hbatch
  | legacy key val => exact (hP fun _ => 0).put val 0 trivial hs
  | renew clock id =>
    unfold MemoryEtcd.leaseRenew
    split <;> exact hs

lemma Advance.continues_run {s t : MemoryEtcd} (h : ReflTransGen Advance s t) : Continues s t := by
  induction h with
  | refl => exact fun _ _ hs => hs
  | tail _ hstep ih => exact fun P hP hs => hstep.continues P hP (ih P hP hs)

/-- From any reachable state on, whatever is applied: the record of a key is the one that was read, or
it has a greater revision. So a revision names one content of a key. -/
theorem revision_names_record {s t : MemoryEtcd} (hs : Reachable s) (hrun : ReflTransGen Advance s t)
    {k : Bytes} {kv kv' : KeyValue} (hkv : s.kvData.get k = some kv) (hkv' : t.kvData.get k = some kv') :
    kv' = kv ∨ kv.modRevision < kv'.modRevision := by
  have hsane := sane_of_reachable hs
  obtain rfl := hsane.keyed k kv hkv
  exact (Advance.continues_run hrun _ (Stamp.kept kv) (.of_get hsane hkv)).later kv' hkv'

theorem revision_names_record_put : let s := MemoryEtcd.empty.applyLegacyOp [97] [1]
    ∃ kv kv', s.kvData.get [97] = some kv ∧
      (s.applyLegacyOp [97] [2]).kvData.get [97] = some kv' ∧
      (kv' = kv ∨ kv.modRevision < kv'.modRevision) := by
  intro s
  have hget : ∀ (s : MemoryEtcd) val, ∃ kv, (s.applyLegacyOp [97] val).kvData.get [97] = some kv :=
    fun s val => ⟨_,ShardedMap.get_set_self ..⟩
  obtain ⟨⟨kv,hkv⟩,kv',hkv'⟩ := And.intro (hget .empty [1]) (hget s [2])
  exact ⟨kv,kv',hkv,hkv',revision_names_record (Reachable.new.legacy [97] [1])
    (.single (.legacy [97] [2])) hkv hkv'⟩

/-! ### Runs of a connection -/

/-- A connection, and the latest record of each key among the rows it was sent since `BEGIN`. -/
structure Client where
  handler : MySQLHandler
  seen : ExtTreeMap Bytes KeyValue

def Client.execute (clock : Clock) (c : Client) (statement : Statement) : Client :=
  let r := c.handler.execute clock statement
  ⟨r.1,match statement,r.2 with
    | .begin,.ok _ => ∅
    | _,.ok result => result.rows.foldl (fun m kv => m.insert kv.key kv) c.seen
    | _,.error _ => c.seen⟩

inductive Client.Step : Client → Client → Prop
  | statement {c : Client} (clock : Clock) (st : Statement) : Step c (c.execute clock st)
  | advance {c : Client} {t : MemoryEtcd} : Advance c.handler.store t →
      Step c { c with handler.store := t }

structure Client.Tracks (c : Client) : Prop where
  sane : Sane c.handler.store.kvData c.handler.store.revision
  noted : ∀ tx, c.handler.transaction = some tx →
    ∀ k : Bytes, tx.readSet[k]? = c.seen[k]?.map KeyValue.modRevision
  stamps : ∀ (k : Bytes) kv, c.seen[k]? = some kv →
    kv.key = k ∧ 1 ≤ kv.modRevision ∧ Stamp kv c.handler.store.kvData c.handler.store.revision

lemma getElem?_foldl_insert {α : Type*} (f : KeyValue → α) (kvs : List KeyValue) (m : ExtTreeMap Bytes α)
    (k : Bytes) : (kvs.foldl (fun m kv => m.insert kv.key (f kv)) m)[k]? =
      ((kvs.reverse.find? (·.key = k)).map f).or m[k]? := by
  induction kvs using List.reverseRecOn with
  | nil => simp
  | append_singleton kvs kv ih =>
    rw [List.foldl_append,List.foldl_cons,List.foldl_nil,ExtTreeMap.getElem?_insert,ih]
    by_cases h : kv.key = k <;> simp [h]

lemma get_of_mem_rangeUnlocked {s : MemoryEtcd} (hs : Keyed s.kvData) {key rangeEnd : Bytes} {limit : ℤ}
    {kv : KeyValue} (h : kv ∈ (s.rangeUnlocked key rangeEnd limit).kvs) :
    s.kvData.get kv.key = some kv := by
  have hall : kv ∈ if rangeEnd = [] then (s.kvData.get key).toList
      else s.kvData.range key rangeEnd limit := by
    rw [MemoryEtcd.rangeUnlocked] at h
    split_ifs at h ⊢ <;> first | exact h | exact List.mem_of_mem_take h
  obtain ⟨k,hk⟩ : ∃ k, s.kvData.get k = some kv := by
    split_ifs at hall
    · exact ⟨key,by simpa using hall⟩
    · have hkv : kv ∈ s.kvData.range key rangeEnd 0 := by
        simp only [ShardedMap.range] at hall ⊢
        split_ifs at hall ⊢ <;> first | omega | exact hall | exact List.mem_of_mem_take hall
      obtain ⟨k,hk,-⟩ := (ShardedMap.mem_range ..).mp hkv
      exact ⟨k,hk⟩
  rw [hs k kv hk,hk]

lemma MySQLHandler.get_of_mem_selected {h : MySQLHandler} (hs : Keyed h.store.kvData)
    {w : Option WhereClause} {kv : KeyValue} (hkv : kv ∈ h.selected w) :
    h.store.kvData.get kv.key = some kv := by
  unfold MySQLHandler.selected at hkv
  split at hkv <;> exact get_of_mem_rangeUnlocked hs hkv

namespace Client.Tracks
variable {c d : Client}

lemma continues (h : c.Tracks) {t : MemoryEtcd} {tx : Option Transaction}
    (ht : Continues c.handler.store t) (hreads : ∀ tx', tx = some tx' → ∃ tx₀,
      c.handler.transaction = some tx₀ ∧ tx'.readSet = tx₀.readSet) :
    Client.Tracks ⟨⟨t,tx⟩,c.seen⟩ where
  sane := ht _ Sane.kept h.sane
  noted tx' htx' k := by
    obtain ⟨tx₀,htx₀,heq⟩ := hreads tx' htx'
    rw [heq]
    exact h.noted tx₀ htx₀ k
  stamps k kv hkv := by
    obtain ⟨hkey,hpos,hstamp⟩ := h.stamps k kv hkv
    exact ⟨hkey,hpos,ht _ (Stamp.kept kv) hstamp⟩

lemma select (h : c.Tracks) (clock : Clock) (w : Option WhereClause) :
    (c.execute clock (.select w)).Tracks where
  sane := h.sane
  noted tx htx k := by
    obtain ⟨tx₀,htx₀,rfl⟩ := Option.map_eq_some_iff.mp htx
    simp only [Client.execute,MySQLHandler.execute,MySQLHandler.handleSelect]
    rw [getElem?_foldl_insert,getElem?_foldl_insert (f := fun kv => kv),h.noted tx₀ htx₀ k]
    cases (c.handler.selected w).reverse.find? (·.key = k) <;> rfl
  stamps k kv hkv := by
    simp only [Client.execute,MySQLHandler.execute,MySQLHandler.handleSelect] at hkv ⊢
    rw [getElem?_foldl_insert (f := fun kv => kv),Option.or_eq_some_iff,Option.map_id'] at hkv
    rcases hkv with hkv|⟨-,hkv⟩
    · have hget := MySQLHandler.get_of_mem_selected h.sane.keyed
        (List.mem_reverse.mp (List.mem_of_find?_eq_some hkv))
      have hcreate := h.sane.create _ kv hget
      exact ⟨by simpa using List.find?_some hkv,hcreate.1.trans hcreate.2,.of_get h.sane hget⟩
    · exact h.stamps k kv hkv

lemma commit (h : c.Tracks) (clock : Clock) : (c.execute clock .commit).Tracks := by
  have hsame : ∀ t, Continues c.handler.store t → Client.Tracks ⟨⟨t,none⟩,c.seen⟩ :=
    fun t ht => h.continues ht (by simp)
  simp only [Client.execute,MySQLHandler.execute]
  cases htx : c.handler.transaction with
  | none =>
    simp only [MySQLHandler.handleCommit,htx]
    exact h
  | some tx =>
    by_cases hops : tx.operations = []
    · simp only [MySQLHandler.handleCommit,htx,if_pos hops]
      exact hsame _ fun P _ hs => hs
    · rw [MySQLHandler.handleCommit_eq clock htx hops]
      split_ifs
      · refine hsame _ fun P hP hs => ?_
        refine List.foldlRecOn (motive := fun s : MemoryEtcd => P s.kvData s.revision) _ _ hs ?_
        rintro s hs (⟨key,value⟩|key) -
        · exact (hP clock).put value 0 trivial hs
        · exact (hP clock).deleteUnlocked hs key []
      · exact hsame _ fun P _ hs => hs

lemma write (h : c.Tracks) (clock : Clock) (op : TxOp) : (c.execute clock (.write op)).Tracks := by
  simp only [Client.execute,MySQLHandler.execute,MySQLHandler.handleWrite]
  cases htx : c.handler.transaction with
  | some tx => exact h.continues (fun P _ hs => hs) fun tx' htx' => ⟨tx,htx,by cases htx'; rfl⟩
  | none =>
    cases op with
    | put key value =>
      exact h.continues (fun P hP hs => (hP clock).put value 0 trivial hs) (by simp)
    | delete key =>
      exact h.continues (fun P hP hs => (hP clock).deleteDirect hs key []) (by simp)

lemma begins (h : c.Tracks) (clock : Clock) : (c.execute clock .begin).Tracks := by
  simp only [Client.execute,MySQLHandler.execute,MySQLHandler.handleBegin]
  cases htx : c.handler.transaction with
  | some tx => exact h
  | none => exact ⟨h.sane,by rintro _ ⟨⟩; simp,by simp⟩

lemma step (h : c.Tracks) (hstep : c.Step d) : d.Tracks := by
  cases hstep with
  | advance hadv => exact h.continues hadv.continues fun tx htx => ⟨tx,htx,rfl⟩
  | statement clock st =>
    cases st with
    | begin => exact h.begins clock
    | select w => exact h.select clock w
    | write op => exact h.write clock op
    | commit => exact h.commit clock
    | rollback => exact h.continues (fun P _ hs => hs) (by simp)

lemma run (h : c.Tracks) (hrun : ReflTransGen Client.Step c d) : d.Tracks := by
  induction hrun with
  | refl => exact h
  | tail _ hstep ih => exact ih.step hstep

lemma compares_iff (h : c.Tracks) {tx : Transaction} (htx : c.handler.transaction = some tx) :
    c.handler.store.compares tx.compares = true ↔
      ∀ (k : Bytes) kv, c.seen[k]? = some kv → c.handler.store.kvData.get k = some kv := by
  simp only [MemoryEtcd.compares,Transaction.compares,List.all_map,List.all_eq_true,Prod.forall,
    ExtTreeMap.mem_toList_iff_getElem?_eq_some,h.noted tx htx,Function.comp_apply,evaluateCompare,
    compareInt,beq_iff_eq]
  constructor
  · intro hall k kv hkv
    obtain ⟨rfl,hpos,hstamp⟩ := h.stamps k kv hkv
    have heq := hall kv.key kv.modRevision (by rw [hkv]; rfl)
    cases hget : c.handler.store.kvData.get kv.key with
    | none =>
      rw [hget] at heq
      exact absurd heq (by simp; omega)
    | some kv' =>
      rcases hstamp.later kv' hget with rfl|hlater
      · rfl
      · simp only [hget,Option.map_some,Option.getD_some] at heq
        omega
  · intro hall k rev hrev
    obtain ⟨kv,hkv,rfl⟩ := Option.map_eq_some_iff.mp hrev
    rw [hall k kv hkv]
    rfl

end Client.Tracks

end MetaStore.MySQL
