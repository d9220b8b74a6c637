import MetaStore.RocksDB.WatchSegments

/-! What a watch of the store on RocksDB receives of a list of operations. Events and changes are
compared segment by segment: with the records at the time of a transaction, and with those that
the final write finds for everything else. The events of a transaction overtake those that are
still in the queue. -/
namespace MetaStore.RocksDB
open Std WriteBatch ChangeLog

section Conditions
variable (sub : WatchSubscription) (env : Env)

def stops (r : Records) (op : Op) : Bool :=
  decide (op.type = .put) && refuses env r.db op.key op.leaseID

/-- No range deletion of the transaction meets a stored key whose deletion the watch looks for. -/
def TxnTold : Records → List Op → Prop
  | _,[] => True
  | r,op :: ops => stops env r op = true ∨
      (op.type = .delete → op.rangeEnd ≠ [] → ∀ k, inRange op.key op.rangeEnd k = true →
        (getKeyValue r.db k).isSome = true → sub.sees .delete k = false) ∧
      TxnTold (txnOp env r op).1 ops

def TxnsTold : Records → List RaftOperation → Prop
  | _,[] => True
  | r,op :: ops =>
    (op.type = .txn →
      TxnTold sub env r (if compares r.db op.compares then op.thenOps else op.elseOps)) ∧
    TxnsTold (prepared env r op) ops

/-- The operation, prepared on the records, tells the watch of what it does to the database `db`
that the final write finds. -/
def OpTold (db : Database) (r : Records) (op : RaftOperation) : Prop :=
  match op.type with
  | .put => sub.sees .put op.key = true → refuses env r.db op.key op.leaseID = false ∧
      (sub.prevKV = true → getKeyValue r.db op.key = getKeyValue db op.key)
  | .delete => ∀ k ∈ toDelete r.db op.key op.rangeEnd, sub.sees .delete k = true →
      (getKeyValue r.db k).isSome = (getKeyValue db k).isSome ∧
      (sub.prevKV = true → getKeyValue r.db k = getKeyValue db k)
  | .leaseRevoke => ∀ l : Lease, getLease r.db op.leaseID = .ok (some l) → ∀ k ∈ l.keys,
      (getKeyValue db k).isSome = true → sub.sees .delete k = false
  | .leaseGrant => True
  | .txn => True
  | .other _ => True

def BatchTold : Database → Records → List RaftOperation → Prop
  | _,_,[] => True
  | db,r,op :: ops => OpTold sub env db r op ∧
      BatchTold (write db (prepareRecords env r [] op).2) (prepared env r op) ops

/-- The transaction puts a key, or deletes a single stored key, that the watch looks for. -/
def TxnSeen : Records → List Op → Prop
  | _,[] => False
  | r,op :: ops => stops env r op = false ∧
      (op.type = .put ∧ sub.sees .put op.key = true ∨
       op.type = .delete ∧ op.rangeEnd = [] ∧ (getKeyValue r.db op.key).isSome = true ∧
        sub.sees .delete op.key = true ∨
       TxnSeen (txnOp env r op).1 ops)

def AnyTxnSeen : Records → List RaftOperation → Prop
  | _,[] => False
  | r,op :: ops =>
    op.type = .txn ∧
      TxnSeen sub env r (if compares r.db op.compares then op.thenOps else op.elseOps) ∨
    AnyTxnSeen (prepared env r op) ops

def OpSeen (r : Records) (op : RaftOperation) : Prop :=
  match op.type with
  | .put => refuses env r.db op.key op.leaseID = false ∧ sub.sees .put op.key = true
  | .delete => ∃ k ∈ toDelete r.db op.key op.rangeEnd, (getKeyValue r.db k).isSome = true ∧
      sub.sees .delete k = true
  | .leaseRevoke => False
  | .leaseGrant => False
  | .txn => False
  | .other _ => False

def NotOvertaken : Records → List RaftOperation → Prop
  | _,[] => True
  | r,op :: ops => (OpSeen sub env r op → ¬ AnyTxnSeen sub env (prepared env r op) ops) ∧
      NotOvertaken (prepared env r op) ops

end Conditions

def Told (sub : WatchSubscription) (view : Bytes → Option KeyValue) (g : Segment) : Prop :=
  List.Forall₂ (Reports sub) (g.received sub) ((changes view g.writes).filter sub.admits)

section Segments
variable {sub : WatchSubscription} {view : Bytes → Option KeyValue}
variable {prev : Option KeyValue}

lemma told_empty : Told sub view ⟨[],[]⟩ := .nil

lemma told_put {kv : KeyValue} {key : Bytes} {n : ℤ} (hkey : kv.key = key)
    (refused : Bool) :
    Told sub view ⟨if refused then [] else [putEvent kv prev n],[⟨key,some kv,some n⟩]⟩ ↔
      (sub.sees .put key = true → refused = false ∧ (sub.prevKV = true → prev = view key)) := by
  have hchange : (changes view [(⟨key,some kv,some n⟩ : RecordWrite)]).filter sub.admits =
      if sub.sees .put key then [⟨⟨key,some kv,some n⟩,view key⟩] else [] := by
    rw [changes_singleton,Write.change,if_pos (.inl rfl)]
    cases hsees : sub.sees .put key <;> simp [WatchSubscription.admits,eventType,hsees]
  have hevent : (putEvent kv prev n).key = key := hkey
  rw [Told,hchange]
  cases refused with
  | true =>
    cases sub.sees .put key <;> simp [Segment.received]
  | false =>
    simp only [Segment.received,Bool.false_eq_true,if_false,List.flatMap_singleton,
      WatchSubscription.notifyWatches,hevent,true_and]
    change List.Forall₂ _ (if sub.sees .put key then _ else _) _ ↔ _
    cases sub.sees .put key with
    | false => simp
    | true =>
      simp only [if_true,List.forall₂_cons,List.Forall₂.nil,and_true,forall_const]
      constructor
      · rintro ⟨-,-,-,-,hprev⟩ hasked
        simpa [hasked,putEvent] using hprev
      · intro hprev
        cases hasked : sub.prevKV with
        | false => exact ⟨rfl,rfl,fun _ h => h,fun h => (by cases h),by simp [hasked]⟩
        | true => exact ⟨rfl,rfl,fun _ h => h,fun h => (by cases h),by simp [hasked,putEvent,hprev hasked]⟩

lemma told_delete {key : Bytes} {n : ℤ}
    (hkeyed : ∀ kv, prev = some kv → kv.key = key) :
    Told sub view (deleteSegment prev key n) ↔ (sub.sees .delete key = true →
      prev.isSome = (view key).isSome ∧ (sub.prevKV = true → prev = view key)) := by
  have hchange : (changes view [(⟨key,none,some n⟩ : RecordWrite)]).filter sub.admits =
      if sub.sees .delete key ∧ (view key).isSome then [⟨⟨key,none,some n⟩,view key⟩] else [] := by
    rw [changes_singleton,Write.change]
    cases hview : view key with
    | none => simp
    | some kv => simp [List.filter_singleton,WatchSubscription.admits,eventType]
  have hreceived : (deleteSegment prev key n).received sub =
      if sub.sees .delete key then prev.toList.map fun kv =>
        { deleteEvent kv n with prevKv := if sub.prevKV then some kv else none } else [] := by
    cases prev with
    | none => simp [deleteSegment,Segment.received]
    | some kv =>
      have hkv : (deleteEvent kv n).key = key := hkeyed kv rfl
      simp only [deleteSegment,Segment.received,Option.toList_some,List.map_cons,List.map_nil,
        List.flatMap_singleton,WatchSubscription.notifyWatches,hkv]
      change (if sub.sees .delete key then _ else _) = _
      cases sub.prevKV <;> rfl
  have hwrites : (deleteSegment prev key n).writes = [⟨key,none,some n⟩] := rfl
  rw [Told,hreceived,hwrites,hchange]
  cases sub.sees .delete key with
  | false => simp
  | true =>
    cases prev with
    | none => cases view key <;> simp
    | some kv =>
      cases view key with
      | none => simp
      | some kv' =>
        simp only [if_true,Option.toList_some,List.map_cons,List.map_nil,Option.isSome_some,
          and_self,List.forall₂_cons,List.Forall₂.nil,and_true,forall_const,true_and]
        constructor
        · rintro ⟨-,-,-,-,hprev⟩ hasked
          simpa [hasked] using hprev
        · intro hprev
          refine ⟨rfl,rfl,fun _ h => (by cases h),fun _ => ⟨_,rfl,hkeyed kv rfl,rfl,rfl⟩,?_⟩
          cases hasked : sub.prevKV with
          | false => simp
          | true => simpa using hprev hasked

lemma told_silent (keys : List Bytes) (revision : Option ℤ) :
    Told sub view ⟨[],keys.map fun key => ⟨key,none,revision⟩⟩ ↔
      ∀ key ∈ keys, (view key).isSome = true → sub.sees .delete key = false := by
  rw [Told,← WatchSubscription.filter_admits_deletions keys revision]
  exact List.forall₂_nil_left_iff

end Segments

section Transactions
variable (sub : WatchSubscription) (env : Env) {r : Records}

lemma txnSegments_cons (r : Records) (op : Op) (ops : List Op) :
    txnSegments env r (op :: ops) = txnSegment env r op ::
      if stops env r op then [] else txnSegments env (txnOp env r op).1 ops := by
  rw [txnSegments]
  congr 1
  unfold txnOp stops
  cases op.type with
  | range => rfl
  | delete => rfl
  | txn => rfl
  | put =>
    dsimp only
    rw [putUnlocked,attachKey_incrementRevision,refuses]
    cases attachKey env r.db op.key op.leaseID <;> rfl

lemma told_txnSegment (hkeyed : Keyed r.db) (op : Op) :
    Told sub (getKeyValue r.db) (txnSegment env r op) ↔
      (op.type = .delete → op.rangeEnd ≠ [] → ∀ k, inRange op.key op.rangeEnd k = true →
        (getKeyValue r.db k).isSome = true → sub.sees .delete k = false) := by
  unfold txnSegment
  cases htype : op.type with
  | range => exact iff_of_true told_empty fun h => (by cases h)
  | txn => exact iff_of_true told_empty fun h => (by cases h)
  | put =>
    refine iff_of_true ?_ fun h => (by cases h)
    dsimp only
    cases hrefuses : refuses env r.db op.key op.leaseID with
    | true => exact told_empty
    | false => exact (told_put rfl false).mpr fun _ => ⟨rfl,fun _ => rfl⟩
  | delete =>
    dsimp only
    by_cases hend : op.rangeEnd = []
    · rw [if_pos hend]
      exact iff_of_true ((told_delete (hkeyed _)).mpr fun _ => ⟨rfl,fun _ => rfl⟩)
        fun _ h => absurd hend h
    · rw [if_neg hend,map_scan_drop op.key op.rangeEnd fun k =>
        (⟨k,none,some (r.cachedRevision+1)⟩ : RecordWrite),told_silent]
      constructor
      · intro h _ _ k hk hstored
        refine h k (mem_scan_drop.mpr ⟨?_,hk⟩) hstored
        by_contra hmem
        rw [getKeyValue_of_not_mem hmem] at hstored
        cases hstored
      · intro h k hk hstored
        exact h rfl hend k (mem_scan_drop.mp hk).2 hstored

lemma told_txnSegments (hkeyed : Keyed r.db) (ops : List Op) :
    (∀ p ∈ located Segment.writes (getKeyValue r.db) (txnSegments env r ops), Told sub p.2 p.1) ↔
      TxnTold sub env r ops := by
  induction ops generalizing r with
  | nil => simp [txnSegments,TxnTold]
  | cons op ops ih =>
    rw [txnSegments_cons,located,List.forall_mem_cons,told_txnSegment sub env hkeyed,TxnTold,
      ← getKeyValue_txnOp]
    cases hstops : stops env r op with
    | true =>
      have hput : op.type = .put := by
        simp only [stops,Bool.and_eq_true,decide_eq_true_eq] at hstops
        exact hstops.1
      simp [hput]
    | false =>
      simp only [Bool.false_eq_true,if_false,false_or]
      exact and_congr_right fun _ => ih (hkeyed.txnOp env op)

lemma told_sent (hkeyed : Keyed r.db) (ops : List RaftOperation) :
    (∀ p ∈ located Segment.writes (getKeyValue r.db) (sent env r ops), Told sub p.2 p.1) ↔
      TxnsTold sub env r ops := by
  induction ops generalizing r with
  | nil => simp [sent,TxnsTold]
  | cons op ops ih =>
    obtain ⟨-,-,-,hview⟩ := prepareRecords_logs env r [] op
    rw [sent,located_append,List.forall_mem_append,← hview,ih (hkeyed.prepared env op),TxnsTold]
    refine and_congr_left fun _ => ?_
    unfold sentSegments
    by_cases htxn : op.type = .txn
    · rw [htxn]
      exact (told_txnSegments sub env hkeyed _).trans (by simp)
    · refine iff_of_true ?_ fun h => absurd h htxn
      split
      · contradiction
      · exact fun _ h => absurd h List.not_mem_nil

end Transactions

section Batch
variable (sub : WatchSubscription) (env : Env) {r : Records}

/-- The deletions of distinct keys find the records that were there before all of them. -/
lemma told_deletes {prev : Bytes → Option KeyValue} {view : Bytes → Option KeyValue} {n : ℤ}
    (hprev : ∀ k kv, prev k = some kv → kv.key = k) {keys : List Bytes} (hnodup : keys.Nodup) :
    (∀ p ∈ located Segment.writes view (keys.map fun key => deleteSegment (prev key) key n),
        Told sub p.2 p.1) ↔
      ∀ key ∈ keys, sub.sees .delete key = true →
        (prev key).isSome = (view key).isSome ∧ (sub.prevKV = true → prev key = view key) := by
  induction keys generalizing view with
  | nil => simp
  | cons key keys ih =>
    obtain ⟨hkey,hrest⟩ := List.nodup_cons.mp hnodup
    rw [List.map_cons,located,List.forall_mem_cons,List.forall_mem_cons,told_delete (hprev key),
      ih hrest]
    refine and_congr_right fun _ => forall₂_congr fun k hk => ?_
    have hne : k ≠ key := fun h => hkey (h ▸ hk)
    have hview : replay view (deleteSegment (prev key) key n).writes k = view k :=
      Function.update_of_ne hne _ _
    rw [hview]

lemma told_preparedSegments (hkeyed : Keyed r.db) (db : Database) (op : RaftOperation) :
    (∀ p ∈ located Segment.writes (getKeyValue db) (preparedSegments env r op), Told sub p.2 p.1) ↔
      OpTold sub env db r op := by
  unfold preparedSegments OpTold
  cases op.type with
  | put =>
    simp only [located,List.forall_mem_cons,List.not_mem_nil,false_implies,implies_true,and_true]
    exact told_put rfl _
  | delete =>
    refine (told_deletes sub hkeyed (nodup_toDelete _ _ _)).trans (forall_congr' fun k => ?_)
    rw [mem_toDelete]
  | leaseRevoke =>
    dsimp only
    cases getLease r.db op.leaseID with
    | error err => simp
    | ok lease =>
      cases lease with
      | none => simp
      | some l =>
        simp only [located,List.forall_mem_cons,List.not_mem_nil,false_implies,implies_true,and_true,
          told_silent,Except.ok.injEq,Option.some.injEq,forall_eq',ExtTreeSet.mem_toList]
  | leaseGrant => simp
  | txn => simp
  | other name => simp

lemma told_queued (hkeyed : Keyed r.db) (db : Database) (ops : List RaftOperation) :
    (∀ p ∈ located Segment.writes (getKeyValue db) (queued env r ops), Told sub p.2 p.1) ↔
      BatchTold sub env db r ops := by
  induction ops generalizing r db with
  | nil => simp [queued,BatchTold]
  | cons op ops ih =>
    obtain ⟨added,hprepare,hlogs,-⟩ := prepareRecords_logs env r [] op
    have hbatch : (prepareRecords env r [] op).2 = added := by rw [hprepare]; rfl
    rw [queued,located_append,List.forall_mem_append,← hlogs db,ih (hkeyed.prepared env op),
      BatchTold,hbatch,told_preparedSegments sub env hkeyed]

end Batch

section Order
variable (sub : WatchSubscription) (env : Env)

abbrev Sorted (events : List WatchEvent) : Prop := events.Pairwise fun a b => a.revision ≤ b.revision

lemma sorted_of_same {events : List WatchEvent} {n : ℤ} (h : ∀ e ∈ events, e.revision = n) :
    Sorted events :=
  List.pairwise_of_forall_mem_list fun a ha b hb => ((h a ha).trans (h b hb).symm).le

lemma sorted_iff_of_later {now queue later laterQueue : List WatchEvent} (hnow : Sorted now)
    (hqueue : Sorted queue) (hone : now = [] ∨ queue = [])
    (hlater : ∀ a ∈ now ++ queue, ∀ b ∈ later ++ laterQueue, a.revision < b.revision) :
    Sorted (now ++ later ++ (queue ++ laterQueue)) ↔
      (queue ≠ [] → later = []) ∧ Sorted (later ++ laterQueue) := by
  rcases hone with rfl|rfl
  · simp only [List.nil_append] at hlater ⊢
    constructor
    · intro h
      obtain ⟨hl,hq,hcross⟩ := List.pairwise_append.mp h
      refine ⟨fun hne => ?_,List.pairwise_append.mpr ⟨hl,(List.pairwise_append.mp hq).2.1,
        fun a ha b hb => hcross a ha b (List.mem_append_right _ hb)⟩⟩
      obtain ⟨q,hq⟩ := List.exists_mem_of_ne_nil queue hne
      by_contra hsome
      obtain ⟨l,hl⟩ := List.exists_mem_of_ne_nil later hsome
      have hback := hcross l hl q (List.mem_append_left _ hq)
      have hforth := hlater q hq l (List.mem_append_left _ hl)
      omega
    · rintro ⟨hempty,hsorted⟩
      obtain ⟨hl,hq,hcross⟩ := List.pairwise_append.mp hsorted
      refine List.pairwise_append.mpr ⟨hl,List.pairwise_append.mpr ⟨hqueue,hq,fun a ha b hb =>
        (hlater a ha b (List.mem_append_right _ hb)).le⟩,fun a ha b hb => ?_⟩
      rcases List.mem_append.mp hb with hb|hb
      · rw [hempty (List.ne_nil_of_mem hb)] at ha
        exact absurd ha List.not_mem_nil
      · exact hcross a ha b hb
  · simp only [List.append_nil,List.nil_append,List.append_assoc] at hlater ⊢
    rw [Sorted,List.pairwise_append]
    constructor
    · exact fun h => ⟨fun hne => absurd rfl hne,h.2.1⟩
    · exact fun h => ⟨hnow,h.2,fun a ha b hb => (hlater a ha b hb).le⟩

lemma mem_received {gs : List Segment} {e : WatchEvent} (h : e ∈ received sub gs) :
    ∃ g ∈ gs, ∃ e' ∈ g.events, e.revision = e'.revision := by
  obtain ⟨g,hg,he⟩ := List.mem_flatMap.mp h
  exact ⟨g,hg,Segment.revision_of_mem_received he⟩

lemma received_append (gs gs' : List Segment) :
    received sub (gs ++ gs') = received sub gs ++ received sub gs' := List.flatMap_append

lemma revision_txnSegment (r : Records) (op : Op) :
    ∀ e ∈ (txnSegment env r op).events, e.revision = r.cachedRevision+1 := by
  unfold txnSegment
  cases op.type with
  | range => simp
  | txn => simp
  | put =>
    dsimp only
    split_ifs <;> simp [putEvent]
  | delete =>
    dsimp only
    split_ifs <;> simp [deleteEvent]

lemma revision_preparedSegments (r : Records) (op : RaftOperation) :
    ∀ g ∈ preparedSegments env r op, ∀ e ∈ g.events, e.revision = r.cachedRevision+1 := by
  unfold preparedSegments
  cases op.type with
  | put =>
    dsimp only
    split_ifs <;> simp [putEvent]
  | delete => simp [deleteEvent]
  | leaseRevoke =>
    dsimp only
    split <;> simp
  | leaseGrant => simp
  | txn => simp
  | other name => simp

lemma sorted_txnSegments (r : Records) (ops : List Op) :
    Sorted (received sub (txnSegments env r ops)) := by
  induction ops generalizing r with
  | nil => exact .nil
  | cons op ops ih =>
    have hfirst : Sorted ((txnSegment env r op).received sub) := by
      refine sorted_of_same (n := r.cachedRevision+1) fun e he => ?_
      obtain ⟨e',he',hrev⟩ := Segment.revision_of_mem_received he
      rw [hrev,revision_txnSegment env r op e' he']
    obtain ⟨hwithin,-⟩ := within_txnSegment env r op
    rw [txnSegments_cons]
    split_ifs
    · rw [received,List.flatMap_cons,List.flatMap_nil,List.append_nil]
      exact hfirst
    · refine List.pairwise_append.mpr ⟨hfirst,ih _,fun a ha b hb => ?_⟩
      obtain ⟨a',ha',harev⟩ := Segment.revision_of_mem_received ha
      obtain ⟨g,hg,b',hb',hbrev⟩ := mem_received sub hb
      have hlow := (hwithin.events a' ha').2
      have hhigh := (((within_txnSegments env _ ops).2 g hg).events b' hb').1
      omega

lemma sorted_sentSegments (r : Records) (op : RaftOperation) :
    Sorted (received sub (sentSegments env r op)) := by
  unfold sentSegments
  split
  · exact sorted_txnSegments sub env r _
  · exact .nil

lemma sorted_preparedSegments (r : Records) (op : RaftOperation) :
    Sorted (received sub (preparedSegments env r op)) := by
  refine sorted_of_same (n := r.cachedRevision+1) fun e he => ?_
  obtain ⟨g,hg,e',he',hrev⟩ := mem_received sub he
  rw [hrev,revision_preparedSegments env r op g hg e' he']

lemma sent_or_prepared (r : Records) (op : RaftOperation) :
    sentSegments env r op = [] ∨ preparedSegments env r op = [] := by
  by_cases htxn : op.type = .txn
  · right
    rw [preparedSegments,htxn]
  · left
    unfold sentSegments
    split
    · contradiction
    · rfl

lemma revision_lt_of_later (r : Records) (op : RaftOperation) (ops : List RaftOperation) :
    ∀ a ∈ received sub (sentSegments env r op) ++ received sub (preparedSegments env r op),
      ∀ b ∈ received sub (sent env (prepared env r op) ops) ++
        received sub (queued env (prepared env r op) ops), a.revision < b.revision := by
  intro a ha b hb
  rw [← received_append] at ha hb
  obtain ⟨g,hg,a',ha',harev⟩ := mem_received sub ha
  obtain ⟨g',hg',b',hb',hbrev⟩ := mem_received sub hb
  have hlow := (((within_prepared env r op).2 g hg).events a' ha').2
  obtain ⟨hi,hwithin⟩ := within_segments env (prepared env r op) ops g' hg'
  have hhigh := (hwithin.events b' hb').1
  omega

lemma sorted_sent (r : Records) (ops : List RaftOperation) : Sorted (received sub (sent env r ops)) := by
  induction ops generalizing r with
  | nil => exact .nil
  | cons op ops ih =>
    rw [sent,received_append]
    refine List.pairwise_append.mpr ⟨sorted_sentSegments sub env r op,ih _,fun a ha b hb => ?_⟩
    exact (revision_lt_of_later sub env r op ops a (List.mem_append_left _ ha) b
      (List.mem_append_left _ hb)).le

variable {r : Records}

lemma txnSegment_seen (hkeyed : Keyed r.db) (op : Op) :
    (txnSegment env r op).received sub ≠ [] ↔ stops env r op = false ∧
      (op.type = .put ∧ sub.sees .put op.key = true ∨
       op.type = .delete ∧ op.rangeEnd = [] ∧ (getKeyValue r.db op.key).isSome = true ∧
        sub.sees .delete op.key = true) := by
  unfold txnSegment stops
  cases op.type with
  | range => simp [Segment.received]
  | txn => simp [Segment.received]
  | put =>
    cases refuses env r.db op.key op.leaseID with
    | true => simp [Segment.received]
    | false =>
      simp [Segment.received,WatchSubscription.notifyWatches,putEvent,WatchEvent.key,putRecord]
  | delete =>
    by_cases hend : op.rangeEnd = []
    · cases hget : getKeyValue r.db op.key with
      | none => simp [Segment.received,hend]
      | some kv =>
        have hkey := hkeyed _ _ hget
        simp [Segment.received,hend,WatchSubscription.notifyWatches,deleteEvent,WatchEvent.key,hkey]
    · simp [Segment.received,hend]

lemma txnSegments_seen (hkeyed : Keyed r.db) (ops : List Op) :
    received sub (txnSegments env r ops) ≠ [] ↔ TxnSeen sub env r ops := by
  induction ops generalizing r with
  | nil => simp [txnSegments,received,TxnSeen]
  | cons op ops ih =>
    have hfirst := txnSegment_seen sub env hkeyed op
    rw [txnSegments_cons,TxnSeen,received,List.flatMap_cons,ne_eq,List.append_eq_nil_iff,
      not_and_or,← ne_eq,hfirst]
    cases hstops : stops env r op with
    | true => simp
    | false =>
      have hrest := ih (hkeyed.txnOp env op)
      simp only [Bool.false_eq_true,if_false,true_and]
      rw [← or_assoc]
      exact or_congr Iff.rfl hrest

lemma sent_seen (hkeyed : Keyed r.db) (ops : List RaftOperation) :
    received sub (sent env r ops) ≠ [] ↔ AnyTxnSeen sub env r ops := by
  induction ops generalizing r with
  | nil => simp [sent,received,AnyTxnSeen]
  | cons op ops ih =>
    rw [sent,received_append,ne_eq,List.append_eq_nil_iff,not_and_or,AnyTxnSeen]
    refine or_congr ?_ (ih (hkeyed.prepared env op))
    unfold sentSegments
    by_cases htxn : op.type = .txn
    · rw [htxn]
      exact (txnSegments_seen sub env hkeyed _).trans (by simp)
    · refine iff_of_false ?_ fun h => htxn h.1
      split
      · contradiction
      · simp [received]

lemma preparedSegments_seen (hkeyed : Keyed r.db) (op : RaftOperation) :
    received sub (preparedSegments env r op) ≠ [] ↔ OpSeen sub env r op := by
  unfold preparedSegments OpSeen
  cases op.type with
  | put =>
    cases refuses env r.db op.key op.leaseID with
    | true => simp [received,Segment.received]
    | false =>
      simp [received,Segment.received,WatchSubscription.notifyWatches,putEvent,WatchEvent.key,
        putRecord]
  | delete =>
    dsimp only
    rw [received,List.flatMap_map,ne_eq,List.flatMap_eq_nil_iff]
    simp only [not_forall,exists_prop,mem_toDelete]
    refine exists_congr fun k => and_congr_right fun _ => ?_
    cases hget : getKeyValue r.db k with
    | none => simp [Segment.received]
    | some kv =>
      have hkey := hkeyed _ _ hget
      simp [Segment.received,WatchSubscription.notifyWatches,deleteEvent,WatchEvent.key,hkey]
  | leaseRevoke =>
    dsimp only
    split <;> simp [received,Segment.received]
  | leaseGrant => simp [received]
  | txn => simp [received]
  | other name => simp [received]

theorem sorted_segments (hkeyed : Keyed r.db) (ops : List RaftOperation) :
    Sorted (received sub (sent env r ops ++ queued env r ops)) ↔ NotOvertaken sub env r ops := by
  induction ops generalizing r with
  | nil => exact iff_of_true .nil trivial
  | cons op ops ih =>
    have hone : received sub (sentSegments env r op) = [] ∨
        received sub (preparedSegments env r op) = [] := by
      rcases sent_or_prepared env r op with h|h
      · exact .inl (by rw [h]; rfl)
      · exact .inr (by rw [h]; rfl)
    have hrest := ih (hkeyed.prepared env op)
    rw [received_append] at hrest
    rw [sent,queued,received_append,received_append,received_append,
      sorted_iff_of_later (sorted_sentSegments sub env r op) (sorted_preparedSegments sub env r op)
        hone (revision_lt_of_later sub env r op ops),hrest,NotOvertaken,
      preparedSegments_seen sub env hkeyed,← sent_seen sub env (hkeyed.prepared env op),not_not]

end Order

end MetaStore.RocksDB
