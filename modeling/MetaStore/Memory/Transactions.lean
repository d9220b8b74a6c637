import MetaStore.Memory.Batch
import MetaStore.Memory.Deletes

/-! Transactions of the memory engine that fail. The operations of a branch are applied in
place, one after the other, and a put that names a missing or expired lease ends the
transaction without undoing what was done before it. -/
namespace MetaStore.Memory
open Std

namespace MemoryEtcd
variable {leases leases' : ExtTreeMap ℤ Lease}

/-- The operation is a put under a lease that is missing or, by the next reading of the clock,
expired. -/
def refuses (clock : Clock) (leases : ExtTreeMap ℤ Lease) (ticks : ℕ) (op : Op) : Bool :=
  decide (op.type = .put ∧ op.leaseID ≠ 0) &&
    match leases[op.leaseID]? with
    | none => true
    | some l => l.isExpired (clock ticks)

def readings (op : Op) : ℕ := if op.type = .put ∧ op.leaseID ≠ 0 then 1 else 0

def idle (s : MemoryEtcd) (op : Op) : Bool :=
  match op.type with
  | .put => false
  | .delete =>
    if op.rangeEnd = [] then (s.kvData.get op.key).isNone
    else (s.kvData.range op.key op.rangeEnd 0).isEmpty
  | .range => true
  | .txn => true

def AllAccepted (clock : Clock) (leases : ExtTreeMap ℤ Lease) : ℕ → List Op → Prop
  | _,[] => True
  | ticks,op :: ops =>
    refuses clock leases ticks op = false ∧ AllAccepted clock leases (ticks+readings op) ops

/-- No operation is refused, or every operation before the first refused one is idle. -/
def FailsUntouched (clock : Clock) (s : MemoryEtcd) (ticks : ℕ) : List Op → Prop
  | [] => True
  | op :: ops =>
    refuses clock s.leases ticks op = true ∨ s.idle op = true ∧ FailsUntouched clock s ticks ops ∨
      AllAccepted clock s.leases ticks (op :: ops)

def SameTerms (leases leases' : ExtTreeMap ℤ Lease) : Prop :=
  ∀ id : ℤ, leases[id]?.map (fun l => (l.ttl,l.grantTime)) =
    leases'[id]?.map fun l => (l.ttl,l.grantTime)

lemma SameTerms.refuses_eq (h : SameTerms leases leases')
    (clock : Clock) (ticks : ℕ) (op : Op) :
    refuses clock leases' ticks op = refuses clock leases ticks op := by
  have hid := h op.leaseID
  unfold refuses
  cases hl : leases[op.leaseID]? with
  | none =>
    rw [hl,Option.map_none] at hid
    rw [Option.map_eq_none_iff.1 hid.symm]
  | some l =>
    rw [hl,Option.map_some] at hid
    obtain ⟨l',hl',hterms⟩ := Option.map_eq_some_iff.1 hid.symm
    obtain ⟨httl,hgrant⟩ := Prod.mk.inj hterms
    simp only [hl',Lease.isExpired,httl,hgrant]

lemma SameTerms.allAccepted_iff (h : SameTerms leases leases')
    (clock : Clock) (ops : List Op) (ticks : ℕ) :
    AllAccepted clock leases' ticks ops ↔ AllAccepted clock leases ticks ops := by
  induction ops generalizing ticks with
  | nil => rfl
  | cons op ops ih => rw [AllAccepted,AllAccepted,h.refuses_eq,ih]

lemma SameTerms.trans {a b c : ExtTreeMap ℤ Lease} (h : SameTerms a b) (h' : SameTerms b c) :
    SameTerms a c := fun id => (h id).trans (h' id)

lemma sameTerms_updateKeys (leases : ExtTreeMap ℤ Lease) (leaseID : ℤ)
    (f : ExtTreeSet Bytes → ExtTreeSet Bytes) : SameTerms leases (updateKeys leases leaseID f) := by
  intro id
  rw [getElem?_updateKeys]
  split_ifs
  · rw [Option.map_map]
    rfl
  · rfl

lemma sameTerms_foldl_eraseKey (keys : List Bytes) (s : MemoryEtcd) :
    SameTerms s.leases (keys.foldl eraseKey s).leases := by
  induction keys generalizing s with
  | nil => exact fun _ => rfl
  | cons key keys ih =>
    refine SameTerms.trans ?_ (ih _)
    unfold eraseKey
    cases s.kvData.get key with
    | none => exact fun _ => rfl
    | some kv => exact sameTerms_updateKeys s.leases kv.lease (·.erase key)

variable {clock : Clock} {s : MemoryEtcd} {op : Op}

lemma putUnlocked_cases (clock : Clock) (s : MemoryEtcd) (hop : op.type = .put) :
    refuses clock s.leases s.ticks op = true ∧ (∃ n, s.ticks ≤ n ∧
        s.putUnlocked clock op.key op.value op.leaseID =
          ({ s with ticks := n },.error "invalid lease")) ∨
      refuses clock s.leases s.ticks op = false ∧
        s.putUnlocked clock op.key op.value op.leaseID =
          let r := { s with ticks := s.ticks+readings op }.putDirect op.key op.value op.leaseID
          (r.1,.ok r.2) := by
  unfold putUnlocked refuses readings
  by_cases h0 : op.leaseID = 0
  · exact .inr ⟨by simp [h0],by simp [h0]⟩
  · cases hl : s.leases[op.leaseID]? with
    | none => exact .inl ⟨by simp [hop,h0],s.ticks,le_rfl,by simp [h0]⟩
    | some l =>
      cases hexpired : l.isExpired (clock s.ticks) with
      | true =>
        exact .inl ⟨by simp [hop,h0,hexpired],s.ticks+1,Nat.le_succ _,by simp [h0,hexpired]⟩
      | false => exact .inr ⟨by simp [hexpired],by simp [hop,h0,hexpired]⟩

lemma txnOp_of_refuses (h : refuses clock s.leases s.ticks op = true) :
    (∃ e, (s.txnOp clock op).2 = .error e) ∧ SameData s (s.txnOp clock op).1 := by
  have htype : op.type = .put := by
    simp only [refuses,Bool.and_eq_true,decide_eq_true_iff] at h
    exact h.1.1
  obtain ⟨-,n,-,hput⟩ | ⟨hf,-⟩ := putUnlocked_cases clock s htype
  · simp only [txnOp,htype,hput]
    exact ⟨⟨_,rfl⟩,rfl,rfl,fun _ => rfl⟩
  · simp [hf] at h

lemma txnOp_of_idle (clock : Clock) (h : s.idle op = true) :
    (∃ r, (s.txnOp clock op).2 = .ok r) ∧ (s.txnOp clock op).1 = s ∧ readings op = 0 := by
  unfold idle at h
  unfold txnOp readings
  cases htype : op.type with
  | put => simp [htype] at h
  | range => exact ⟨⟨_,rfl⟩,rfl,by simp⟩
  | txn => exact ⟨⟨_,rfl⟩,rfl,by simp⟩
  | delete =>
    refine ⟨⟨_,rfl⟩,?_,by simp⟩
    simp only [htype] at h
    simp only [deleteUnlocked]
    split_ifs at h ⊢ with hend hkeys hkeys <;> first | rfl | skip
    · simp [Option.isNone_iff_eq_none.1 h] at hkeys
    · simp [List.isEmpty_iff.1 h] at hkeys

lemma txnOp_of_effective (hidle : s.idle op = false)
    (h : refuses clock s.leases s.ticks op = false) :
    (∃ r, (s.txnOp clock op).2 = .ok r) ∧ s.revision < (s.txnOp clock op).1.revision ∧
      (s.txnOp clock op).1.ticks = s.ticks+readings op ∧
      SameTerms s.leases (s.txnOp clock op).1.leases := by
  unfold idle at hidle
  unfold txnOp
  cases htype : op.type with
  | range => simp [htype] at hidle
  | txn => simp [htype] at hidle
  | put =>
    obtain ⟨ht,-⟩ | ⟨-,hput⟩ := putUnlocked_cases clock s htype
    · simp [ht] at h
    · simp only [hput]
      exact ⟨⟨_,rfl⟩,Int.lt_succ _,rfl,sameTerms_updateKeys s.leases op.leaseID (·.insert op.key)⟩
  | delete =>
    simp only [htype] at hidle
    simp only [deleteUnlocked]
    have hkeys : (if op.rangeEnd = [] then
        (if op.rangeEnd = [] then (s.kvData.get op.key).toList
          else s.kvData.range op.key op.rangeEnd 0).map fun _ => op.key
        else (if op.rangeEnd = [] then (s.kvData.get op.key).toList
          else s.kvData.range op.key op.rangeEnd 0).map KeyValue.key) ≠ [] := by
      split_ifs at hidle ⊢
      · cases hkv : s.kvData.get op.key <;> simp [hkv] at hidle ⊢
      · simpa using hidle
    rw [if_neg hkeys]
    obtain ⟨hrevision,hticks⟩ := revision_foldl_eraseKey _ { s with revision := s.revision+1 }
    refine ⟨⟨_,rfl⟩,?_,?_,sameTerms_foldl_eraseKey _ { s with revision := s.revision+1 }⟩
    · rw [hrevision]
      exact Int.lt_succ _
    · rw [hticks,readings,htype]
      simp

lemma txnOp_of_accepted (h : refuses clock s.leases s.ticks op = false) :
    (∃ r, (s.txnOp clock op).2 = .ok r) ∧ (s.txnOp clock op).1.ticks = s.ticks+readings op ∧
      SameTerms s.leases (s.txnOp clock op).1.leases := by
  cases hidle : s.idle op with
  | true =>
    obtain ⟨hok,hsame,hzero⟩ := txnOp_of_idle clock hidle
    exact ⟨hok,by rw [hsame,hzero]; rfl,by rw [hsame]; exact fun _ => rfl⟩
  | false =>
    obtain ⟨hok,-,hticks,hterms⟩ := txnOp_of_effective hidle h
    exact ⟨hok,hticks,hterms⟩

theorem le_txnOp (clock : Clock) (s : MemoryEtcd) (op : Op) :
    s.revision ≤ (s.txnOp clock op).1.revision ∧ s.ticks ≤ (s.txnOp clock op).1.ticks := by
  unfold txnOp
  split
  · exact ⟨le_rfl,le_rfl⟩
  · next htype =>
    obtain ⟨-,n,hn,hput⟩ | ⟨-,hput⟩ := putUnlocked_cases clock s htype
    · simp only [hput]
      exact ⟨le_rfl,hn⟩
    · simp [hput,putDirect]
  · unfold deleteUnlocked
    dsimp only
    generalize (if op.rangeEnd = [] then _ else _ : List Bytes) = keys
    split
    · exact ⟨le_rfl,le_rfl⟩
    · have h := revision_foldl_eraseKey keys { s with revision := s.revision+1 }
      exact ⟨by rw [h.1]; exact Int.le_add_one le_rfl,h.2.ge⟩
  · exact ⟨le_rfl,le_rfl⟩

theorem le_txnOps (clock : Clock) (s : MemoryEtcd) (ops : List Op) :
    s.revision ≤ (txnOps clock s ops).1.revision ∧ s.ticks ≤ (txnOps clock s ops).1.ticks := by
  induction ops generalizing s with
  | nil => exact ⟨le_rfl,le_rfl⟩
  | cons op ops ih =>
    have hop := le_txnOp clock s op
    rw [txnOps]
    split
    · exact hop
    · have hrest := ih (s.txnOp clock op).1
      exact ⟨hop.1.trans hrest.1,hop.2.trans hrest.2⟩

lemma txnOps_error_iff (clock : Clock) (ops : List Op) (s : MemoryEtcd) :
    (∃ e, (txnOps clock s ops).2 = .error e) ↔ ¬ AllAccepted clock s.leases s.ticks ops := by
  induction ops generalizing s with
  | nil => simp [txnOps,AllAccepted]
  | cons op ops ih =>
    cases hrefused : refuses clock s.leases s.ticks op with
    | true =>
      obtain ⟨⟨e,he⟩,-⟩ := txnOp_of_refuses hrefused
      simp [txnOps,he,AllAccepted,hrefused]
    | false =>
      obtain ⟨⟨r,hr⟩,hticks,hterms⟩ := txnOp_of_accepted hrefused
      have hrest := ih (s.txnOp clock op).1
      rw [hticks,hterms.allAccepted_iff] at hrest
      simp only [txnOps,hr,AllAccepted,hrefused,true_and]
      rw [← hrest]
      cases (txnOps clock (s.txnOp clock op).1 ops).2 <;> simp [Except.map]

lemma failsUntouched_of_allAccepted {ops : List Op} {ticks : ℕ}
    (h : AllAccepted clock s.leases ticks ops) : FailsUntouched clock s ticks ops := by
  cases ops with
  | nil => trivial
  | cons op ops => exact .inr (.inr h)

lemma txnOps_unchanged_iff (ops : List Op) :
    (∀ e, (txnOps clock s ops).2 = .error e → SameData s (txnOps clock s ops).1) ↔
      FailsUntouched clock s s.ticks ops := by
  induction ops with
  | nil => simp [txnOps,FailsUntouched]
  | cons op ops ih =>
    rw [FailsUntouched]
    cases hrefused : refuses clock s.leases s.ticks op with
    | true =>
      obtain ⟨⟨e,he⟩,hsame⟩ := txnOp_of_refuses hrefused
      simp only [txnOps,he,true_or,iff_true]
      exact fun _ _ => hsame
    | false =>
      cases hidle : s.idle op with
      | true =>
        obtain ⟨⟨r,hr⟩,hsame,hzero⟩ := txnOp_of_idle clock hidle
        have haccepted : AllAccepted clock s.leases s.ticks (op :: ops) →
            FailsUntouched clock s s.ticks ops := fun h => by
          have := h.2
          rw [hzero] at this
          exact failsUntouched_of_allAccepted this
        have hresult : ∀ e, (txnOps clock s (op :: ops)).2 = .error e ↔
            (txnOps clock s ops).2 = .error e := by
          intro e
          simp only [txnOps,hr,hsame]
          cases (txnOps clock s ops).2 <;> simp [Except.map]
        have hstate : (txnOps clock s (op :: ops)).1 = (txnOps clock s ops).1 := by
          simp only [txnOps,hr,hsame]
        simp only [hresult,hstate,ih,Bool.false_eq_true,false_or,true_and]
        exact ⟨.inl,fun h => h.elim id haccepted⟩
      | false =>
        obtain ⟨⟨r,hr⟩,hlt,-,-⟩ := txnOp_of_effective hidle hrefused
        have hchanged : ¬ SameData s (txnOps clock s (op :: ops)).1 := by
          intro hsame
          have hle := (le_txnOps clock (s.txnOp clock op).1 ops).1
          have hrevision : (txnOps clock s (op :: ops)).1.revision =
              (txnOps clock (s.txnOp clock op).1 ops).1.revision := by simp only [txnOps,hr]
          have := hsame.2.1
          omega
        have herror := txnOps_error_iff clock (op :: ops) s
        simp only [Bool.false_eq_true,false_or,false_and]
        constructor
        · intro h
          by_contra hrejected
          obtain ⟨e,he⟩ := herror.2 hrejected
          exact hchanged (h e he)
        · intro haccepted e he
          exact absurd haccepted (herror.1 ⟨e,he⟩)

end MemoryEtcd

/-- A transaction that fails leaves records, revision and key sets as they were exactly when
nothing was written before the put that fails. -/
theorem txnUnlocked_error_unchanged_iff (clock : Clock) (s : MemoryEtcd) (cmps : List Compare)
    (thenOps elseOps : List Op) :
    (∀ e, (s.txnUnlocked clock cmps thenOps elseOps).2 = .error e →
      SameData s (s.txnUnlocked clock cmps thenOps elseOps).1) ↔
      MemoryEtcd.FailsUntouched clock s s.ticks (if s.compares cmps then thenOps else elseOps) := by
  rw [← MemoryEtcd.txnOps_unchanged_iff]
  refine forall_congr' fun e => imp_congr_left ?_
  simp only [MemoryEtcd.txnUnlocked]
  cases (MemoryEtcd.txnOps clock s (if s.compares cmps then thenOps else elseOps)).2 with
  | error e' => simp only [Except.map,Except.error.injEq]
  | ok responses => exact iff_of_false (fun h => nomatch h) fun h => nomatch h

/-- The first put stays although the second one, under an unknown lease, fails. -/
theorem txnUnlocked_keeps_first_put :
    let ops : List Op := [{ type := .put, key := [97], value := [1] },
      { type := .put, key := [98], value := [2], leaseID := 7 }]
    let r := MemoryEtcd.empty.txnUnlocked (fun _ => 0) [] ops []
    Reachable .empty ∧ r.2 = .error "invalid lease" ∧
      r.1.kvData.get [97] = some ⟨[97],[1],1,1,1,0⟩ ∧ r.1.revision = 1 := by
  refine ⟨.new,?_,?_,?_⟩ <;> decide

end MetaStore.Memory
