import MetaStore.Memory.Apply

/-! Where the local clock enters the replicated state. Granting a lease stores a reading,
and a put inside a transaction compares a later reading with it; nothing else looks at the
time. Forgetting the stored readings turns every run into the run of a stopped clock, up to
the first transaction whose lease check could go either way. -/
namespace MetaStore.Memory
open Std

def stopped : Clock := fun _ => 0

/-- What the TTL alone says about a lease: expired at every time, at no time, or open. -/
def expiry (ttl : ℤ) : Option Bool :=
  if ttl*10^9 ≤ minDuration then some true
  else if maxDuration < ttl*10^9 then some false
  else none

/-- The TTL of the first lease whose expiry check in the operations of a transaction depends
on the time. A put on a lease that is missing, or expired at every time, ends the
transaction before later checks. -/
def timedLease (leases : ExtTreeMap ℤ Lease) : List Op → Option ℤ
  | [] => none
  | op :: ops =>
    if op.type = .put ∧ op.leaseID ≠ 0 then
      match leases[op.leaseID]? with
      | none => none
      | some l =>
        match expiry l.ttl with
        | none => some l.ttl
        | some true => none
        | some false => timedLease leases ops
    else timedLease leases ops

/-- The check the executed branch of a transaction reaches, in the state it starts from. -/
def timedTxn (s : MemoryEtcd) (op : RaftOperation) : Option ℤ :=
  timedLease s.leases (if s.compares op.compares then op.thenOps else op.elseOps)

theorem since_mem (now t : ℤ) : minDuration ≤ since now t ∧ since now t ≤ maxDuration := by
  unfold since minDuration maxDuration
  omega

theorem isExpired_of_expiry {l : Lease} {b : Bool} (h : expiry l.ttl = some b) (now : ℤ) :
    l.isExpired now = b := by
  have hs := since_mem now l.grantTime
  unfold expiry at h
  unfold Lease.isExpired
  split_ifs at h
  · rw [← Option.some.inj h]
    exact decide_eq_true (by omega)
  · rw [← Option.some.inj h]
    exact decide_eq_false (by omega)

section Forget

def forgetTimes (leases : ExtTreeMap ℤ Lease) : ExtTreeMap ℤ Lease :=
  leases.map fun _ l => { l with grantTime := 0 }

theorem getElem?_forgetTimes (leases : ExtTreeMap ℤ Lease) (id : ℤ) :
    (forgetTimes leases)[id]? = leases[id]?.map fun l : Lease => { l with grantTime := 0 } := by
  simp [forgetTimes]

theorem forgetTimes_updateKeys (leases : ExtTreeMap ℤ Lease) (leaseID : ℤ)
    (f : ExtTreeSet Bytes → ExtTreeSet Bytes) :
    forgetTimes (updateKeys leases leaseID f) = updateKeys (forgetTimes leases) leaseID f := by
  apply ExtTreeMap.ext_getElem?
  intro id
  simp only [getElem?_forgetTimes,getElem?_updateKeys]
  split_ifs
  · cases leases[id]? <;> rfl
  · rfl

namespace MemoryEtcd

def forget (s : MemoryEtcd) : MemoryEtcd := { s with leases := forgetTimes s.leases }

theorem forget_putDirect (s : MemoryEtcd) (key value : Bytes) (leaseID : ℤ) :
    s.forget.putDirect key value leaseID =
      ((s.putDirect key value leaseID).1.forget,(s.putDirect key value leaseID).2) := by
  simp only [putDirect,forget,attachKey,forgetTimes_updateKeys]

theorem forget_removeKey (s : MemoryEtcd) (key : Bytes) (kv : KeyValue) :
    s.forget.removeKey key kv = (s.removeKey key kv).forget := by
  simp only [removeKey,forget,detachKey,forgetTimes_updateKeys]

theorem forget_deleteDirect (s : MemoryEtcd) (key rangeEnd : Bytes) :
    (s.forget.deleteDirect key rangeEnd).1 = (s.deleteDirect key rangeEnd).1.forget := by
  unfold deleteDirect
  split_ifs
  · simp only [forget]
    cases s.kvData.get key with
    | none => rfl
    | some kv => exact forget_removeKey s key kv
  · exact List.foldl_hom forget fun s kv => forget_removeKey s kv.key kv

theorem forget_eraseKey (s : MemoryEtcd) (key : Bytes) :
    s.forget.eraseKey key = (s.eraseKey key).forget := by
  simp only [eraseKey,forget]
  cases s.kvData.get key with
  | none => rfl
  | some kv => simp only [detachKey,forgetTimes_updateKeys]

theorem forget_deleteUnlocked (s : MemoryEtcd) (key rangeEnd : Bytes) :
    s.forget.deleteUnlocked key rangeEnd =
      ((s.deleteUnlocked key rangeEnd).1.forget,(s.deleteUnlocked key rangeEnd).2) := by
  have hfold : ∀ keys : List Bytes,
      keys.foldl eraseKey { s with revision := s.revision+1 }.forget =
        (keys.foldl eraseKey { s with revision := s.revision+1 }).forget :=
    fun keys => List.foldl_hom forget forget_eraseKey
  unfold deleteUnlocked
  dsimp only [forget]
  split_ifs <;> first | rfl | exact congrArg (·,_) (hfold _)

theorem forget_putUnlocked (clock : Clock) {s : MemoryEtcd} {leaseID : ℤ}
    (h : ∀ l, leaseID ≠ 0 → s.leases[leaseID]? = some l → expiry l.ttl ≠ none)
    (key value : Bytes) :
    s.forget.putUnlocked stopped key value leaseID =
      ((s.putUnlocked clock key value leaseID).1.forget,
        (s.putUnlocked clock key value leaseID).2) := by
  unfold putUnlocked
  by_cases h0 : leaseID = 0
  · simp [h0,forget_putDirect]
  cases hl : s.leases[leaseID]? with
  | none => simp [h0,hl,forget,getElem?_forgetTimes]
  | some l =>
    obtain ⟨b,hb⟩ := Option.ne_none_iff_exists'.mp (h l h0 hl)
    have hb' : expiry ({ l with grantTime := 0 } : Lease).ttl = some b := hb
    have hf : s.forget.leases[leaseID]? = some { l with grantTime := 0 } := by
      simp [forget,getElem?_forgetTimes,hl]
    simp only [if_pos h0,hf,isExpired_of_expiry hb,isExpired_of_expiry hb']
    cases b with
    | true => rfl
    | false =>
      have hput := forget_putDirect { s with ticks := s.ticks+1 } key value leaseID
      simp only [Bool.false_eq_true,if_false]
      exact Prod.ext (congrArg (fun r => r.1) hput) rfl

def Untimed (leases : ExtTreeMap ℤ Lease) (op : Op) : Prop :=
  op.type = .put → ∀ l, op.leaseID ≠ 0 → leases[op.leaseID]? = some l → expiry l.ttl ≠ none

theorem forget_txnOp (clock : Clock) {s : MemoryEtcd} {op : Op} (h : Untimed s.leases op) :
    s.forget.txnOp stopped op = ((s.txnOp clock op).1.forget,(s.txnOp clock op).2) := by
  unfold txnOp
  cases ht : op.type with
  | range => rfl
  | txn => rfl
  | put => simp only [forget_putUnlocked clock (h ht)]
  | delete => simp only [forget_deleteUnlocked]

end MemoryEtcd
end Forget

section Stamps
variable {leases leases' : ExtTreeMap ℤ Lease}

def stamp (l : Lease) : ℤ × ℤ := (l.ttl,l.grantTime)

def SameStamps (leases leases' : ExtTreeMap ℤ Lease) : Prop :=
  ∀ id : ℤ, leases[id]?.map stamp = leases'[id]?.map stamp

theorem SameStamps.refl (leases : ExtTreeMap ℤ Lease) : SameStamps leases leases := fun _ => rfl

theorem SameStamps.trans {a b c : ExtTreeMap ℤ Lease} (h : SameStamps a b) (k : SameStamps b c) :
    SameStamps a c := fun id => (h id).trans (k id)

theorem sameStamps_updateKeys (leases : ExtTreeMap ℤ Lease) (leaseID : ℤ)
    (f : ExtTreeSet Bytes → ExtTreeSet Bytes) :
    SameStamps (updateKeys leases leaseID f) leases := by
  intro id
  rw [getElem?_updateKeys]
  split_ifs
  · cases leases[id]? <;> rfl
  · rfl

theorem sameStamps_foldl {A : Type*} {f : MemoryEtcd → A → MemoryEtcd}
    (h : ∀ s a, SameStamps (f s a).leases s.leases) (l : List A) (s : MemoryEtcd) :
    SameStamps (l.foldl f s).leases s.leases := by
  induction l generalizing s with
  | nil => exact .refl _
  | cons a l ih => exact (ih (f s a)).trans (h s a)

theorem timedLease_congr
    (h : ∀ id : ℤ, leases[id]?.map Lease.ttl = leases'[id]?.map Lease.ttl) (ops : List Op) :
    timedLease leases ops = timedLease leases' ops := by
  induction ops with
  | nil => rfl
  | cons op ops ih =>
    simp only [timedLease,ih]
    split_ifs
    · have hid := h op.leaseID
      cases hl : leases[op.leaseID]? <;> cases hl' : leases'[op.leaseID]? <;> simp_all
    · rfl

theorem SameStamps.ttl (h : SameStamps leases leases')
    (id : ℤ) : leases[id]?.map Lease.ttl = leases'[id]?.map Lease.ttl := by
  have hid := congrArg (Option.map Prod.fst) (h id)
  simpa [Option.map_map,Function.comp_def,stamp] using hid

namespace MemoryEtcd

theorem stamps_deleteDirect (s : MemoryEtcd) (key rangeEnd : Bytes) :
    SameStamps (s.deleteDirect key rangeEnd).1.leases s.leases := by
  unfold deleteDirect
  split_ifs
  · split
    · exact sameStamps_updateKeys _ _ _
    · exact .refl _
  · exact sameStamps_foldl (fun s kv => sameStamps_updateKeys _ _ _) _ s

theorem stamps_deleteUnlocked (s : MemoryEtcd) (key rangeEnd : Bytes) :
    SameStamps (s.deleteUnlocked key rangeEnd).1.leases s.leases := by
  have herase : ∀ (t : MemoryEtcd) (key : Bytes), SameStamps (t.eraseKey key).leases t.leases := by
    intro t key
    unfold eraseKey
    dsimp only
    split
    · exact sameStamps_updateKeys _ _ _
    · exact .refl _
  unfold deleteUnlocked
  dsimp only
  generalize (if rangeEnd = [] then _ else _ : List Bytes) = keysToDelete
  split
  · exact .refl _
  · exact sameStamps_foldl herase keysToDelete { s with revision := s.revision+1 }

theorem stamps_putUnlocked (clock : Clock) (s : MemoryEtcd) (key value : Bytes) (leaseID : ℤ) :
    SameStamps (s.putUnlocked clock key value leaseID).1.leases s.leases := by
  unfold putUnlocked
  split_ifs
  · split
    · exact .refl _
    · split_ifs
      · exact .refl _
      · exact sameStamps_updateKeys _ _ _
  · exact sameStamps_updateKeys _ _ _

theorem stamps_txnOp (clock : Clock) (s : MemoryEtcd) (op : Op) :
    SameStamps (s.txnOp clock op).1.leases s.leases := by
  unfold txnOp
  split
  · exact .refl _
  · exact stamps_putUnlocked clock s _ _ _
  · exact stamps_deleteUnlocked s _ _
  · exact .refl _

theorem stamps_txnOps (clock : Clock) (s : MemoryEtcd) (ops : List Op) :
    SameStamps (txnOps clock s ops).1.leases s.leases := by
  induction ops generalizing s with
  | nil => exact .refl _
  | cons op ops ih =>
    rw [txnOps]
    split
    · exact stamps_txnOp clock s op
    · exact (ih _).trans (stamps_txnOp clock s op)

end MemoryEtcd
end Stamps

section Txn

namespace MemoryEtcd
variable {clock : Clock} {s : MemoryEtcd} {op : Op} {ops : List Op}

theorem txnOps_of_error {e : String} (h : (s.txnOp clock op).2 = .error e) :
    txnOps clock s (op :: ops) = ((s.txnOp clock op).1,.error e) := by
  rw [txnOps]
  simp only [h]

theorem txnOps_of_ok {r : OpResponse} (h : (s.txnOp clock op).2 = .ok r) :
    txnOps clock s (op :: ops) =
      ((txnOps clock (s.txnOp clock op).1 ops).1,
        (txnOps clock (s.txnOp clock op).1 ops).2.map (r :: ·)) := by
  rw [txnOps]
  simp only [h]

theorem txnOp_put_leased (clock : Clock) {l : Lease} (ht : op.type = .put) (h0 : op.leaseID ≠ 0)
    (hl : s.leases[op.leaseID]? = some l) :
    (l.isExpired (clock s.ticks) = true ∧ (s.txnOp clock op).1.revision = s.revision ∧
      (s.txnOp clock op).2 = .error "invalid lease") ∨
    (l.isExpired (clock s.ticks) = false ∧ (s.txnOp clock op).1.revision = s.revision+1 ∧
      ∃ r, (s.txnOp clock op).2 = .ok r) := by
  unfold txnOp putUnlocked
  simp only [ht,if_pos h0,hl]
  cases l.isExpired (clock s.ticks) with
  | true => exact .inl ⟨rfl,rfl,rfl⟩
  | false => exact .inr ⟨rfl,rfl,_,rfl⟩

/-- What the first operation of a transaction means for the time: its check is open, or it
ends the transaction under every clock, or it succeeds under every clock. -/
theorem timedLease_cons (s : MemoryEtcd) (op : Op) (ops : List Op) :
    (∃ l, op.type = .put ∧ op.leaseID ≠ 0 ∧ s.leases[op.leaseID]? = some l ∧
      expiry l.ttl = none ∧ timedLease s.leases (op :: ops) = some l.ttl) ∨
    (Untimed s.leases op ∧ timedLease s.leases (op :: ops) = none ∧
      ∀ clock, ∃ e, (s.txnOp clock op).2 = .error e) ∨
    (Untimed s.leases op ∧ timedLease s.leases (op :: ops) = timedLease s.leases ops ∧
      ∀ clock, ∃ r, (s.txnOp clock op).2 = .ok r) := by
  by_cases hput : op.type = .put ∧ op.leaseID ≠ 0
  · obtain ⟨ht,h0⟩ := hput
    cases hl : s.leases[op.leaseID]? with
    | none =>
      refine .inr (.inl ⟨fun _ l _ h => absurd (hl.symm.trans h) nofun,?_,fun clock => ?_⟩)
      · simp [timedLease,ht,h0,hl]
      · exact ⟨"invalid lease",by simp [txnOp,putUnlocked,ht,h0,hl,Except.map]⟩
    | some l =>
      cases he : expiry l.ttl with
      | none => exact .inl ⟨l,ht,h0,rfl,he,by simp [timedLease,ht,h0,hl,he]⟩
      | some b =>
        have hun : Untimed s.leases op := by
          intro _ l' _ hl'
          rw [← Option.some.inj (hl.symm.trans hl'),he]
          exact nofun
        have hb := isExpired_of_expiry he
        cases b with
        | true =>
          refine .inr (.inl ⟨hun,by simp [timedLease,ht,h0,hl,he],fun clock => ?_⟩)
          rcases txnOp_put_leased clock ht h0 hl with ⟨-,-,h⟩ | ⟨h,-⟩
          · exact ⟨_,h⟩
          · exact absurd ((hb _).symm.trans h) (by decide)
        | false =>
          refine .inr (.inr ⟨hun,by simp [timedLease,ht,h0,hl,he],fun clock => ?_⟩)
          rcases txnOp_put_leased clock ht h0 hl with ⟨h,-⟩ | ⟨-,-,h⟩
          · exact absurd ((hb _).symm.trans h) (by decide)
          · exact h
  · refine .inr (.inr ⟨fun ht l h0 _ => absurd ⟨ht,h0⟩ hput,by simp [timedLease,hput],?_⟩)
    intro clock
    unfold txnOp
    cases ht : op.type with
    | put =>
      have h0 : ¬ op.leaseID ≠ 0 := fun h0 => hput ⟨ht,h0⟩
      simp only [putUnlocked,if_neg h0]
      exact ⟨_,rfl⟩
    | _ => exact ⟨_,rfl⟩

theorem timedLease_txnOp (clock : Clock) (s : MemoryEtcd) (op : Op) (ops : List Op) :
    timedLease (s.txnOp clock op).1.leases ops = timedLease s.leases ops :=
  timedLease_congr (stamps_txnOp clock s op).ttl ops

theorem forget_txnOps (clock : Clock) (h : timedLease s.leases ops = none) :
    txnOps stopped s.forget ops = ((txnOps clock s ops).1.forget,(txnOps clock s ops).2) := by
  induction ops generalizing s with
  | nil => rfl
  | cons op ops ih =>
    rcases timedLease_cons s op ops with ⟨l,-,-,-,-,hl⟩ | ⟨hun,-,herr⟩ | ⟨hun,htail,hok⟩
    · rw [hl] at h
      exact absurd h nofun
    · obtain ⟨e,he⟩ := herr clock
      have hop := forget_txnOp clock hun
      rw [txnOps_of_error he,txnOps_of_error (by rw [hop]; exact he),hop]
    · obtain ⟨r,hr⟩ := hok clock
      have hop := forget_txnOp clock hun
      have htail' := (timedLease_txnOp clock s op ops).trans (htail.symm.trans h)
      rw [txnOps_of_ok hr,txnOps_of_ok (by rw [hop]; exact hr),hop,ih htail']

theorem forget_txnUnlocked (clock : Clock) {cmps : List Compare} {thenOps elseOps : List Op}
    (h : timedLease s.leases (if s.compares cmps then thenOps else elseOps) = none) :
    s.forget.txnUnlocked stopped cmps thenOps elseOps =
      ((s.txnUnlocked clock cmps thenOps elseOps).1.forget,
        (s.txnUnlocked clock cmps thenOps elseOps).2) := by
  have hcmp : s.forget.compares cmps = s.compares cmps := rfl
  simp only [txnUnlocked,hcmp,forget_txnOps clock h]
  rfl

end MemoryEtcd
end Txn

end MetaStore.Memory
