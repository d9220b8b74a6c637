import MetaStore.Library.Transition

/-! The limits on watches and leases (api/etcd/watch_manager.go, api/etcd/lease_manager.go) while
calls run side by side. A call compares the size of the table with the limit under one lock and
enters its item under another one, with a call of the store in between. Of the items only the ids
are kept. -/
namespace MetaStore.Limits
open Transition

inductive Phase
  | idle
  | begun (id : ℤ)
  | admitted (id : ℤ)
  | vacant (id : ℤ)
  | opened (id : ℤ)
  deriving DecidableEq, Repr

def Phase.weight : Phase → ℕ
  | .idle | .begun _ => 0
  | .admitted _ | .vacant _ | .opened _ => 1

/-- What both managers have, with `n` callers. -/
structure Table (n : ℕ) where
  items : Finset ℤ
  calls : Fin n → Phase

namespace Table
variable {n : ℕ} (m : Table n) (c : Fin n) (limit : ℕ)

def set (p : Phase) : Table n := { m with calls := Function.update m.calls c p }

/-- A stopped manager refuses a call at its start. -/
def enter (stopped : Bool) (id : ℤ) : Table n := if stopped then m else m.set c (.begun id)

def compareCount (id : ℤ) : Table n :=
  if 0 < limit ∧ limit ≤ m.items.card then m.set c .idle else m.set c (.admitted id)

def answer (ok : Bool) (id : ℤ) : Table n := m.set c (if ok then .opened id else .idle)

def insert (id : ℤ) : Table n := { m.set c .idle with items := Insert.insert id m.items }

def remove (id : ℤ) : Table n := { m with items := m.items.erase id }

def pending : ℕ := ∑ c, (m.calls c).weight

def Bounded : Prop := m.items.card+m.pending ≤ limit

/-- If a call finds room, there is room for it beside the calls that have found room before. -/
def HasRoom : Prop := m.items.card < limit → m.items.card+m.pending < limit

variable {m c limit} {p : Phase} {id : ℤ}

lemma pending_set (m : Table n) (c : Fin n) (p : Phase) :
    (m.set c p).pending+(m.calls c).weight = m.pending+p.weight := by
  have hold := Finset.sum_erase_add Finset.univ (fun i => (m.calls i).weight) (Finset.mem_univ c)
  have hnew := Finset.sum_erase_add Finset.univ (fun i => ((m.set c p).calls i).weight)
    (Finset.mem_univ c)
  have hsame : ∑ i ∈ Finset.univ.erase c, ((m.set c p).calls i).weight =
      ∑ i ∈ Finset.univ.erase c, (m.calls i).weight := by
    refine Finset.sum_congr rfl fun i hi => congrArg Phase.weight ?_
    exact Function.update_of_ne (Finset.ne_of_mem_erase hi) _ _
  have hself : (m.set c p).calls c = p := Function.update_self ..
  simp only [hsame,hself] at hnew
  unfold pending
  omega

lemma Bounded.set (h : m.Bounded limit) (hp : p.weight ≤ (m.calls c).weight) :
    (m.set c p).Bounded limit := by
  have hpending := m.pending_set c p
  have hitems : (m.set c p).items = m.items := rfl
  rw [Bounded,hitems]
  unfold Bounded at h
  omega

lemma Bounded.compareCount (h : m.Bounded limit) (hroom : m.HasRoom limit) (hpos : 0 < limit)
    (hc : m.calls c = .begun id) : (m.compareCount c limit id).Bounded limit := by
  unfold Table.compareCount
  split_ifs with hfull
  · exact h.set (Nat.zero_le _)
  · have hpending := m.pending_set c (.admitted id)
    have hitems : (m.set c (.admitted id)).items = m.items := rfl
    have := hroom (by omega)
    rw [hc] at hpending
    rw [Bounded,hitems]
    simp only [Phase.weight] at hpending
    omega

lemma Bounded.insert (h : m.Bounded limit) (hc : m.calls c = .opened id) :
    (m.insert c id).Bounded limit := by
  have hpending := m.pending_set c .idle
  have hcard := Finset.card_insert_le id m.items
  have hsame : (m.insert c id).pending = (m.set c .idle).pending := rfl
  rw [hc] at hpending
  rw [Bounded,hsame]
  unfold Bounded at h
  simp only [Phase.weight] at hpending
  simp only [Table.insert]
  omega

lemma Bounded.remove (h : m.Bounded limit) (id : ℤ) : (m.remove id).Bounded limit :=
  (Nat.add_le_add_right (Finset.card_erase_le) _).trans h

end Table

structure WatchManager (n : ℕ) extends Table n where
  nextID : ℤ
  stopped : Bool

inductive WatchStep (n : ℕ)
  | create (c : Fin n)
  | createWithID (c : Fin n) (id : ℤ)
  | compareCount (c : Fin n)
  | checkID (c : Fin n)
  | watch (c : Fin n) (ok : Bool)
  | insert (c : Fin n)
  | cancel (id : ℤ)

def WatchManager.step (maxWatchCount : ℕ) {n : ℕ} (wm : WatchManager n) :
    WatchStep n → Option (WatchManager n)
  | .create c => if wm.calls c = .idle then
      some { wm with toTable := wm.enter c wm.stopped (wm.nextID+1), nextID := wm.nextID+1 }
    else none
  | .createWithID c id => if wm.calls c = .idle then
      some { wm with toTable := wm.enter c wm.stopped id }
    else none
  | .compareCount c => match wm.calls c with
    | .begun id => some { wm with toTable := wm.compareCount c maxWatchCount id }
    | _ => none
  | .checkID c => match wm.calls c with
    | .admitted id => some { wm with
        toTable := wm.set c (if id ∈ wm.items then .idle else .vacant id) }
    | _ => none
  | .watch c ok => match wm.calls c with
    | .vacant id => some { wm with toTable := wm.answer c ok id }
    | _ => none
  | .insert c => match wm.calls c with
    | .opened id => some { wm with toTable := wm.insert c id }
    | _ => none
  | .cancel id => some { wm with toTable := wm.remove id }

structure LeaseManager (n : ℕ) extends Table n where
  stopped : Bool

inductive LeaseStep (n : ℕ)
  | grant (c : Fin n) (id : ℤ)
  | compareCount (c : Fin n)
  | leaseGrant (c : Fin n) (ok : Bool)
  | insert (c : Fin n)
  | revoke (id : ℤ)

def LeaseManager.step (maxLeaseCount : ℕ) {n : ℕ} (lm : LeaseManager n) :
    LeaseStep n → Option (LeaseManager n)
  | .grant c id => if lm.calls c = .idle then
      some { lm with toTable := lm.enter c lm.stopped id }
    else none
  | .compareCount c => match lm.calls c with
    | .begun id => some { lm with toTable := lm.compareCount c maxLeaseCount id }
    | _ => none
  | .leaseGrant c ok => match lm.calls c with
    | .admitted id => some { lm with toTable := lm.answer c ok id }
    | _ => none
  | .insert c => match lm.calls c with
    | .opened id => some { lm with toTable := lm.insert c id }
    | _ => none
  | .revoke id => some { lm with toTable := lm.remove id }

/-- `NewWatchManager` and `NewLeaseManager`. -/
def Table.new (n : ℕ) : Table n := ⟨∅,fun _ => .idle⟩

def WatchManager.new (n : ℕ) : WatchManager n := ⟨.new n,0,false⟩
def LeaseManager.new (n : ℕ) : LeaseManager n := ⟨.new n,false⟩

variable {n limit : ℕ}

lemma Table.Bounded.enter {m : Table n} {c : Fin n} (h : m.Bounded limit) (stopped : Bool)
    (id : ℤ) : (m.enter c stopped id).Bounded limit := by
  cases stopped with
  | true => exact h
  | false => exact h.set (Nat.zero_le _)

lemma Table.Bounded.answer {m : Table n} {c : Fin n} (h : m.Bounded limit)
    (hc : (m.calls c).weight = 1) (ok : Bool) (id : ℤ) : (m.answer c ok id).Bounded limit := by
  refine h.set ?_
  rw [hc]
  cases ok with
  | true => exact le_rfl
  | false => exact Nat.zero_le 1

lemma Table.bounded_new : (Table.new n).Bounded limit := by simp [Bounded,pending,new,Phase.weight]

/-- A comparison of the watch manager is made with room for the calls admitted before. -/
def WatchRoom (maxWatchCount : ℕ) (wm : WatchManager n) : WatchStep n → Prop
  | .compareCount _ => wm.HasRoom maxWatchCount
  | _ => True

def LeaseRoom (maxLeaseCount : ℕ) (lm : LeaseManager n) : LeaseStep n → Prop
  | .compareCount _ => lm.HasRoom maxLeaseCount
  | _ => True

lemma WatchManager.bounded_step (hpos : 0 < limit) {wm wm' : WatchManager n}
    (h : wm.Bounded limit) (l : WatchStep n) (hstep : wm.step limit l = some wm')
    (hroom : WatchRoom limit wm l) : wm'.Bounded limit := by
  cases l <;> simp only [WatchManager.step] at hstep
  case create c =>
    split_ifs at hstep
    obtain rfl := Option.some.inj hstep
    exact h.enter _ _
  case createWithID c id =>
    split_ifs at hstep
    obtain rfl := Option.some.inj hstep
    exact h.enter _ _
  case compareCount c =>
    split at hstep
    · next id hc =>
      obtain rfl := Option.some.inj hstep
      exact h.compareCount hroom hpos hc
    · cases hstep
  case checkID c =>
    split at hstep
    · next id hc =>
      obtain rfl := Option.some.inj hstep
      refine h.set ?_
      rw [hc]
      split_ifs
      · exact Nat.zero_le 1
      · exact le_rfl
    · cases hstep
  case watch c ok =>
    split at hstep
    · next id hc =>
      obtain rfl := Option.some.inj hstep
      exact h.answer (by rw [hc]; rfl) ok id
    · cases hstep
  case insert c =>
    split at hstep
    · next id hc =>
      obtain rfl := Option.some.inj hstep
      exact h.insert hc
    · cases hstep
  case cancel id =>
    obtain rfl := Option.some.inj hstep
    exact h.remove id

lemma LeaseManager.bounded_step (hpos : 0 < limit) {lm lm' : LeaseManager n}
    (h : lm.Bounded limit) (l : LeaseStep n) (hstep : lm.step limit l = some lm')
    (hroom : LeaseRoom limit lm l) : lm'.Bounded limit := by
  cases l <;> simp only [LeaseManager.step] at hstep
  case grant c id =>
    split_ifs at hstep
    obtain rfl := Option.some.inj hstep
    exact h.enter _ _
  case compareCount c =>
    split at hstep
    · next id hc =>
      obtain rfl := Option.some.inj hstep
      exact h.compareCount hroom hpos hc
    · cases hstep
  case leaseGrant c ok =>
    split at hstep
    · next id hc =>
      obtain rfl := Option.some.inj hstep
      exact h.answer (by rw [hc]; rfl) ok id
    · cases hstep
  case insert c =>
    split at hstep
    · next id hc =>
      obtain rfl := Option.some.inj hstep
      exact h.insert hc
    · cases hstep
  case revoke id =>
    obtain rfl := Option.some.inj hstep
    exact h.remove id

/-- The limits hold in every run in which every comparison leaves room for the calls that have
been admitted and have not entered their item yet. -/
theorem limits_hold {maxWatchCount maxLeaseCount : ℕ} (hwatch : 0 < maxWatchCount)
    (hlease : 0 < maxLeaseCount) {ws : List (WatchStep n)} {ls : List (LeaseStep n)}
    (hws : EveryStep (WatchManager.step maxWatchCount)
      (fun wm l _ => WatchRoom maxWatchCount wm l) (.new n) ws)
    (hls : EveryStep (LeaseManager.step maxLeaseCount)
      (fun lm l _ => LeaseRoom maxLeaseCount lm l) (.new n) ls) :
    EveryState (WatchManager.step maxWatchCount) (fun wm => wm.items.card ≤ maxWatchCount)
      (.new n) ws ∧
    EveryState (LeaseManager.step maxLeaseCount) (fun lm => lm.items.card ≤ maxLeaseCount)
      (.new n) ls := by
  have hw : EveryState _ (fun wm : WatchManager n => wm.Bounded maxWatchCount) (.new n) ws :=
    everyState_of_everyStep (fun _ l _ _ h ht hroom => WatchManager.bounded_step hwatch h l ht hroom)
      Table.bounded_new hws
  have hl : EveryState _ (fun lm : LeaseManager n => lm.Bounded maxLeaseCount) (.new n) ls :=
    everyState_of_everyStep (fun _ l _ _ h ht hroom => LeaseManager.bounded_step hlease h l ht hroom)
      Table.bounded_new hls
  exact ⟨fun p hp t ht => (Nat.le_add_right _ _).trans (hw p hp t ht),
    fun p hp t ht => (Nat.le_add_right _ _).trans (hl p hp t ht)⟩

/-- Two creations and two grants, of which the second ones are refused. -/
theorem limits_hold_refused :
    EveryState (WatchManager.step 1) (fun wm => wm.items.card ≤ 1) (.new 1)
      [.create 0,.compareCount 0,.checkID 0,.watch 0 true,.insert 0,.create 0,.compareCount 0] ∧
    EveryState (LeaseManager.step 1) (fun lm => lm.items.card ≤ 1) (.new 1)
      [.grant 0 7,.compareCount 0,.leaseGrant 0 true,.insert 0,.grant 0 8,.compareCount 0] := by
  refine limits_hold Nat.one_pos Nat.one_pos ?_ ?_
  · refine everyStep_of_some rfl trivial (everyStep_of_some rfl (fun _ => by decide) ?_)
    refine everyStep_of_some rfl trivial (everyStep_of_some rfl trivial ?_)
    refine everyStep_of_some rfl trivial (everyStep_of_some rfl trivial ?_)
    exact everyStep_of_some rfl (fun h => absurd h (by decide)) (everyStep_nil _)
  · refine everyStep_of_some rfl trivial (everyStep_of_some rfl (fun _ => by decide) ?_)
    refine everyStep_of_some rfl trivial (everyStep_of_some rfl trivial ?_)
    refine everyStep_of_some rfl trivial ?_
    exact everyStep_of_some rfl (fun h => absurd h (by decide)) (everyStep_nil _)

/-- Two creations pass the comparison with a limit of one before either enters its watch, and two
grants do the same. -/
theorem limits_exceeded :
    (∃ wm, [.create 0,.create 1,.compareCount 0,.compareCount 1,.checkID 0,.checkID 1,.watch 0 true,
      .watch 1 true,.insert 0,.insert 1].foldlM (WatchManager.step 1) (.new 2) = some wm ∧
      wm.items.card = 2) ∧
    ∃ lm, [.grant 0 7,.grant 1 8,.compareCount 0,.compareCount 1,.leaseGrant 0 true,
      .leaseGrant 1 true,.insert 0,.insert 1].foldlM (LeaseManager.step 1) (.new 2) = some lm ∧
      lm.items.card = 2 :=
  ⟨⟨_,rfl,by decide⟩,⟨_,rfl,by decide⟩⟩

end MetaStore.Limits
