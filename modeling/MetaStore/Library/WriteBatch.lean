import Mathlib

/-! An ordered map with atomic write batches. A batch is a list of puts and deletes that is
written in one step; until then readers see the old map, and the batch acts as an overlay
in which the last write to a key decides. -/
namespace MetaStore
open Std

inductive BatchOp (K V : Type*)
  | put (k : K) (v : V)
  | delete (k : K)

namespace BatchOp
variable {K V : Type*}

def key : BatchOp K V → K
  | put k _ => k
  | delete k => k

def value : BatchOp K V → Option V
  | put _ v => some v
  | delete _ => none

end BatchOp

namespace WriteBatch
variable {K V : Type*}

section Pending
variable [DecidableEq K]
variable {b : List (BatchOp K V)}

def pending : List (BatchOp K V) → K → Option (Option V)
  | [],_ => none
  | op :: b,k => (pending b k).or (if op.key = k then some op.value else none)

@[simp] theorem pending_nil (k : K) : pending ([] : List (BatchOp K V)) k = none := rfl

theorem pending_cons (op : BatchOp K V) (b : List (BatchOp K V)) (k : K) :
    pending (op :: b) k = (pending b k).or (if op.key = k then some op.value else none) := rfl

theorem pending_append (a b : List (BatchOp K V)) (k : K) :
    pending (a ++ b) k = (pending b k).or (pending a k) := by
  induction a with
  | nil => simp
  | cons op a ih => rw [List.cons_append,pending_cons,pending_cons,ih,Option.or_assoc]

theorem pending_eq_none {k : K} (h : ∀ op ∈ b, op.key ≠ k) :
    pending b k = none := by
  induction b with
  | nil => rfl
  | cons op b ih =>
    rw [pending_cons,ih fun o ho => h o (List.mem_cons_of_mem op ho),
      if_neg (h op List.mem_cons_self)]
    rfl

theorem pending_eq_none_iff {k : K} :
    pending b k = none ↔ ∀ op ∈ b, op.key ≠ k := by
  refine ⟨fun h => ?_,pending_eq_none⟩
  induction b with
  | nil => simp
  | cons op b ih =>
    rw [pending_cons,Option.or_eq_none_iff] at h
    intro o ho
    rcases List.mem_cons.mp ho with rfl | ho
    · intro hk
      rw [if_pos hk] at h
      exact absurd h.2 (by simp)
    · exact ih h.1 o ho

theorem exists_of_pending_eq_some {k : K} {v : Option V}
    (h : pending b k = some v) : ∃ op ∈ b, op.key = k ∧ op.value = v := by
  induction b with
  | nil => cases h
  | cons op b ih =>
    rw [pending_cons,Option.or_eq_some_iff] at h
    obtain h|⟨-,h⟩ := h
    · obtain ⟨o,ho,hkey⟩ := ih h
      exact ⟨o,List.mem_cons_of_mem op ho,hkey⟩
    · split_ifs at h with hkey
      exact ⟨op,List.mem_cons_self,hkey,Option.some.inj h⟩

theorem pending_map_delete (keys : List K) (k : K) :
    pending (keys.map (BatchOp.delete (V := V))) k = if k ∈ keys then some none else none := by
  induction keys with
  | nil => rfl
  | cons j keys ih =>
    rw [List.map_cons,pending_cons,ih]
    by_cases hk : k ∈ keys
    · simp [hk]
    · by_cases hj : j = k
      · subst hj
        simp [hk,BatchOp.key,BatchOp.value]
      · simp [hk,hj,Ne.symm hj,BatchOp.key]

theorem pending_map_put {α : Type*} {key : α → K} {val : α → V} {l : List α}
    (hl : (l.map key).Nodup) {a : α} (ha : a ∈ l) :
    pending (l.map fun a => BatchOp.put (key a) (val a)) (key a) = some (some (val a)) := by
  induction l with
  | nil => exact absurd ha List.not_mem_nil
  | cons b l ih =>
    obtain ⟨hb,hl⟩ := List.nodup_cons.mp hl
    rw [List.map_cons,pending_cons]
    rcases List.mem_cons.mp ha with rfl | ha
    · rw [pending_eq_none]
      · simp [BatchOp.key,BatchOp.value]
      · intro op hop
        obtain ⟨c,hc,rfl⟩ := List.mem_map.mp hop
        exact fun h => hb (h ▸ List.mem_map_of_mem hc)
    · rw [ih hl ha]
      rfl

end Pending

section Write
variable [Ord K] [TransOrd K]

def step (db : ExtTreeMap K V compare) : BatchOp K V → ExtTreeMap K V compare
  | .put k v => db.insert k v
  | .delete k => db.erase k

def write (db : ExtTreeMap K V compare) (b : List (BatchOp K V)) : ExtTreeMap K V compare :=
  b.foldl step db

theorem write_append (db : ExtTreeMap K V compare) (a b : List (BatchOp K V)) :
    write db (a ++ b) = write (write db a) b := List.foldl_append

variable [LawfulEqOrd K] [DecidableEq K]

theorem getElem?_step (db : ExtTreeMap K V compare) (op : BatchOp K V) (k : K) :
    (step db op)[k]? = if op.key = k then op.value else db[k]? := by
  cases op with
  | put j v => by_cases hk : j = k <;> simp [step,BatchOp.key,BatchOp.value,
      ExtTreeMap.getElem?_insert,hk]
  | delete j => by_cases hk : j = k <;> simp [step,BatchOp.key,BatchOp.value,
      ExtTreeMap.getElem?_erase,hk]

/-- A reader of the written map finds the last record of the batch, else the old value. -/
theorem getElem?_write (db : ExtTreeMap K V compare) (b : List (BatchOp K V)) (k : K) :
    (write db b)[k]? = (pending b k).getD db[k]? := by
  induction b generalizing db with
  | nil => rfl
  | cons op b ih =>
    rw [← List.singleton_append,write_append,ih,pending_append]
    cases pending b k with
    | some r => rfl
    | none =>
      rw [Option.none_or,Option.getD_none,pending_cons]
      change (step db op)[k]? = _
      rw [getElem?_step]
      split_ifs <;> rfl

theorem write_comm {db : ExtTreeMap K V compare} {a b : List (BatchOp K V)}
    (h : ∀ x ∈ a, ∀ y ∈ b, x.key ≠ y.key) : write (write db a) b = write (write db b) a := by
  ext1 k
  rw [getElem?_write,getElem?_write,getElem?_write,getElem?_write]
  by_cases ha : ∀ x ∈ a, x.key ≠ k
  · rw [pending_eq_none ha]
    rfl
  · obtain ⟨x,hx,rfl⟩ : ∃ x ∈ a, x.key = k := by simpa using ha
    rw [pending_eq_none fun y hy => (h x hx y hy).symm]
    rfl

end Write
end WriteBatch
end MetaStore
