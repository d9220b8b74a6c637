import MetaStore.RocksDB.RaftLog

/-! What the raft storage is for: a list of entries that starts at some index, each entry at
its own position. The storage represents such a log when the cached bounds are its bounds
and the records in the database are exactly its entries. -/
namespace MetaStore.RocksDB
open Std

/-- A contiguous log; the `j`-th entry carries the index `first+j`. -/
structure Log where
  first : ℕ
  entries : List Entry
  indexed : ∀ j e, entries[j]? = some e → e.index.toNat = first+j

namespace Log
variable {rest : List Entry} {e : Entry}

def entryAt (l : Log) (i : ℕ) : Option Entry := if l.first ≤ i then l.entries[i-l.first]? else none

def Consecutive (es : List Entry) : Prop := es.IsChain fun a b => b.index.toNat = a.index.toNat+1

instance (es : List Entry) : Decidable (Consecutive es) := inferInstanceAs (Decidable (es.IsChain _))

theorem Consecutive.index_getElem? (h : Consecutive (e :: rest))
    (j : ℕ) (x : Entry) (hx : (e :: rest)[j]? = some x) : x.index.toNat = e.index.toNat+j := by
  induction rest generalizing e j with
  | nil =>
    cases j with
    | zero => simp_all
    | succ j => simp at hx
  | cons b rest ih =>
    cases j with
    | zero => simp_all
    | succ j =>
      obtain ⟨hb,hrest⟩ := List.isChain_cons_cons.mp h
      have := ih hrest j (by simpa using hx)
      omega

theorem Consecutive.index_getLast (h : Consecutive (e :: rest)) :
    ((e :: rest).getLast (List.cons_ne_nil e rest)).index.toNat = e.index.toNat+rest.length := by
  refine h.index_getElem? rest.length _ ?_
  rw [← List.getLast?_eq_some_getLast,List.getLast?_eq_getElem?]
  simp

theorem Consecutive.nodup_index (h : Consecutive (e :: rest)) :
    ((e :: rest).map Entry.index).Nodup := by
  rw [List.nodup_iff_injective_getElem]
  intro a b hab
  have ha := h.index_getElem? a _ (List.getElem?_eq_getElem (by simpa using a.isLt))
  have hb := h.index_getElem? b _ (List.getElem?_eq_getElem (by simpa using b.isLt))
  simp only [List.getElem_map] at hab
  rw [hab] at ha
  exact Fin.ext (by omega)

def append (l : Log) (e : Entry) (rest : List Entry) (h : Consecutive (e :: rest))
    (hlo : l.first ≤ e.index.toNat) (hhi : e.index.toNat ≤ l.first+l.entries.length) : Log where
  first := l.first
  entries := l.entries.take (e.index.toNat-l.first) ++ e :: rest
  indexed j x hx := by
    have hlen : (l.entries.take (e.index.toNat-l.first)).length = e.index.toNat-l.first := by
      simp only [List.length_take]
      omega
    rcases Nat.lt_or_ge j (e.index.toNat-l.first) with hj | hj
    · rw [List.getElem?_append_left (by omega),List.getElem?_take_of_lt hj] at hx
      exact l.indexed j x hx
    · rw [List.getElem?_append_right (by omega),hlen] at hx
      have := h.index_getElem? _ x hx
      omega

def dropTo (l : Log) (n : ℕ) (h : l.first ≤ n) : Log where
  first := n
  entries := l.entries.drop (n-l.first)
  indexed j x hx := by
    rw [List.getElem?_drop] at hx
    have := l.indexed _ x hx
    omega

theorem entryAt_append (l : Log) (e : Entry) (rest : List Entry) (h : Consecutive (e :: rest))
    (hlo : l.first ≤ e.index.toNat) (hhi : e.index.toNat ≤ l.first+l.entries.length) (i : ℕ) :
    (l.append e rest h hlo hhi).entryAt i =
      if i < e.index.toNat then l.entryAt i else (e :: rest)[i-e.index.toNat]? := by
  have hlen : (l.entries.take (e.index.toNat-l.first)).length = e.index.toNat-l.first := by
    simp only [List.length_take]
    omega
  unfold Log.entryAt append
  dsimp only
  split_ifs with h1 h2 h2
  · rw [List.getElem?_append_left (by omega),List.getElem?_take_of_lt (by omega)]
  · rw [List.getElem?_append_right (by omega),hlen]
    congr 1
    omega
  · rfl
  · omega

theorem entryAt_dropTo (l : Log) {n : ℕ} (h : l.first ≤ n) (i : ℕ) :
    (l.dropTo n h).entryAt i = if n ≤ i then l.entryAt i else none := by
  unfold Log.entryAt dropTo
  dsimp only
  by_cases hi : n ≤ i
  · rw [if_pos hi,if_pos hi,if_pos (by omega),List.getElem?_drop]
    congr 1
    omega
  · rw [if_neg hi,if_neg hi]

theorem entryAt_eq_none (l : Log) {i : ℕ} (h : i < l.first ∨ l.first+l.entries.length ≤ i) :
    l.entryAt i = none := by
  unfold Log.entryAt
  split_ifs
  · rw [List.getElem?_eq_none]
    omega
  · rfl

theorem exists_entryAt (l : Log) {i : ℕ} (h : l.first ≤ i) (hi : i < l.first+l.entries.length) :
    ∃ e, l.entryAt i = some e ∧ e.index.toNat = i := by
  have hj : i-l.first < l.entries.length := by omega
  refine ⟨l.entries[i-l.first],?_,?_⟩
  · rw [Log.entryAt,if_pos h,List.getElem?_eq_getElem hj]
  · have := l.indexed _ _ (List.getElem?_eq_getElem hj)
    omega

end Log

theorem filterMap_getElem?_range' {α : Type*} (l : List α) (a : ℕ) :
    (List.range' a l.length).filterMap (fun i => l[i-a]?) = l := by
  induction l generalizing a with
  | nil => rfl
  | cons x l ih =>
    have hrest : (List.range' (a+1) l.length).filterMap (fun i => (x :: l)[i-a]?) = l := by
      refine (List.filterMap_congr fun i hi => ?_).trans (ih (a+1))
      have hi := (List.mem_range'_1.mp hi).1
      rw [show i-a = (i-(a+1))+1 by omega,List.getElem?_cons_succ]
    rw [List.length_cons,List.range'_succ,List.filterMap_cons,hrest]
    simp

section Keys

theorem prefixedKey_injective (nodeID : Bytes) : Function.Injective (prefixedKey nodeID) :=
  fun _ _ h => List.append_cancel_left h

theorem logKey_injective (nodeID : Bytes) : Function.Injective (logKey nodeID) :=
  fun _ _ h => bigEndian_injective (List.append_cancel_left h)

theorem logKey_eq_prefixedKey (nodeID : Bytes) (i : UInt64) :
    logKey nodeID i = prefixedKey nodeID (ascii "raft_log_" ++ ascii "_" ++ bigEndian i) := by
  simp [logKey,prefixedKey]

theorem logKey_ne_prefixedKey (nodeID : Bytes) (i : UInt64) {key : Bytes}
    (h : key.head? ≠ (ascii "r").head?) : logKey nodeID i ≠ prefixedKey nodeID key := by
  rw [logKey_eq_prefixedKey]
  intro heq
  rw [← prefixedKey_injective nodeID heq] at h
  exact h rfl

end Keys

section Indexes

theorem mem_map_range' {lo n : ℕ} (h : lo+n ≤ 2^64) (i : UInt64) :
    i ∈ (List.range' lo n).map UInt64.ofNat ↔ lo ≤ i.toNat ∧ i.toNat < lo+n := by
  simp only [List.mem_map,List.mem_range'_1]
  constructor
  · rintro ⟨j,⟨hlo,hhi⟩,rfl⟩
    rw [UInt64.toNat_ofNat_of_lt' (by simpa using (by omega : j < 2^64))]
    exact ⟨hlo,hhi⟩
  · rintro ⟨hlo,hhi⟩
    exact ⟨i.toNat,⟨hlo,hhi⟩,by simp⟩

theorem mem_indexesUpTo {lo hi : UInt64} {l : List UInt64} (h : indexesUpTo lo hi = some l)
    (i : UInt64) : i ∈ l ↔ lo.toNat ≤ i.toNat ∧ i.toNat ≤ hi.toNat := by
  have hlo := lo.toNat_lt
  have hhi := hi.toNat_lt
  unfold indexesUpTo at h
  split_ifs at h with hmax
  rw [← Option.some.inj h,mem_map_range' (by omega)]
  omega

theorem mem_indexesBelow {lo hi : UInt64} (h : lo ≤ hi) (i : UInt64) :
    i ∈ indexesBelow lo hi ↔ lo.toNat ≤ i.toNat ∧ i.toNat < hi.toNat := by
  have hhi := hi.toNat_lt
  have hle := UInt64.le_iff_toNat_le.mp h
  rw [indexesBelow,mem_map_range' (by omega)]
  omega

end Indexes

end MetaStore.RocksDB
