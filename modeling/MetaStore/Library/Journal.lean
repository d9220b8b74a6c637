import Mathlib

/-! Journals of keyed entries. A journal is the list of all entries in the order in which they
were written; the history of a key is what the journal has for it. -/
namespace MetaStore.Journal

variable {K R : Type*} [DecidableEq K]

def history (journal : List (K × R)) (key : K) : List R :=
  (journal.filter fun entry => decide (entry.1 = key)).map Prod.snd

@[simp] lemma history_nil (key : K) : history ([] : List (K × R)) key = [] := rfl

lemma history_append (journal more : List (K × R)) (key : K) :
    history (journal ++ more) key = history journal key ++ history more key := by
  simp [history]

lemma history_singleton_self (key : K) (entry : R) : history [(key,entry)] key = [entry] := by
  simp [history]

lemma history_singleton_of_ne {key k : K} (h : k ≠ key) (entry : R) :
    history [(key,entry)] k = [] := by
  simp [history,h.symm]

lemma mem_history {journal : List (K × R)} {key : K} {entry : R} :
    entry ∈ history journal key ↔ (key,entry) ∈ journal := by
  simp [history]

lemma history_sublist (journal : List (K × R)) (key : K) :
    (history journal key).Sublist (journal.map Prod.snd) :=
  List.filter_sublist.map _

/-- Entries that increase within every key and are of one key each are all different. -/
lemma nodup_of_histories {lt : R → R → Prop} (hirrefl : ∀ r, ¬ lt r r) {journal : List (K × R)}
    (hincreasing : ∀ key, (history journal key).Pairwise lt)
    (hone : ∀ key key' entry, entry ∈ history journal key → entry ∈ history journal key' →
      key = key') : (journal.map Prod.snd).Nodup := by
  rw [List.Nodup,List.pairwise_map,List.pairwise_iff_forall_sublist]
  rintro ⟨key,entry⟩ ⟨key',entry'⟩ hsub heq
  obtain rfl : entry = entry' := heq
  have hmem := hsub.subset
  have hkey : key = key' := hone key key' entry (mem_history.mpr (hmem (by simp)))
    (mem_history.mpr (hmem (by simp)))
  subst hkey
  -- both entries are in the history of the one key
  have hpair : [entry,entry].Sublist (history journal key) := by
    simpa [history] using (hsub.filter fun e => decide (e.1 = key)).map Prod.snd
  exact hirrefl entry (List.pairwise_iff_forall_sublist.mp (hincreasing key) hpair)

omit [DecidableEq K] in
lemma find?_reverse_of_mem [DecidableEq R] {journal : List (K × R)}
    (h : (journal.map Prod.snd).Nodup) {key : K} {entry : R} (hmem : (key,entry) ∈ journal) :
    journal.reverse.find? (fun e => decide (e.2 = entry)) = some (key,entry) := by
  cases hfind : journal.reverse.find? (fun e => decide (e.2 = entry)) with
  | none =>
    have hnone := List.find?_eq_none.mp hfind (key,entry) (List.mem_reverse.mpr hmem)
    exact absurd (decide_eq_true rfl) hnone
  | some found =>
    have hfound := List.mem_reverse.mp (List.mem_of_find?_eq_some hfind)
    have hentry : found.2 = entry := by simpa using List.find?_some hfind
    exact congrArg some (List.inj_on_of_nodup_map h hfound hmem hentry)

end MetaStore.Journal
