import Mathlib

/-! A store of named keys that remembers when each key was created. Creating a key that exists
changes nothing, and a key that was deleted is created anew at a later revision. A client asks
for the keys that are older than its own; the owner of the oldest key is the only one that finds
none, until it deletes its key. -/
namespace MetaStore.CreationOrder

variable {ι : Type*} [DecidableEq ι]

structure Server (ι : Type*) where
  keys : List (ι × ℤ)
  revision : ℤ
  names_nodup : (keys.map Prod.fst).Nodup
  rising : keys.Pairwise fun a b => a.2 < b.2
  bounded : ∀ e ∈ keys, e.2 ≤ revision

namespace Server
variable {s : Server ι}

def empty : Server ι := ⟨[],0,List.nodup_nil,List.Pairwise.nil,fun _ h => absurd h List.not_mem_nil⟩

def createRevision (s : Server ι) (i : ι) : Option ℤ :=
  (s.keys.find? fun e => e.1 = i).map Prod.snd

/-- The name of the oldest key created before `rev`. -/
def before (s : Server ι) (rev : ℤ) : Option ι :=
  (s.keys.find? fun e => e.2 < rev).map Prod.fst

lemma createRevision_eq_some_iff {i : ι} {r : ℤ} :
    s.createRevision i = some r ↔ (i,r) ∈ s.keys := by
  unfold createRevision
  constructor
  · intro h
    obtain ⟨e,he,rfl⟩ := Option.map_eq_some_iff.mp h
    obtain rfl : e.1 = i := by simpa using List.find?_some he
    exact List.mem_of_find?_eq_some he
  · intro h
    cases he : s.keys.find? fun e => e.1 = i with
    | none => simpa using List.find?_eq_none.mp he (i,r) h
    | some e =>
      have hi : e.1 = i := by simpa using List.find?_some he
      have hsame : e = (i,r) := List.inj_on_of_nodup_map s.names_nodup
        (List.mem_of_find?_eq_some he) h hi
      rw [hsame]
      rfl

lemma createRevision_eq_none_iff {i : ι} :
    s.createRevision i = none ↔ i ∉ s.keys.map Prod.fst := by
  unfold createRevision
  rw [Option.map_eq_none_iff,List.find?_eq_none]
  constructor
  · intro h hi
    obtain ⟨e,he,rfl⟩ := List.mem_map.mp hi
    exact h e he (by simp)
  · intro h e he hi
    exact h (List.mem_map.mpr ⟨e,he,by simpa using hi⟩)

lemma createRevision_injective {i j : ι} {r : ℤ} (hi : s.createRevision i = some r)
    (hj : s.createRevision j = some r) : i = j := by
  rw [createRevision_eq_some_iff] at hi hj
  have hrev : (s.keys.map Prod.snd).Nodup := by
    rw [List.Nodup,List.pairwise_map]
    exact s.rising.imp ne_of_lt
  exact congrArg Prod.fst (List.inj_on_of_nodup_map hrev hi hj rfl)

lemma before_eq_none_iff {rev : ℤ} :
    s.before rev = none ↔ ∀ j r, s.createRevision j = some r → rev ≤ r := by
  simp only [before,Option.map_eq_none_iff,List.find?_eq_none,createRevision_eq_some_iff,
    decide_eq_true_eq,not_lt]
  exact ⟨fun h j r hj => h (j,r) hj,fun h e he => h e.1 e.2 he⟩

section Append
variable {s : Server ι} {i : ι}

lemma names_nodup_append (h : s.createRevision i = none) :
    ((s.keys ++ [(i,s.revision+1)]).map Prod.fst).Nodup := by
  rw [List.map_append,List.nodup_append]
  refine ⟨s.names_nodup,by simp,fun a ha b hb hab => ?_⟩
  have hbi : b = i := by simpa using hb
  exact createRevision_eq_none_iff.mp h (hbi ▸ hab ▸ ha)

omit [DecidableEq ι] in
lemma rising_append : (s.keys ++ [(i,s.revision+1)]).Pairwise fun a b => a.2 < b.2 := by
  rw [List.pairwise_append]
  refine ⟨s.rising,List.pairwise_singleton _ _,fun a ha b hb => ?_⟩
  have := s.bounded a ha
  rw [List.mem_singleton.mp hb]
  show a.2 < s.revision+1
  omega

omit [DecidableEq ι] in
lemma bounded_append : ∀ e ∈ s.keys ++ [(i,s.revision+1)], e.2 ≤ s.revision+1 := by
  intro e he
  rcases List.mem_append.mp he with he | he
  · have := s.bounded e he
    omega
  · rw [List.mem_singleton.mp he]

end Append

def create (s : Server ι) (i : ι) : Server ι × ℤ :=
  match h : s.createRevision i with
  | some r => (s,r)
  | none => (⟨s.keys ++ [(i,s.revision+1)],s.revision+1,names_nodup_append h,rising_append,
      bounded_append⟩,s.revision+1)

lemma bounded_filter (s : Server ι) (i : ι) : ∀ e ∈ s.keys.filter fun e => e.1 ≠ i,
    e.2 ≤ if (s.createRevision i).isSome then s.revision+1 else s.revision := by
  intro e he
  have := s.bounded e (List.mem_of_mem_filter he)
  split_ifs <;> omega

def delete (s : Server ι) (i : ι) : Server ι where
  keys := s.keys.filter fun e => e.1 ≠ i
  revision := if (s.createRevision i).isSome then s.revision+1 else s.revision
  names_nodup := s.names_nodup.sublist (List.filter_sublist.map _)
  rising := s.rising.filter _
  bounded := s.bounded_filter i

lemma create_of_some {s : Server ι} {i : ι} {r : ℤ} (h : s.createRevision i = some r) :
    s.create i = (s,r) := by
  unfold create
  split
  · next r' h' => rw [Option.some.inj (h'.symm.trans h)]
  · next h' => rw [h] at h'; cases h'

lemma create_of_none {s : Server ι} {i : ι} (h : s.createRevision i = none) :
    (s.create i).1.keys = s.keys ++ [(i,s.revision+1)] ∧ (s.create i).2 = s.revision+1 := by
  unfold create
  split
  · next r h' => rw [h] at h'; cases h'
  · exact ⟨rfl,rfl⟩

theorem createRevision_create {s : Server ι} {i j : ι} {r : ℤ} :
    (s.create i).1.createRevision j = some r ↔
      s.createRevision j = some r ∨ j = i ∧ r = (s.create i).2 := by
  cases h : s.createRevision i with
  | some q =>
    rw [create_of_some h]
    constructor
    · exact .inl
    · rintro (hj | ⟨rfl,rfl⟩)
      · exact hj
      · exact h
  | none =>
    obtain ⟨hkeys,hrev⟩ := create_of_none h
    rw [createRevision_eq_some_iff,createRevision_eq_some_iff,hkeys,hrev,List.mem_append,
      List.mem_singleton,Prod.mk.injEq]

theorem createRevision_create_self (s : Server ι) (i : ι) :
    (s.create i).1.createRevision i = some (s.create i).2 :=
  createRevision_create.mpr (.inr ⟨rfl,rfl⟩)

lemma lt_create {s : Server ι} {i j : ι} {r : ℤ} (h : s.createRevision i = none)
    (hj : s.createRevision j = some r) : r < (s.create i).2 := by
  have := s.bounded _ (createRevision_eq_some_iff.mp hj)
  rw [(create_of_none h).2]
  omega

theorem createRevision_delete {s : Server ι} {i j : ι} {r : ℤ} :
    (s.delete i).createRevision j = some r ↔ s.createRevision j = some r ∧ j ≠ i := by
  simp [createRevision_eq_some_iff,delete,List.mem_filter]

/-- The key of `i` was created at `r`, before all others. -/
def Oldest (s : Server ι) (i : ι) (r : ℤ) : Prop :=
  s.createRevision i = some r ∧ s.before r = none

lemma Oldest.unique {s : Server ι} {i j : ι} {q r : ℤ} (hi : s.Oldest i q) (hj : s.Oldest j r) :
    i = j := by
  have hle := before_eq_none_iff.mp hi.2 j r hj.1
  have hge := before_eq_none_iff.mp hj.2 i q hi.1
  obtain rfl : q = r := le_antisymm hle hge
  exact createRevision_injective hi.1 hj.1

lemma Oldest.create {s : Server ι} {i : ι} {r : ℤ} (h : s.Oldest i r) (j : ι) :
    (s.create j).1.Oldest i r := by
  refine ⟨createRevision_create.mpr (.inl h.1),before_eq_none_iff.mpr fun k q hk => ?_⟩
  rcases createRevision_create.mp hk with hk | ⟨rfl,rfl⟩
  · exact before_eq_none_iff.mp h.2 k q hk
  · cases hj : s.createRevision k with
    | none => exact le_of_lt (lt_create hj h.1)
    | some q =>
      rw [create_of_some hj]
      exact before_eq_none_iff.mp h.2 k q hj

lemma Oldest.delete {s : Server ι} {i j : ι} {r : ℤ} (h : s.Oldest i r) (hij : i ≠ j) :
    (s.delete j).Oldest i r :=
  ⟨createRevision_delete.mpr ⟨h.1,hij⟩,before_eq_none_iff.mpr fun k q hk =>
    before_eq_none_iff.mp h.2 k q (createRevision_delete.mp hk).1⟩

end Server
end MetaStore.CreationOrder
