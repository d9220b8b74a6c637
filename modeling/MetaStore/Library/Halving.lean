import Mathlib

/-! Binary search for the last position at which a test succeeds. The loop keeps an interval
and the best position so far; a test that never succeeds after a failure has one point where
it turns, and the loop finds it. -/
namespace MetaStore.Halving

/-- The interval is `left ≤ i < right`. Every round removes at least its midpoint, so that its
length bounds the rounds. -/
def search (p : ℕ → Bool) : ℕ → ℕ → ℕ → Option ℕ → Option ℕ
  | 0,_,_,result => result
  | rounds+1,left,right,result =>
    if left < right then
      let mid := (left+(right-1))/2
      if p mid then search p rounds (mid+1) right (some mid) else search p rounds left mid result
    else result

/-- The last `i < n` with `p i`. -/
def lastTrue (p : ℕ → Bool) (n : ℕ) : Option ℕ := search p n 0 n none

/-- The test succeeds below `m` and fails from `m` up to `n`. -/
structure TurnsAt (p : ℕ → Bool) (n m : ℕ) : Prop where
  le : m ≤ n
  below : ∀ i < m, p i = true
  above : ∀ i, m ≤ i → i < n → p i = false

def before (m : ℕ) : Option ℕ := if m = 0 then none else some (m-1)

section Search
variable {p : ℕ → Bool} {n m : ℕ}

/-- The turning point stays in the interval, and all before the interval has succeeded. -/
lemma search_eq (h : TurnsAt p n m) (rounds left right : ℕ) (hleft : left ≤ m) (hright : m ≤ right)
    (hn : right ≤ n) (hrounds : right-left ≤ rounds) :
    search p rounds left right (before left) = before m := by
  induction rounds generalizing left right with
  | zero =>
    obtain rfl : left = m := by omega
    rfl
  | succ rounds ih =>
    by_cases hlt : left < right
    · simp only [search,if_pos hlt]
      by_cases hmid : (left+(right-1))/2 < m
      · rw [if_pos (h.below _ hmid)]
        exact ih ((left+(right-1))/2+1) right (by omega) hright hn (by omega)
      · rw [if_neg (by rw [h.above _ (by omega) (by omega)]; decide)]
        exact ih left _ hleft (by omega) (by omega) (by omega)
    · obtain rfl : left = m := by omega
      rw [search,if_neg hlt]

theorem lastTrue_eq (h : TurnsAt p n m) : lastTrue p n = before m :=
  search_eq h n 0 n (Nat.zero_le m) h.le le_rfl (by omega)

lemma exists_turnsAt (p : ℕ → Bool) (n : ℕ)
    (h : ∀ i j, i < j → j < n → p j = true → p i = true) : ∃ m, TurnsAt p n m := by
  induction n with
  | zero => exact ⟨0,le_rfl,fun i hi => absurd hi (Nat.not_lt_zero i),fun i _ hi => absurd hi (by omega)⟩
  | succ n ih =>
    obtain ⟨m,hm⟩ := ih fun i j hij hj => h i j hij (by omega)
    by_cases hp : p n = true
    · refine ⟨n+1,le_rfl,fun i hi => ?_,fun i hlow hhigh => absurd hhigh (by omega)⟩
      rcases Nat.lt_succ_iff_lt_or_eq.mp hi with hi | rfl
      · exact h i n hi (by omega) hp
      · exact hp
    · refine ⟨m,by have := hm.le; omega,hm.below,fun i hlow hhigh => ?_⟩
      rcases Nat.lt_succ_iff_lt_or_eq.mp hhigh with hi | rfl
      · exact hm.above i hlow hi
      · exact Bool.eq_false_iff.mpr hp

end Search

section Lists
variable {α : Type*} (q : α → Bool) (xs : List α)

def test (i : ℕ) : Bool := (xs[i]?).any q

variable {q xs} in
lemma test_of_lt {i : ℕ} (hi : i < xs.length) : test q xs i = q xs[i] := by
  rw [test,List.getElem?_eq_getElem hi,Option.any_some]

lemma filter_eq_take {m : ℕ} (h : TurnsAt (test q xs) xs.length m) : xs.filter q = xs.take m := by
  have hbelow : (xs.take m).filter q = xs.take m := List.filter_eq_self.mpr fun x hx => by
    obtain ⟨i,hi,rfl⟩ := List.mem_take_iff_getElem.mp hx
    exact (test_of_lt _).symm.trans (h.below i (by omega))
  have habove : (xs.drop m).filter q = [] := List.filter_eq_nil_iff.mpr fun x hx => by
    obtain ⟨i,hi,rfl⟩ := List.mem_drop_iff_getElem.mp hx
    exact Bool.eq_false_iff.mp ((test_of_lt _).symm.trans (h.above (m+i) (by omega) (by omega)))
  calc xs.filter q = ((xs.take m) ++ (xs.drop m)).filter q := by rw [List.take_append_drop]
    _ = xs.take m := by rw [List.filter_append,hbelow,habove,List.append_nil]

/-- In a list ordered so that the test is inherited by earlier elements, the search finds the
last element that passes. -/
theorem bind_lastTrue {R : α → α → Prop} (hxs : xs.Pairwise R)
    (h : ∀ x y, R x y → q y = true → q x = true) :
    (lastTrue (test q xs) xs.length).bind (xs[·]?) = (xs.filter q).getLast? := by
  obtain ⟨m,hm⟩ := exists_turnsAt (test q xs) xs.length fun i j hij hj => by
    rw [test_of_lt hj,test_of_lt (hij.trans hj)]
    exact h _ _ (List.pairwise_iff_getElem.mp hxs i j (hij.trans hj) hj hij)
  rw [lastTrue_eq hm,filter_eq_take q xs hm,List.getLast?_take,before]
  split
  · rfl
  · have hlt : m-1 < xs.length := by have := hm.le; omega
    simp [hlt]

end Lists

end MetaStore.Halving
