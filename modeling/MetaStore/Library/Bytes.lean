import Mathlib

/-! Byte strings with their lexicographic order. The comparison that orders a map
keyed by byte strings and the relation `<` of range bounds are the same order, and
decimal rendering of integers is injective. -/
namespace MetaStore

abbrev Bytes := List UInt8

def ascii (s : String) : Bytes := s.toList.map fun c => UInt8.ofNat c.toNat

def decimalNat (n : ℕ) : Bytes :=
  if n = 0 then [48] else (Nat.digits 10 n).reverse.map fun d => 48 + UInt8.ofNat d

def decimal (n : ℤ) : Bytes :=
  if n < 0 then 45 :: decimalNat n.natAbs else decimalNat n.natAbs

namespace Bytes

theorem compare_eq_lt_iff (a b : Bytes) : compare a b = .lt ↔ a < b := by
  induction a generalizing b with
  | nil => cases b <;> simp
  | cons x xs ih =>
    cases b with
    | nil => simp
    | cons y ys =>
      have hc : compare (x :: xs) (y :: ys) = (compare x y).then (compare xs ys) :=
        List.compare_cons_cons
      rw [hc,List.cons_lt_cons_iff,← ih ys,Ordering.then_eq_lt,Std.compare_eq_lt,
        Std.LawfulEqOrd.compare_eq_iff_eq]

theorem append_lt_append_iff (p a b : Bytes) : p ++ a < p ++ b ↔ a < b := by
  induction p with
  | nil => rfl
  | cons x p ih => rw [List.cons_append,List.cons_append,List.cons_lt_cons_iff,ih]; simp

theorem exists_append_of_between {p a b k : Bytes} (hlow : p ++ a ≤ k) (hhigh : k < p ++ b) :
    ∃ k', k = p ++ k' := by
  induction p generalizing k with
  | nil => exact ⟨k,rfl⟩
  | cons x p ih =>
    cases k with
    | nil => exact absurd hlow (by simp)
    | cons y k =>
      rw [List.cons_append,List.cons_lt_cons_iff] at hhigh
      rw [List.cons_append,← List.not_lt,List.cons_lt_cons_iff,not_or,not_and] at hlow
      rcases hhigh with hlt | ⟨rfl,hhigh⟩
      · exact absurd hlt hlow.1
      · obtain ⟨k',rfl⟩ := ih (List.not_lt.mp (hlow.2 rfl)) hhigh
        exact ⟨k',rfl⟩

theorem between_iff_isPrefix (p : Bytes) {b : UInt8} (hb : b < 0xFF) (k : Bytes) :
    p ++ [b] ≤ k ∧ k < p ++ [b+1] ↔ p ++ [b] <+: k := by
  have hsucc : (b+1).toNat = b.toNat+1 := by
    have : b.toNat < 255 := hb
    have hone : (1 : UInt8).toNat = 1 := rfl
    rw [UInt8.toNat_add,hone]
    exact Nat.mod_eq_of_lt (by omega)
  constructor
  · rintro ⟨hlow,hhigh⟩
    obtain ⟨t,rfl⟩ := exists_append_of_between hlow hhigh
    rw [← List.not_lt,append_lt_append_iff] at hlow
    rw [append_lt_append_iff] at hhigh
    cases t with
    | nil => exact absurd (by simp) hlow
    | cons c t =>
      simp only [List.cons_lt_cons_iff,List.not_lt_nil,and_false,or_false] at hlow hhigh
      have hc : c = b := by
        rw [UInt8.lt_iff_toNat_lt] at hlow hhigh
        rw [← UInt8.toNat_inj]
        omega
      exact ⟨t,by rw [hc]; simp⟩
  · rintro ⟨t,rfl⟩
    have hlt : b < b+1 := UInt8.lt_iff_toNat_lt.mpr (by omega)
    rw [List.append_assoc,← List.not_lt,append_lt_append_iff,append_lt_append_iff]
    simp [List.cons_lt_cons_iff,hlt]

theorem between_iff_eq (k x : Bytes) : k ≤ x ∧ x < k ++ [0] ↔ x = k := by
  induction k generalizing x with
  | nil =>
    cases x with
    | nil => simp
    | cons y ys => simp [List.cons_lt_cons_iff]
  | cons a k ih =>
    cases x with
    | nil => simp
    | cons y ys =>
      rw [← List.not_lt,List.cons_append,List.cons_lt_cons_iff,List.cons_lt_cons_iff,
        List.cons.injEq,← ih ys,← List.not_lt]
      constructor
      · rintro ⟨hlow,hlt | ⟨rfl,hhigh⟩⟩
        · exact absurd (.inl hlt) hlow
        · exact ⟨rfl,fun h => hlow (.inr ⟨rfl,h⟩),hhigh⟩
      · rintro ⟨rfl,hlow,hhigh⟩
        refine ⟨?_,.inr ⟨rfl,hhigh⟩⟩
        rintro (h | ⟨-,h⟩)
        · exact UInt8.lt_irrefl y h
        · exact hlow h

abbrev linearOrder : LinearOrder Bytes where
  le_refl := List.le_refl
  le_trans _ _ _ := List.le_trans
  lt_iff_le_not_ge a b := by
    rw [← List.not_lt,← List.not_lt,not_not]
    exact ⟨fun h => ⟨List.not_lt.mpr (List.le_of_lt h),h⟩,And.right⟩
  le_antisymm _ _ := List.le_antisymm
  le_total := List.le_total
  toDecidableLE := inferInstance
  toDecidableEq := inferInstance
  toDecidableLT := inferInstance
  compare_eq_compareOfLessAndEq a b := by
    rw [compareOfLessAndEq]
    split_ifs with hlt heq
    · exact (compare_eq_lt_iff a b).mpr hlt
    · exact heq ▸ Std.compare_self
    · have hne : compare a b ≠ .lt := fun h => hlt ((compare_eq_lt_iff a b).mp h)
      have hne' : compare a b ≠ .eq := fun h => heq (Std.LawfulEqOrd.eq_of_compare h)
      cases h : compare a b with
      | lt => exact absurd h hne
      | eq => exact absurd h hne'
      | gt => rfl

lemma digit_injective {a b : ℕ} (ha : a < 10) (hb : b < 10)
    (h : 48 + UInt8.ofNat a = 48 + UInt8.ofNat b) : a = b := by
  interval_cases a <;> interval_cases b <;> first | rfl | exact absurd h (by decide)

lemma digits_injective {xs ys : List ℕ} (hx : ∀ d ∈ xs, d < 10) (hy : ∀ d ∈ ys, d < 10)
    (h : xs.map (fun d => 48 + UInt8.ofNat d) = ys.map (fun d => 48 + UInt8.ofNat d)) :
    xs = ys := by
  induction xs generalizing ys with
  | nil => cases ys with
    | nil => rfl
    | cons y ys => simp at h
  | cons x xs ih => cases ys with
    | nil => simp at h
    | cons y ys =>
      obtain ⟨hh,ht⟩ := List.cons.inj h
      rw [digit_injective (hx x (by simp)) (hy y (by simp)) hh,
        ih (fun d hd => hx d (by simp [hd])) (fun d hd => hy d (by simp [hd])) ht]

lemma digits_ne_zeroDigit {n : ℕ} (hn : n ≠ 0) :
    (Nat.digits 10 n).reverse.map (fun d => 48 + UInt8.ofNat d) ≠ [48] := by
  intro h
  have hl : ((Nat.digits 10 n).reverse.map (fun d => 48 + UInt8.ofNat d)).length = 1 := by
    rw [h]; rfl
  simp only [List.length_map,List.length_reverse] at hl
  obtain ⟨d,hd⟩ := List.length_eq_one_iff.mp hl
  rw [hd] at h
  have hd10 : d < 10 := Nat.digits_lt_base (by norm_num) (by rw [hd]; simp)
  have hz : d = 0 := digit_injective hd10 (by norm_num) (by simpa using h)
  have hv := Nat.ofDigits_digits 10 n
  rw [hd,hz] at hv
  simp at hv
  exact hn hv.symm

theorem decimalNat_injective : Function.Injective decimalNat := by
  intro m n h
  unfold decimalNat at h
  split_ifs at h with hm hn hn
  · omega
  · exact absurd h.symm (digits_ne_zeroDigit hn)
  · exact absurd h (digits_ne_zeroDigit hm)
  · have hlt : ∀ k, ∀ d ∈ (Nat.digits 10 k).reverse, d < 10 := fun k d hd =>
      Nat.digits_lt_base (by norm_num) (List.mem_reverse.mp hd)
    exact Nat.digits_inj_iff.mp (List.reverse_injective (digits_injective (hlt m) (hlt n) h))

lemma decimalNat_head_ne_minus (n : ℕ) (bs : Bytes) : decimalNat n ≠ 45 :: bs := by
  intro h
  have hmem : (45 : UInt8) ∈ decimalNat n := by rw [h]; simp
  unfold decimalNat at hmem
  split_ifs at hmem with hn
  · exact absurd hmem (by decide)
  · obtain ⟨d,hd,he⟩ := List.mem_map.mp hmem
    have hd10 : d < 10 := Nat.digits_lt_base (by norm_num) (List.mem_reverse.mp hd)
    interval_cases d <;> exact absurd he (by decide)

theorem decimal_injective : Function.Injective decimal := by
  intro m n h
  unfold decimal at h
  split_ifs at h with hm hn hn
  · have ha := decimalNat_injective (List.cons_inj_right _ |>.mp h)
    omega
  · exact absurd h.symm (decimalNat_head_ne_minus _ _)
  · exact absurd h (decimalNat_head_ne_minus _ _)
  · have ha := decimalNat_injective h
    omega

end Bytes
end MetaStore
