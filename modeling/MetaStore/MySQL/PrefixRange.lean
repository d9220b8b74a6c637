import MetaStore.KVStore.Types

/-! The range of keys that the MySQL front end asks for in place of a prefix
(api/mysql/query.go): it starts with the prefix and ends with the prefix incremented. -/
namespace MetaStore.MySQL

/-- Add one to the last byte below 0xFF, from the back, and set the bytes behind it to zero. -/
def increment : Bytes → Option Bytes
  | [] => none
  | b :: bs => if b < 0xFF then some ((b+1) :: bs) else (increment bs).map (0 :: ·)

def getPrefixEndKey (pfx : Bytes) : Bytes :=
  if pfx = [] then noUpperBound
  else
    match increment pfx.reverse with
    | some bs => bs.reverse
    | none => pfx ++ [0xFF]

lemma increment_replicate (m : ℕ) (l : Bytes) :
    increment (List.replicate m 255 ++ l) = (increment l).map (List.replicate m 0 ++ ·) := by
  induction m with
  | zero => simp
  | succ m ih =>
    rw [List.replicate_succ,List.cons_append,increment,if_neg (by decide),ih,Option.map_map]
    rfl

lemma getPrefixEndKey_low (a : Bytes) {c : UInt8} (hc : c < 255) (m : ℕ) :
    getPrefixEndKey (a ++ c :: List.replicate m 255) = a ++ (c+1) :: List.replicate m 0 := by
  have hrev : (a ++ c :: List.replicate m 255).reverse = List.replicate m 255 ++ c :: a.reverse := by
    simp
  rw [getPrefixEndKey,if_neg (by simp),hrev,increment_replicate,increment,if_pos hc]
  simp

lemma getPrefixEndKey_high (m : ℕ) : getPrefixEndKey (List.replicate (m+1) 255) =
    List.replicate (m+1) 255 ++ [255] := by
  have h := increment_replicate (m+1) []
  rw [List.append_nil] at h
  rw [getPrefixEndKey,if_neg (by simp),List.reverse_replicate,h]
  rfl

lemma eq_or_lt_255 (b : UInt8) : b = 255 ∨ b < 255 := by
  have hlt := b.toNat_lt
  have h255 : (255 : UInt8).toNat = 255 := rfl
  rw [UInt8.lt_iff_toNat_lt,← UInt8.toNat_inj]
  omega

lemma exists_last_low (q : Bytes) : (∃ m, q = List.replicate m 255) ∨
    ∃ a c m, c < 255 ∧ q = a ++ c :: List.replicate m 255 := by
  induction q using List.reverseRecOn with
  | nil => exact .inl ⟨0,rfl⟩
  | append_singleton q b ih =>
    obtain rfl | hb := eq_or_lt_255 b
    · obtain ⟨m,rfl⟩ | ⟨a,c,m,hc,rfl⟩ := ih
      · exact .inl ⟨m+1,by rw [List.replicate_succ']⟩
      · exact .inr ⟨a,c,m+1,hc,by simp [List.replicate_succ']⟩
    · exact .inr ⟨q,b,0,hb,rfl⟩

lemma low_lt_succ {c : UInt8} (hc : c < 255) : c < c+1 := by
  rw [UInt8.lt_iff_toNat_lt,UInt8.toNat_add]
  have h : c.toNat < 255 := hc
  have h1 : (1 : UInt8).toNat = 1 := rfl
  omega

/-- The incremented byte is not zero, so this end is not the one that means no end. -/
lemma low_ne_noUpperBound (a : Bytes) {c : UInt8} (hc : c < 255) (l : Bytes) :
    a ++ (c+1) :: l ≠ noUpperBound := by
  intro heq
  cases a with
  | nil =>
    have hlt := low_lt_succ hc
    rw [(List.cons.inj heq).1] at hlt
    exact absurd hlt (by simp)
  | cons x a => simp [noUpperBound] at heq

/-- The range of a prefix is exact unless the last byte of the prefix is 0xFF. -/
theorem prefix_range_exact_iff (pfx : Bytes) :
    (∀ k, inRange pfx (getPrefixEndKey pfx) k = true ↔ pfx <+: k) ↔ pfx.getLast? ≠ some 255 := by
  obtain ⟨m,rfl⟩ | ⟨a,c,m,hc,rfl⟩ := exists_last_low pfx
  · cases m with
    | zero => simp [getPrefixEndKey,inRange]
    | succ m =>
      -- the string one 0xFF longer is the end of the range
      refine iff_of_false (fun hall => ?_) fun hlast => hlast (by simp [List.replicate_succ'])
      have hin := (hall (List.replicate (m+1) 255 ++ [255])).mpr (List.prefix_append _ _)
      rw [getPrefixEndKey_high] at hin
      simp [inRange,noUpperBound,List.replicate_succ] at hin
      exact List.lt_irrefl _ hin.2
  · cases m with
    | zero =>
      have hlast : (a ++ [c]).getLast? ≠ some 255 := by
        rw [List.getLast?_concat]
        exact fun h => absurd (Option.some.inj h ▸ hc) (by decide)
      refine iff_of_true (fun k => ?_) hlast
      rw [getPrefixEndKey_low a hc 0,List.replicate_zero,List.replicate_zero,
        ← Bytes.between_iff_isPrefix a hc k]
      simp [inRange,low_ne_noUpperBound a hc []]
    | succ m =>
      -- the incremented start without its zeros is in the range
      have hlast : (a ++ c :: List.replicate (m+1) 255).getLast? = some 255 := by
        rw [List.replicate_succ',← List.cons_append,← List.append_assoc,List.getLast?_concat]
      refine iff_of_false (fun hall => ?_) fun hne => hne hlast
      have hin : inRange (a ++ c :: List.replicate (m+1) 255)
          (getPrefixEndKey (a ++ c :: List.replicate (m+1) 255)) (a ++ [c+1]) = true := by
        have hlow : a ++ c :: List.replicate (m+1) 255 < a ++ [c+1] :=
          (Bytes.append_lt_append_iff a _ _).mpr (List.cons_lt_cons_iff.mpr (.inl (low_lt_succ hc)))
        have hhigh : a ++ [c+1] < a ++ (c+1) :: List.replicate (m+1) 0 :=
          (Bytes.append_lt_append_iff a _ _).mpr (List.cons_lt_cons_iff.mpr
            (.inr ⟨rfl,by simp [List.replicate_succ]⟩))
        rw [getPrefixEndKey_low a hc]
        simp [inRange,List.le_of_lt hlow,hhigh]
      have hlen := ((hall _).mp hin).length_le
      simp at hlen

/-- The prefix `a\xff`: the key `b` is in its range. -/
theorem prefix_range_has_other_key :
    inRange [97,255] (getPrefixEndKey [97,255]) [98] = true ∧ ¬ [97,255] <+: ([98] : Bytes) := by
  decide

end MetaStore.MySQL
