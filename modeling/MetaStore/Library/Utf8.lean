import MetaStore.Library.Bytes

/-! Decoding of byte strings as UTF-8, one rune at a time. A byte that starts no rune
stands for itself as an invalid one, so that every byte string is a sequence of runes, and
cleaning replaces each invalid byte by the three bytes of U+FFFD. Cleaning changes nothing
exactly on the valid strings: every replacement makes the string longer. -/
namespace MetaStore.Utf8

/-- The length of the rune a byte above 0x7F starts and the bounds of its second byte. -/
def lead (b : UInt8) : Option (ℕ × UInt8 × UInt8) :=
  if b < 0xC2 then none
  else if b ≤ 0xDF then some (2,0x80,0xBF)
  else if b = 0xE0 then some (3,0xA0,0xBF)
  else if b = 0xED then some (3,0x80,0x9F)
  else if b ≤ 0xEF then some (3,0x80,0xBF)
  else if b = 0xF0 then some (4,0x90,0xBF)
  else if b ≤ 0xF3 then some (4,0x80,0xBF)
  else if b = 0xF4 then some (4,0x80,0x8F)
  else none

def isTail (b : UInt8) : Bool := decide (0x80 ≤ b) && decide (b ≤ 0xBF)

/-- The bytes after the first one: the second within its bounds, the rest plain tails. -/
def follows (low high : UInt8) : Bytes → Bool
  | [] => false
  | b :: bs => decide (low ≤ b) && decide (b ≤ high) && bs.all isTail

def runeLength : Bytes → Option ℕ
  | [] => none
  | b :: bs =>
    if b < 0x80 then some 1
    else (lead b).bind fun (n,low,high) =>
      if (bs.take (n-1)).length = n-1 ∧ follows low high (bs.take (n-1)) then some n else none

/-- A piece of a string: the bytes of one rune, or a byte that starts none. -/
inductive Rune
  | valid (bs : Bytes) (h : runeLength bs = some bs.length)
  | invalid (b : UInt8)

namespace Rune

def raw : Rune → Bytes
  | valid bs _ => bs
  | invalid b => [b]

def replacement : Bytes := [0xEF,0xBF,0xBD]

def clean : Rune → Bytes
  | valid bs _ => bs
  | invalid _ => replacement

def isValid : Rune → Bool
  | valid _ _ => true
  | invalid _ => false

lemma length_clean (r : Rune) : r.clean.length = r.raw.length + if r.isValid then 0 else 2 := by
  cases r <;> rfl

end Rune

lemma lead_length {b : UInt8} {n : ℕ} {low high : UInt8} (h : lead b = some (n,low,high)) :
    2 ≤ n := by
  unfold lead at h
  split_ifs at h <;> cases h <;> decide

lemma runeLength_cons {b : UInt8} {bs : Bytes} {n : ℕ} :
    runeLength (b :: bs) = some n ↔
      (b < 0x80 ∧ n = 1) ∨ (¬ b < 0x80 ∧ ∃ low high, lead b = some (n,low,high) ∧
        (bs.take (n-1)).length = n-1 ∧ follows low high (bs.take (n-1))) := by
  by_cases hb : b < 0x80
  · simp only [runeLength,hb,if_true,true_and,not_true_eq_false,false_and,or_false]
    exact ⟨fun h => (Option.some.inj h).symm,fun h => h ▸ rfl⟩
  · simp only [runeLength,hb,if_false,false_and,not_false_eq_true,true_and,false_or]
    constructor
    · intro h
      obtain ⟨⟨m,low,high⟩,hl,hm⟩ := Option.bind_eq_some_iff.mp h
      dsimp only at hm
      split_ifs at hm with hc
      cases hm
      exact ⟨low,high,hl,hc⟩
    · rintro ⟨low,high,hl,hc⟩
      rw [hl,Option.bind_some]
      exact if_pos hc

lemma runeLength_bounds {bs : Bytes} {n : ℕ} (h : runeLength bs = some n) :
    0 < n ∧ n ≤ bs.length := by
  cases bs with
  | nil => cases h
  | cons b bs =>
    rcases runeLength_cons.mp h with ⟨-,rfl⟩ | ⟨-,low,high,hl,hlen,-⟩
    · simp
    · have hn := lead_length hl
      rw [List.length_take] at hlen
      simp only [List.length_cons]
      omega

theorem runeLength_congr {bs cs : Bytes} {n : ℕ} (h : runeLength bs = some n)
    (htake : cs.take n = bs.take n) : runeLength cs = some n := by
  obtain ⟨hpos,hle⟩ := runeLength_bounds h
  obtain ⟨k,rfl⟩ : ∃ k, n = k+1 := ⟨n-1,by omega⟩
  cases bs with
  | nil => cases h
  | cons b bs =>
    cases cs with
    | nil => simp at htake
    | cons c cs =>
      obtain ⟨rfl,ht⟩ := List.cons.inj htake
      rw [runeLength_cons] at h ⊢
      simp only [Nat.add_sub_cancel] at h ht ⊢
      rwa [ht]

lemma runeLength_take {bs : Bytes} {n : ℕ} (h : runeLength bs = some n) :
    runeLength (bs.take n) = some (bs.take n).length := by
  have hlen : (bs.take n).length = n := List.length_take_of_le (runeLength_bounds h).2
  rw [hlen]
  exact runeLength_congr h (by rw [List.take_take,Nat.min_self])

lemma runeLength_append {bs : Bytes} (h : runeLength bs = some bs.length) (rest : Bytes) :
    runeLength (bs ++ rest) = some bs.length :=
  runeLength_congr h (by simp)

def firstRune (b : UInt8) (bs : Bytes) : Rune :=
  match h : runeLength (b :: bs) with
  | some n => .valid ((b :: bs).take n) (runeLength_take h)
  | none => .invalid b

lemma firstRune_append {b : UInt8} {bs : Bytes} (h : runeLength (b :: bs) = some (b :: bs).length)
    (rest : Bytes) : firstRune b (bs ++ rest) = .valid (b :: bs) h := by
  have hlen : runeLength (b :: (bs ++ rest)) = some (b :: bs).length := runeLength_append h rest
  unfold firstRune
  split
  · next n hn =>
    rw [hlen] at hn
    cases hn
    congr 1
    simp
  · next hn => rw [hlen] at hn; cases hn

lemma firstRune_raw (b : UInt8) (bs : Bytes) :
    ∃ rest, (firstRune b bs).raw ++ rest = b :: bs ∧ rest.length ≤ bs.length := by
  unfold firstRune
  split
  · next n hn =>
    have hb := runeLength_bounds hn
    refine ⟨(b :: bs).drop n,List.take_append_drop n _,?_⟩
    simp only [List.length_drop,List.length_cons]
    omega
  · exact ⟨bs,rfl,le_rfl⟩

/-- The first pieces of a string; a string has at most as many pieces as bytes. -/
def runesUpTo : ℕ → Bytes → List Rune
  | 0, _ => []
  | _+1, [] => []
  | n+1, b :: bs =>
    let r := firstRune b bs
    r :: runesUpTo n ((b :: bs).drop r.raw.length)

def runes (bs : Bytes) : List Rune := runesUpTo bs.length bs

def sanitize (bs : Bytes) : Bytes := (runes bs).flatMap Rune.clean

def Valid (bs : Bytes) : Prop := ∀ r ∈ runes bs, r.isValid

instance (bs : Bytes) : Decidable (Valid bs) :=
  inferInstanceAs (Decidable (∀ r ∈ runes bs, r.isValid))

lemma raw_runesUpTo {n : ℕ} {bs : Bytes} (h : bs.length ≤ n) :
    (runesUpTo n bs).flatMap Rune.raw = bs := by
  induction n generalizing bs with
  | zero => simp [List.length_eq_zero_iff.mp (Nat.le_zero.mp h),runesUpTo]
  | succ n ih =>
    cases bs with
    | nil => rfl
    | cons b bs =>
      obtain ⟨rest,hraw,hlen⟩ := firstRune_raw b bs
      have hdrop : (b :: bs).drop (firstRune b bs).raw.length = rest := by
        rw [← hraw,List.drop_left]
      simp only [List.length_cons] at h
      simp only [runesUpTo,List.flatMap_cons,hdrop]
      rw [ih (by omega),hraw]

theorem raw_runes (bs : Bytes) : (runes bs).flatMap Rune.raw = bs := raw_runesUpTo le_rfl

lemma flatMap_clean_of_valid {rs : List Rune} (h : ∀ r ∈ rs, r.isValid) :
    rs.flatMap Rune.clean = rs.flatMap Rune.raw := by
  apply List.flatMap_congr
  intro r hr
  cases r with
  | valid bs h => rfl
  | invalid b => cases h _ hr

lemma length_flatMap_clean (rs : List Rune) :
    (rs.flatMap Rune.clean).length =
      (rs.flatMap Rune.raw).length + 2*rs.countP (fun r => !r.isValid) := by
  induction rs with
  | nil => rfl
  | cons r rs ih =>
    simp only [List.flatMap_cons,List.length_append,ih,Rune.length_clean,List.countP_cons]
    cases r.isValid <;> simp <;> omega

theorem sanitize_eq_self_iff (bs : Bytes) : sanitize bs = bs ↔ Valid bs := by
  constructor
  · intro h r hr
    have hlen := length_flatMap_clean (runes bs)
    rw [raw_runes,show (runes bs).flatMap Rune.clean = bs from h] at hlen
    have hnone : (runes bs).countP (fun r => !r.isValid) = 0 := by omega
    simpa using List.countP_eq_zero.mp hnone r hr
  · intro h
    exact (flatMap_clean_of_valid h).trans (raw_runes bs)

end MetaStore.Utf8
