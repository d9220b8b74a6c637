import MetaStore.Library.Utf8

/-! Byte-level encodings of two serialisation formats: fields of protocol buffer messages
(proto3, written in field order), and the integers and messages of gob streams. -/
namespace MetaStore

namespace Protobuf
variable {fields : List (Except String Bytes)}

/-- Base-128 digits, least significant first, all but the last with the high bit set. -/
def varintUpTo : ℕ → ℕ → Bytes
  | 0, n => [UInt8.ofNat n]
  | k+1, n => if n < 128 then [UInt8.ofNat n] else UInt8.ofNat (128+n%128) :: varintUpTo k (n/128)

def varint (n : ℕ) : Bytes := varintUpTo 9 n

def tag (field wireType : ℕ) : Bytes := varint (8*field+wireType)

def delimited (field : ℕ) (bs : Bytes) : Bytes := tag field 2 ++ varint bs.length ++ bs

def presentInt (field : ℕ) (n : ℤ) : Bytes := tag field 0 ++ varint (n % 2^64).toNat

/-- Zero values of plain fields are not written. -/
def intField (field : ℕ) (n : ℤ) : Bytes := if n = 0 then [] else presentInt field n

def bytesField (field : ℕ) (bs : Bytes) : Bytes := if bs = [] then [] else delimited field bs

def invalidUtf8 : String := "string field contains invalid UTF-8"

/-- Strings have to be valid UTF-8. -/
def stringField (field : ℕ) (s : Bytes) : Except String Bytes :=
  if Utf8.Valid s then .ok (bytesField field s) else .error invalidUtf8

lemma stringField_eq_ok {field : ℕ} {s bs : Bytes} (h : stringField field s = .ok bs) :
    bs = bytesField field s := by
  unfold stringField at h
  split_ifs at h
  exact (Except.ok.inj h).symm

def message (fields : List (Except String Bytes)) : Except String Bytes :=
  (fields.mapM id).map List.flatten

lemma exists_stringField_iff {field : ℕ} {s : Bytes} :
    (∃ bs, stringField field s = .ok bs) ↔ Utf8.Valid s := by
  unfold stringField
  split_ifs with h <;> simp [h]

lemma exists_message_iff :
    (∃ bs, message fields = .ok bs) ↔ ∀ field ∈ fields, ∃ bs, field = .ok bs := by
  induction fields with
  | nil => exact ⟨fun _ => by simp,fun _ => ⟨[],rfl⟩⟩
  | cons field fields ih =>
    rw [List.forall_mem_cons,← ih]
    unfold message
    rw [List.mapM_cons]
    cases field with
    | error e =>
      exact ⟨fun ⟨_,h⟩ => absurd h (by simp [bind,Except.bind,Except.map]),
        fun ⟨⟨_,h⟩,_⟩ => absurd h (by simp)⟩
    | ok first => cases fields.mapM id <;> simp [bind,Except.bind,Except.map,pure,Except.pure]

lemma message_cons_eq_ok {field : Except String Bytes}
    {bs : Bytes} (h : message (field :: fields) = .ok bs) :
    ∃ first rest, field = .ok first ∧ bs = first ++ rest := by
  cases field with
  | error e => cases h
  | ok first =>
    cases hrest : fields.mapM id with
    | error e =>
      have he : message (.ok first :: fields) = .error e := by
        simp only [message,List.mapM_cons,id_eq,hrest]
        rfl
      rw [he] at h
      cases h
    | ok parts =>
      have he : message (.ok first :: fields) = .ok (first ++ parts.flatten) := by
        simp only [message,List.mapM_cons,id_eq,hrest]
        rfl
      rw [he] at h
      exact ⟨first,parts.flatten,rfl,(Except.ok.inj h).symm⟩

/-- A varint of a number that fits shows where it ends. -/
lemma varintUpTo_append_inj {k n m : ℕ} (hn : n < 128^(k+1)) (hm : m < 128^(k+1)) {x y : Bytes}
    (h : varintUpTo k n ++ x = varintUpTo k m ++ y) : n = m ∧ x = y := by
  have hbyte : ∀ {a b : ℕ}, a < 256 → b < 256 → UInt8.ofNat a = UInt8.ofNat b → a = b := by
    intro a b ha hb heq
    have := congrArg UInt8.toNat heq
    rwa [UInt8.toNat_ofNat_of_lt' ha,UInt8.toNat_ofNat_of_lt' hb] at this
  induction k generalizing n m with
  | zero =>
    obtain ⟨heq,hrest⟩ := List.cons.inj h
    exact ⟨hbyte (by omega) (by omega) heq,hrest⟩
  | succ k ih =>
    rw [varintUpTo,varintUpTo] at h
    split_ifs at h with hn' hm' hm'
    · obtain ⟨heq,hrest⟩ := List.cons.inj h
      exact ⟨hbyte (by omega) (by omega) heq,hrest⟩
    · have := hbyte (by omega) (by omega) (List.cons.inj h).1
      omega
    · have := hbyte (by omega) (by omega) (List.cons.inj h).1
      omega
    · obtain ⟨heq,hrest⟩ := List.cons.inj h
      have hmod := hbyte (by omega) (by omega) heq
      have hdiv := ih (Nat.div_lt_of_lt_mul (by rwa [← Nat.pow_succ'])) 
        (Nat.div_lt_of_lt_mul (by rwa [← Nat.pow_succ'])) hrest
      exact ⟨by omega,hdiv.2⟩

lemma delimited_append_inj {field : ℕ} {a b x y : Bytes} (ha : a.length < 2^63)
    (hb : b.length < 2^63) (h : delimited field a ++ x = delimited field b ++ y) :
    a = b ∧ x = y := by
  simp only [delimited,List.append_assoc,List.append_cancel_left_eq] at h
  obtain ⟨hlength,hrest⟩ := varintUpTo_append_inj (ha.trans (by norm_num)) (hb.trans (by norm_num)) h
  exact List.append_inj hrest hlength

/-- No message: behind some fields there is the end of a group that did not begin. -/
inductive StrayEnd : Bytes → Prop
  | ends (field : ℕ) (rest : Bytes) : StrayEnd (tag field 4 ++ rest)
  | int (field : ℕ) (n : ℤ) {rest : Bytes} (h : StrayEnd rest) : StrayEnd (presentInt field n ++ rest)

end Protobuf

namespace Gob

/-- Small numbers are one byte; others are their big-endian bytes after the negated count. -/
def uint (n : ℕ) : Bytes :=
  if n < 128 then [UInt8.ofNat n]
  else UInt8.ofNat (256-(Nat.digits 256 n).length) :: (Nat.digits 256 n).reverse.map UInt8.ofNat

/-- Signed numbers have their sign in the lowest bit, and negative ones are complemented. -/
def int (n : ℤ) : Bytes := if n < 0 then uint (2*(-n-1).toNat+1) else uint (2*n.toNat)

def string (s : Bytes) : Bytes := uint s.length ++ s

def message (bs : Bytes) : Bytes := uint bs.length ++ bs

/-- A number of 128 or more, below 2^64, is announced by a byte from 0xF8 on. -/
lemma uint_of_le {n : ℕ} (hlow : 128 ≤ n) (hhigh : n < 2^64) :
    ∃ b bs, uint n = b :: bs ∧ 0xF8 ≤ b.toNat ∧ 1 ≤ bs.length ∧ bs.length ≤ 8 := by
  have hpos : 0 < (Nat.digits 256 n).length := by
    rw [List.length_pos_iff,Ne,Nat.digits_eq_nil_iff_eq_zero]
    omega
  have hle : (Nat.digits 256 n).length ≤ 8 := by
    rw [Nat.digits_length_le_iff (by norm_num)]
    omega
  refine ⟨_,_,if_neg (by omega),?_,?_,?_⟩
  · rw [UInt8.toNat_ofNat_of_lt' (show _ < 256 by omega)]
    omega
  all_goals
    rw [List.length_map,List.length_reverse]
    omega

end Gob

end MetaStore
