import MetaStore.Library.Bytes

/-! Numbers of a fixed width in either byte order, 64-bit integers, and reads at an offset that may
lie outside of the data. -/
namespace MetaStore

theorem Bytes.append_lt_append_iff_of_length {a b c d : Bytes} (h : a.length = b.length) :
    a ++ c < b ++ d ↔ a < b ∨ a = b ∧ c < d := by
  induction a generalizing b with
  | nil =>
    rw [List.length_eq_zero_iff.mp h.symm]
    simp
  | cons x a ih =>
    cases b with
    | nil => cases h
    | cons y b =>
      rw [List.cons_append,List.cons_append,List.cons_lt_cons_iff,List.cons_lt_cons_iff,
        ih (Nat.succ.inj h),List.cons.injEq]
      tauto

inductive ByteOrder
  | little | big
  deriving DecidableEq, Repr

namespace ByteOrder

def digits : ℕ → ℕ → Bytes
  | 0,_ => []
  | width+1,n => UInt8.ofNat n :: digits width (n/256)

def value : Bytes → ℕ
  | [] => 0
  | b :: bs => b.toNat+256*value bs

/-- `PutUint32` and `PutUint64`. -/
def put (order : ByteOrder) (width n : ℕ) : Bytes :=
  match order with
  | little => digits width n
  | big => (digits width n).reverse

/-- `Uint32` and `Uint64`. -/
def get (order : ByteOrder) (bs : Bytes) : ℕ :=
  match order with
  | little => value bs
  | big => value bs.reverse

lemma length_digits (width n : ℕ) : (digits width n).length = width := by
  induction width generalizing n with
  | zero => rfl
  | succ width ih => rw [digits,List.length_cons,ih]

lemma value_digits (width n : ℕ) : value (digits width n) = n % 256^width := by
  induction width generalizing n with
  | zero => rw [digits,value,Nat.pow_zero,Nat.mod_one]
  | succ width ih =>
    have hmod : n % 256^(width+1) = n % 256+256*(n/256 % 256^width) := by
      rw [Nat.pow_succ',Nat.mod_mul]
    rw [digits,value,ih,UInt8.toNat_ofNat',hmod]

lemma digits_value (bs : Bytes) : digits bs.length (value bs) = bs := by
  induction bs with
  | nil => rfl
  | cons b bs ih =>
    have hb : b.toNat < 256 := b.toNat_lt
    have hdiv : (b.toNat+256*value bs)/256 = value bs := by omega
    rw [List.length_cons,value,digits,hdiv,ih,UInt8.ofNat_add,UInt8.ofNat_mul,UInt8.ofNat_toNat,
      show UInt8.ofNat 256 = 0 from rfl,UInt8.zero_mul,UInt8.add_zero]

lemma value_lt (bs : Bytes) : value bs < 256^bs.length := by
  induction bs with
  | nil => exact Nat.one_pos
  | cons b bs ih =>
    have hb : b.toNat < 256 := b.toNat_lt
    rw [value,List.length_cons,Nat.pow_succ']
    omega

lemma value_append (bs cs : Bytes) : value (bs ++ cs) = value bs+256^bs.length*value cs := by
  induction bs with
  | nil => simp [value]
  | cons b bs ih =>
    rw [List.cons_append,value,value,ih,List.length_cons,Nat.pow_succ']
    ring

variable (order : ByteOrder)

@[simp] lemma length_put (width n : ℕ) : (order.put width n).length = width := by
  cases order <;> simp [put,length_digits]

lemma get_put {width n : ℕ} (h : n < 256^width) : order.get (order.put width n) = n := by
  cases order <;> simp [get,put,value_digits,Nat.mod_eq_of_lt h]

lemma put_get (bs : Bytes) : order.put bs.length (order.get bs) = bs := by
  cases order with
  | little => exact digits_value bs
  | big =>
    rw [put,get,← List.length_reverse,digits_value,List.reverse_reverse]

lemma get_lt (bs : Bytes) : order.get bs < 256^bs.length := by
  cases order with
  | little => exact value_lt bs
  | big => rw [get,← List.length_reverse]; exact value_lt _

theorem big_lt_iff {bs cs : Bytes} (h : bs.length = cs.length) :
    big.get bs < big.get cs ↔ bs < cs := by
  induction bs generalizing cs with
  | nil =>
    rw [List.length_eq_zero_iff.mp h.symm]
    simp
  | cons b bs ih =>
    cases cs with
    | nil => cases h
    | cons c cs =>
      have hlength : bs.length = cs.length := Nat.succ.inj h
      have hcons : ∀ (b : UInt8) (bs : Bytes),
          big.get (b :: bs) = big.get bs+256^bs.length*b.toNat := by
        intro b bs
        rw [get,List.reverse_cons,value_append,List.length_reverse]
        rfl
      have hb := big.get_lt bs
      have hc := big.get_lt cs
      rw [hcons,hcons,List.cons_lt_cons_iff,← ih hlength,UInt8.lt_iff_toNat_lt,← UInt8.toNat_inj]
      rw [← hlength] at hc ⊢
      rcases lt_trichotomy b.toNat c.toNat with hlt|heq|hgt
      · have := Nat.mul_le_mul_left (256^bs.length) hlt
        rw [Nat.succ_eq_add_one,Nat.mul_add] at this
        exact ⟨fun _ => .inl hlt,fun _ => by omega⟩
      · rw [heq]
        simp
      · have := Nat.mul_le_mul_left (256^bs.length) hgt
        rw [Nat.succ_eq_add_one,Nat.mul_add] at this
        exact ⟨fun _ => by omega,fun hor => by omega⟩

variable {order} {width m n : ℕ}

lemma put_inj (hm : m < 256^width) (hn : n < 256^width) :
    order.put width m = order.put width n ↔ m = n := by
  constructor
  · intro h
    rw [← order.get_put hm,h,order.get_put hn]
  · exact fun h => h ▸ rfl

lemma big_put_lt_iff (hm : m < 256^width) (hn : n < 256^width) :
    big.put width m < big.put width n ↔ m < n := by
  rw [← big_lt_iff (by simp),get_put _ hm,get_put _ hn]

end ByteOrder

def FitsInt64 (n : ℤ) : Prop := -2^63 ≤ n ∧ n < 2^63

instance (n : ℤ) : Decidable (FitsInt64 n) := inferInstanceAs (Decidable (_ ∧ _))

/-- The conversions between `int64` and `uint64`. -/
def uint64 (n : ℤ) : ℕ := (n % 2^64).toNat
def int64 (n : ℕ) : ℤ := Int.bmod n (2^64)

lemma uint64_lt (n : ℤ) : uint64 n < 256^8 := by
  unfold uint64
  omega

lemma int64_uint64 {n : ℤ} (h : FitsInt64 n) : int64 (uint64 n) = n := by
  obtain ⟨hle,hlt⟩ := h
  unfold int64 uint64
  rw [Int.bmod_def]
  push_cast
  split_ifs <;> omega

lemma fitsInt64_int64 (n : ℕ) : FitsInt64 (int64 n) := by
  unfold FitsInt64 int64
  rw [Int.bmod_def]
  push_cast
  split_ifs <;> omega

lemma uint64_int64 {n : ℕ} (h : n < 256^8) : uint64 (int64 n) = n := by
  unfold int64 uint64
  rw [Int.bmod_def]
  push_cast
  split_ifs <;> omega

/-- `data[low:high]`, of data without spare capacity; `none` is the panic. -/
def slice (data : Bytes) (low high : ℕ) : Option Bytes :=
  if low ≤ high ∧ high ≤ data.length then some ((data.take high).drop low) else none

lemma slice_eq_some_iff {data bs : Bytes} {low high : ℕ} :
    slice data low high = some bs ↔
      ∃ before after, data = before ++ bs ++ after ∧ before.length = low ∧
        low+bs.length = high := by
  unfold slice
  constructor
  · intro h
    split_ifs at h with hbounds
    obtain ⟨hle,hlength⟩ := hbounds
    obtain rfl := Option.some.inj h
    refine ⟨data.take low,data.drop high,?_,by simp; omega,by simp; omega⟩
    have hstart : data.take high = data.take low ++ (data.take high).drop low := by
      conv_lhs => rw [← List.take_append_drop low (data.take high),List.take_take,min_eq_left hle]
    rw [← hstart,List.take_append_drop]
  · rintro ⟨before,after,rfl,rfl,rfl⟩
    have htake : (before ++ bs ++ after).take (before.length+bs.length) = before ++ bs := by
      rw [← List.length_append,List.take_left]
    rw [if_pos (by simp),htake,List.drop_left]

lemma exists_slice {data : Bytes} {low high : ℕ} (h : low ≤ high) (h' : high ≤ data.length) :
    ∃ bs, slice data low high = some bs := ⟨_,if_pos ⟨h,h'⟩⟩

lemma slice_bounds {data bs : Bytes} {low high : ℕ} (h : slice data low high = some bs) :
    low+bs.length = high ∧ high ≤ data.length := by
  obtain ⟨before,after,rfl,rfl,rfl⟩ := slice_eq_some_iff.mp h
  simp

lemma slice_append_iff {data bs cs : Bytes} {low high : ℕ} :
    slice data low high = some (bs ++ cs) ↔
      slice data low (low+bs.length) = some bs ∧ slice data (low+bs.length) high = some cs := by
  constructor
  · intro h
    obtain ⟨before,after,rfl,rfl,rfl⟩ := slice_eq_some_iff.mp h
    constructor
    · exact slice_eq_some_iff.mpr ⟨before,cs ++ after,by simp,rfl,rfl⟩
    · refine slice_eq_some_iff.mpr ⟨before ++ bs,after,by simp,by simp,?_⟩
      rw [List.length_append,Nat.add_assoc]
  · rintro ⟨h,h'⟩
    obtain ⟨before,after,hdata,hlow,-⟩ := slice_eq_some_iff.mp h
    obtain ⟨before',after',hdata',hlow',hhigh⟩ := slice_eq_some_iff.mp h'
    have heq : before ++ bs ++ after = before' ++ (cs ++ after') := by
      rw [← hdata,hdata',List.append_assoc]
    obtain ⟨rfl,-⟩ := List.append_inj heq (by rw [List.length_append]; omega)
    refine slice_eq_some_iff.mpr ⟨before,after',?_,hlow,by rw [List.length_append]; omega⟩
    rw [hdata']
    simp only [List.append_assoc]

lemma isPrefix_iff_slice {bs data : Bytes} : bs <+: data ↔ slice data 0 bs.length = some bs := by
  rw [slice_eq_some_iff]
  constructor
  · rintro ⟨after,rfl⟩
    exact ⟨[],after,rfl,rfl,Nat.zero_add _⟩
  · rintro ⟨before,after,rfl,hbefore,-⟩
    rw [List.length_eq_zero_iff.mp hbefore]
    exact ⟨after,rfl⟩

def number (order : ByteOrder) (width : ℕ) (data : Bytes) (offset : ℕ) : Option ℕ :=
  (slice data offset (offset+width)).map order.get

lemma number_eq_some_iff {order : ByteOrder} {width : ℕ} {data : Bytes} {offset n : ℕ} :
    number order width data offset = some n ↔
      n < 256^width ∧ slice data offset (offset+width) = some (order.put width n) := by
  rw [number,Option.map_eq_some_iff]
  constructor
  · rintro ⟨bs,hbs,rfl⟩
    obtain ⟨-,-,-,-,hlength⟩ := slice_eq_some_iff.mp hbs
    obtain rfl : bs.length = width := by omega
    exact ⟨order.get_lt bs,by rw [order.put_get,hbs]⟩
  · rintro ⟨hn,hslice⟩
    exact ⟨_,hslice,order.get_put hn⟩

lemma exists_number (order : ByteOrder) {width : ℕ} {data : Bytes} {offset : ℕ}
    (h : offset+width ≤ data.length) : ∃ n, number order width data offset = some n := by
  obtain ⟨bs,hbs⟩ := exists_slice (Nat.le_add_right offset width) h
  exact ⟨_,by rw [number,hbs]; rfl⟩

end MetaStore
