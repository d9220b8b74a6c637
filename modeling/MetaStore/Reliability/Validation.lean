import MetaStore.Library.Endian
import MetaStore.Memory.Hash

/-! Checksums of snapshots (pkg/reliability/validation.go). A panic is `none`; the counter of failed
checks is left out. -/
namespace MetaStore.Reliability
open Memory

def crcMismatch (expectedCRC actualCRC : ℕ) : String :=
  "CRC mismatch: expected " ++ String.ofList (Nat.toDigits 16 expectedCRC) ++ ", got " ++
    String.ofList (Nat.toDigits 16 actualCRC)

variable (enableCRC : Bool)

def validateData (data : Bytes) (expectedCRC : ℕ) : Except String Unit :=
  if enableCRC = false then .ok ()
  else
    let actualCRC := (checksumIEEE data).toNat
    if actualCRC ≠ expectedCRC then .error (crcMismatch expectedCRC actualCRC) else .ok ()

def appendCRC (data : Bytes) : Bytes :=
  if enableCRC = false then data
  else data ++ ByteOrder.little.put 4 (checksumIEEE data).toNat

/-- A length less something, as a bound of a slice; a negative bound panics. -/
def bound (length less : ℕ) : Option ℕ := if less ≤ length then some (length-less) else none

def validateAndStripCRC (data : Bytes) : Option (Except String Bytes) :=
  if enableCRC = false then some (.ok data)
  else if data.length < 4 then some (.error "data too short for CRC validation")
  else do
    let dataLen ← bound data.length 4
    let expectedCRC ← number .little 4 data dataLen
    let stripped ← slice data 0 dataLen
    let actualCRC := (checksumIEEE stripped).toNat
    some (if actualCRC ≠ expectedCRC then .error (crcMismatch expectedCRC actualCRC)
      else .ok stripped)

/-- The arguments of `ValidateData` are sliced whether checksums are enabled or not. -/
def validateSnapshot (snapshot : Bytes) : Option (Except String Unit) :=
  if snapshot.length = 0 then some (.ok ())
  else do
    let dataLen ← bound snapshot.length 4
    let data ← slice snapshot 0 dataLen
    let expectedCRC ← number .little 4 snapshot dataLen
    some (validateData enableCRC data expectedCRC)

def createSnapshot (data : Bytes) : Bytes := appendCRC enableCRC data

lemma exists_append_put {s : Bytes} (h : 4 ≤ s.length) :
    ∃ d n, n < 256^4 ∧ s = d ++ ByteOrder.little.put 4 n := by
  obtain ⟨d,tail,rfl,htail⟩ : ∃ d tail, s = d ++ tail ∧ tail.length = 4 :=
    ⟨_,_,(List.take_append_drop (s.length-4) s).symm,by rw [List.length_drop]; omega⟩
  exact ⟨d,ByteOrder.little.get tail,htail ▸ ByteOrder.get_lt _ _,by rw [← htail,ByteOrder.put_get]⟩

section Parts
variable {n : ℕ} (hn : n < 256^4) (d : Bytes)
include hn

lemma reads_append_put :
    bound (d ++ ByteOrder.little.put 4 n).length 4 = some d.length ∧
    slice (d ++ ByteOrder.little.put 4 n) 0 d.length = some d ∧
    number .little 4 (d ++ ByteOrder.little.put 4 n) d.length = some n := by
  refine ⟨?_,?_,number_eq_some_iff.mpr ⟨hn,?_⟩⟩
  · simp [bound]
  · exact slice_eq_some_iff.mpr ⟨[],_,rfl,rfl,Nat.zero_add _⟩
  · exact slice_eq_some_iff.mpr ⟨d,[],by simp,rfl,by simp⟩

lemma validateSnapshot_append :
    validateSnapshot enableCRC (d ++ ByteOrder.little.put 4 n) =
      some (validateData enableCRC d n) := by
  obtain ⟨hbound,hslice,hnumber⟩ := reads_append_put hn d
  rw [validateSnapshot,if_neg (by simp),hbound]
  simp only [Option.bind_eq_bind,Option.bind_some,hslice,hnumber]

lemma validateAndStripCRC_append :
    validateAndStripCRC true (d ++ ByteOrder.little.put 4 n) =
      some ((validateData true d n).map fun _ => d) := by
  obtain ⟨hbound,hslice,hnumber⟩ := reads_append_put hn d
  rw [validateAndStripCRC,if_neg (by simp),if_neg (by simp),hbound]
  simp only [Option.bind_eq_bind,Option.bind_some,hslice,hnumber,validateData,Bool.true_eq_false,
    if_false]
  split_ifs <;> rfl

end Parts

lemma validateData_checksum (d : Bytes) :
    validateData enableCRC d (checksumIEEE d).toNat = .ok () := by
  cases enableCRC <;> simp [validateData]

lemma validateSnapshot_of_short {s : Bytes} (h : s ≠ []) (hshort : s.length < 4) :
    validateSnapshot enableCRC s = none := by
  rw [validateSnapshot,if_neg (by simpa using h),bound,if_neg (by omega)]
  rfl

/-- What a validator says of a snapshot is right whenever the snapshot, and with checksums switched
off the data, has no byte or at least four. -/
theorem snapshot_validation_iff (d s : Bytes) :
    (validateSnapshot enableCRC (createSnapshot enableCRC d) = some (.ok ()) ↔
      enableCRC = true ∨ d = [] ∨ 4 ≤ d.length) ∧
    validateAndStripCRC enableCRC (appendCRC enableCRC d) = some (.ok d) ∧
    (validateSnapshot enableCRC s ≠ none ↔ s = [] ∨ 4 ≤ s.length) ∧
    (enableCRC = true → s ≠ [] → (validateSnapshot enableCRC s = some (.ok ()) ↔
      ∃ d, validateAndStripCRC enableCRC s = some (.ok d))) := by
  have hcrc : (checksumIEEE d).toNat < 256^4 := UInt32.toNat_lt _
  have happend : appendCRC true d = d ++ ByteOrder.little.put 4 (checksumIEEE d).toNat := rfl
  have hnil : validateSnapshot enableCRC [] = some (.ok ()) := rfl
  refine ⟨?_,?_,?_,?_⟩
  · cases enableCRC with
    | true =>
      rw [createSnapshot,happend,validateSnapshot_append _ hcrc,validateData_checksum]
      simp
    | false =>
      change validateSnapshot false d = _ ↔ _
      by_cases hlong : 4 ≤ d.length
      · obtain ⟨d',n,hn,rfl⟩ := exists_append_put hlong
        rw [validateSnapshot_append _ hn]
        exact iff_of_true rfl (.inr (.inr hlong))
      · by_cases hempty : d = []
        · exact iff_of_true (hempty ▸ hnil) (.inr (.inl hempty))
        · rw [validateSnapshot_of_short _ hempty (by omega)]
          simp [hlong,hempty]
  · cases enableCRC with
    | true => rw [happend,validateAndStripCRC_append hcrc,validateData_checksum]; rfl
    | false => rfl
  · by_cases hlong : 4 ≤ s.length
    · obtain ⟨d',n,hn,rfl⟩ := exists_append_put hlong
      rw [validateSnapshot_append _ hn]
      exact iff_of_true (Option.some_ne_none _) (.inr hlong)
    · by_cases hempty : s = []
      · rw [hempty,hnil]
        simp
      · rw [validateSnapshot_of_short _ hempty (by omega)]
        simp [hlong,hempty]
  · rintro rfl hne
    by_cases hlong : 4 ≤ s.length
    · obtain ⟨d',n,hn,rfl⟩ := exists_append_put hlong
      rw [validateSnapshot_append _ hn,validateAndStripCRC_append hn]
      cases validateData true d' n <;> simp [Except.map]
    · rw [validateSnapshot_of_short _ hne (by omega),validateAndStripCRC,if_neg (by simp),
        if_pos (by omega)]
      simp

/-- A snapshot of one byte, which with checksums switched off is what `CreateSnapshot` makes of the
data. -/
theorem short_snapshot_panics :
    validateSnapshot false (createSnapshot false (ascii "a")) = none ∧
      validateSnapshot true (ascii "a") = none := ⟨rfl,rfl⟩

end MetaStore.Reliability
