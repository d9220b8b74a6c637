import MetaStore.Library.Utf8

/-! JSON texts over byte strings, written and read as encoding/json does. Strings are
written with HTML-safe escapes and with every invalid byte as an escaped U+FFFD; reading
decodes the escapes and cleans what it copies. `Reads` relates a text to the value found
wherever the text stands, and composes over arrays and objects. -/
namespace MetaStore

inductive Json
  | null
  | bool (b : Bool)
  | number (literal : Bytes)
  | string (s : Bytes)
  | array (items : List Json)
  | object (members : List (Bytes × Json))

namespace Json
open Utf8

def quotation : UInt8 := 0x22
def backslash : UInt8 := 0x5C

/-! ### Writing -/

def hexDigit (d : ℕ) : UInt8 := UInt8.ofNat (if d < 10 then 48+d else 87+d)

/-- The escape `\u00xx` of one byte, without its backslash. -/
def hexEscape (b : UInt8) : Bytes := ascii "u00" ++ [hexDigit (b.toNat/16),hexDigit (b.toNat%16)]

def byteEscape (b : UInt8) : Option Bytes :=
  if b = quotation ∨ b = backslash then some [b]
  else if b = 0x08 then some (ascii "b")
  else if b = 0x0C then some (ascii "f")
  else if b = 0x0A then some (ascii "n")
  else if b = 0x0D then some (ascii "r")
  else if b = 0x09 then some (ascii "t")
  else if b < 0x20 ∨ b = 0x3C ∨ b = 0x3E ∨ b = 0x26 then some (hexEscape b)
  else none

/-- The escape of a rune's bytes: what JSON or HTML gives a meaning to, and the two line
separators JavaScript does not allow in strings. -/
def bytesEscape : Bytes → Option Bytes
  | [b] => byteEscape b
  | bs =>
    if bs = [0xE2,0x80,0xA8] then some (ascii "u2028")
    else if bs = [0xE2,0x80,0xA9] then some (ascii "u2029")
    else none

def runeEscape : Rune → Option Bytes
  | .valid bs _ => bytesEscape bs
  | .invalid _ => some (ascii "ufffd")

def writeRune (r : Rune) : Bytes :=
  match runeEscape r with
  | some escape => backslash :: escape
  | none => r.raw

def writeString (s : Bytes) : Bytes :=
  quotation :: ((runes s).flatMap writeRune ++ [quotation])

def base64Digit (n : ℕ) : UInt8 :=
  UInt8.ofNat (if n < 26 then 65+n else if n < 52 then 71+n else if n < 62 then n-4
    else if n = 62 then 43 else 47)

def base64 : Bytes → Bytes
  | [] => []
  | [a] => [base64Digit (a.toNat/4),base64Digit (a.toNat%4*16),0x3D,0x3D]
  | [a,b] =>
    [base64Digit (a.toNat/4),base64Digit (a.toNat%4*16+b.toNat/16),base64Digit (b.toNat%16*4),0x3D]
  | a :: b :: c :: rest =>
    base64Digit (a.toNat/4) :: base64Digit (a.toNat%4*16+b.toNat/16) ::
      base64Digit (b.toNat%16*4+c.toNat/64) :: base64Digit (c.toNat%64) :: base64 rest

/-- A byte slice is written as a string in base 64. -/
def writeBytes (bs : Bytes) : Bytes := quotation :: (base64 bs ++ [quotation])

def writeInt (n : ℤ) : Bytes := decimal n

def writeBool (b : Bool) : Bytes := ascii (if b then "true" else "false")

def writeArray (items : List Bytes) : Bytes :=
  0x5B :: ([0x2C].intercalate items ++ [0x5D])

def writeMember (member : Bytes × Bytes) : Bytes := writeString member.1 ++ 0x3A :: member.2

def writeObject (members : List (Bytes × Bytes)) : Bytes :=
  0x7B :: ([0x2C].intercalate (members.map writeMember) ++ [0x7D])

/-! ### Reading -/

def isSpace (b : UInt8) : Bool := b == 0x20 || b == 0x09 || b == 0x0A || b == 0x0D

def skipSpace (text : Bytes) : Bytes := text.dropWhile isSpace

def hexValue (b : UInt8) : Option ℕ :=
  if 48 ≤ b ∧ b ≤ 57 then some (b.toNat-48)
  else if 97 ≤ b ∧ b ≤ 102 then some (b.toNat-87)
  else if 65 ≤ b ∧ b ≤ 70 then some (b.toNat-55)
  else none

def hexCode : Bytes → Option (ℕ × Bytes)
  | a :: b :: c :: d :: rest => do
    let a ← hexValue a
    let b ← hexValue b
    let c ← hexValue c
    let d ← hexValue d
    return (((a*16+b)*16+c)*16+d,rest)
  | _ => none

def encodeRune (code : ℕ) : Bytes :=
  if code < 0x80 then [UInt8.ofNat code]
  else if code < 0x800 then [UInt8.ofNat (0xC0+code/64),UInt8.ofNat (0x80+code%64)]
  else if (0xD800 ≤ code ∧ code < 0xE000) ∨ 0x10FFFF < code then Rune.replacement
  else if code < 0x10000 then
    [UInt8.ofNat (0xE0+code/4096),UInt8.ofNat (0x80+code/64%64),UInt8.ofNat (0x80+code%64)]
  else
    [UInt8.ofNat (0xF0+code/262144),UInt8.ofNat (0x80+code/4096%64),
      UInt8.ofNat (0x80+code/64%64),UInt8.ofNat (0x80+code%64)]

/-- The low half of a surrogate pair, written as a further escape. -/
def lowSurrogate : Bytes → Option (ℕ × Bytes)
  | a :: b :: rest =>
    if a = backslash ∧ b = 0x75 then
      (hexCode rest).filter fun c => decide (0xDC00 ≤ c.1) && decide (c.1 < 0xE000)
    else none
  | _ => none

/-- A surrogate that is not half of a pair is read as U+FFFD. -/
def unicodeEscape (code : ℕ) (rest : Bytes) : Bytes × Bytes :=
  if 0xD800 ≤ code ∧ code < 0xDC00 then
    match lowSurrogate rest with
    | some (low,rest') => (encodeRune (0x10000+(code-0xD800)*1024+(low-0xDC00)),rest')
    | none => (Rune.replacement,rest)
  else (encodeRune code,rest)

def simpleEscape (b : UInt8) : Option UInt8 :=
  if b = quotation ∨ b = backslash ∨ b = 0x2F then some b
  else if b = 0x62 then some 0x08
  else if b = 0x66 then some 0x0C
  else if b = 0x6E then some 0x0A
  else if b = 0x72 then some 0x0D
  else if b = 0x74 then some 0x09
  else none

def unescape : Bytes → Option (Bytes × Bytes)
  | [] => none
  | b :: rest =>
    if b = 0x75 then (hexCode rest).map fun c => unicodeEscape c.1 c.2
    else (simpleEscape b).map fun c => ([c],rest)

def readString : ℕ → Bytes → Option (Bytes × Bytes)
  | 0, _ => none
  | _+1, [] => none
  | n+1, b :: rest =>
    if b = quotation then some ([],rest)
    else if b = backslash then
      (unescape rest).bind fun e => (readString n e.2).map fun s => (e.1 ++ s.1,s.2)
    else if b < 0x20 then none
    else
      let r := firstRune b rest
      (readString n ((b :: rest).drop r.raw.length)).map fun s => (r.clean ++ s.1,s.2)

def isDigit (b : UInt8) : Bool := decide (48 ≤ b) && decide (b ≤ 57)

def skipDigits : Bytes → Option Bytes
  | [] => none
  | b :: rest => if isDigit b then some (rest.dropWhile isDigit) else none

def skipInteger : Bytes → Option Bytes
  | 48 :: rest => some rest
  | text => skipDigits text

def skipFraction : Bytes → Option Bytes
  | 0x2E :: rest => skipDigits rest
  | text => some text

def skipExponent : Bytes → Option Bytes
  | [] => some []
  | b :: rest =>
    if b = 0x65 ∨ b = 0x45 then
      match rest with
      | 0x2B :: rest => skipDigits rest
      | 0x2D :: rest => skipDigits rest
      | rest => skipDigits rest
    else some (b :: rest)

def readNumber (text : Bytes) : Option (Json × Bytes) := do
  let rest ← skipInteger (match text with | 0x2D :: rest => rest | text => text)
  let rest ← skipFraction rest
  let rest ← skipExponent rest
  return (number (text.take (text.length-rest.length)),rest)

def readLiteral (literal : Bytes) (j : Json) (text : Bytes) : Option (Json × Bytes) :=
  if literal <+: text then some (j,text.drop literal.length) else none

mutual
/-- One value at the start of a text, of at most `depth` levels. -/
def readValue : ℕ → ℕ → Bytes → Option (Json × Bytes)
  | 0, _, _ => none
  | n+1, depth, text =>
    match skipSpace text with
    | [] => none
    | b :: rest =>
      if b = quotation then (readString rest.length rest).map fun s => (string s.1,s.2)
      else if b = 0x7B then
        match depth with
        | 0 => none
        | depth+1 =>
          match skipSpace rest with
          | 0x7D :: rest => some (object [],rest)
          | rest => (readMembers n depth rest).map fun ms => (object ms.1,ms.2)
      else if b = 0x5B then
        match depth with
        | 0 => none
        | depth+1 =>
          match skipSpace rest with
          | 0x5D :: rest => some (array [],rest)
          | rest => (readItems n depth rest).map fun js => (array js.1,js.2)
      else if b = 0x74 then readLiteral (ascii "true") (bool true) (b :: rest)
      else if b = 0x66 then readLiteral (ascii "false") (bool false) (b :: rest)
      else if b = 0x6E then readLiteral (ascii "null") null (b :: rest)
      else readNumber (b :: rest)

def readItems : ℕ → ℕ → Bytes → Option (List Json × Bytes)
  | 0, _, _ => none
  | n+1, depth, text =>
    (readValue n depth text).bind fun j =>
      match skipSpace j.2 with
      | 0x2C :: rest => (readItems n depth rest).map fun js => (j.1 :: js.1,js.2)
      | 0x5D :: rest => some ([j.1],rest)
      | _ => none

def readMembers : ℕ → ℕ → Bytes → Option (List (Bytes × Json) × Bytes)
  | 0, _, _ => none
  | n+1, depth, text =>
    match skipSpace text with
    | 0x22 :: rest =>
      (readString rest.length rest).bind fun key =>
        match skipSpace key.2 with
        | 0x3A :: rest =>
          (readValue n depth rest).bind fun j =>
            match skipSpace j.2 with
            | 0x2C :: rest =>
              (readMembers n depth rest).map fun ms => ((key.1,j.1) :: ms.1,ms.2)
            | 0x7D :: rest => some ([(key.1,j.1)],rest)
            | _ => none
        | _ => none
    | _ => none
end

def maxDepth : ℕ := 10000

def read (text : Bytes) : Option Json :=
  (readValue text.length maxDepth text).bind fun j =>
    if skipSpace j.2 = [] then some j.1 else none

/-! ### Reading what was written -/

lemma hexValue_hexDigit : ∀ d < 16, hexValue (hexDigit d) = some d := by decide

lemma unescape_hexEscape {b : UInt8} (hb : b.toNat < 0x80) (rest : Bytes) :
    unescape (hexEscape b ++ rest) = some ([b],rest) := by
  have hcode : hexCode (48 :: 48 :: hexDigit (b.toNat/16) :: hexDigit (b.toNat%16) :: rest) =
      some (b.toNat,rest) := by
    have hzero : hexValue 48 = some 0 := rfl
    simp only [hexCode,hzero,hexValue_hexDigit (b.toNat/16) (by omega),
      hexValue_hexDigit (b.toNat%16) (by omega),Option.bind_eq_bind,Option.bind_some]
    congr 2
    omega
  have hrune : unicodeEscape b.toNat rest = ([b],rest) := by
    rw [unicodeEscape,if_neg (by omega),encodeRune,if_pos (by omega),UInt8.ofNat_toNat]
  change (hexCode (48 :: 48 :: _ :: _ :: rest)).map _ = _
  rw [hcode,Option.map_some,hrune]

lemma unescape_byteEscape {b : UInt8} {e : Bytes} (h : byteEscape b = some e) (rest : Bytes) :
    unescape (e ++ rest) = some ([b],rest) := by
  unfold byteEscape at h
  split_ifs at h with h1 h2 h3 h4 h5 h6 h7
  · cases h
    rcases h1 with rfl | rfl <;> rfl
  all_goals cases h
  · subst h2; rfl
  · subst h3; rfl
  · subst h4; rfl
  · subst h5; rfl
  · subst h6; rfl
  · refine unescape_hexEscape ?_ rest
    rcases h7 with h7 | rfl | rfl | rfl
    · have hlt : b.toNat < 0x20 := UInt8.lt_iff_toNat_lt.mp h7
      omega
    all_goals decide

lemma unescape_runeEscape {r : Rune} {e : Bytes} (h : runeEscape r = some e) (rest : Bytes) :
    unescape (e ++ rest) = some (r.clean,rest) := by
  cases r with
  | invalid b =>
    cases h
    have hrune : unicodeEscape 0xFFFD rest = (Rune.replacement,rest) := by
      rw [unicodeEscape,if_neg (by decide)]
      rfl
    exact congrArg some hrune
  | valid bs hbs =>
    change bytesEscape bs = some e at h
    rw [bytesEscape.eq_def] at h
    split at h
    · exact unescape_byteEscape h rest
    · split_ifs at h with h1 h2
      · cases h
        have hrune : unicodeEscape 0x2028 rest = (bs,rest) := by
          rw [unicodeEscape,if_neg (by decide),h1]
          rfl
        exact congrArg some hrune
      · cases h
        have hrune : unicodeEscape 0x2029 rest = (bs,rest) := by
          rw [unicodeEscape,if_neg (by decide),h2]
          rfl
        exact congrArg some hrune

/-- A rune written as it is starts with a byte that neither ends nor escapes nor breaks
the string. -/
lemma runeEscape_eq_none {r : Rune} (h : runeEscape r = none) :
    ∃ b bs hr, r = .valid (b :: bs) hr ∧ b ≠ quotation ∧ b ≠ backslash ∧ ¬ b < 0x20 := by
  cases r with
  | invalid b => cases h
  | valid bs hbs =>
    change bytesEscape bs = none at h
    cases bs with
    | nil => cases hbs
    | cons b bs =>
      refine ⟨b,bs,hbs,rfl,?_⟩
      rcases runeLength_cons.mp hbs with ⟨-,hlen⟩ | ⟨hb,-⟩
      · obtain rfl : bs = [] := by simpa using hlen
        change byteEscape b = none at h
        unfold byteEscape at h
        split_ifs at h
        simp_all
      · refine ⟨?_,?_,?_⟩
        · rintro rfl; exact hb (by decide)
        · rintro rfl; exact hb (by decide)
        · exact fun hlt => hb (UInt8.lt_trans hlt (by decide))

/-- Reading takes one step for each rune written. -/
lemma readString_writeRune (r : Rune) (n : ℕ) (rest : Bytes) :
    readString (n+1) (writeRune r ++ rest) =
      (readString n rest).map fun s => (r.clean ++ s.1,s.2) := by
  unfold writeRune
  cases he : runeEscape r with
  | some e =>
    simp only [List.cons_append,readString]
    rw [if_neg (by decide),if_pos trivial,unescape_runeEscape he rest,Option.bind_some]
  | none =>
    obtain ⟨b,bs,hr,rfl,hq,hs,hc⟩ := runeEscape_eq_none he
    simp only [Rune.raw,List.cons_append,readString]
    rw [if_neg hq,if_neg hs,if_neg hc,firstRune_append hr rest]
    simp

lemma writeRune_ne_nil (r : Rune) : writeRune r ≠ [] := by
  unfold writeRune
  cases he : runeEscape r with
  | some e => simp
  | none =>
    obtain ⟨b,bs,hr,rfl,-⟩ := runeEscape_eq_none he
    simp [Rune.raw]

lemma readString_runes (rs : List Rune) (rest : Bytes) {n : ℕ}
    (hn : (rs.flatMap writeRune).length < n) :
    readString n (rs.flatMap writeRune ++ quotation :: rest) =
      some (rs.flatMap Rune.clean,rest) := by
  induction rs generalizing n with
  | nil =>
    obtain ⟨m,rfl⟩ := Nat.exists_eq_add_of_lt hn
    rfl
  | cons r rs ih =>
    obtain ⟨m,rfl⟩ := Nat.exists_eq_add_one_of_ne_zero (Nat.ne_zero_of_lt hn)
    have hpos := List.length_pos_iff.mpr (writeRune_ne_nil r)
    simp only [List.flatMap_cons,List.length_append] at hn
    rw [List.flatMap_cons,List.append_assoc,readString_writeRune,ih (by omega),Option.map_some]
    rfl

theorem readString_written (s rest : Bytes) :
    readString ((runes s).flatMap writeRune ++ quotation :: rest).length
      ((runes s).flatMap writeRune ++ quotation :: rest) = some (sanitize s,rest) :=
  readString_runes _ _ (by simp)

lemma skipSpace_cons {b : UInt8} (hb : isSpace b = false) (rest : Bytes) :
    skipSpace (b :: rest) = b :: rest := by
  simp [skipSpace,hb]

structure Reads (text : Bytes) (depth : ℕ) (j : Json) : Prop where
  opens : ∃ b bs, text = b :: bs ∧ isSpace b = false ∧ b ≠ 0x5D
  reads : ∀ n d rest, text.length ≤ n → depth ≤ d → readValue n d (text ++ rest) = some (j,rest)

lemma Reads.mono {text : Bytes} {depth depth' : ℕ} {j : Json} (h : Reads text depth j)
    (hle : depth ≤ depth') : Reads text depth' j :=
  ⟨h.opens,fun n d rest hn hd => h.reads n d rest hn (hle.trans hd)⟩

theorem reads_writeString (s : Bytes) : Reads (writeString s) 0 (string (sanitize s)) where
  opens := ⟨_,_,rfl,by decide,by decide⟩
  reads n d rest hn _ := by
    obtain ⟨m,rfl⟩ := Nat.exists_eq_add_one_of_ne_zero (show n ≠ 0 by
      rintro rfl; exact absurd hn (by simp [writeString]))
    have hspace : isSpace quotation = false := rfl
    simp only [writeString,List.cons_append,List.append_assoc,List.nil_append,readValue,
      skipSpace_cons hspace,if_true,readString_written,Option.map_some]

theorem reads_writeBool (b : Bool) : Reads (writeBool b) 0 (bool b) where
  opens := by cases b <;> exact ⟨_,_,rfl,by decide,by decide⟩
  reads n d rest hn _ := by
    obtain ⟨m,rfl⟩ := Nat.exists_eq_add_one_of_ne_zero (show n ≠ 0 by
      rintro rfl; cases b <;> exact absurd hn (by decide))
    cases b <;> rfl

lemma Reads.ne_nil {text : Bytes} {depth : ℕ} {j : Json} (h : Reads text depth j) : text ≠ [] := by
  obtain ⟨b,bs,rfl,-⟩ := h.opens
  simp

lemma readItems_written {depth : ℕ} {texts : List Bytes} {js : List Json}
    (h : List.Forall₂ (fun t j => Reads t depth j) texts js) (hne : texts ≠ []) (rest : Bytes)
    {n d : ℕ} (hn : ([0x2C].intercalate texts).length < n) (hd : depth ≤ d) :
    readItems n d ([0x2C].intercalate texts ++ 0x5D :: rest) = some (js,rest) := by
  induction h generalizing n with
  | nil => exact absurd rfl hne
  | @cons t j ts js ht hts ih =>
    obtain ⟨m,rfl⟩ := Nat.exists_eq_add_one_of_ne_zero (Nat.ne_zero_of_lt hn)
    cases hts with
    | nil =>
      rw [List.intercalate_singleton] at hn ⊢
      rw [readItems,ht.reads m d _ (by omega) hd,Option.bind_some]
      rfl
    | @cons u _ us _ hu hus =>
      rw [List.intercalate_cons_cons,List.length_append,List.length_append] at hn
      have hpos := List.length_pos_iff.mpr ht.ne_nil
      rw [List.intercalate_cons_cons,List.append_assoc,List.append_assoc,readItems,
        ht.reads m d _ (by omega) hd,Option.bind_some]
      change (readItems m d ([0x2C].intercalate (u :: us) ++ 0x5D :: rest)).map _ = _
      rw [ih (by simp) (by omega)]
      rfl

lemma intercalate_head (sep : Bytes) (b : UInt8) (bs : Bytes) (ts : List Bytes) :
    ∃ tail, sep.intercalate ((b :: bs) :: ts) = b :: tail := by
  cases ts with
  | nil => exact ⟨bs,List.intercalate_singleton⟩
  | cons t ts => exact ⟨_,List.intercalate_cons_cons⟩

theorem reads_writeArray {depth : ℕ} {texts : List Bytes} {js : List Json}
    (h : List.Forall₂ (fun t j => Reads t depth j) texts js) :
    Reads (writeArray texts) (depth+1) (array js) where
  opens := ⟨_,_,rfl,by decide,by decide⟩
  reads n d rest hn hd := by
    obtain ⟨m,rfl⟩ := Nat.exists_eq_add_one_of_ne_zero (show n ≠ 0 by
      rintro rfl; exact absurd hn (by simp [writeArray]))
    obtain ⟨d,rfl⟩ := Nat.exists_eq_add_one_of_ne_zero (show d ≠ 0 by omega)
    simp only [writeArray,List.length_cons,List.length_append,List.length_nil] at hn
    cases h with
    | nil => rfl
    | @cons t j ts js ht hts =>
      have hitems := readItems_written (List.Forall₂.cons ht hts) (by simp) rest
        (show _ < m by omega) (show depth ≤ d by omega)
      obtain ⟨b,bs,rfl,hspace,hb⟩ := ht.opens
      obtain ⟨tail,htail⟩ := intercalate_head [0x2C] b bs ts
      rw [htail] at hitems
      have hopen : isSpace 0x5B = false := rfl
      simp only [writeArray,List.cons_append,List.append_assoc,List.nil_append,htail,readValue,
        skipSpace_cons hopen,skipSpace_cons hspace]
      rw [if_neg (by decide),if_neg (by decide),if_pos trivial]
      rw [List.cons_append] at hitems
      split
      · next hc => exact absurd (List.cons.inj hc).1 hb
      · rw [hitems]
        rfl

def ReadsMember (depth : ℕ) (member : Bytes × Bytes) (read : Bytes × Json) : Prop :=
  read.1 = sanitize member.1 ∧ Reads member.2 depth read.2

lemma readMembers_written_first {depth : ℕ} {member : Bytes × Bytes} {read : Bytes × Json}
    (h : ReadsMember depth member read) {m d : ℕ} (hm : (writeMember member).length ≤ m)
    (hd : depth ≤ d) (rest : Bytes) :
    readMembers (m+1) d (writeMember member ++ rest) =
      match skipSpace rest with
      | 0x2C :: rest => (readMembers m d rest).map fun ms => (read :: ms.1,ms.2)
      | 0x7D :: rest => some ([read],rest)
      | _ => none := by
  obtain ⟨key,text⟩ := member
  obtain ⟨key',j⟩ := read
  obtain ⟨rfl,hj⟩ : key' = sanitize key ∧ Reads text depth j := h
  have hquote : isSpace quotation = false := rfl
  have hcolon : isSpace 0x3A = false := rfl
  simp only [writeMember,List.length_append,List.length_cons] at hm
  have hkey := readString_written key (0x3A :: (text ++ rest))
  simp only [writeMember,writeString,List.cons_append,List.append_assoc,List.nil_append,
    readMembers,skipSpace_cons hquote]
  change (readString _ _).bind _ = _
  rw [hkey,Option.bind_some,skipSpace_cons hcolon]
  change (readValue m d (text ++ rest)).bind _ = _
  rw [hj.reads m d rest (by omega) hd,Option.bind_some]

lemma readMembers_written {depth : ℕ} {members : List (Bytes × Bytes)}
    {reads : List (Bytes × Json)} (h : List.Forall₂ (ReadsMember depth) members reads)
    (hne : members ≠ []) (rest : Bytes) {n d : ℕ}
    (hn : ([0x2C].intercalate (members.map writeMember)).length < n) (hd : depth ≤ d) :
    readMembers n d ([0x2C].intercalate (members.map writeMember) ++ 0x7D :: rest) =
      some (reads,rest) := by
  induction h generalizing n with
  | nil => exact absurd rfl hne
  | @cons p q ps qs hp hps ih =>
    obtain ⟨m,rfl⟩ := Nat.exists_eq_add_one_of_ne_zero (Nat.ne_zero_of_lt hn)
    cases hps with
    | nil =>
      rw [List.map_singleton,List.intercalate_singleton] at hn ⊢
      rw [readMembers_written_first hp (by omega) hd]
      rfl
    | @cons u _ us _ hu hus =>
      rw [List.map_cons,List.map_cons,List.intercalate_cons_cons,List.length_append,
        List.length_append,← List.map_cons] at hn
      rw [List.map_cons,List.map_cons,List.intercalate_cons_cons,← List.map_cons,
        List.append_assoc,List.append_assoc,readMembers_written_first hp (by omega) hd]
      change (readMembers m d
        ([0x2C].intercalate ((u :: us).map writeMember) ++ 0x7D :: rest)).map _ = _
      rw [ih (by simp) (by simp [writeMember,writeString] at hn ⊢; omega)]
      rfl

theorem reads_writeObject {depth : ℕ} {members : List (Bytes × Bytes)}
    {reads : List (Bytes × Json)} (h : List.Forall₂ (ReadsMember depth) members reads) :
    Reads (writeObject members) (depth+1) (object reads) where
  opens := ⟨_,_,rfl,by decide,by decide⟩
  reads n d rest hn hd := by
    obtain ⟨m,rfl⟩ := Nat.exists_eq_add_one_of_ne_zero (show n ≠ 0 by
      rintro rfl; exact absurd hn (by simp [writeObject]))
    obtain ⟨d,rfl⟩ := Nat.exists_eq_add_one_of_ne_zero (show d ≠ 0 by omega)
    simp only [writeObject,List.length_cons,List.length_append,List.length_nil] at hn
    cases h with
    | nil => rfl
    | @cons p q ps qs hp hps =>
      have hmembers := readMembers_written (List.Forall₂.cons hp hps) (by simp) rest
        (show _ < m by omega) (show depth ≤ d by omega)
      obtain ⟨tail,htail⟩ := intercalate_head [0x2C] quotation
        ((runes p.1).flatMap writeRune ++ [quotation] ++ 0x3A :: p.2) (ps.map writeMember)
      have hfirst : [0x2C].intercalate ((p :: ps).map writeMember) = quotation :: tail := htail
      rw [hfirst,List.cons_append] at hmembers
      have hopen : isSpace 0x7B = false := rfl
      have hquote : isSpace quotation = false := rfl
      simp only [writeObject,List.cons_append,List.append_assoc,List.nil_append,hfirst,readValue,
        skipSpace_cons hopen,skipSpace_cons hquote]
      rw [if_neg (by decide),if_pos trivial]
      change (readMembers m d _).map _ = _
      rw [hmembers]
      rfl

theorem Reads.read_eq {text : Bytes} {depth : ℕ} {j : Json} (h : Reads text depth j)
    (hdepth : depth ≤ maxDepth) : read text = some j := by
  have hread := h.reads text.length maxDepth [] le_rfl hdepth
  rw [List.append_nil] at hread
  rw [read,hread]
  rfl

lemma readLiteral_eq_some {literal text : Bytes} {j k : Json} {rest : Bytes}
    (h : readLiteral literal j text = some (k,rest)) : k = j := by
  unfold readLiteral at h
  split_ifs at h
  exact (Prod.mk.inj (Option.some.inj h)).1.symm

lemma readNumber_eq_some {text rest : Bytes} {j : Json} (h : readNumber text = some (j,rest)) :
    ∃ literal, j = number literal := by
  simp only [readNumber,Option.bind_eq_bind,Option.bind_eq_some_iff] at h
  obtain ⟨_,-,_,-,_,-,h⟩ := h
  exact ⟨_,(Prod.mk.inj (Option.some.inj h)).1.symm⟩

theorem readValue_ne_object {n depth : ℕ} {text : Bytes} {b : UInt8} {bs rest : Bytes}
    (h : skipSpace text = b :: bs) (hb : b ≠ 0x7B) (members : List (Bytes × Json)) :
    readValue n depth text ≠ some (object members,rest) := by
  intro hread
  cases n with
  | zero => cases hread
  | succ n =>
    rw [readValue.eq_def] at hread
    simp only [h,hb,if_false] at hread
    split_ifs at hread
    · obtain ⟨s,-,hs⟩ := Option.map_eq_some_iff.mp hread
      cases (Prod.mk.inj hs).1
    · cases depth with
      | zero => cases hread
      | succ depth =>
        dsimp only at hread
        split at hread
        · cases hread
        · obtain ⟨js,-,hjs⟩ := Option.map_eq_some_iff.mp hread
          cases (Prod.mk.inj hjs).1
    · cases readLiteral_eq_some hread
    · cases readLiteral_eq_some hread
    · cases readLiteral_eq_some hread
    · obtain ⟨literal,hl⟩ := readNumber_eq_some hread
      cases hl

theorem read_ne_object {text : Bytes} {b : UInt8} {bs : Bytes} (h : skipSpace text = b :: bs)
    (hb : b ≠ 0x7B) (members : List (Bytes × Json)) : read text ≠ some (object members) := by
  intro hread
  obtain ⟨⟨j,rest⟩,hv,hj⟩ := Option.bind_eq_some_iff.mp hread
  dsimp only at hj
  split_ifs at hj
  cases hj
  exact readValue_ne_object h hb members hv

end Json
end MetaStore
