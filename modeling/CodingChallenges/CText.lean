import Mathlib.Data.List.TakeWhile
import Mathlib.Data.Int.DivMod
import Mathlib.Data.List.Infix
import Mathlib.Tactic

/-! C strings and the number texts of the C library.
A string is a list of bytes without NUL, so the terminator is never part of the
value. The number readers follow `strtol` in base ten for 32-bit `int` and
64-bit `long`: white space, one sign, digits, saturation at the ends of `long`. -/
namespace CodingChallenges
namespace CText

abbrev Bytes := List UInt8

def ascii (s : String) : Bytes := s.toList.map fun c => c.toNat.toUInt8

theorem takeWhile_ne {w : Bytes} {c : UInt8} (hw : c ∉ w) (t : Bytes) :
    (w ++ c :: t).takeWhile (· ≠ c) = w := by
  have hp : ∀ b ∈ w, (decide (b ≠ c)) = true := fun b hb => by
    have hne : b ≠ c := by
      rintro rfl
      exact hw hb
    simpa using hne
  rw [List.takeWhile_append_of_pos hp]
  simp

/-- A C string: what a `char *` denotes up to its terminator. -/
@[ext] structure CString where
  bytes : Bytes
  nul_free : 0 ∉ bytes
  deriving DecidableEq

namespace CString

/-- The string that starts at the front of a buffer and ends before its first NUL. -/
def ofBuffer (m : Bytes) : CString where
  bytes := m.takeWhile (· ≠ 0)
  nul_free := fun h => by simpa using List.mem_takeWhile_imp h

def append (a b : CString) : CString where
  bytes := a.bytes ++ b.bytes
  nul_free := by simp [a.nul_free,b.nul_free]

instance : Append CString := ⟨append⟩

def length (s : CString) : ℕ := s.bytes.length

@[simp] theorem append_bytes (a b : CString) : (a ++ b).bytes = a.bytes ++ b.bytes := rfl

@[simp] theorem bytes_ofBuffer (m : Bytes) : (ofBuffer m).bytes = m.takeWhile (· ≠ 0) := rfl

theorem ofBuffer_nul (s : CString) (rest : Bytes) : ofBuffer (s.bytes ++ 0 :: rest) = s := by
  ext1
  exact takeWhile_ne s.nul_free rest

/-- The string from `n` bytes further on, or the empty one. -/
def drop (s : CString) (n : ℕ) : CString where
  bytes := s.bytes.drop n
  nul_free := fun h => s.nul_free (List.mem_of_mem_drop h)

def take (s : CString) (n : ℕ) : CString where
  bytes := s.bytes.take n
  nul_free := fun h => s.nul_free (List.mem_of_mem_take h)

@[simp] theorem drop_bytes (s : CString) (n : ℕ) : (s.drop n).bytes = s.bytes.drop n := rfl
@[simp] theorem take_bytes (s : CString) (n : ℕ) : (s.take n).bytes = s.bytes.take n := rfl

theorem drop_drop (s : CString) (m n : ℕ) : (s.drop m).drop n = s.drop (m+n) := by
  ext1
  simp

theorem drop_succ {s u : CString} {i : ℕ} {b : UInt8} (h : (s.drop i).bytes = b :: u.bytes) :
    s.drop (i+1) = u := by
  have hd : (s.drop i).drop 1 = u := CString.ext (congrArg (List.drop 1) h)
  rw [← hd,drop_drop]

theorem bytes_ofBuffer_of_notMem {m : Bytes} (h : 0 ∉ m) : (ofBuffer m).bytes = m := by
  rw [bytes_ofBuffer,List.takeWhile_eq_self_iff]
  exact fun b hb => by simpa using ne_of_mem_of_not_mem hb h

theorem ofBuffer_self (s : CString) : ofBuffer s.bytes = s := by
  ext1
  exact bytes_ofBuffer_of_notMem s.nul_free

/-- The smallest object that holds the string: its bytes and the terminator. -/
def object (s : CString) : Bytes := s.bytes ++ [0]

theorem ofBuffer_object (s : CString) : ofBuffer s.object = s := ofBuffer_nul s []

@[simp] theorem object_length (s : CString) : s.object.length = s.length+1 := by
  simp [object,length]

theorem drop_object {s : CString} {i : ℕ} (h : i ≤ s.length) :
    s.object.drop i = (s.drop i).object := List.drop_append_of_le_length h

theorem ofBuffer_take_object (s : CString) (n : ℕ) :
    ofBuffer (s.object.take n ++ [0]) = s.take n := by
  by_cases hn : n ≤ s.length
  · have ht : s.object.take n = (s.take n).bytes := List.take_append_of_le_length hn
    rw [ht]
    exact ofBuffer_object (s.take n)
  · have ht : s.object.take n = s.object := List.take_of_length_le (by rw [object_length]; omega)
    have hs : s.take n = s := CString.ext (List.take_of_length_le (Nat.le_of_not_le hn))
    rw [ht,hs,object,List.append_assoc]
    exact ofBuffer_nul s [0]

/-- Bytes past the end of the object are not there to copy. -/
theorem ofBuffer_take_drop_object (s : CString) (i n : ℕ) :
    ofBuffer ((s.object.drop i).take n ++ [0]) = (s.drop i).take n := by
  by_cases hi : i ≤ s.length
  · rw [drop_object hi,ofBuffer_take_object]
  · have hl : s.bytes.length ≤ i := Nat.le_of_not_le hi
    have ho : s.object.drop i = [] := List.drop_eq_nil_of_le (by rw [object_length]; omega)
    ext1
    simp [ho,List.drop_eq_nil_of_le hl]

end CString

def lit (s : String) : CString := CString.ofBuffer (ascii s)

/-- ASCII `tolower`, the only one the "C" locale has. -/
def toLower (b : UInt8) : UInt8 := if 65 ≤ b ∧ b ≤ 90 then b + 32 else b

/-- `strcasecmp(a, b) == 0`. -/
def eqIgnoreCase (a b : CString) : Bool := a.bytes.map toLower == b.bytes.map toLower

theorem eqIgnoreCase_iff (a b : CString) :
    eqIgnoreCase a b = true ↔ a.bytes.map toLower = b.bytes.map toLower := by
  simp [eqIgnoreCase]

theorem eqIgnoreCase_unique {w a b : CString} (ha : eqIgnoreCase w a = true)
    (hb : eqIgnoreCase w b = true) : eqIgnoreCase a b = true := by
  rw [eqIgnoreCase_iff] at *
  exact ha.symm.trans hb

/-- `strstr(s, part) != NULL`. -/
def strstr (s part : CString) : Bool := part.bytes <:+: s.bytes

theorem strstr_iff {s part : CString} : strstr s part = true ↔ part.bytes <:+: s.bytes := by simp [strstr]

def isSpace (b : UInt8) : Bool := b = 32 || (9 ≤ b && b ≤ 13)

def isDigit (b : UInt8) : Bool := 48 ≤ b && b ≤ 57

def INT_MAX : ℤ := 2^31-1
def INT_MIN : ℤ := -2^31
def LONG_MAX : ℤ := 2^63-1
def LONG_MIN : ℤ := -2^63

def digitsValue (ds : Bytes) : ℕ := ds.foldl (fun a d => 10*a + (d.toNat-48)) 0

def signOf : Bytes → ℤ × ℕ
  | 45 :: _ => (-1,1)
  | 43 :: _ => (1,1)
  | _ => (1,0)

/-- The integer a text starts with, unbounded, and how many bytes it takes;
`none` where no conversion can be made. -/
def readNumeral (s : Bytes) : Option (ℤ × ℕ) :=
  let spaces := s.takeWhile isSpace
  let t := s.drop spaces.length
  let sign := signOf t
  let ds := (t.drop sign.2).takeWhile isDigit
  if ds = [] then none
  else some (sign.1*digitsValue ds,spaces.length+sign.2+ds.length)

/-- What `strtol(s, &end, 10)` leaves behind: its value, `end - s`, and whether
`errno` is `ERANGE`. -/
structure Conversion where
  value : ℤ
  used : ℕ
  erange : Bool
  deriving DecidableEq

def strtol (s : CString) : Conversion :=
  match readNumeral s.bytes with
  | none => ⟨0,0,false⟩
  | some (z,n) => ⟨max LONG_MIN (min z LONG_MAX),n,decide (z < LONG_MIN ∨ LONG_MAX < z)⟩

/-- `long long` has the width of `long`. -/
def strtoll (s : CString) : Conversion := strtol s

def toInt (z : ℤ) : ℤ := Int.bmod z (2^32)

def atoi (s : CString) : ℤ := toInt (strtol s).value

theorem toInt_of_range {z : ℤ} (h₁ : INT_MIN ≤ z) (h₂ : z ≤ INT_MAX) : toInt z = z := by
  simp only [INT_MIN,INT_MAX] at h₁ h₂
  exact Int.bmod_eq_of_le (by norm_num; omega) (by norm_num; omega)

def decimalNat (n : ℕ) : Bytes := (Nat.toDigits 10 n).map fun c => c.toNat.toUInt8

def decimal (z : ℤ) : Bytes :=
  if z < 0 then 45 :: decimalNat z.natAbs else decimalNat z.natAbs

theorem toNat_ofDigit {c : Char} (h : c.isDigit = true) :
    48 ≤ c.toNat ∧ c.toNat ≤ 57 ∧ c.toNat.toUInt8.toNat = c.toNat := by
  rw [Char.isDigit_iff_toNat] at h
  have h₁ : 48 ≤ c.toNat := h.1
  have h₂ : c.toNat ≤ 57 := h.2
  refine ⟨h₁,h₂,?_⟩
  simp only [Nat.toUInt8,UInt8.toNat_ofNat']
  omega

theorem isDigit_of_mem_decimalNat {n : ℕ} {b : UInt8} (h : b ∈ decimalNat n) : isDigit b = true := by
  obtain ⟨c,hc,rfl⟩ := List.mem_map.mp h
  have hd := toNat_ofDigit (Nat.isDigit_of_mem_toDigits (by norm_num) (by norm_num) hc)
  simp only [isDigit,Bool.and_eq_true,decide_eq_true_eq,UInt8.le_iff_toNat_le,hd.2.2]
  exact ⟨hd.1,hd.2.1⟩

theorem decimalNat_ne_nil (n : ℕ) : decimalNat n ≠ [] := by
  simp [decimalNat,Nat.toDigits_ne_nil]

theorem digitsValue_map (l : List Char) (hl : ∀ c ∈ l, c.isDigit = true) (a : ℕ) :
    (l.map fun c => c.toNat.toUInt8).foldl (fun a d => 10*a + (d.toNat-48)) a =
      Nat.ofDigitChars 10 l a := by
  induction l generalizing a with
  | nil => simp
  | cons c l ih =>
    have hc := (toNat_ofDigit (hl c (by simp))).2.2
    have ht := ih (fun c hc => hl c (by simp [hc]))
    rw [List.map_cons,List.foldl_cons,ht,Nat.ofDigitChars_cons,hc]
    rfl

@[simp] theorem digitsValue_decimalNat (n : ℕ) : digitsValue (decimalNat n) = n := by
  rw [digitsValue,decimalNat,digitsValue_map _
    (fun c hc => Nat.isDigit_of_mem_toDigits (by norm_num) (by norm_num) hc)]
  exact Nat.ofDigitChars_toDigits (by norm_num) (by norm_num)

theorem isSpace_of_isDigit {b : UInt8} (h : isDigit b = true) : isSpace b = false := by
  simp only [isDigit,Bool.and_eq_true,decide_eq_true_eq,UInt8.le_iff_toNat_le] at h
  have h₁ : 48 ≤ b.toNat := h.1
  simp only [isSpace,Bool.or_eq_false_iff,decide_eq_false_iff_not,Bool.and_eq_false_iff,
    UInt8.le_iff_toNat_le]
  refine ⟨?_,Or.inr ?_⟩
  · rintro rfl
    exact absurd h₁ (by decide)
  · show ¬ b.toNat ≤ 13
    omega

theorem signOf_of_isDigit {b : UInt8} (h : isDigit b = true) (t : Bytes) :
    signOf (b :: t) = (1,0) := by
  unfold signOf
  split
  · rename_i he
    obtain rfl := (List.cons.inj he).1
    exact absurd h (by decide)
  · rename_i he
    obtain rfl := (List.cons.inj he).1
    exact absurd h (by decide)
  · rfl

theorem takeWhile_isDigit_append (ds rest : Bytes) (hd : ∀ b ∈ ds, isDigit b = true)
    (hr : ∀ b, rest.head? = some b → isDigit b = false) :
    (ds ++ rest).takeWhile isDigit = ds := by
  rw [List.takeWhile_append_of_pos hd]
  cases rest with
  | nil => simp
  | cons b t => simp [hr b rfl]

theorem zero_notMem_decimalNat (n : ℕ) : 0 ∉ decimalNat n := fun h =>
  absurd (isDigit_of_mem_decimalNat h) (by decide)

theorem zero_notMem_decimal (z : ℤ) : 0 ∉ decimal z := by
  unfold decimal
  split_ifs <;> simp [zero_notMem_decimalNat]

def natText (n : ℕ) : CString := ⟨decimalNat n,zero_notMem_decimalNat n⟩

def intText (z : ℤ) : CString := ⟨decimal z,zero_notMem_decimal z⟩

end CText
end CodingChallenges
