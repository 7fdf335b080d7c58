import CodingChallenges.CText

/-! The helpers of the log format: the table-driven CRC and the little-endian packers. -/
namespace CodingChallenges
namespace BitcaskHelper

open CText

def POLYNOMIAL : UInt32 := 0xEDB88320

/-- One round of the inner loop of `crc32_init`. -/
def crcShift (crc : UInt32) : UInt32 :=
  if crc &&& 1 ≠ 0 then (crc >>> 1) ^^^ POLYNOMIAL else crc >>> 1

/-- `crc_table[i]` after `crc32_init()`. -/
def crcTable (i : UInt8) : UInt32 := Nat.iterate crcShift 8 i.toUInt32

/-- One byte of the loop of `crc32_of`. -/
def crcByte (crc : UInt32) (b : UInt8) : UInt32 :=
  (crc >>> 8) ^^^ crcTable ((crc ^^^ b.toUInt32) &&& 0xFF).toUInt8

def crc32Of (data : Bytes) : UInt32 := data.foldl crcByte 0xFFFFFFFF ^^^ 0xFFFFFFFF

def packU32 (value : UInt32) : Bytes :=
  [(value &&& 0xFF).toUInt8,((value >>> 8) &&& 0xFF).toUInt8,((value >>> 16) &&& 0xFF).toUInt8,
    ((value >>> 24) &&& 0xFF).toUInt8]

def packU64 (value : UInt64) : Bytes :=
  [(value &&& 0xFF).toUInt8,((value >>> 8) &&& 0xFF).toUInt8,((value >>> 16) &&& 0xFF).toUInt8,
    ((value >>> 24) &&& 0xFF).toUInt8,((value >>> 32) &&& 0xFF).toUInt8,
    ((value >>> 40) &&& 0xFF).toUInt8,((value >>> 48) &&& 0xFF).toUInt8,((value >>> 56) &&& 0xFF).toUInt8]

def littleEndian : Bytes → ℕ
  | [] => 0
  | b :: bs => b.toNat+256*littleEndian bs

@[simp] theorem length_packU32 (v : UInt32) : (packU32 v).length = 4 := rfl
@[simp] theorem length_packU64 (v : UInt64) : (packU64 v).length = 8 := rfl

theorem littleEndian_lt (bs : Bytes) : littleEndian bs < 256^bs.length := by
  induction bs with
  | nil => simp [littleEndian]
  | cons b bs ih =>
    have hb := b.toNat_lt
    simp only [littleEndian,List.length_cons,pow_succ]
    omega

theorem and_mask (n : ℕ) : n % 256 &&& 255 = n % 256 := by
  rw [Nat.and_two_pow_sub_one_eq_mod (n % 256) 8]
  exact Nat.mod_mod n 256

theorem littleEndian_packU32 (v : UInt32) : littleEndian (packU32 v) = v.toNat := by
  have hv := v.toNat_lt
  simp [packU32,littleEndian,Nat.shiftRight_eq_div_pow,and_mask]
  omega

theorem littleEndian_packU64 (v : UInt64) : littleEndian (packU64 v) = v.toNat := by
  have hv := v.toNat_lt
  simp [packU64,littleEndian,Nat.shiftRight_eq_div_pow,and_mask]
  omega

end BitcaskHelper
end CodingChallenges
