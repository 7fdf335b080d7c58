import CodingChallenges.CyclicRedundancy
import CodingChallenges.BitcaskLog

/-! The checksum of a Bitcask record: the table-driven loop computes the bitwise CRC-32,
and no change within four consecutive bytes escapes it. -/
namespace CodingChallenges
namespace BitcaskChecksum

open CText BitcaskHelper BitcaskLog CyclicRedundancy

def bitwiseCrc (data : Bytes) : UInt32 :=
  ⟨checksum 0xEDB88320#32 0xFFFFFFFF#32 0xFFFFFFFF#32 (data.map UInt8.toBitVec)⟩

theorem and_one_ne_zero (x : UInt32) : x &&& 1 ≠ 0 ↔ x.toBitVec.getLsbD 0 = true := by
  have h : (x &&& 1).toBitVec = (BitVec.ofBool (x.toBitVec.getLsbD 0)).setWidth 32 :=
    BitVec.and_one_eq_setWidth_ofBool_getLsbD
  rw [Ne,← UInt32.toBitVec_inj,h]
  cases x.toBitVec.getLsbD 0 <;> decide

theorem crcShift_toBitVec (x : UInt32) : (crcShift x).toBitVec = shift POLYNOMIAL.toBitVec x.toBitVec := by
  simp only [crcShift,shift,and_one_ne_zero]
  split <;> rfl

theorem iterate_crcShift (n : ℕ) (x : UInt32) :
    (crcShift^[n] x).toBitVec = (shift POLYNOMIAL.toBitVec)^[n] x.toBitVec := by
  induction n generalizing x with
  | zero => rfl
  | succ n ih => rw [Function.iterate_succ_apply,ih,crcShift_toBitVec,Function.iterate_succ_apply]

theorem index_toBitVec (crc : UInt32) (b : UInt8) :
    ((crc ^^^ b.toUInt32) &&& 0xFF).toUInt8.toBitVec =
      (crc.toBitVec ^^^ b.toBitVec.setWidth 32).setWidth 8 := by
  have hmask : ∀ i < 8, (0xFF#32).getLsbD i = true := by decide
  refine BitVec.eq_of_getLsbD_eq fun i hi => ?_
  show (((crc.toBitVec ^^^ b.toBitVec.setWidth 32) &&& 0xFF#32).setWidth 8).getLsbD i = _
  rw [BitVec.getLsbD_setWidth,BitVec.getLsbD_setWidth,BitVec.getLsbD_and,hmask i hi,Bool.and_true]

theorem crcByte_toBitVec (crc : UInt32) (b : UInt8) :
    (crcByte crc b).toBitVec = feed POLYNOMIAL.toBitVec crc.toBitVec b.toBitVec := by
  rw [feed_eq_feedTable,feedTable,← index_toBitVec]
  simp only [crcByte,crcTable,UInt32.toBitVec_xor,iterate_crcShift]
  rfl

theorem foldl_crcByte (data : Bytes) (crc : UInt32) :
    (data.foldl crcByte crc).toBitVec =
      (data.map UInt8.toBitVec).foldl (feed POLYNOMIAL.toBitVec) crc.toBitVec := by
  induction data generalizing crc with
  | nil => rfl
  | cons b data ih => rw [List.foldl_cons,ih,crcByte_toBitVec,List.map_cons,List.foldl_cons]

theorem crc32Of_toBitVec (data : Bytes) :
    (crc32Of data).toBitVec =
      checksum POLYNOMIAL.toBitVec 0xFFFFFFFF#32 0xFFFFFFFF#32 (data.map UInt8.toBitVec) := by
  rw [checksum,crc32Of,UInt32.toBitVec_xor,foldl_crcByte]
  rfl

/-- The table-driven loop computes the bitwise CRC-32. -/
theorem crc32Of_eq_bitwiseCrc (data : Bytes) : crc32Of data = bitwiseCrc data :=
  UInt32.toBitVec_inj.mp (crc32Of_toBitVec data)

example : crc32Of (ascii "123456789") = 0xCBF43926 := by decide +kernel

/-- Two strings of one length that differ, and only within the four bytes from `p` on. -/
structure Burst (p : ℕ) (data data' : Bytes) : Prop where
  length : data.length = data'.length
  differ : data ≠ data'
  within : ∀ i, data[i]? ≠ data'[i]? → p ≤ i ∧ i < p+4

theorem Burst.take_eq {p : ℕ} {data data' : Bytes} (h : Burst p data data') :
    data.take p = data'.take p := by
  refine List.ext_getElem? fun i => ?_
  by_cases hi : i < p
  · rw [List.getElem?_take_of_lt hi,List.getElem?_take_of_lt hi]
    by_contra hne
    have hw := h.within i hne
    omega
  · rw [List.getElem?_take_eq_none (by omega),List.getElem?_take_eq_none (by omega)]

theorem Burst.drop_eq {p : ℕ} {data data' : Bytes} (h : Burst p data data') :
    data.drop (p+4) = data'.drop (p+4) := by
  refine List.ext_getElem? fun i => ?_
  rw [List.getElem?_drop,List.getElem?_drop]
  by_contra hne
  have hw := h.within _ hne
  omega

theorem around (p : ℕ) (data : Bytes) :
    data = data.take p ++ ((data.drop p).take 4 ++ data.drop (p+4)) := by
  rw [← List.drop_drop,List.take_append_drop,List.take_append_drop]

theorem Burst.crc32Of_ne {p : ℕ} {data data' : Bytes} (h : Burst p data data') :
    crc32Of data ≠ crc32Of data' := by
  let b := (data.drop p).take 4
  let b' := (data'.drop p).take 4
  have hd : data = data.take p ++ (b ++ data.drop (p+4)) := around p data
  have hd' : data' = data.take p ++ (b' ++ data.drop (p+4)) := by
    rw [h.take_eq,h.drop_eq]
    exact around p data'
  have hl : b.length = b'.length := by simp [b,b',h.length]
  have hb : b ≠ b' := by
    intro hb
    rw [hb] at hd
    exact h.differ (hd.trans hd'.symm)
  have hmap : b.map UInt8.toBitVec ≠ b'.map UInt8.toBitVec := by
    intro hm
    exact hb (List.map_injective_iff.mpr (fun _ _ => UInt8.toBitVec_inj.mp) hm)
  have hw : 8*(b.map UInt8.toBitVec).length ≤ 32 := by simp [b]; omega
  intro hcrc
  have hc := congrArg UInt32.toBitVec hcrc
  rw [crc32Of_toBitVec,crc32Of_toBitVec,hd,hd'] at hc
  simp only [List.map_append] at hc
  exact checksum_burst (by decide) _ _ (by simpa using hl) hw hmap hc

theorem burst_set {data : Bytes} {i : ℕ} {b : UInt8} (hi : i < data.length) (hb : data[i] ≠ b) :
    Burst i data (data.set i b) := by
  constructor
  · exact List.length_set.symm
  · intro h
    have hg := List.getElem_of_eq h hi
    rw [List.getElem_set_self] at hg
    exact hb hg
  · intro j hj
    have hij : i = j := by
      by_contra hne
      exact hj (List.getElem?_set_ne hne).symm
    omega

/-- The checksum field of a record agrees with what follows it. -/
def Checked (w : Bytes) : Prop := littleEndian (w.take 4) = (crc32Of (w.drop 4)).toNat

theorem checked_bytes (r : Record) : Checked r.bytes := by
  rw [Checked,Record.bytes,List.take_left' (length_packU32 _),List.drop_left' (length_packU32 _),
    littleEndian_packU32]

/-- A burst behind the checksum field keeps the field and changes the checksum. -/
theorem Burst.not_checked {p : ℕ} {w w' : Bytes} (h : Burst p w w') (hp : 4 ≤ p) (hw : Checked w) :
    ¬ Checked w' := by
  have hfield : w.take 4 = w'.take 4 := by
    have ht := congrArg (List.take 4) h.take_eq
    rwa [List.take_take,List.take_take,min_eq_left hp] at ht
  have hbody : Burst (p-4) (w.drop 4) (w'.drop 4) := by
    constructor
    · simp [h.length]
    · intro hd
      have hj : w.take 4 ++ w.drop 4 = w'.take 4 ++ w'.drop 4 := by rw [hfield,hd]
      rw [List.take_append_drop,List.take_append_drop] at hj
      exact h.differ hj
    · intro i hi
      rw [List.getElem?_drop,List.getElem?_drop] at hi
      have hr := h.within _ hi
      omega
  intro hw'
  rw [Checked,hfield,hw'] at hw
  exact hbody.crc32Of_ne (UInt32.toNat_inj.mp hw).symm

/-- What a call that returns a position has added to the file is its record. -/
theorem drop_bitcaskAppend {file u : Bytes} {c : Call} {p : ℕ}
    (h : bitcaskAppend file c = .ok (u,some p)) : u.drop file.length = c.record.bytes := by
  rw [bitcaskAppend_eq] at h
  obtain ⟨hu,hp⟩ := Prod.mk.inj (Except.ok.inj h)
  split_ifs at hp with hc
  rw [← hu,List.drop_left,List.take_of_length_le hc]

/-- Two texts that differ only within four consecutive bytes have different checksums; so
the record that a call has written agrees with its checksum, and no longer does after any
change within four consecutive bytes behind the checksum field. -/
theorem crc32Of_detects_burst :
    (∀ (p : ℕ) (data data' : Bytes), Burst p data data' → crc32Of data ≠ crc32Of data') ∧
    ∀ (file u : Bytes) (c : Call) (pos : ℕ), bitcaskAppend file c = .ok (u,some pos) →
      Checked (u.drop file.length) ∧
      ∀ (p : ℕ) (w : Bytes), 4 ≤ p → Burst p (u.drop file.length) w → ¬ Checked w := by
  constructor
  · exact fun _ _ _ h => h.crc32Of_ne
  · intro file u c pos h
    rw [drop_bitcaskAppend h]
    exact ⟨checked_bytes _,fun _ _ hp hb => hb.not_checked hp (checked_bytes _)⟩

theorem crc32Of_detects_burst_sample :
    crc32Of (ascii "1234") ≠ crc32Of ((ascii "1234").set 1 0) ∧
    ∃ u, bitcaskAppend (ascii "old") (sampleCall "a" "bc" [some 100]) = .ok (u,some 24) ∧
      Checked (u.drop 3) ∧ ¬ Checked ((u.drop 3).set 12 0) := by
  refine ⟨crc32Of_detects_burst.1 1 _ _ (burst_set (by decide) (by decide)),_,
    bitcaskAppend_eq _ _,?_⟩
  have h := crc32Of_detects_burst.2 (ascii "old") _ (sampleCall "a" "bc" [some 100]) 24
    (bitcaskAppend_eq _ _)
  exact ⟨h.1,h.2 12 _ (by decide) (burst_set (by decide) (by decide))⟩

end BitcaskChecksum
end CodingChallenges
