import CodingChallenges.CText

/-! Reads from a C object and the ways a C function can fail to return.
A pointer is an index into the bytes of the object it points into. Reading past
the end of the object, through a null pointer, from freed storage or from storage
never assigned, and signed overflow, have no defined result: such a call ends in a
`Fault`. A loop that never ends and a call of `exit` do not return either. -/
namespace CodingChallenges
namespace CMemory

open CText

inductive Fault
  | outOfBounds | badSize | nullPointer | uninitialised | wrongMember | badIndex
  | useAfterFree | intOverflow | endless | exit (status : ℕ)
  deriving DecidableEq

def readByte (m : Bytes) (i : ℕ) : Except Fault UInt8 :=
  match m[i]? with
  | some b => .ok b
  | none => .error .outOfBounds

def stringAt (m : Bytes) (i : ℕ) : Except Fault CString :=
  if 0 ∈ m.drop i then .ok (CString.ofBuffer (m.drop i)) else .error .outOfBounds

/-- The bytes `memcpy(_, m + i, sz)` reads. The size is converted to `size_t`, so a
negative one is larger than any object. -/
def memcpy (m : Bytes) (i : ℕ) (sz : ℤ) : Except Fault Bytes :=
  if sz < 0 then .error .badSize
  else if sz = 0 then .ok []
  else if i+sz.toNat ≤ m.length then .ok ((m.drop i).take sz.toNat)
  else .error .outOfBounds

def addInt (a b : ℤ) : Except Fault ℤ :=
  if INT_MIN ≤ a+b ∧ a+b ≤ INT_MAX then .ok (a+b) else .error .intOverflow

theorem readByte_of_drop {m : Bytes} {i : ℕ} {b : UInt8} {t : Bytes} (h : m.drop i = b :: t) :
    readByte m i = .ok b := by
  have hi : m[i]? = some b := by
    rw [← List.head?_drop,h]
    rfl
  simp [readByte,hi]

theorem readByte_eq_ok {m : Bytes} {i : ℕ} {b : UInt8} :
    readByte m i = .ok b ↔ m[i]? = some b := by
  unfold readByte
  split <;> simp_all

theorem stringAt_of_mem {m : Bytes} {i : ℕ} (h : 0 ∈ m.drop i) :
    stringAt m i = .ok (CString.ofBuffer (m.drop i)) := if_pos h

theorem memcpy_of_le {m : Bytes} {i n : ℕ} (h : i+n ≤ m.length) :
    memcpy m i n = .ok ((m.drop i).take n) := by
  simp only [memcpy,Int.toNat_natCast,if_pos h]
  rw [if_neg (by omega)]
  split_ifs with hn
  · simp [show n = 0 by omega]
  · rfl

theorem addInt_of_range {a b : ℤ} (h₁ : INT_MIN ≤ a+b) (h₂ : a+b ≤ INT_MAX) :
    addInt a b = .ok (a+b) := if_pos ⟨h₁,h₂⟩

theorem addInt_eq_ok {a b c : ℤ} :
    addInt a b = .ok c ↔ (INT_MIN ≤ a+b ∧ a+b ≤ INT_MAX) ∧ a+b = c := by
  unfold addInt
  split_ifs with h <;> simp [h]

theorem memcpy_eq_ok {m : Bytes} {i : ℕ} {sz : ℤ} {w : Bytes} :
    memcpy m i sz = .ok w ↔
      0 ≤ sz ∧ (sz = 0 ∨ i+sz.toNat ≤ m.length) ∧ (m.drop i).take sz.toNat = w := by
  unfold memcpy
  split_ifs with h₁ h₂ h₃
  · simp [h₁]
  · simp [h₂]
  · simp only [Except.ok.injEq]
    exact ⟨fun h => ⟨by omega,Or.inr h₃,h⟩,fun h => h.2.2⟩
  · simp only [false_iff]
    rintro ⟨_,h | h,_⟩ <;> contradiction

theorem stringAt_object {s : CString} {i : ℕ} (h : i ≤ s.length) :
    stringAt s.object i = .ok (s.drop i) := by
  rw [stringAt,CString.drop_object h,if_pos (by simp [CString.object]),CString.ofBuffer_object]

theorem readByte_object {s : CString} {i : ℕ} {b : UInt8} (hb : b ≠ 0) :
    readByte s.object i = .ok b ↔ ∃ u : CString, (s.drop i).bytes = b :: u.bytes := by
  rw [readByte_eq_ok]
  by_cases hi : i < s.length
  · have hl : i < s.bytes.length := hi
    have ho : s.object[i]? = s.bytes[i]? := List.getElem?_append_left hl
    have hd : (s.drop i).bytes = s.bytes[i] :: (s.drop (i+1)).bytes := List.drop_eq_getElem_cons hl
    rw [ho,hd,List.getElem?_eq_getElem hl]
    constructor
    · intro h
      exact ⟨s.drop (i+1),by rw [Option.some.inj h]⟩
    · rintro ⟨u,hu⟩
      rw [(List.cons.inj hu).1]
  · have hl : s.bytes.length ≤ i := Nat.le_of_not_lt hi
    have hd : (s.drop i).bytes = [] := List.drop_eq_nil_of_le hl
    constructor
    · intro h
      have hm : b ∈ s.object.drop i := by
        rw [← List.head?_drop] at h
        exact List.mem_of_mem_head? h
      simp only [CString.object,List.drop_append,List.drop_eq_nil_of_le hl,List.nil_append] at hm
      exact absurd (List.mem_of_mem_drop hm) (by simp [hb])
    · rintro ⟨u,hu⟩
      rw [hd] at hu
      contradiction

theorem bind_eq_ok {ε α β : Type} {x : Except ε α} {f : α → Except ε β} {b : β} :
    (x >>= f) = .ok b ↔ ∃ a, x = .ok a ∧ f a = .ok b := by
  cases x <;> simp [bind,Except.bind]

end CMemory
end CodingChallenges
