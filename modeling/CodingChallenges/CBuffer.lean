import CodingChallenges.CMemory

/-! Buffers that a C function fills piece by piece. A cell holds no value until it is
assigned; writing outside the buffer and reading a cell without a value are faults. -/
namespace CodingChallenges
namespace CBuffer

open CText CMemory

abbrev Buffer := List (Option UInt8)

/-- `malloc(n)`, or a local array of `n` bytes. -/
def fresh (n : ℕ) : Buffer := List.replicate n none

/-- Copy bytes to the place `i` bytes into the buffer. -/
def store (m : Buffer) (i : ℕ) (w : Bytes) : Except Fault Buffer :=
  if i+w.length ≤ m.length then .ok (m.take i ++ w.map some ++ m.drop (i+w.length))
  else .error .outOfBounds

def values : Buffer → Option Bytes
  | [] => some []
  | none :: _ => none
  | some b :: m => (values m).map (b :: ·)

def load (m : Buffer) (i n : ℕ) : Except Fault Bytes :=
  if i+n ≤ m.length then
    match values ((m.drop i).take n) with
    | some w => .ok w
    | none => .error .uninitialised
  else .error .outOfBounds

@[simp] theorem length_fresh (n : ℕ) : (fresh n).length = n := List.length_replicate

theorem fresh_add (m n : ℕ) : fresh (m+n) = fresh m ++ fresh n := List.replicate_add m n none

@[simp] theorem values_map (w : Bytes) : values (w.map some) = some w := by
  induction w with
  | nil => rfl
  | cons b w ih => simp [values,ih]

theorem map_of_values {m : Buffer} {w : Bytes} (h : values m = some w) : m = w.map some := by
  induction m generalizing w with
  | nil =>
    cases h
    rfl
  | cons x m ih =>
    cases x with
    | none => cases h
    | some b =>
      obtain ⟨v,hv,rfl⟩ := Option.map_eq_some_iff.mp h
      rw [ih hv,List.map_cons]

theorem length_of_load {m : Buffer} {i n : ℕ} {w : Bytes} (h : load m i n = .ok w) : w.length = n := by
  unfold load at h
  split_ifs at h with hle
  split at h
  · next v hv =>
    cases h
    have hl := congrArg List.length (map_of_values hv)
    rw [List.length_take_of_le (by rw [List.length_drop]; omega),List.length_map] at hl
    exact hl.symm
  · cases h

theorem store_append {a b : Buffer} (c : Buffer) {i : ℕ} {w : Bytes} (hi : a.length = i)
    (hw : b.length = w.length) : store (a ++ (b ++ c)) i w = .ok (a ++ (w.map some ++ c)) := by
  subst hi
  have hl : a.length+w.length ≤ (a ++ (b ++ c)).length := by
    simp only [List.length_append]
    omega
  have hd : (a ++ (b ++ c)).drop (a.length+w.length) = c := by
    rw [← List.drop_drop,List.drop_left,← hw,List.drop_left]
  rw [store,if_pos hl,List.take_left,hd,List.append_assoc]

/-- A buffer that is filled from left to right behind a header of `p` cells. -/
theorem store_next (p : ℕ) (d w : Bytes) (m n : ℕ) {i : ℕ} (hi : p+d.length = i)
    (hm : m = w.length+n) :
    store (fresh p ++ (d.map some ++ fresh m)) i w =
      .ok (fresh p ++ ((d ++ w).map some ++ fresh n)) := by
  have h := store_append (fresh n) (by simpa using hi : (fresh p ++ d.map some).length = i)
    (length_fresh w.length)
  rw [hm,fresh_add]
  simpa [List.append_assoc] using h

theorem store_header {p : ℕ} {w : Bytes} (hw : p = w.length) (c : Buffer) :
    store (fresh p ++ c) 0 w = .ok (w.map some ++ c) := by
  subst hw
  have h := store_append (a:=[]) (i:=0) c rfl (length_fresh w.length)
  simpa using h

theorem load_append {a : Buffer} (c : Buffer) {i n : ℕ} {w : Bytes} (hi : a.length = i)
    (hn : w.length = n) : load (a ++ (w.map some ++ c)) i n = .ok w := by
  subst hi hn
  have hl : a.length+w.length ≤ (a ++ (w.map some ++ c)).length := by
    simp only [List.length_append,List.length_map]
    omega
  have ht : ((a ++ (w.map some ++ c)).drop a.length).take w.length = w.map some := by
    have hm : (w.map some).length = w.length := List.length_map _
    rw [List.drop_left,← hm,List.take_left]
  rw [load,if_pos hl,ht,values_map]

/-- The first cells hold the bytes; what the others hold does not matter. -/
def Holds (m : Buffer) (w : Bytes) : Prop := ∃ c, m = w.map some ++ c

theorem holds_nil (m : Buffer) : Holds m [] := ⟨m,rfl⟩

theorem Holds.left {m : Buffer} {v w : Bytes} (h : Holds m (v ++ w)) : Holds m v := by
  obtain ⟨c,rfl⟩ := h
  exact ⟨w.map some ++ c,by simp⟩

theorem Holds.values_take {m : Buffer} {w : Bytes} (h : Holds m w) : values (m.take w.length) = some w := by
  obtain ⟨c,rfl⟩ := h
  have hl : (w.map some).length = w.length := List.length_map _
  rw [← hl,List.take_left,values_map]

theorem Holds.load {m : Buffer} {w : Bytes} (h : Holds m w) : load m 0 w.length = .ok w := by
  obtain ⟨c,rfl⟩ := h
  simpa using load_append (a:=[]) (i:=0) c rfl (rfl : w.length = w.length)

theorem Holds.store {m : Buffer} {v : Bytes} (h : Holds m v) (w : Bytes) (hl : v.length+w.length ≤ m.length) :
    ∃ m', store m v.length w = .ok m' ∧ m'.length = m.length ∧ Holds m' (v ++ w) := by
  obtain ⟨c,rfl⟩ := h
  rw [List.length_append,List.length_map] at hl
  have hs := store_append (a:=v.map some) (b:=c.take w.length) (i:=v.length) (c.drop w.length)
    (List.length_map _) (List.length_take_of_le (by omega))
  rw [List.take_append_drop] at hs
  refine ⟨_,hs,?_,c.drop w.length,by simp⟩
  simp only [List.length_append,List.length_map,List.length_drop]
  omega

theorem store_start {m : Buffer} (w : Bytes) (hl : w.length ≤ m.length) :
    ∃ m', store m 0 w = .ok m' ∧ m'.length = m.length ∧ Holds m' w := by
  simpa using (holds_nil m).store w (by simpa using hl)

def stringOf : Buffer → Except Fault CString
  | m =>
    match values (m.takeWhile (· ≠ some 0)) with
    | none => .error .uninitialised
    | some w => if some 0 ∈ m then .ok (CString.ofBuffer w) else .error .outOfBounds

theorem nul_mem_of_stringOf {m : Buffer} {s : CString} (h : stringOf m = .ok s) : some 0 ∈ m := by
  simp only [stringOf] at h
  split at h
  · cases h
  · split_ifs at h with h0
    exact h0

theorem Holds.stringOf {m : Buffer} {w : Bytes} (h : Holds m (w ++ [0])) (hw : 0 ∉ w) :
    stringOf m = .ok ⟨w,hw⟩ := by
  obtain ⟨c,rfl⟩ := h
  have hp : ∀ x ∈ w.map some, (decide (x ≠ some (0 : UInt8))) = true := by
    intro x hx
    obtain ⟨b,hb,rfl⟩ := List.mem_map.mp hx
    have hne : b ≠ 0 := by
      rintro rfl
      exact hw hb
    simpa using hne
  have ht : ((w ++ [0]).map some ++ c).takeWhile (· ≠ some 0) = w.map some := by
    rw [List.map_append,List.append_assoc,List.takeWhile_append_of_pos hp]
    simp
  rw [CBuffer.stringOf,ht,values_map]
  simp only [List.map_append,List.map_cons,List.map_nil]
  rw [if_pos (by simp)]
  exact congrArg Except.ok (CString.ofBuffer_self ⟨w,hw⟩)

end CBuffer
end CodingChallenges
