import CodingChallenges.CText

/-! Integer texts. Which strings denote an integer is said without the reader; `strtol`
then takes a whole text exactly when it does, and reads back what `%d` printed. -/
namespace CodingChallenges
namespace NumberText

open CText

inductive SignText : Bytes → ℤ → Prop
  | none : SignText [] 1
  | plus : SignText [43] 1
  | minus : SignText [45] (-1)

/-- The text is an integer from end to end: white space, at most one sign, digits. -/
inductive Denotes : Bytes → ℤ → Prop
  | spelled {spaces sign ds : Bytes} {factor : ℤ} (blank : ∀ b ∈ spaces, isSpace b = true)
      (signed : SignText sign factor) (digits : ∀ b ∈ ds, isDigit b = true) (nonempty : ds ≠ []) :
      Denotes (spaces ++ (sign ++ ds)) (factor*digitsValue ds)

theorem notSpace_head {sign ds rest : Bytes} {factor : ℤ} (hs : SignText sign factor)
    (hd : ∀ b ∈ ds, isDigit b = true) (hne : ds ≠ []) :
    (sign ++ (ds ++ rest)).takeWhile isSpace = [] := by
  cases hs with
  | none =>
    obtain ⟨d,t,rfl⟩ := List.exists_cons_of_ne_nil hne
    simp [isSpace_of_isDigit (hd d (by simp))]
  | plus => rfl
  | minus => rfl

theorem signOf_signText {sign ds : Bytes} {factor : ℤ} (hs : SignText sign factor)
    (hd : ∀ b ∈ ds, isDigit b = true) (hne : ds ≠ []) (rest : Bytes) :
    signOf (sign ++ (ds ++ rest)) = (factor,sign.length) := by
  cases hs with
  | none =>
    obtain ⟨d,t,rfl⟩ := List.exists_cons_of_ne_nil hne
    exact signOf_of_isDigit (hd d (by simp)) (t ++ rest)
  | plus => rfl
  | minus => rfl

/-- The reader takes the whole spelling, up to the first byte that is no digit. -/
theorem readNumeral_spelled {spaces sign ds : Bytes} {factor : ℤ} (hb : ∀ b ∈ spaces, isSpace b = true)
    (hs : SignText sign factor) (hd : ∀ b ∈ ds, isDigit b = true) (hne : ds ≠ []) (rest : Bytes)
    (hr : ∀ b, rest.head? = some b → isDigit b = false) :
    readNumeral (spaces ++ (sign ++ (ds ++ rest))) =
      some (factor*digitsValue ds,spaces.length+sign.length+ds.length) := by
  have hspaces : (spaces ++ (sign ++ (ds ++ rest))).takeWhile isSpace = spaces := by
    rw [List.takeWhile_append_of_pos hb,notSpace_head hs hd hne,List.append_nil]
  have hsign := signOf_signText hs hd hne rest
  have hdigits := takeWhile_isDigit_append ds rest hd hr
  simp only [readNumeral,hspaces,List.drop_left,hsign,hdigits,if_neg hne]

theorem signText_signOf (t : Bytes) : SignText (t.take (signOf t).2) (signOf t).1 := by
  unfold signOf
  split
  · exact .minus
  · exact .plus
  · exact .none

theorem readNumeral_eq_some_length {s : Bytes} {z : ℤ} :
    readNumeral s = some (z,s.length) ↔ Denotes s z := by
  constructor
  · intro h
    simp only [readNumeral] at h
    split_ifs at h with hne
    obtain ⟨rfl,hl⟩ := Prod.mk.inj (Option.some.inj h)
    let spaces := s.takeWhile isSpace
    let t := s.drop spaces.length
    let ds := (t.drop (signOf t).2).takeWhile isDigit
    have hl : s.length = spaces.length+(signOf t).2+ds.length := hl.symm
    have hs : spaces ++ t = s := List.prefix_iff_eq_append.mp (List.takeWhile_prefix _)
    have ht := congrArg List.length hs
    rw [List.length_append] at ht
    have hds : ds = t.drop (signOf t).2 := by
      refine (List.takeWhile_prefix _).eq_of_length ?_
      show ds.length = _
      rw [List.length_drop]
      omega
    have hspelled : Denotes (spaces ++ (t.take (signOf t).2 ++ ds)) ((signOf t).1*digitsValue ds) :=
      .spelled (fun b hb => List.mem_takeWhile_imp hb) (signText_signOf t)
        (fun b hb => List.mem_takeWhile_imp hb) hne
    rwa [hds,List.take_append_drop,hs,← hds] at hspelled
  · rintro ⟨hb,hs,hd,hne⟩
    have h := readNumeral_spelled hb hs hd hne [] (by simp)
    simpa [add_assoc] using h

/-- The end of `long` on the side of the number, or the number itself. -/
def saturate (z : ℤ) : ℤ := max LONG_MIN (min z LONG_MAX)

theorem strtol_denotes {s : CString} {z : ℤ} (h : Denotes s.bytes z) :
    strtol s = ⟨saturate z,s.length,decide (z < LONG_MIN ∨ LONG_MAX < z)⟩ := by
  simp only [strtol,readNumeral_eq_some_length.mpr h]
  rfl

theorem denotes_of_strtol {s : CString} (h : (strtol s).used = s.length) (hpos : (strtol s).used ≠ 0) :
    ∃ z, Denotes s.bytes z := by
  unfold strtol at h hpos
  split at h
  · rename_i hn
    rw [hn] at hpos
    contradiction
  · rename_i z n hn
    obtain rfl : n = s.bytes.length := h
    exact ⟨z,readNumeral_eq_some_length.mp hn⟩

theorem saturate_of_range {z : ℤ} (h₁ : LONG_MIN ≤ z) (h₂ : z ≤ LONG_MAX) : saturate z = z := by
  rw [saturate,min_eq_left h₂,max_eq_right h₁]

theorem saturate_pos {z : ℤ} : 0 < saturate z ↔ 0 < z := by
  simp only [saturate,LONG_MIN,LONG_MAX]
  omega

theorem strtol_decimalNat (s : CString) (n : ℕ) (rest : Bytes) (hs : s.bytes = decimalNat n ++ rest)
    (hn : (n : ℤ) ≤ LONG_MAX) (hr : ∀ b, rest.head? = some b → isDigit b = false) :
    strtol s = ⟨n,(decimalNat n).length,false⟩ := by
  have hd : ∀ b ∈ decimalNat n, isDigit b = true := fun b hb => isDigit_of_mem_decimalNat hb
  have h : readNumeral (decimalNat n ++ rest) = some ((n : ℤ),(decimalNat n).length) := by
    have hread := readNumeral_spelled (by simp : ∀ b ∈ [], isSpace b = true) .none hd
      (decimalNat_ne_nil n) rest hr
    simpa using hread
  have hlow : LONG_MIN ≤ (n : ℤ) := le_trans (by decide) (Int.natCast_nonneg n)
  have hsat : max LONG_MIN (min (n : ℤ) LONG_MAX) = n := saturate_of_range hlow hn
  have hfits : ¬ ((n : ℤ) < LONG_MIN ∨ LONG_MAX < n) := by omega
  simp only [strtol,hs,h,hsat,decide_eq_false hfits]

theorem decimal_spelling (z : ℤ) : ∃ sign factor ds, SignText sign factor ∧
    (∀ b ∈ ds, isDigit b = true) ∧ ds ≠ [] ∧ decimal z = sign ++ ds ∧ factor*digitsValue ds = z := by
  have hd : ∀ b ∈ decimalNat z.natAbs, isDigit b = true := fun b hb => isDigit_of_mem_decimalNat hb
  have hne := decimalNat_ne_nil z.natAbs
  by_cases hz : z < 0
  · refine ⟨[45],-1,decimalNat z.natAbs,.minus,hd,hne,if_pos hz,?_⟩
    rw [digitsValue_decimalNat]
    omega
  · refine ⟨[],1,decimalNat z.natAbs,.none,hd,hne,if_neg hz,?_⟩
    rw [digitsValue_decimalNat]
    omega

theorem denotes_decimal (z : ℤ) : Denotes (decimal z) z := by
  obtain ⟨sign,factor,ds,hs,hd,hne,he,hz⟩ := decimal_spelling z
  have h : Denotes ([] ++ (sign ++ ds)) (factor*digitsValue ds) := .spelled (by simp) hs hd hne
  rwa [hz,List.nil_append,← he] at h

/-- A number in the range of `int` is read back by `atoi`. -/
theorem atoi_denotes {s : CString} {z : ℤ} (h : Denotes s.bytes z) (h₁ : INT_MIN ≤ z) (h₂ : z ≤ INT_MAX) :
    atoi s = z := by
  rw [atoi,strtol_denotes h,saturate_of_range (le_trans (by decide) h₁) (le_trans h₂ (by decide))]
  exact toInt_of_range h₁ h₂

end NumberText
end CodingChallenges
