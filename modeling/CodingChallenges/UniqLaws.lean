import CodingChallenges.UniqTool

/-! How calls of `uniq` compose: a second call on the output of the first, the two halves that `-d`
and `-u` print, and what the counts tell of the input. -/
namespace CodingChallenges
namespace UniqLaws

open CText CMemory AdjacentRuns UniqTool

def text (lines : List CString) : Bytes := lines.flatMap fun line => line.bytes ++ [10]

/-- Lines that fit the buffer, in runs that fit the counter. -/
structure Regular (lines : List CString) : Prop where
  lf : ∀ line ∈ lines, 10 ∉ line.bytes
  short : ∀ line ∈ lines, line.length ≤ 9998
  runs : ∀ run ∈ lines.splitBy (· == ·), (run.length : ℤ) ≤ INT_MAX

def entry (args : List CString) (x : ℕ × CString) : Bytes :=
  if kept args x.1 then (if args.any isCount then percent3d x.1 ++ [32] else []) ++ x.2.bytes ++ [10] else []

variable {args : List CString} {lines lines' : List CString}

/-- The runs that the options keep, one line of each. -/
def chosen (args : List CString) (lines : List CString) : List CString :=
  ((ends (· == ·) lines).filter fun x => kept args x.1).map Prod.snd

theorem uniq_entries (hopts : ∀ arg ∈ args, isOption arg = true)
    (hdu : ¬ (args.any isRepeated = true ∧ args.any isUnique = true)) (h : Regular lines) (files : Files) :
    uniq args files (text lines) = .ok (0,⟨(ends (· == ·) lines).flatMap (entry args),[]⟩) := by
  have hin : input args files (text lines) = some (text lines) := input_options hopts
  have hgroups := uniq_groups (head?_ne_of_isOption hopts) hdu (fun line hl => ⟨h.lf line hl,h.short line hl⟩)
    hin h.runs
  rw [hgroups,flatMap_splitBy]
  intro run hr line hl
  rw [getLast?_of_mem_splitBy hr] at hl
  cases run with
  | nil => cases hl
  | cons l run =>
    obtain rfl : l = line := Option.some.inj hl
    simp [runOut,entry]

theorem flatMap_entry (hc : args.any isCount = false) (l : List (ℕ × CString)) :
    l.flatMap (entry args) = text ((l.filter fun x => kept args x.1).map Prod.snd) := by
  induction l with
  | nil => rfl
  | cons x l ih =>
    rw [List.flatMap_cons,ih,entry,hc]
    by_cases hk : kept args x.1 = true
    · rw [if_pos hk,List.filter_cons,if_pos hk]
      simp [text]
    · rw [if_neg hk,List.filter_cons,if_neg hk,List.nil_append]

theorem uniq_chosen (hopts : ∀ arg ∈ args, isOption arg = true)
    (hdu : ¬ (args.any isRepeated = true ∧ args.any isUnique = true)) (hc : args.any isCount = false)
    (h : Regular lines) (files : Files) :
    uniq args files (text lines) = .ok (0,⟨text (chosen args lines),[]⟩) := by
  rw [uniq_entries hopts hdu h,flatMap_entry hc,chosen]

theorem chosen_nil (lines : List CString) : chosen [] lines = lines.destutter (· ≠ ·) := by
  rw [chosen,← map_ends_destutter]
  congr 1
  exact List.filter_eq_self.mpr fun _ _ => rfl

theorem Regular.destutter (h : Regular lines) : Regular (lines.destutter (· ≠ ·)) := by
  have hsub := List.destutter_sublist (R:=(· ≠ ·)) lines
  refine ⟨fun line hl => h.lf line (hsub.subset hl),fun line hl => h.short line (hsub.subset hl),?_⟩
  refine (forall_ends_iff (P:=fun n => (n : ℤ) ≤ INT_MAX)).mp ?_
  rw [ends_of_isChain (List.isChain_destutter _ _),List.forall_mem_map]
  intro line _
  show ((1 : ℕ) : ℤ) ≤ INT_MAX
  decide

/-- A second call finds every line of the first once: it prints all of them, with -d none, and with
-c counts one of each. -/
theorem uniq_again (hopts : ∀ arg ∈ args, isOption arg = true)
    (hdu : ¬ (args.any isRepeated = true ∧ args.any isUnique = true)) (h : Regular lines) (files : Files) :
    ∃ out, uniq [] files (text lines) = .ok (0,⟨out,[]⟩) ∧ uniq [] files out = .ok (0,⟨out,[]⟩) ∧
      uniq args files out = .ok (0,⟨(lines.destutter (· ≠ ·)).flatMap fun line => entry args (1,line),[]⟩) := by
  have hnone : ∀ arg ∈ ([] : List CString), isOption arg = true := by simp
  have hboth : ¬ (([] : List CString).any isRepeated = true ∧ ([] : List CString).any isUnique = true) := by simp
  refine ⟨text (lines.destutter (· ≠ ·)),?_,?_,?_⟩
  · rw [uniq_chosen hnone hboth rfl h,chosen_nil]
  · rw [uniq_chosen hnone hboth rfl h.destutter,chosen_nil,List.destutter_idem]
  · rw [uniq_entries hopts hdu h.destutter,ends_of_isChain (List.isChain_destutter _ _),List.flatMap_map]

theorem regular_sample : Regular [lit "a",lit "a",lit "b"] := ⟨by decide,by decide,by decide⟩

theorem uniq_again_repeated : Regular [lit "a",lit "a",lit "b"] ∧
    ∃ out, uniq [] ⟨fun _ => none,fun _ => false⟩ (text [lit "a",lit "a",lit "b"]) = .ok (0,⟨out,[]⟩) ∧
      uniq [lit "-d"] ⟨fun _ => none,fun _ => false⟩ out = .ok (0,⟨[],[]⟩) := by
  obtain ⟨out,hfirst,-,hsecond⟩ := @uniq_again [lit "-d"] _ (by decide) (by decide) regular_sample
    ⟨fun _ => none,fun _ => false⟩
  exact ⟨regular_sample,out,hfirst,hsecond⟩

theorem pos_of_mem_ends {x : ℕ × CString} (hx : x ∈ ends (· == ·) lines) : 0 < x.1 := by
  cases lines with
  | nil => cases hx
  | cons line lines => exact pos_of_mem_pending Nat.one_pos hx

/-- The lines of -d and those of -u together are the lines of a plain call, in its order each, and those
are lines of the input. -/
theorem uniq_halves (h : Regular lines) (files : Files) : ∃ ds us ps,
    uniq [lit "-d"] files (text lines) = .ok (0,⟨text ds,[]⟩) ∧
    uniq [lit "-u"] files (text lines) = .ok (0,⟨text us,[]⟩) ∧
    uniq [] files (text lines) = .ok (0,⟨text ps,[]⟩) ∧
    ds.Sublist ps ∧ us.Sublist ps ∧ ps.Sublist lines ∧ (ds ++ us).Perm ps := by
  refine ⟨_,_,_,uniq_chosen (by decide) (by decide) rfl h files,uniq_chosen (by decide) (by decide) rfl h files,
    uniq_chosen (by simp) (by simp) rfl h files,?_⟩
  have hall : chosen [] lines = (ends (· == ·) lines).map Prod.snd :=
    (chosen_nil lines).trans (map_ends_destutter lines).symm
  have honce : ((ends (· == ·) lines).filter fun x => kept [lit "-u"] x.1) =
      (ends (· == ·) lines).filter fun x => !kept [lit "-d"] x.1 := by
    refine List.filter_congr fun x hx => ?_
    have hpos := pos_of_mem_ends hx
    have hu : kept [lit "-u"] x.1 = decide (x.1 = 1) := rfl
    have hd : kept [lit "-d"] x.1 = decide (2 ≤ x.1) := by
      rw [show kept [lit "-d"] x.1 = (decide (2 ≤ x.1) && true) from rfl,Bool.and_true]
    rw [hu,hd,← decide_not,decide_eq_decide]
    omega
  have hlines : ((ends (· == ·) lines).map Prod.snd).Sublist lines := by
    rw [map_ends_destutter]
    exact List.destutter_sublist (R:=(· ≠ ·)) lines
  rw [hall,chosen,chosen,honce,← List.map_append]
  exact ⟨List.filter_sublist.map _,List.filter_sublist.map _,hlines,(List.filter_append_perm _ _).map _⟩

theorem uniq_halves_sample : Regular [lit "a",lit "a",lit "b"] ∧ ∃ ds us ps,
    uniq [lit "-d"] ⟨fun _ => none,fun _ => false⟩ (text [lit "a",lit "a",lit "b"]) = .ok (0,⟨text ds,[]⟩) ∧
    uniq [lit "-u"] ⟨fun _ => none,fun _ => false⟩ (text [lit "a",lit "a",lit "b"]) = .ok (0,⟨text us,[]⟩) ∧
    uniq [] ⟨fun _ => none,fun _ => false⟩ (text [lit "a",lit "a",lit "b"]) = .ok (0,⟨text ps,[]⟩) ∧
    ds.Sublist ps ∧ us.Sublist ps ∧ ps.Sublist [lit "a",lit "a",lit "b"] ∧ (ds ++ us).Perm ps :=
  ⟨regular_sample,uniq_halves regular_sample _⟩

theorem percent3d_nat (n : ℕ) : ∃ k, percent3d n = List.replicate k 32 ++ decimalNat n :=
  ⟨_,rfl⟩

theorem space_notMem_decimalNat (n : ℕ) : 32 ∉ decimalNat n := fun h =>
  absurd (isDigit_of_mem_decimalNat h) (by decide)

theorem dropWhile_padding {k : ℕ} {w : Bytes} (hw : w.head? ≠ some 32) :
    (List.replicate k 32 ++ w).dropWhile (· = 32) = w := by
  induction k with
  | zero =>
    cases w with
    | nil => rfl
    | cons c w =>
      rw [List.replicate_zero,List.nil_append,List.dropWhile_cons_of_neg]
      simpa using hw
  | succ k ih => rw [List.replicate_succ,List.cons_append,List.dropWhile_cons_of_pos (by simp),ih]

/-- The count and the line can be read off a printed line. -/
theorem counted_injective {n m : ℕ} {a b : Bytes} (h : percent3d n ++ [32] ++ a = percent3d m ++ [32] ++ b) :
    n = m ∧ a = b := by
  have hread (n : ℕ) (a : Bytes) :
      (percent3d n ++ [32] ++ a).dropWhile (· = 32) = decimalNat n ++ 32 :: a := by
    obtain ⟨k,hk⟩ := percent3d_nat n
    rw [hk,List.append_assoc,List.append_assoc,List.singleton_append,dropWhile_padding]
    rw [List.head?_append_of_ne_nil _ (decimalNat_ne_nil n)]
    exact fun hh => space_notMem_decimalNat n (List.mem_of_mem_head? hh)
  have hd := congrArg (List.dropWhile (· = 32)) h
  rw [hread,hread] at hd
  have ht := congrArg (List.takeWhile (· ≠ 32)) hd
  rw [takeWhile_ne (space_notMem_decimalNat n),takeWhile_ne (space_notMem_decimalNat m)] at ht
  have hn := congrArg digitsValue ht
  rw [digitsValue_decimalNat,digitsValue_decimalNat] at hn
  subst hn
  simpa using hd

theorem lf_notMem_percent3d (n : ℕ) : 10 ∉ percent3d n := by
  obtain ⟨k,hk⟩ := percent3d_nat n
  rw [hk,List.mem_append]
  rintro (h | h)
  · exact absurd (List.eq_of_mem_replicate h) (by decide)
  · exact absurd (isDigit_of_mem_decimalNat h) (by decide)

theorem entry_count (x : ℕ × CString) : entry [lit "-c"] x = percent3d x.1 ++ [32] ++ x.2.bytes ++ [10] := rfl

theorem entries_injective {xs ys : List (ℕ × CString)} (hx : ∀ x ∈ xs, 10 ∉ x.2.bytes)
    (hy : ∀ y ∈ ys, 10 ∉ y.2.bytes) (h : xs.flatMap (entry [lit "-c"]) = ys.flatMap (entry [lit "-c"])) :
    xs = ys := by
  induction xs generalizing ys with
  | nil =>
    cases ys with
    | nil => rfl
    | cons y ys => simp [entry_count] at h
  | cons x xs ih =>
    cases ys with
    | nil => simp [entry_count] at h
    | cons y ys =>
      have hfree (x : ℕ × CString) (hx : 10 ∉ x.2.bytes) : 10 ∉ percent3d x.1 ++ [32] ++ x.2.bytes := by
        simp [lf_notMem_percent3d,hx]
      have hx₀ := hfree x (hx x List.mem_cons_self)
      have hy₀ := hfree y (hy y List.mem_cons_self)
      rw [List.flatMap_cons,List.flatMap_cons,entry_count,entry_count,List.append_assoc _ [10],
        List.append_assoc _ [10],List.singleton_append,List.singleton_append] at h
      have ht := congrArg (List.takeWhile (· ≠ 10)) h
      rw [takeWhile_ne hx₀,takeWhile_ne hy₀] at ht
      rw [ht,List.append_cancel_left_eq,List.cons.injEq] at h
      obtain ⟨hn,hl⟩ := counted_injective ht
      rw [Prod.ext hn (CString.ext hl),ih (fun z hz => hx z (List.mem_cons_of_mem _ hz))
        (fun z hz => hy z (List.mem_cons_of_mem _ hz)) h.2]

/-- The output of `uniq -c` tells the input: no two inputs have the same. -/
theorem uniq_counts_iff (h : Regular lines) (h' : Regular lines') (files : Files) :
    uniq [lit "-c"] files (text lines) = uniq [lit "-c"] files (text lines') ↔ lines = lines' := by
  refine ⟨fun heq => ?_,fun heq => by rw [heq]⟩
  rw [uniq_entries (by decide) (by decide) h,uniq_entries (by decide) (by decide) h'] at heq
  have hout : (ends (· == ·) lines).flatMap (entry [lit "-c"]) =
      (ends (· == ·) lines').flatMap (entry [lit "-c"]) := by
    simpa using heq
  have hends := entries_injective (fun x hx => h.lf _ (mem_of_mem_ends hx))
    (fun x hx => h'.lf _ (mem_of_mem_ends hx)) hout
  rw [← flatMap_replicate_ends lines,hends,flatMap_replicate_ends]

theorem uniq_counts_iff_pair : Regular [lit "a",lit "a",lit "b"] ∧ Regular [lit "a",lit "b"] ∧
    uniq [lit "-c"] ⟨fun _ => none,fun _ => false⟩ (text [lit "a",lit "a",lit "b"]) ≠
      uniq [lit "-c"] ⟨fun _ => none,fun _ => false⟩ (text [lit "a",lit "b"]) := by
  have h : Regular [lit "a",lit "b"] := ⟨by decide,by decide,by decide⟩
  exact ⟨regular_sample,h,fun heq => absurd ((uniq_counts_iff regular_sample h _).mp heq) (by decide)⟩

end UniqLaws
end CodingChallenges
