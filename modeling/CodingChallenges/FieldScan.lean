import CodingChallenges.Pieces

/-! Reading words of limited width, as `%15s` does: separators are skipped, and a word that is too
long is read in parts. -/
namespace CodingChallenges
namespace FieldScan

variable {α : Type} (sep : α → Bool)

def words (s : List α) : List (List α) := (s.splitOnP sep).filter fun u => !u.isEmpty

/-- The next word up to `k` elements of it, and what is behind them. -/
def scanWord (k : ℕ) (s : List α) : Option (List α × List α) :=
  match s.dropWhile sep with
  | [] => none
  | c :: t =>
    let u := ((c :: t).takeWhile fun c => !sep c).take k
    some (u,(c :: t).drop u.length)

def scanFields : List ℕ → List α → List (List α)
  | [], _ => []
  | k :: ks, s =>
    match scanWord sep k s with
    | none => []
    | some r => r.1 :: scanFields ks r.2

/-- What is left of the words behind a field of `k` elements: a word that is too long goes on. -/
def behind (k : ℕ) (u : List α) (us : List (List α)) : List (List α) :=
  if u.length ≤ k then us else u.drop k :: us

def fields : List ℕ → List (List α) → List (List α)
  | [], _ => []
  | _ :: _, [] => []
  | k :: ks, u :: us => u.take k :: fields ks (behind k u us)

variable {sep}

theorem words_sep {c : α} (hc : sep c = true) (s : List α) : words sep (c :: s) = words sep s := by
  rw [words,List.splitOnP_cons_eq_if_modifyHead,if_pos hc]
  rfl

theorem words_dropWhile (s : List α) : words sep (s.dropWhile sep) = words sep s := by
  induction s with
  | nil => rfl
  | cons c s ih =>
    by_cases hc : sep c = true
    · rw [List.dropWhile_cons_of_pos hc,ih,words_sep hc]
    · rw [List.dropWhile_cons_of_neg hc]

theorem words_append {u : List α} (hu : ∀ c ∈ u, sep c = false) (hne : u ≠ []) {r : List α}
    (hr : ∀ c, r.head? = some c → sep c = true) : words sep (u ++ r) = u :: words sep r := by
  have hempty : u.isEmpty = false := List.isEmpty_eq_false_iff.mpr hne
  cases r with
  | nil =>
    rw [List.append_nil,words,List.splitOnP_eq_singleton hu]
    simp [hempty,words]
  | cons c r =>
    rw [words_sep (hr c rfl),words,List.splitOnP_append_cons_of_forall_mem hu c (hr c rfl)]
    simp [hempty,words]

theorem scanWord_words (k : ℕ) (s : List α) :
    (words sep s = [] ∧ scanWord sep k s = none) ∨
      ∃ u us r, words sep s = u :: us ∧ scanWord sep k s = some (u.take k,r) ∧ words sep r = behind k u us := by
  rw [← words_dropWhile,scanWord]
  cases ht : s.dropWhile sep with
  | nil => exact Or.inl ⟨rfl,rfl⟩
  | cons c t =>
    right
    have hc : sep c = false := by
      have hhead := List.head?_dropWhile_not sep s
      rw [ht] at hhead
      simpa using hhead
    let u := (c :: t).takeWhile fun c => !sep c
    let r := (c :: t).dropWhile fun c => !sep c
    have hsplit : u ++ r = c :: t := List.takeWhile_append_dropWhile
    have hu : ∀ d ∈ u, sep d = false := fun d hd => by simpa using List.mem_takeWhile_imp hd
    have hne : u ≠ [] := by
      show (c :: t).takeWhile (fun c => !sep c) ≠ []
      simp [hc]
    have hr : ∀ d, r.head? = some d → sep d = true := by
      intro d hd
      have hhead := List.head?_dropWhile_not (fun c => !sep c) (c :: t)
      simp only [r] at hd
      rw [hd] at hhead
      simpa using hhead
    have hdrop : (c :: t).drop (u.take k).length = u.drop k ++ r := by
      rw [← hsplit,List.length_take]
      by_cases hle : k ≤ u.length
      · rw [Nat.min_eq_left hle,List.drop_append_of_le_length hle]
      · rw [Nat.min_eq_right (by omega),List.drop_left,List.drop_eq_nil_of_le (by omega),List.nil_append]
    refine ⟨u,words sep r,u.drop k ++ r,?_,by rw [← hdrop],?_⟩
    · rw [← hsplit]
      exact words_append hu hne hr
    · unfold behind
      split_ifs with hle
      · rw [List.drop_eq_nil_of_le hle,List.nil_append]
      · exact words_append (fun d hd => hu d (List.mem_of_mem_drop hd)) (by simpa using hle) hr

/-- The fields of a text are those of its words. -/
theorem scanFields_eq (ks : List ℕ) (s : List α) :
    scanFields sep ks s = fields ks (words sep s) := by
  induction ks generalizing s with
  | nil => rfl
  | cons k ks ih =>
    rw [scanFields]
    rcases @scanWord_words _ sep k s with ⟨hw,hs⟩ | ⟨u,us,r,hw,hs,hr⟩
    · rw [hw,hs]
      rfl
    · rw [hw,hs,fields]
      dsimp only
      rw [ih,hr]

theorem length_field {ks : List ℕ} {us : List (List α)} {i k : ℕ} {u : List α} (hk : ks[i]? = some k)
    (hu : (fields ks us)[i]? = some u) : u.length ≤ k := by
  induction ks generalizing us i with
  | nil => simp at hk
  | cons k' ks ih =>
    cases us with
    | nil => simp [fields] at hu
    | cons w us =>
      rw [fields] at hu
      cases i with
      | zero =>
        obtain rfl : k' = k := by simpa using hk
        obtain rfl : w.take k' = u := by simpa using hu
        exact List.length_take_le k' w
      | succ i => exact ih (by simpa using hk) (by simpa using hu)

theorem fields_of_short {ks : List ℕ} {us : List (List α)} (h : List.Forall₂ (fun k u => u.length ≤ k) ks us)
    (more : List (List α)) : fields ks (us ++ more) = us := by
  induction h with
  | nil => cases more <;> rfl
  | cons hle _ ih => rw [List.cons_append,fields,behind,if_pos hle,ih,List.take_of_length_le hle]

end FieldScan
end CodingChallenges
