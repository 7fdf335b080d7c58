import CodingChallenges.CText

/-! The word counter of `ccwc.sh`. The reader delivers one character at a time, which is a byte in
ASCII texts without NUL, and the empty string for a newline, which is no white space for the loop. -/
namespace CodingChallenges
namespace WordCount

open CText

structure Counters where
  bytes : ℕ
  chars : ℕ
  words : ℕ
  in_word : Bool
  deriving DecidableEq

/-- What `IFS= read -r -n1 char` leaves in `char`. -/
def delivered (c : UInt8) : Bytes := if c = 10 then [] else [c]

/-- `"$char" =~ [[:space:]]`. -/
def matchesSpace (char : Bytes) : Bool := char.any isSpace

def countChar (k : Counters) (char : Bytes) : Counters :=
  let k := { k with bytes := k.bytes+1, chars := k.chars+1 }
  if matchesSpace char then { k with in_word := false }
  else if k.in_word = false then { k with words := k.words+1, in_word := true }
  else k

def counting (text : Bytes) : Counters := (text.map delivered).foldl countChar ⟨0,0,0,false⟩

/-- The maximal runs of characters that are no white space. -/
def words (text : Bytes) : List Bytes := (text.splitOnP isSpace).filter (· ≠ [])

def isBlank (c : UInt8) : Bool := isSpace c && c ≠ 10

def starts (sep : UInt8 → Bool) : Bool → Bytes → ℕ
  | _, [] => 0
  | inside, c :: s => if sep c then starts sep false s else (if inside then 0 else 1)+starts sep true s

theorem starts_splitOnP (sep : UInt8 → Bool) (inside : Bool) (s : Bytes) :
    ∃ f fs, s.splitOnP sep = f :: fs ∧
      starts sep inside s = (if inside = false ∧ f ≠ [] then 1 else 0)+(fs.filter (· ≠ [])).length := by
  induction s generalizing inside with
  | nil => exact ⟨[],[],rfl,by simp [starts]⟩
  | cons c s ih =>
    rw [List.splitOnP_cons_eq_if_modifyHead,starts]
    by_cases hc : sep c = true
    · obtain ⟨f,fs,hs,hn⟩ := ih false
      refine ⟨[],f :: fs,by rw [if_pos hc,hs],?_⟩
      rw [if_pos hc,hn,List.filter_cons]
      by_cases hf : f = [] <;> simp [hf,Nat.add_comm]
    · obtain ⟨f,fs,hs,hn⟩ := ih true
      refine ⟨c :: f,fs,by rw [if_neg hc,hs]; rfl,?_⟩
      rw [if_neg hc,hn]
      cases inside <;> simp

theorem length_words (text : Bytes) : (words text).length = starts isSpace false text := by
  obtain ⟨f,fs,hs,hn⟩ := starts_splitOnP isSpace false text
  rw [words,hs,hn,List.filter_cons]
  by_cases hf : f = [] <;> simp [hf,Nat.add_comm]

theorem matchesSpace_delivered (c : UInt8) : matchesSpace (delivered c) = isBlank c := by
  by_cases h : c = 10 <;> simp [matchesSpace,delivered,isBlank,h]

theorem foldl_countChar (k : Counters) (text : Bytes) :
    ((text.map delivered).foldl countChar k).words = k.words+starts isBlank k.in_word text := by
  induction text generalizing k with
  | nil => rfl
  | cons c text ih =>
    rw [List.map_cons,List.foldl_cons,ih,starts,countChar,matchesSpace_delivered]
    by_cases hc : isBlank c = true
    · simp [hc]
    · cases k.in_word
      · simp [hc,Nat.add_assoc]
      · simp [hc]

theorem counting_words (text : Bytes) : (counting text).words = starts isBlank false text := by
  rw [counting,foldl_countChar]
  exact Nat.zero_add _

def isWord (c : UInt8) : Bool := !isSpace c

/-- How many runs of newlines have neighbours that `p` holds of: whether a word ends in front of
the run, and whether one begins behind it. -/
def newlineRuns (p : Bool → Bool → Bool) : Bool → Bytes → ℕ
  | _, [] => 0
  | left, c :: s =>
    if c = 10 then
      if s.head? = some 10 then newlineRuns p left s
      else (if p left (s.head?.any isWord) then 1 else 0)+newlineRuns p false s
    else newlineRuns p (isWord c) s

def both (left right : Bool) : Bool := left && right

def neither (left right : Bool) : Bool := !left && !right

theorem starts_sep {sep : UInt8 → Bool} {c : UInt8} (hc : sep c = true) (inside : Bool) (s : Bytes) :
    starts sep inside (c :: s) = starts sep false s := if_pos hc

theorem starts_other {sep : UInt8 → Bool} {c : UInt8} (hc : ¬ sep c = true) (inside : Bool) (s : Bytes) :
    starts sep inside (c :: s) = (if inside then 0 else 1)+starts sep true s := if_neg hc

theorem starts_isBlank_false {s : Bytes} (h10 : s.head? ≠ some 10) :
    starts isBlank false s = (if s.head?.any isWord then 1 else 0)+starts isBlank true s := by
  cases s with
  | nil => rfl
  | cons c s =>
    have hc10 : c ≠ 10 := fun h => h10 (by rw [h]; rfl)
    by_cases hc : isSpace c = true
    · have hb : isBlank c = true := by simp [isBlank,hc,hc10]
      simp [starts_sep hb,isWord,hc]
    · have hb : ¬ isBlank c = true := by simp [isBlank,hc]
      simp [starts_other hb,isWord,hc]

theorem newlineRuns_other {p : Bool → Bool → Bool} {left : Bool} {c : UInt8} (hc : c ≠ 10) (s : Bytes) :
    newlineRuns p left (c :: s) = newlineRuns p (isWord c) s := if_neg hc

theorem newlineRuns_more {p : Bool → Bool → Bool} {left : Bool} {s : Bytes} (h : s.head? = some 10) :
    newlineRuns p left (10 :: s) = newlineRuns p left s := by
  rw [newlineRuns,if_pos rfl,if_pos h]

theorem newlineRuns_last {p : Bool → Bool → Bool} {left : Bool} {s : Bytes} (h : s.head? ≠ some 10) :
    newlineRuns p left (10 :: s) =
      (if p left (s.head?.any isWord) then 1 else 0)+newlineRuns p false s := by
  rw [newlineRuns,if_pos rfl,if_neg h]

/-- What the counter misses and what it invents, from behind a word or not. -/
theorem starts_newlineRuns (left : Bool) (s : Bytes) :
    starts isBlank left s+newlineRuns both left s = starts isSpace left s+newlineRuns neither left s := by
  induction s generalizing left with
  | nil => rfl
  | cons c s ih =>
    by_cases h10 : c = 10
    · subst h10
      have hs : isSpace 10 = true := by decide
      have hb : ¬ isBlank 10 = true := by decide
      rw [starts_sep hs,starts_other hb]
      by_cases hn : s.head? = some 10
      · obtain ⟨t,rfl⟩ := List.head?_eq_some_iff.mp hn
        have ht := ih left
        rw [starts_sep hs,starts_other hb] at ht
        rw [newlineRuns_more hn,newlineRuns_more hn,starts_sep hs,starts_other hb,if_pos rfl,Nat.zero_add]
        exact ht
      · -- a run ends: the word behind it is begun only for the one who saw the run
        have ht := ih false
        rw [starts_isBlank_false hn] at ht
        rw [newlineRuns_last hn,newlineRuns_last hn]
        generalize s.head?.any isWord = right at ht ⊢
        cases left <;> cases right <;> simp [both,neither] at ht ⊢ <;> omega
    · rw [newlineRuns_other h10,newlineRuns_other h10]
      by_cases hc : isSpace c = true
      · have hb : isBlank c = true := by simp [isBlank,hc,h10]
        have hw : isWord c = false := by simp [isWord,hc]
        rw [starts_sep hc,starts_sep hb,hw]
        exact ih false
      · have hb : ¬ isBlank c = true := by simp [isBlank,hc]
        have hw : isWord c = true := by simp [isWord,hc]
        rw [starts_other hc,starts_other hb,hw,Nat.add_assoc,Nat.add_assoc,ih true]

/-- The counter tells the words exactly when as many runs of newlines join two words as stand alone. -/
theorem counting_words_iff (text : Bytes) : (counting text).words = (words text).length ↔
    newlineRuns both false text = newlineRuns neither false text := by
  have h := starts_newlineRuns false text
  rw [counting_words,length_words]
  omega

/-- Two words on two lines. -/
theorem counting_two_lines : (counting (ascii "a\nb")).words = 1 ∧ (words (ascii "a\nb")).length = 2 := by
  decide

end WordCount
end CodingChallenges
