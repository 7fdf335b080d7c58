import CodingChallenges.CalculatorLexemes

/-! The loop of `eval_postfix` on what `to_postfix` writes for any string. `strtod` reads a
run of digits and points as one number after the other, and nothing of it where a point has
no digit beside it: the loop then stays where it is. -/
namespace CodingChallenges
namespace CalculatorLoop

open CText CMemory Calculator CalculatorLexemes
open CalculatorGrammar (Ends hexadecimal_numeral mantissa_digits mantissa_point exponent_ends toLower_numeral)

def pointsLead : Bytes → Bool
  | [] => true
  | c :: p => (c ≠ 46 || p.head?.any isDigit) && pointsLead p

/-- `strtod` gets through the run: each point has a digit behind it, or, where it is the first,
in front of it. -/
def readable (t : Bytes) : Bool :=
  pointsLead t || (t.takeWhile isDigit ≠ [] && pointsLead ((t.dropWhile isDigit).drop 1))

/-- Each number after the first starts with a point. -/
def numbersIn (t : Bytes) : ℕ := max 1 (t.count 46)

theorem pointsLead_append {w : Bytes} (hw : ∀ c ∈ w, isDigit c = true) (p : Bytes) :
    pointsLead (w ++ p) = pointsLead p := by
  induction w with
  | nil => rfl
  | cons c w ih =>
    have hc : c ≠ 46 := by
      rintro rfl
      exact absurd (hw 46 (by simp)) (by decide)
    have h := ih fun d hd => hw d (by simp [hd])
    simp [pointsLead,hc,h]

theorem pointsLead_point {f : Bytes} (hf : ∀ c ∈ f, isDigit c = true) {p : Bytes}
    (hp : ∀ c, p.head? = some c → isDigit c = false) :
    pointsLead (46 :: (f ++ p)) = (!f.isEmpty && pointsLead p) := by
  rw [pointsLead,pointsLead_append hf]
  cases f with
  | nil =>
    cases p with
    | nil => rfl
    | cons c p => simp [hp c rfl]
  | cons d f => simp [hf d (by simp)]

theorem exists_split {t : Bytes} (ht : ∀ c ∈ t, isNumeral c = true) :
    (∀ c ∈ t, isDigit c = true) ∨
      ∃ w f q, t = w ++ 46 :: (f ++ q) ∧ (∀ c ∈ w, isDigit c = true) ∧
        (∀ c ∈ f, isDigit c = true) ∧ (q = [] ∨ q.head? = some 46) := by
  have hstop {p : Bytes} (hp : ∀ c ∈ p, isNumeral c = true) :
      p.dropWhile isDigit = [] ∨ (p.dropWhile isDigit).head? = some 46 := by
    cases hd : p.dropWhile isDigit with
    | nil => exact Or.inl rfl
    | cons c q =>
      have hn : ¬ isDigit c = true := by
        have h := List.head?_dropWhile_not isDigit p
        simpa [hd] using h
      have hc : isNumeral c = true := hp c ((List.dropWhile_suffix isDigit).subset (by simp [hd]))
      have h46 : c = 46 := by simpa [isNumeral,hn] using hc
      exact Or.inr (by rw [List.head?_cons,h46])
  have happ := List.takeWhile_append_dropWhile (p:=isDigit) (l:=t)
  rcases hstop ht with hd | hd
  · rw [hd,List.append_nil] at happ
    exact Or.inl fun c hc => List.mem_takeWhile_imp (happ.symm ▸ hc)
  · cases hq : t.dropWhile isDigit with
    | nil => simp [hq] at hd
    | cons c p =>
      obtain rfl : c = 46 := by simpa [hq] using hd
      have hp : ∀ c ∈ p, isNumeral c = true := by
        intro c hc
        exact ht c ((List.dropWhile_suffix isDigit).subset (by simp [hq,hc]))
      refine Or.inr ⟨t.takeWhile isDigit,p.takeWhile isDigit,p.dropWhile isDigit,?_,?_,?_,hstop hp⟩
      · rw [List.takeWhile_append_dropWhile,← hq,happ]
      · exact fun c hc => List.mem_takeWhile_imp hc
      · exact fun c hc => List.mem_takeWhile_imp hc

theorem readable_point {w f q : Bytes} (hw : ∀ c ∈ w, isDigit c = true) (hf : ∀ c ∈ f, isDigit c = true)
    (hq : ∀ c, q.head? = some c → isDigit c = false) :
    readable (w ++ 46 :: (f ++ q)) = (!(w.isEmpty && f.isEmpty) && pointsLead q) := by
  have hp : ∀ c, (46 :: (f ++ q)).head? = some c → isDigit c = false := by
    intro c hc
    obtain rfl : 46 = c := Option.some.inj hc
    rfl
  have htake := takeWhile_isDigit_append w (46 :: (f ++ q)) hw hp
  have hdrop : (w ++ 46 :: (f ++ q)).dropWhile isDigit = 46 :: (f ++ q) := by
    have happ := List.takeWhile_append_dropWhile (p:=isDigit) (l:=w ++ 46 :: (f ++ q))
    rw [htake] at happ
    exact List.append_cancel_left happ
  rw [readable,htake,hdrop,List.drop_succ_cons,List.drop_zero,pointsLead_append hw,pointsLead_append hf,
    pointsLead_point hf hq]
  cases w <;> cases f <;> simp

theorem count_digits {w : Bytes} (hw : ∀ c ∈ w, isDigit c = true) : w.count 46 = 0 := by
  rw [List.count_eq_zero]
  exact fun h => absurd (hw 46 h) (by decide)

theorem exponent_numeral {t : Bytes} (ht : ∀ c ∈ t, isNumeral c = true) {s : Bytes} (hs : Ends s) :
    exponent (fun c => toLower c = 101) (t ++ s) = 0 := by
  cases t with
  | nil => exact exponent_ends hs
  | cons c t =>
    have hc : isNumeral c = true := ht c (by simp)
    have hm : ¬ (decide (toLower c = 101) = true) := by
      rw [toLower_numeral hc]
      intro h
      rw [of_decide_eq_true h] at hc
      exact absurd hc (by decide)
    rw [List.cons_append]
    simp only [exponent]
    rw [if_neg (fun h => hm h.1)]

theorem strtodLength_numeral {u v : Bytes} (hne : u ++ v ≠ []) (ht : ∀ c ∈ u ++ v, isNumeral c = true)
    {s : Bytes} (hs : Ends s) (hm : mantissa isDigit (u ++ v ++ s) = u.length) :
    strtodLength (u ++ v ++ s) = u.length := by
  have hd : (u ++ v ++ s).drop u.length = v ++ s := by rw [List.append_assoc,List.drop_left]
  have he := exponent_numeral (fun c hc => ht c (List.mem_append_right u hc)) hs
  rw [strtodLength,hexadecimal_numeral hne ht hs,if_neg (by simp)]
  simp only [hm,hd,he]
  split_ifs with h0
  · exact h0.symm
  · rfl

/-- Of the run `t`, whatever follows it, `strtod` reads `u` and leaves `v`. -/
structure Reads (t u v : Bytes) : Prop where
  run : t = u ++ v
  length : ∀ s, Ends s → strtodLength (t ++ s) = u.length
  stuck : u = [] → readable t = false
  last : u ≠ [] → v = [] → readable t = true ∧ numbersIn t = 1
  next : u ≠ [] → v ≠ [] → readable v = readable t ∧ numbersIn t = numbersIn v+1

theorem reads_digits {t : Bytes} (hne : t ≠ []) (hd : ∀ c ∈ t, isDigit c = true) : Reads t t [] where
  run := (List.append_nil t).symm
  length s hs := by
    have h := strtodLength_numeral (u:=t) (v:=[]) (by simpa using hne)
      (fun c hc => by simp [isNumeral,hd c (by simpa using hc)]) hs
    rw [List.append_nil] at h
    exact h (mantissa_digits hd hs)
  stuck h := (hne h).elim
  last _ _ := by
    have h := pointsLead_append hd []
    rw [List.append_nil] at h
    exact ⟨by simp [readable,h,pointsLead],by simp [numbersIn,count_digits hd]⟩
  next _ h := (h rfl).elim

theorem not_digit_of_stop {q : Bytes} (hq : q = [] ∨ q.head? = some 46) {c : UInt8}
    (hc : q.head? = some c) : isDigit c = false := by
  rcases hq with rfl | hq
  · simp at hc
  · obtain rfl : 46 = c := Option.some.inj (hq.symm.trans hc)
    rfl

theorem mantissa_run {w f q s : Bytes} (hw : ∀ c ∈ w, isDigit c = true) (hf : ∀ c ∈ f, isDigit c = true)
    (hq : q = [] ∨ q.head? = some 46) (hs : Ends s) : mantissa isDigit (w ++ 46 :: (f ++ q) ++ s) =
      if w.length+f.length = 0 then 0 else w.length+1+f.length := by
  have h := mantissa_point (s:=q ++ s) hw hf (fun c hc => by
    cases q with
    | nil => exact hs.not_digit c hc
    | cons d q => exact not_digit_of_stop hq hc)
  simpa using h

theorem reads_lone {q : Bytes} (ht : ∀ c ∈ 46 :: q, isNumeral c = true) (hq : q = [] ∨ q.head? = some 46) :
    Reads (46 :: q) [] (46 :: q) where
  run := rfl
  length s hs := strtodLength_numeral (u:=[]) (List.cons_ne_nil _ _) ht hs
    (mantissa_run (w:=[]) (f:=[]) (by simp) (by simp) hq hs)
  stuck _ := readable_point (w:=[]) (f:=[]) (by simp) (by simp) fun _ hc => not_digit_of_stop hq hc
  last h := (h rfl).elim
  next h := (h rfl).elim

theorem reads_point {w f q : Bytes} (hw : ∀ c ∈ w, isDigit c = true) (hf : ∀ c ∈ f, isDigit c = true)
    (hq : q = [] ∨ q.head? = some 46) (h0 : w.length+f.length ≠ 0)
    (ht : ∀ c ∈ w ++ 46 :: f ++ q, isNumeral c = true) :
    Reads (w ++ 46 :: f ++ q) (w ++ 46 :: f) q := by
  have hu : w ++ 46 :: f ++ q = w ++ 46 :: (f ++ q) := by simp
  have hsome : (!(w.isEmpty && f.isEmpty)) = true := by
    cases w with
    | nil =>
      cases f with
      | nil => exact (h0 rfl).elim
      | cons d f => rfl
    | cons c w => rfl
  have hread := readable_point hw hf fun _ hc => not_digit_of_stop hq hc
  rw [hsome,Bool.true_and,← hu] at hread
  have hcount : numbersIn (w ++ 46 :: f ++ q) = q.count 46+1 := by
    simp [numbersIn,count_digits hw,count_digits hf]
  refine ⟨rfl,fun s hs => ?_,fun h => by simp at h,fun _ hq0 => ⟨?_,?_⟩,fun _ hq0 => ?_⟩
  · refine strtodLength_numeral (by simp) ht hs ?_
    rw [hu,mantissa_run hw hf hq hs,if_neg h0,List.length_append,List.length_cons]
    omega
  · rw [hread,hq0]
    rfl
  · rw [hcount,hq0]
    rfl
  · obtain ⟨c,p,rfl⟩ := List.exists_cons_of_ne_nil hq0
    obtain rfl : c = 46 := by simpa using hq
    have htake : (46 :: p : Bytes).takeWhile isDigit = [] := List.takeWhile_cons_of_neg (by decide)
    constructor
    · rw [hread,readable,htake]
      simp
    · rw [hcount,numbersIn]
      simp

/-- What `strtod` leaves of a run. -/
theorem strtod_spec {t : Bytes} (hne : t ≠ []) (ht : ∀ c ∈ t, isNumeral c = true) :
    ∃ u v, Reads t u v := by
  rcases exists_split ht with hd | ⟨w,f,q,rfl,hw,hf,hq⟩
  · exact ⟨t,[],reads_digits hne hd⟩
  · by_cases h0 : w.length+f.length = 0
    · obtain rfl : w = [] := List.length_eq_zero_iff.mp (by omega)
      obtain rfl : f = [] := List.length_eq_zero_iff.mp (by omega)
      exact ⟨[],_,reads_lone ht hq⟩
    · have hu : w ++ 46 :: (f ++ q) = w ++ 46 :: f ++ q := by simp
      rw [hu] at ht ⊢
      exact ⟨w ++ 46 :: f,q,reads_point hw hf hq h0 ht⟩

section Loop

variable {α : Type} (A : Arithmetic α)

/-- More fuel does not change how the loop ends. -/
theorem evalLoop_mono {fuel : ℕ} {p : Bytes} {top : List (Item α)}
    (h : evalLoop A fuel p top ≠ .error .endless) (k : ℕ) :
    evalLoop A (fuel+k) p top = evalLoop A fuel p top := by
  induction fuel generalizing p top with
  | zero => exact (h rfl).elim
  | succ fuel ih =>
    rw [Nat.succ_add]
    cases p with
    | nil => rfl
    | cons c p =>
      rw [evalLoop] at h ⊢
      rw [evalLoop]
      split_ifs at h ⊢ with hs hn
      · exact ih h
      · exact ih h
      · cases top with
        | nil => rfl
        | cons x top =>
          cases x with
          | character d => rfl
          | number y =>
            cases top with
            | nil => rfl
            | cons x top =>
              cases x with
              | character d => rfl
              | number z =>
                simp only [pop,readDouble,bind,Except.bind] at h ⊢
                cases hr : A.apply c z y with
                | none =>
                  rw [hr] at h
                  exact ih h
                | some r =>
                  rw [hr] at h
                  exact ih h

/-- What a token does to the number of numbers on the stack: none where it finds too few. -/
def execute (n : ℕ) : Token → Option ℕ
  | .numeral t => some (n+numbersIn t)
  | .character c => if n < 2 then none else some (if isOperator c then n-1 else n-2)

def rounds : Token → ℕ
  | .numeral t => numbersIn t+1
  | .character _ => 2

def readableToken : Token → Bool
  | .numeral t => readable t
  | .character _ => true

theorem isSpace_numeral {c : UInt8} (hc : isNumeral c = true) : isSpace c = false := by
  simp only [isNumeral,Bool.or_eq_true,decide_eq_true_eq] at hc
  rcases hc with hc | rfl
  · exact isSpace_of_isDigit hc
  · rfl

theorem evalLoop_strtod {u v : Bytes} (hne : u ++ v ≠ []) (ht : ∀ c ∈ u ++ v, isNumeral c = true)
    {s : Bytes} (hl : strtodLength (u ++ v ++ s) = u.length) (fuel : ℕ) (top : List (Item α)) :
    evalLoop A (fuel+1) (u ++ v ++ s) top = evalLoop A fuel (v ++ s) (.number (A.number u) :: top) := by
  have hd : (u ++ v ++ s).drop u.length = v ++ s := by rw [List.append_assoc,List.drop_left]
  have hk : (u ++ v ++ s).take u.length = u := by rw [List.append_assoc,List.take_left]
  obtain ⟨c,w,hw⟩ := List.exists_cons_of_ne_nil hne
  have hc : isNumeral c = true := ht c (by simp [hw])
  rw [hw,List.cons_append] at hl hd hk ⊢
  simp only [evalLoop,isSpace_numeral hc,hc,hl,hd,hk]
  simp

theorem evalLoop_readable {t : Bytes} (hne : t ≠ []) (ht : ∀ c ∈ t, isNumeral c = true)
    (hr : readable t = true) {s : Bytes} (hs : Ends s) :
    ∃ xs : List α, xs.length = numbersIn t ∧ ∀ fuel (ys : List α),
      evalLoop A (fuel+numbersIn t) (t ++ s) (ys.map .number) =
        evalLoop A fuel s ((xs ++ ys).map .number) := by
  induction hn : t.length using Nat.strong_induction_on generalizing t with
  | _ n ih =>
    obtain ⟨u,v,rfl,hl,hu,hlast,hnext⟩ := strtod_spec hne ht
    have hu0 : u ≠ [] := by
      intro h
      rw [hu h] at hr
      cases hr
    by_cases hv : v = []
    · subst hv
      refine ⟨[A.number u],(hlast hu0 rfl).2.symm,fun fuel ys => ?_⟩
      rw [(hlast hu0 rfl).2]
      exact evalLoop_strtod A hne ht (hl s hs) fuel _
    · obtain ⟨hrv,hcount⟩ := hnext hu0 hv
      have hlt : v.length < n := by
        have hpos := List.length_pos_of_ne_nil hu0
        rw [← hn,List.length_append]
        omega
      obtain ⟨xs,hxs,hx⟩ := ih v.length hlt hv (fun c hc => ht c (List.mem_append_right u hc))
        (hrv.trans hr) rfl
      refine ⟨xs ++ [A.number u],?_,fun fuel ys => ?_⟩
      · rw [List.length_append,hxs,hcount]
        rfl
      · rw [hcount,← Nat.add_assoc,evalLoop_strtod A hne ht (hl s hs)]
        have h := hx fuel (A.number u :: ys)
        rw [List.append_assoc]
        exact h

/-- On a run that is not readable the loop does not come to an end. -/
theorem evalLoop_unreadable {t : Bytes} (hne : t ≠ []) (ht : ∀ c ∈ t, isNumeral c = true)
    (hr : readable t = false) {s : Bytes} (hs : Ends s) (fuel : ℕ) (top : List (Item α)) :
    evalLoop A fuel (t ++ s) top = .error .endless := by
  induction fuel generalizing t top with
  | zero => rfl
  | succ fuel ih =>
    obtain ⟨u,v,rfl,hl,hu,hlast,hnext⟩ := strtod_spec hne ht
    rw [evalLoop_strtod A hne ht (hl s hs)]
    by_cases hu0 : u = []
    · subst hu0
      exact ih hne ht hr _
    · have hv : v ≠ [] := by
        intro h
        rw [(hlast hu0 h).1] at hr
        cases hr
      exact ih hv (fun c hc => ht c (List.mem_append_right u hc)) ((hnext hu0 hv).1.trans hr) _

theorem not_isNumeral {c : UInt8} (hc : isOperator c = true ∨ c ∈ openingBrackets) :
    ¬ isSpace c = true ∧ ¬ isNumeral c = true := by
  have hop : ∀ b ∈ ([43,45,42,47] : Bytes), ¬ isSpace b = true ∧ ¬ isNumeral b = true :=
    List.all_iff_forall_prop.mp (by decide)
  have hbr : ∀ b ∈ openingBrackets, ¬ isSpace b = true ∧ ¬ isNumeral b = true :=
    List.all_iff_forall_prop.mp (by decide)
  rcases hc with hc | hc
  · exact hop c (by simpa [isOperator,or_assoc] using hc)
  · exact hbr c hc

theorem apply_isSome (c : UInt8) (x y : α) : (A.apply c x y).isSome = isOperator c := by
  unfold Arithmetic.apply isOperator
  split_ifs with h₁ h₂ h₃ h₄
  · simp [h₁]
  · simp [h₂]
  · simp [h₃]
  · simp [h₄]
  · simp [h₁,h₂,h₃,h₄]

theorem evalLoop_character {c : UInt8} (hc : isOperator c = true ∨ c ∈ openingBrackets) (s : Bytes)
    (xs : List α) :
    match execute xs.length (.character c) with
    | none => ∀ fuel, evalLoop A (fuel+1) (c :: s) (xs.map .number) = .error (.exit 1)
    | some n => ∃ ys : List α, ys.length = n ∧ ∀ fuel,
        evalLoop A (fuel+1) (c :: s) (xs.map .number) = evalLoop A fuel s (ys.map .number) := by
  obtain ⟨hsp,hn⟩ := not_isNumeral hc
  cases xs with
  | nil =>
    intro fuel
    simp only [evalLoop,if_neg hsp,if_neg hn]
    rfl
  | cons y xs =>
    cases xs with
    | nil =>
      intro fuel
      simp only [evalLoop,if_neg hsp,if_neg hn]
      rfl
    | cons x xs =>
      have hlen : ¬ (y :: x :: xs).length < 2 := by simp
      have hsome := apply_isSome A c x y
      simp only [execute,if_neg hlen]
      cases hr : A.apply c x y with
      | some r =>
        rw [hr] at hsome
        refine ⟨r :: xs,by simp [← hsome],fun fuel => ?_⟩
        simp only [evalLoop,if_neg hsp,if_neg hn,List.map_cons,pop,readDouble,bind,Except.bind,hr]
      | none =>
        rw [hr] at hsome
        refine ⟨xs,by simp [← hsome],fun fuel => ?_⟩
        simp only [evalLoop,if_neg hsp,if_neg hn,List.map_cons,pop,readDouble,bind,Except.bind,hr]

theorem ends_spaced (ts : List Token) : Ends (spaced ts) := by
  cases ts with
  | nil => exact Or.inl rfl
  | cons t ts => exact Or.inr rfl

theorem evalLoop_unreadable_token {t : Bytes} (hv : (Token.numeral t).Valid) (hr : readable t = false)
    (us : List Token) (fuel : ℕ) (top : List (Item α)) :
    evalLoop A fuel (spaced (.numeral t :: us)) top = .error .endless := by
  cases fuel with
  | zero => rfl
  | succ fuel =>
    have hsp : isSpace 32 = true := rfl
    have hstay := evalLoop_unreadable A hv.1 hv.2 hr (ends_spaced us) fuel top
    simp only [spaced,List.flatMap_cons,List.cons_append,evalLoop,if_pos hsp]
    exact hstay

theorem evalLoop_token {t : Token} (hv : t.Valid) (hr : readableToken t = true) (us : List Token)
    (xs : List α) :
    match execute xs.length t with
    | none => ∀ fuel, evalLoop A (fuel+rounds t) (spaced (t :: us)) (xs.map .number) = .error (.exit 1)
    | some n => ∃ ys : List α, ys.length = n ∧ ∀ fuel,
        evalLoop A (fuel+rounds t) (spaced (t :: us)) (xs.map .number) =
          evalLoop A fuel (spaced us) (ys.map .number) := by
  have hspace (fuel : ℕ) (top : List (Item α)) :
      evalLoop A (fuel+1) (spaced (t :: us)) top = evalLoop A fuel (t.text ++ spaced us) top := by
    have hsp : isSpace 32 = true := rfl
    simp only [spaced,List.flatMap_cons,List.cons_append,evalLoop,if_pos hsp]
  cases t with
  | numeral t =>
    obtain ⟨ys,hys,hy⟩ := evalLoop_readable A hv.1 hv.2 hr (ends_spaced us)
    refine ⟨ys ++ xs,by simp [hys,Nat.add_comm],fun fuel => ?_⟩
    rw [rounds,← Nat.add_assoc,hspace]
    exact hy fuel xs
  | character c =>
    have h := evalLoop_character A hv (spaced us) xs
    cases he : execute xs.length (.character c) with
    | none =>
      rw [he] at h
      intro fuel
      exact (hspace (fuel+1) _).trans (h fuel)
    | some n =>
      rw [he] at h
      obtain ⟨ys,hys,hy⟩ := h
      exact ⟨ys,hys,fun fuel => (hspace (fuel+1) _).trans (hy fuel)⟩

theorem evalLoop_tokens {ts : List Token} (hv : ∀ t ∈ ts, t.Valid)
    (hr : ∀ t ∈ ts, readableToken t = true) (us : List Token) (xs : List α) :
    match ts.foldlM execute xs.length with
    | none => ∀ fuel, evalLoop A (fuel+(ts.map rounds).sum) (spaced (ts ++ us)) (xs.map .number) =
        .error (.exit 1)
    | some n => ∃ ys : List α, ys.length = n ∧ ∀ fuel,
        evalLoop A (fuel+(ts.map rounds).sum) (spaced (ts ++ us)) (xs.map .number) =
          evalLoop A fuel (spaced us) (ys.map .number) := by
  induction ts generalizing xs with
  | nil => exact ⟨xs,rfl,fun fuel => rfl⟩
  | cons t ts ih =>
    have htoken := evalLoop_token A (hv t (by simp)) (hr t (by simp)) (ts ++ us) xs
    have hrounds (fuel : ℕ) : fuel+((t :: ts).map rounds).sum = fuel+(ts.map rounds).sum+rounds t := by
      rw [List.map_cons,List.sum_cons]
      omega
    rw [List.foldlM_cons]
    cases he : execute xs.length t with
    | none =>
      rw [he] at htoken
      intro fuel
      rw [hrounds]
      exact htoken _
    | some m =>
      rw [he] at htoken
      obtain ⟨ys,rfl,hy⟩ := htoken
      have hrest := ih (fun t h => hv t (by simp [h])) (fun t h => hr t (by simp [h])) ys
      cases hf : ts.foldlM execute ys.length with
      | none =>
        rw [hf] at hrest
        simp only [bind,Option.bind,hf]
        intro fuel
        rw [hrounds]
        exact (hy _).trans (hrest fuel)
      | some n =>
        rw [hf] at hrest
        obtain ⟨zs,hzs,hz⟩ := hrest
        simp only [bind,Option.bind,hf]
        refine ⟨zs,hzs,fun fuel => ?_⟩
        rw [hrounds]
        exact (hy _).trans (hz fuel)

theorem spaced_nul {ts : List Token} (hv : ∀ t ∈ ts, t.Valid) : 0 ∉ spaced ts := by
  intro h
  obtain ⟨t,ht,h⟩ := List.mem_flatMap.mp h
  rcases List.mem_cons.mp h with h | h
  · cases h
  · have hvalid := hv t ht
    cases t with
    | numeral t => exact absurd (hvalid.2 0 h) (by decide)
    | character c =>
      obtain rfl : 0 = c := List.mem_singleton.mp h
      rcases hvalid with h | h
      · exact absurd h (by decide)
      · exact absurd h (by decide)

theorem evalLoop_padded (fuel : ℕ) (text : Bytes) (top : List (Item α)) :
    evalLoop A (fuel+2) (padded text) top = evalLoop A (fuel+1) text top := by
  unfold padded
  split_ifs with h
  · subst h
    rfl
  · have hsp : isSpace 32 = true := rfl
    rw [evalLoop,if_pos hsp]

theorem write_nul (p : Bytes) : 0 ∉ write A (lex p) [] [] := by
  intro h
  have hmem : (0 : UInt8) ∈ padded (write A (lex p) [] []) := by
    rw [padded,if_neg (List.ne_nil_of_mem h)]
    exact List.mem_cons_of_mem _ h
  rw [padded_write_lex] at hmem
  exact spaced_nul (fun t ht => valid_scan (fun l hl => valid_of_mem_lex hl) ht) hmem

/-- `eval` on an empty stack runs the loop over the tokens of the string. -/
theorem eval_eq (fuel : ℕ) (expr : CString) :
    eval A (fuel+1) [] expr = evalLoop A (fuel+2) (spaced (scan (lex expr.bytes)).flush) [] := by
  have hnul : ∀ b ∈ write A (lex expr.bytes) [] [], decide (b ≠ 0) = true := by
    intro b hb
    have hb0 : b ≠ 0 := fun h => write_nul A expr.bytes (h ▸ hb)
    simpa using hb0
  rw [← padded_write_lex A,evalLoop_padded,eval,toPostfix_eq]
  show evalLoop A (fuel+1) (List.takeWhile _ (write A (lex expr.bytes) [] [])) [] = _
  rw [List.takeWhile_eq_self_iff.mpr hnul]

end Loop

def operators (ls : List Lexeme) : ℕ :=
  (ls.map (Lexeme.share fun | .numeral _ => 0 | .character _ => 1)).sum

def numbers (ls : List Lexeme) : ℕ :=
  (ls.map (Lexeme.share fun | .numeral t => numbersIn t | .character _ => 0)).sum

end CalculatorLoop
end CodingChallenges
