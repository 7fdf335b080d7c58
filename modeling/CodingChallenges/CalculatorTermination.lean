import CodingChallenges.CalculatorLoop

/-! When an evaluation comes to an end. A run of digits and points that `strtod` does not get
through keeps the loop of `eval_postfix` for ever, unless an operator in front of it finds too
few numbers. Which operators are written in front of a run is read off the string. -/
namespace CodingChallenges
namespace CalculatorTermination

open CText CMemory Calculator CalculatorLexemes CalculatorLoop

/-- The operator `o` still waits: no lexeme behind it is a closing bracket, or an operator that
binds no tighter, outside the `d` brackets that are open and those that are opened behind it. -/
def waits (o : UInt8) : ℕ → List Lexeme → Bool
  | _, [] => true
  | d, .numeral _ :: ls => waits o d ls
  | d, .operator c :: ls => !(d = 0 && prec c ≤ prec o) && waits o d ls
  | d, .opening _ :: ls => waits o (d+1) ls
  | 0, .closing :: _ => false
  | d+1, .closing :: ls => waits o d ls

/-- The operators that do not wait for the end. -/
def applied : List Lexeme → ℕ
  | [] => 0
  | .operator c :: ls => (if waits c 0 ls then 0 else 1)+applied ls
  | _ :: ls => applied ls

/-- The operators on a stack that still wait behind the lexemes, under `d` open brackets. -/
def survivors : ℕ → Bytes → List Lexeme → ℕ
  | _, [], _ => 0
  | d, x :: ops, ls =>
    if x ∈ openingBrackets then survivors (d+1) ops ls
    else (if waits x d ls then 1 else 0)+survivors d ops ls

/-- Between two brackets every operator on the stack binds tighter than those below it. -/
def Rising : Bytes → Prop
  | [] => True
  | x :: ops => (isOperator x = true → ∀ y ∈ ops.takeWhile isOperator, prec y < prec x) ∧ Rising ops

theorem tighter_operator {c x : UInt8} (hc : isOperator c = true) (hx : isOperator x = true) :
    tighter c x = decide (prec c ≤ prec x) := by
  have hall {b : UInt8} (hb : isOperator b = true) : b = 43 ∨ b = 45 ∨ b = 42 ∨ b = 47 := by
    simpa [isOperator,or_assoc] using hb
  rcases hall hc with rfl | rfl | rfl | rfl <;> rcases hall hx with rfl | rfl | rfl | rfl <;> rfl

theorem Rising.dropWhile {ops : Bytes} (h : Rising ops) (p : UInt8 → Bool) : Rising (ops.dropWhile p) := by
  induction ops with
  | nil => exact h
  | cons x ops ih =>
    rw [List.dropWhile_cons]
    split_ifs
    · exact ih h.2
    · exact h

theorem Rising.drop {ops : Bytes} (h : Rising ops) : Rising (ops.drop 1) := by
  cases ops with
  | nil => exact h
  | cons x ops => exact h.2

theorem prec_lt_of_left {c : UInt8} (hc : isOperator c = true) {ops : Bytes} (h : Rising ops) {y : UInt8}
    (hy : y ∈ (ops.dropWhile (tighter c)).takeWhile isOperator) : prec y < prec c := by
  induction ops with
  | nil => simp at hy
  | cons x ops ih =>
    rw [List.dropWhile_cons] at hy
    split_ifs at hy with ht
    · exact ih h.2 hy
    · rw [List.takeWhile_cons] at hy
      split_ifs at hy with hx
      · rw [tighter_operator hc hx,decide_eq_true_eq,Nat.not_le] at ht
        rcases List.mem_cons.mp hy with rfl | hy
        · exact ht
        · exact (h.1 hx y hy).trans ht
      · simp at hy

theorem rising_step {q : Scan} (h : Rising q.ops) {l : Lexeme} (hl : l.Valid) : Rising (q.step l).ops := by
  cases l with
  | numeral t => exact h
  | operator c => exact ⟨fun _ y hy => prec_lt_of_left hl h hy,h.dropWhile _⟩
  | opening c => exact ⟨fun hc => (notOpening_of_isOperator hc hl).elim,h⟩
  | closing => exact (h.dropWhile _).drop

theorem survivors_numeral (t : Bytes) (ls : List Lexeme) (d : ℕ) (ops : Bytes) :
    survivors d ops (.numeral t :: ls) = survivors d ops ls := by
  induction ops generalizing d with
  | nil => rfl
  | cons x ops ih => rw [survivors,survivors,ih,ih,waits]

theorem survivors_opening (c : UInt8) (ls : List Lexeme) (d : ℕ) (ops : Bytes) :
    survivors d ops (.opening c :: ls) = survivors (d+1) ops ls := by
  induction ops generalizing d with
  | nil => rfl
  | cons x ops ih => rw [survivors,survivors,ih,ih,waits]

theorem survivors_closing_succ (ls : List Lexeme) (d : ℕ) (ops : Bytes) :
    survivors (d+1) ops (.closing :: ls) = survivors d ops ls := by
  induction ops generalizing d with
  | nil => rfl
  | cons x ops ih => rw [survivors,survivors,ih,ih,waits]

theorem survivors_closing {ops : Bytes} (hw : Waiting ops) (ls : List Lexeme) :
    survivors 0 ops (.closing :: ls) = survivors 0 (unwind ops) ls := by
  induction ops with
  | nil => rfl
  | cons x ops ih =>
    have hrest := ih fun y hy => hw y (by simp [hy])
    by_cases hx : x ∈ openingBrackets
    · have hin : ¬ inside x = true := fun h => notOpening_of_inside h hx
      rw [survivors,if_pos hx,survivors_closing_succ,unwind,List.dropWhile_cons_of_neg hin]
      rfl
    · have hin : inside x = true := by
        have hs := (strchr_iff (hw.ne_zero (List.mem_cons_self ..))).not.mpr hx
        simpa [inside] using hs
      rw [survivors,if_neg hx,hrest,unwind,unwind,List.dropWhile_cons_of_pos hin]
      simp [waits]

theorem survivors_operator_succ (c : UInt8) (ls : List Lexeme) (d : ℕ) (ops : Bytes) :
    survivors (d+1) ops (.operator c :: ls) = survivors (d+1) ops ls := by
  induction ops generalizing d with
  | nil => rfl
  | cons x ops ih =>
    have h : waits x (d+1) (.operator c :: ls) = waits x (d+1) ls := by simp [waits]
    rw [survivors,survivors,ih,ih,h]

theorem survivors_loose {c : UInt8} {ops : Bytes} (hw : Waiting ops)
    (hloose : ∀ y ∈ ops.takeWhile isOperator, prec y < prec c) (ls : List Lexeme) :
    survivors 0 ops (.operator c :: ls) = survivors 0 ops ls := by
  induction ops with
  | nil => rfl
  | cons x ops ih =>
    by_cases hx : x ∈ openingBrackets
    · rw [survivors,if_pos hx,survivors,if_pos hx,survivors_operator_succ]
    · have ho : isOperator x = true := (hw x (List.mem_cons_self ..)).resolve_right hx
      rw [List.takeWhile_cons_of_pos ho] at hloose
      have hrest := ih (fun y hy => hw y (by simp [hy])) fun y hy => hloose y (by simp [hy])
      have hlt : ¬ prec c ≤ prec x := Nat.not_le.mpr (hloose x (by simp))
      simp [survivors,waits,hx,hrest,hlt]

theorem survivors_operator {c : UInt8} (hc : isOperator c = true) {ops : Bytes} (hw : Waiting ops)
    (hr : Rising ops) (ls : List Lexeme) :
    survivors 0 ops (.operator c :: ls) = survivors 0 (ops.dropWhile (tighter c)) ls := by
  induction ops with
  | nil => rfl
  | cons x ops ih =>
    have hrest := ih (fun y hy => hw y (by simp [hy])) hr.2
    by_cases ht : tighter c x = true
    · have hx : x ∉ openingBrackets := notOpening_of_tighter ht
      have ho : isOperator x = true := (hw x (List.mem_cons_self ..)).resolve_right hx
      have hle : prec c ≤ prec x := by simpa [tighter_operator hc ho] using ht
      rw [List.dropWhile_cons_of_pos ht,survivors,if_neg hx,hrest]
      simp [waits,hle]
    · have hleft : (x :: ops).dropWhile (tighter c) = x :: ops := List.dropWhile_cons_of_neg ht
      rw [hleft]
      refine survivors_loose hw (fun y hy => prec_lt_of_left hc hr ?_) ls
      rwa [hleft]

def operatorsOn (ops : Bytes) : ℕ := ops.countP isOperator

theorem survivors_nil {ops : Bytes} (hw : Waiting ops) (d : ℕ) : survivors d ops [] = operatorsOn ops := by
  induction ops generalizing d with
  | nil => rfl
  | cons x ops ih =>
    have hrest := fun d => ih (fun y hy => hw y (by simp [hy])) d
    by_cases hx : x ∈ openingBrackets
    · have ho : ¬ isOperator x = true := fun h => notOpening_of_isOperator h hx
      rw [survivors,if_pos hx,hrest]
      simp [operatorsOn,ho]
    · have ho : isOperator x = true := (hw x (List.mem_cons_self ..)).resolve_right hx
      rw [survivors,if_neg hx,hrest]
      simp [operatorsOn,ho,waits,Nat.add_comm]

theorem operatorsOn_foldl {ls : List Lexeme} (hls : ∀ l ∈ ls, l.Valid) {q : Scan} (hw : Waiting q.ops)
    (hr : Rising q.ops) :
    operatorsOn (ls.foldl Scan.step q).ops+applied ls = survivors 0 q.ops ls+operators ls := by
  induction ls generalizing q with
  | nil => exact congrArg (·+0) (survivors_nil hw 0).symm
  | cons l ls ih =>
    have hl := hls l (by simp)
    have h := ih (fun l h => hls l (by simp [h])) (waiting_step hw hl) (rising_step hr hl)
    rw [List.foldl_cons]
    cases l with
    | numeral t =>
      rw [survivors_numeral]
      simpa [Scan.step,applied,operators,Lexeme.share] using h
    | operator c =>
      have hc : isOperator c = true := hl
      have hx : c ∉ openingBrackets := notOpening_of_isOperator hc
      have hops : operators (.operator c :: ls) = 1+operators ls := rfl
      have hstack : (q.step (.operator c)).ops = c :: q.ops.dropWhile (tighter c) := rfl
      rw [hstack,survivors,if_neg hx,← survivors_operator hc hw hr] at h
      rw [applied,hops]
      split_ifs at h ⊢ with hwait <;> omega
    | opening c =>
      have hx : c ∈ openingBrackets := hl
      have hstack : (q.step (.opening c)).ops = c :: q.ops := rfl
      rw [hstack,survivors,if_pos hx] at h
      rw [survivors_opening]
      simpa [applied,operators,Lexeme.share] using h
    | closing =>
      rw [survivors_closing hw]
      simpa [Scan.step,applied,operators,Lexeme.share] using h

def one : Token → ℕ
  | .numeral _ => 0
  | .character _ => 1

theorem weight_one (ops : Bytes) : weight (fun c => one (.character c)) ops = ops.length := by
  simp [weight,one]

theorem length_waiting {ops : Bytes} (hw : Waiting ops) : ops.length = operatorsOn ops+openings ops := by
  induction ops with
  | nil => rfl
  | cons x ops ih =>
    have h := ih fun y hy => hw y (by simp [hy])
    by_cases hx : x ∈ openingBrackets
    · have ho : ¬ isOperator x = true := fun h => notOpening_of_isOperator h hx
      simp only [operatorsOn,openings] at h ⊢
      simp [ho,hx,h,Nat.add_assoc]
    · have ho : isOperator x = true := (hw x (List.mem_cons_self ..)).resolve_right hx
      simp only [operatorsOn,openings] at h ⊢
      simp [ho,hx,h]
      omega

theorem sum_one_out {ls : List Lexeme} (hls : ∀ l ∈ ls, l.Valid) :
    ((scan ls).out.map one).sum = applied ls := by
  have htotal := total_scan hls (f:=one) (k:=1) (fun _ _ => rfl)
  have hstack := operatorsOn_foldl hls (q:=⟨[],[]⟩) (fun _ h => by simp at h) trivial
  have hlen := length_waiting (waiting_scan hls)
  have hshare : (ls.map (Lexeme.share one)).sum = operators ls := rfl
  have hscan : ls.foldl Scan.step ⟨[],[]⟩ = scan ls := rfl
  rw [total_eq,weight_one,hshare,hlen,openings_scan hls] at htotal
  rw [hscan,survivors] at hstack
  omega

/-- Somewhere in the string the applied operators are as many as the numbers. -/
def Starved (ls : List Lexeme) : Prop := ∃ a, a <+: ls ∧ 0 < applied a ∧ numbers a ≤ applied a

theorem starved_snoc (ls : List Lexeme) (l : Lexeme) :
    Starved (ls ++ [l]) ↔ Starved ls ∨
      (0 < applied (ls ++ [l]) ∧ numbers (ls ++ [l]) ≤ applied (ls ++ [l])) := by
  constructor
  · rintro ⟨a,ha,h⟩
    rcases List.prefix_concat_iff.mp ha with rfl | ha
    · exact Or.inr h
    · exact Or.inl ⟨a,ha,h⟩
  · rintro (⟨a,ha,h⟩ | h)
    · exact ⟨a,ha.trans (List.prefix_append ls [l]),h⟩
    · exact ⟨_,List.prefix_rfl,h⟩

theorem foldlM_operators {cs : Bytes} (hcs : ∀ c ∈ cs, isOperator c = true) (n : ℕ) :
    (cs.map Token.character).foldlM execute n =
      if cs = [] ∨ cs.length < n then some (n-cs.length) else none := by
  induction cs generalizing n with
  | nil => rfl
  | cons c cs ih =>
    have h := ih (fun d hd => hcs d (by simp [hd])) (n-1)
    have hc : isOperator c = true := hcs c (by simp)
    rw [List.map_cons,List.foldlM_cons,execute,hc,if_pos rfl]
    by_cases hn : n < 2
    · rw [if_pos hn,if_neg (by simp; omega)]
      rfl
    · rw [if_neg hn]
      have hsub : n-1-cs.length = n-(c :: cs).length := by
        rw [List.length_cons]
        omega
      simp only [bind,Option.bind,h,hsub]
      by_cases hcs0 : cs = []
      · subst hcs0
        rw [if_pos (Or.inl rfl),if_pos (Or.inr (by simp; omega))]
      · have hiff : cs.length < n-1 ↔ (c :: cs).length < n := by
          rw [List.length_cons]
          omega
        simp [hcs0,hiff]

theorem exists_written {ls : List Lexeme} (hls : ∀ l ∈ ls, l.Valid) {l : Lexeme} (hl : l.Valid)
    (hn : ∀ t, l ≠ .numeral t) :
    ∃ cs : Bytes, (∀ c ∈ cs, isOperator c = true) ∧
      (scan (ls ++ [l])).out = (scan ls).out ++ cs.map .character := by
  have hall : ∀ l' ∈ ls ++ [l], l'.Valid := by
    intro l' h
    rcases List.mem_append.mp h with h | h
    · exact hls l' h
    · rwa [List.mem_singleton.mp h]
  have hops {cs : Bytes} (h : (scan (ls ++ [l])).out = (scan ls).out ++ cs.map .character) :
      ∀ c ∈ cs, isOperator c = true := by
    intro c hc
    refine isOperator_of_mem_out hall ?_
    rw [h]
    exact List.mem_append_right _ (List.mem_map_of_mem hc)
  obtain ⟨cs,h⟩ : ∃ cs : Bytes, (scan (ls ++ [l])).out = (scan ls).out ++ cs.map .character := by
    rw [scan_snoc]
    cases l with
    | numeral t => exact (hn t rfl).elim
    | operator c => exact ⟨_,rfl⟩
    | opening c => exact ⟨[],(List.append_nil _).symm⟩
    | closing => exact ⟨_,rfl⟩
  exact ⟨cs,hops h,h⟩

theorem numbers_snoc (ls : List Lexeme) (l : Lexeme) :
    numbers (ls ++ [l]) = numbers ls+numbers [l] := by
  simp [numbers]

theorem numbersIn_pos (t : Bytes) : 0 < numbersIn t := Nat.le_max_left 1 _

def Executed (ls : List Lexeme) : Prop :=
  (Starved ls ∧ (scan ls).out.foldlM execute 0 = none) ∨
    (¬ Starved ls ∧ ∃ n, (scan ls).out.foldlM execute 0 = some n ∧ n+applied ls = numbers ls)

theorem executed_numeral {ls : List Lexeme} {t : Bytes} (hls : ∀ l ∈ ls, l.Valid)
    (ht : (Lexeme.numeral t).Valid) (h : Executed ls) : Executed (ls ++ [.numeral t]) := by
  have hall : ∀ l ∈ ls ++ [.numeral t], l.Valid := List.forall_mem_append.mpr ⟨hls,by simpa using ht⟩
  have hout : (scan (ls ++ [.numeral t])).out = (scan ls).out ++ [.numeral t] := by
    rw [scan_snoc]
    rfl
  have hnum : numbers (ls ++ [.numeral t]) = numbers ls+numbersIn t := by
    rw [numbers_snoc]
    simp [numbers,Lexeme.share]
  have happ : applied (ls ++ [.numeral t]) = applied ls := by
    rw [← sum_one_out hall,← sum_one_out hls,hout]
    simp [one]
  have hpos := numbersIn_pos t
  rw [Executed,starved_snoc,hout,List.foldlM_append,happ,hnum]
  rcases h with ⟨hs,hx⟩ | ⟨hs,n,hx,hcount⟩
  · rw [hx]
    exact Or.inl ⟨Or.inl hs,rfl⟩
  · rw [hx]
    refine Or.inr ⟨fun h => h.elim hs fun h => ?_,n+numbersIn t,rfl,?_⟩ <;> omega

theorem executed_other {ls : List Lexeme} {l : Lexeme} (hls : ∀ l ∈ ls, l.Valid) (hl : l.Valid)
    (hn : ∀ t, l ≠ .numeral t) (h : Executed ls) : Executed (ls ++ [l]) := by
  have hall : ∀ l' ∈ ls ++ [l], l'.Valid := List.forall_mem_append.mpr ⟨hls,by simpa using hl⟩
  obtain ⟨cs,hcs,hout⟩ := exists_written hls hl hn
  have hnum : numbers (ls ++ [l]) = numbers ls := by
    rw [numbers_snoc]
    cases l with
    | numeral t => exact (hn t rfl).elim
    | _ => rfl
  have happ : applied (ls ++ [l]) = applied ls+cs.length := by
    rw [← sum_one_out hall,← sum_one_out hls,hout,sum_written,weight_one]
  rw [Executed,starved_snoc,hout,List.foldlM_append,happ,hnum]
  rcases h with ⟨hs,hx⟩ | ⟨hs,n,hx,hcount⟩
  · rw [hx]
    exact Or.inl ⟨Or.inl hs,rfl⟩
  · have hkeep : ¬ (0 < applied ls ∧ numbers ls ≤ applied ls) := fun h => hs ⟨ls,List.prefix_rfl,h⟩
    rw [hx]
    simp only [bind,Option.bind,foldlM_operators hcs n]
    split_ifs with hfit
    · rcases hfit with rfl | hlt
      · refine Or.inr ⟨fun h => h.elim hs fun h => hkeep (by simpa using h),n,rfl,?_⟩
        simpa using hcount
      · refine Or.inr ⟨fun h => h.elim hs fun h => ?_,_,rfl,?_⟩ <;> omega
    · have hpos := List.length_pos_of_ne_nil (not_or.mp hfit).1
      exact Or.inl ⟨Or.inr (by omega),rfl⟩

theorem execute_out {ls : List Lexeme} (hls : ∀ l ∈ ls, l.Valid) : Executed ls := by
  induction ls using List.reverseRecOn with
  | nil =>
    refine Or.inr ⟨?_,0,rfl,rfl⟩
    rintro ⟨a,ha,h,_⟩
    rw [List.prefix_nil.mp ha] at h
    exact absurd h (by decide)
  | append_singleton ls l ih =>
    have hrest : ∀ l ∈ ls, l.Valid := fun l h => hls l (by simp [h])
    have hl : l.Valid := hls l (by simp)
    cases l with
    | numeral t => exact executed_numeral hrest hl (ih hrest)
    | _ => exact executed_other hrest hl (fun t h => by cases h) (ih hrest)

def readableLexeme : Lexeme → Bool
  | .numeral t => readable t
  | _ => true

def Stops {β : Type} (r : Except Fault β) : Prop := (∃ v, r = .ok v) ∨ r = .error (.exit 1)

/-- The tokens of a string begin with what is written of a part of it and the numeral behind that. -/
theorem flush_numeral (pre post : List Lexeme) (t : Bytes) :
    ∃ us, (scan (pre ++ .numeral t :: post)).flush = (scan pre).out ++ .numeral t :: us := by
  have hgrow (ls : List Lexeme) (q : Scan) : q.out <+: (ls.foldl Scan.step q).out := by
    induction ls generalizing q with
    | nil => exact List.prefix_rfl
    | cons l ls ih =>
      refine List.IsPrefix.trans ?_ (ih (q.step l))
      cases l with
      | opening c => exact List.prefix_rfl
      | _ => exact List.prefix_append _ _
  have hstep : scan (pre ++ .numeral t :: post) = post.foldl Scan.step ((scan pre).step (.numeral t)) := by
    rw [scan,List.foldl_append]
    rfl
  obtain ⟨us,hus⟩ := hgrow post ((scan pre).step (.numeral t))
  refine ⟨us ++ ((scan (pre ++ .numeral t :: post)).ops.map .character),?_⟩
  rw [Scan.flush,hstep,← hus,Scan.step]
  simp

variable {α : Type} (A : Arithmetic α)

theorem Stops.ne_endless {β : Type} {r : Except Fault β} (h : Stops r) : r ≠ .error .endless := by
  rintro rfl
  rcases h with ⟨v,h⟩ | h <;> cases h

theorem evalLoop_nil_stops (fuel : ℕ) (xs : List α) : Stops (evalLoop A (fuel+1) [] (xs.map .number)) := by
  cases xs with
  | nil => exact Or.inr rfl
  | cons x xs => exact Or.inl ⟨_,rfl⟩

theorem readableToken_of_mem_out {ls : List Lexeme} (hls : ∀ l ∈ ls, readableLexeme l = true) {u : Token}
    (hu : u ∈ (scan ls).out) : readableToken u = true := by
  cases u with
  | numeral u => exact hls _ (numeral_mem_out.mp hu)
  | character c => rfl

theorem evalLoop_stops {ls : List Lexeme} (hls : ∀ l ∈ ls, l.Valid) (hall : ∀ l ∈ ls, readableLexeme l = true) :
    ∃ fuel, Stops (evalLoop A fuel (spaced (scan ls).flush) []) := by
  have hread : ∀ t ∈ (scan ls).flush, readableToken t = true := by
    intro t ht
    rcases List.mem_append.mp ht with ht | ht
    · exact readableToken_of_mem_out hall ht
    · obtain ⟨c,_,rfl⟩ := List.mem_map.mp ht
      rfl
  have h := evalLoop_tokens A (fun t ht => valid_scan hls ht) hread [] []
  rw [List.append_nil] at h
  cases hx : (scan ls).flush.foldlM execute ([] : List α).length with
  | none =>
    rw [hx] at h
    exact ⟨_,Or.inr (h 0)⟩
  | some n =>
    rw [hx] at h
    obtain ⟨ys,_,hy⟩ := h
    refine ⟨1+((scan ls).flush.map rounds).sum,?_⟩
    rw [show ([] : List (Item α)) = ([] : List α).map .number from rfl,hy 1]
    exact evalLoop_nil_stops A 0 ys

theorem exists_unreadable {ls : List Lexeme} (hall : ¬ ∀ l ∈ ls, readableLexeme l = true) :
    ∃ t post, ls = ls.takeWhile readableLexeme ++ .numeral t :: post ∧ readable t = false := by
  have happ := List.takeWhile_append_dropWhile (p:=readableLexeme) (l:=ls)
  obtain ⟨l,post,hd⟩ : ∃ l post, ls.dropWhile readableLexeme = l :: post := by
    refine List.exists_cons_of_ne_nil fun h => hall fun l hl => ?_
    rw [h,List.append_nil] at happ
    exact List.mem_takeWhile_imp (happ.symm ▸ hl)
  have hl : ¬ readableLexeme l = true := by
    have h := List.head?_dropWhile_not readableLexeme ls
    simpa [hd] using h
  rw [hd] at happ
  cases l with
  | numeral t => exact ⟨t,post,happ.symm,by simpa [readableLexeme] using hl⟩
  | _ => exact (hl rfl).elim

/-- The loop over the tokens of a string ends unless it comes to a run that is not readable. -/
theorem evalLoop_stops_iff {ls : List Lexeme} (hls : ∀ l ∈ ls, l.Valid) :
    (∃ fuel, Stops (evalLoop A fuel (spaced (scan ls).flush) [])) ↔
      (∀ l ∈ ls, readableLexeme l = true) ∨ Starved (ls.takeWhile readableLexeme) := by
  by_cases hall : ∀ l ∈ ls, readableLexeme l = true
  · exact iff_of_true (evalLoop_stops A hls hall) (Or.inl hall)
  · obtain ⟨t,post,happ,ht⟩ := exists_unreadable hall
    have htv : (Lexeme.numeral t).Valid := hls _ (by rw [happ]; simp)
    have hread : ∀ l ∈ ls.takeWhile readableLexeme, readableLexeme l = true := fun l h => List.mem_takeWhile_imp h
    have hprev : ∀ l ∈ ls.takeWhile readableLexeme, l.Valid :=
      fun l h => hls l ((List.takeWhile_prefix readableLexeme).subset h)
    generalize ls.takeWhile readableLexeme = pre at happ hread hprev ⊢
    obtain ⟨us,hus⟩ := flush_numeral pre post t
    rw [← happ] at hus
    have h := evalLoop_tokens A (fun u hu => valid_scan hprev (List.mem_append_left _ hu))
      (fun u hu => readableToken_of_mem_out hread hu) (.numeral t :: us) []
    rw [← hus] at h
    rcases execute_out hprev with ⟨hs,hx⟩ | ⟨hs,n,hx,_⟩
    · rw [List.length_nil,hx] at h
      exact iff_of_true ⟨_,Or.inr (h 0)⟩ (Or.inr hs)
    · rw [List.length_nil,hx] at h
      obtain ⟨ys,_,hy⟩ := h
      refine iff_of_false ?_ fun hcond => hcond.elim hall hs
      rintro ⟨fuel,hfuel⟩
      have hmore := evalLoop_mono A hfuel.ne_endless ((scan pre).out.map rounds).sum
      have hend := evalLoop_unreadable_token A htv ht us fuel (ys.map .number)
      exact hfuel.ne_endless (hmore.symm.trans ((hy fuel).trans hend))

/-- A call on an empty stack ends, with a value or where the stack is empty, exactly when every
run of digits and points is readable, or an operator in front of the first that is not finds
too few numbers. -/
theorem eval_stops_iff (expr : CString) :
    (∃ fuel, Stops (eval A fuel [] expr)) ↔
      (∀ l ∈ lex expr.bytes, readableLexeme l = true) ∨
        Starved ((lex expr.bytes).takeWhile readableLexeme) := by
  refine Iff.trans ⟨fun ⟨fuel,h⟩ => ?_,fun ⟨fuel,h⟩ => ?_⟩
    (evalLoop_stops_iff A (fun l hl => valid_of_mem_lex hl))
  · cases fuel with
    | zero =>
      rw [eval,toPostfix_eq] at h
      exact (h.ne_endless rfl).elim
    | succ fuel =>
      rw [eval_eq] at h
      exact ⟨fuel+2,h⟩
  · refine ⟨fuel+1,?_⟩
    rw [eval_eq]
    rwa [evalLoop_mono A h.ne_endless 2]

theorem eval_endless_point :
    ¬ ∃ fuel, Stops (eval CalculatorGrammar.integers fuel [] (lit ".")) := by
  rintro ⟨fuel,h⟩
  have hp : toPostfix CalculatorGrammar.integers [] (lit ".") = .ok ([],[46]) := by decide
  rw [eval,hp] at h
  exact h.ne_endless (evalLoop_unreadable _ (t:=[46]) (by decide) (List.forall_mem_singleton.mpr rfl)
    (by decide) (Or.inl rfl) fuel [])

end CalculatorTermination
end CodingChallenges
