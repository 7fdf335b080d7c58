import CodingChallenges.Calculator

/-! The expressions the calculator is for, and what `eval` makes of them.
An expression is spelled with any spaces between its tokens. On every spelling the
loop over the characters keeps the stack and the output of the translation of the
tokens, and the loop over the postfix text runs the code that was written. -/
namespace CodingChallenges
namespace CalculatorGrammar

open CText CMemory ShuntingYard Calculator

/-- A decimal literal: digits, and at most one point among or around them. -/
structure Literal where
  whole : Bytes
  fraction : Option Bytes
  digits : ∀ c ∈ whole ++ fraction.getD [], isDigit c = true
  nonempty : whole ++ fraction.getD [] ≠ []

def Literal.text (v : Literal) : Bytes :=
  match v.fraction with
  | none => v.whole
  | some f => v.whole ++ 46 :: f

inductive Op
  | add | sub | mul | div
  deriving DecidableEq

def Op.char : Op → UInt8
  | add => 43
  | sub => 45
  | mul => 42
  | div => 47

def Op.level : Op → ℕ
  | add | sub => 1
  | mul | div => 2

inductive Bracket
  | round | curly | square
  deriving DecidableEq

def Bracket.opening : Bracket → UInt8
  | round => 40
  | curly => 123
  | square => 91

def Bracket.closing : Bracket → UInt8
  | round => 41
  | curly => 125
  | square => 93

abbrev CalcToken := Token Literal Op Bracket

def tokenText : CalcToken → Bytes
  | .operand v => v.text
  | .operator o => [o.char]
  | .opening k => [k.opening]
  | .closing k => [k.closing]

inductive Spells : List CalcToken → Bytes → Prop
  | nil (n : ℕ) : Spells [] (List.replicate n 32)
  | cons (n : ℕ) (t : CalcToken) {ts : List CalcToken} {s : Bytes} (h : Spells ts s) :
      Spells (t :: ts) (List.replicate n 32 ++ tokenText t ++ s)

def Op.apply {α : Type} (A : Arithmetic α) : Op → α → α → α
  | add => A.add
  | sub => A.sub
  | mul => A.mul
  | div => A.div

variable {α : Type}

def value (A : Arithmetic α) (e : Expr Literal Op) : α := e.value (fun v => A.number v.text) (Op.apply A)

theorem Literal.text_ne_nil (v : Literal) : v.text ≠ [] := by
  have h := v.nonempty
  unfold Literal.text
  cases hf : v.fraction with
  | none => simpa [hf] using h
  | some f => simp

theorem Literal.isNumeral_of_mem {v : Literal} {c : UInt8} (hc : c ∈ v.text) : isNumeral c = true := by
  have h := v.digits
  unfold Literal.text at hc
  cases hf : v.fraction with
  | none =>
    simp only [hf] at hc
    simp [isNumeral,h c (by simp [hc])]
  | some f =>
    simp only [hf,List.mem_append,List.mem_cons] at hc
    simp only [hf,Option.getD_some,List.mem_append] at h
    rcases hc with hc | rfl | hc
    · simp [isNumeral,h c (Or.inl hc)]
    · rfl
    · simp [isNumeral,h c (Or.inr hc)]

theorem isNumeral_operator (o : Op) : isNumeral o.char = false := by cases o <;> rfl
theorem isNumeral_opening (k : Bracket) : isNumeral k.opening = false := by cases k <;> rfl
theorem isNumeral_closing (k : Bracket) : isNumeral k.closing = false := by cases k <;> rfl

theorem head_of_spells {ts : List CalcToken} {s : Bytes} (h : Spells ts s)
    (ht : ∀ t ∈ ts.head?, ¬ t.IsOperand) : ∀ c ∈ s.head?, isNumeral c = false := by
  intro c hc
  cases h with
  | nil n =>
    cases n with
    | zero => simp at hc
    | succ n =>
      obtain rfl : 32 = c := by simpa [List.replicate_succ] using hc
      rfl
  | @cons n t ts s h =>
    cases n with
    | succ n =>
      obtain rfl : 32 = c := by simpa [List.replicate_succ] using hc
      rfl
    | zero =>
      have hn := ht t (by simp)
      cases t with
      | operand v => exact (hn trivial).elim
      | operator o =>
        obtain rfl : o.char = c := by simpa [tokenText] using hc
        exact isNumeral_operator o
      | opening k =>
        obtain rfl : k.opening = c := by simpa [tokenText] using hc
        exact isNumeral_opening k
      | closing k =>
        obtain rfl : k.closing = c := by simpa [tokenText] using hc
        exact isNumeral_closing k

def item : Op ⊕ Bracket → Item α
  | .inl o => .character o.char
  | .inr k => .character k.opening

def instrText : Instr Literal Op → Bytes
  | .operand v => v.text
  | .operator o => [o.char]

def codeText (is : List (Instr Literal Op)) : Bytes := is.foldl (fun s i => emit s (instrText i)) []

theorem codeText_append (is : List (Instr Literal Op)) (i : Instr Literal Op) :
    codeText (is ++ [i]) = emit (codeText is) (instrText i) := by
  simp [codeText]

theorem shouldPop_char (o p : Op) : shouldPop o.char p.char = decide (p.level ≤ o.level) := by
  cases o <;> cases p <;> rfl

section Translation

variable (A : Arithmetic α)

theorem popTighter_item (p : Op) (s : List (Op ⊕ Bracket)) (out : List (Instr Literal Op)) :
    popTighter A p.char (s.map item) (codeText out) =
      ((popOperators Op.level p.level s out).stack.map item,
        codeText (popOperators Op.level p.level s out).out) := by
  induction s generalizing out with
  | nil => rfl
  | cons x s ih =>
    cases x with
    | inl o =>
      have hb : strchr brackets o.char = false := by cases o <;> decide
      have hr : A.readChar (item (.inl o)) = o.char := rfl
      have ht := ih (out ++ [.operator o])
      rw [codeText_append] at ht
      simp only [List.map_cons,popTighter,hr,popOperators,shouldPop_char,hb]
      by_cases hp : p.level ≤ o.level
      · simpa [hp,instrText] using ht
      · simp [hp]
    | inr k =>
      have hb : strchr brackets k.opening = true := by cases k <;> decide
      have hr : A.readChar (item (.inr k)) = k.opening := rfl
      simp only [List.map_cons,popTighter,hr,popOperators]
      simp [hb]

theorem popToBracket_item (s : List (Op ⊕ Bracket)) (out : List (Instr Literal Op)) :
    popToBracket A (s.map item) (codeText out) =
      ((popBracket s out).stack.map item,codeText (popBracket s out).out) := by
  induction s generalizing out with
  | nil => rfl
  | cons x s ih =>
    cases x with
    | inl o =>
      have hb : ¬ strchr openingBrackets o.char = true := by cases o <;> decide
      have hr : A.readChar (item (.inl o)) = o.char := rfl
      have ht := ih (out ++ [.operator o])
      rw [codeText_append] at ht
      simp only [List.map_cons,popToBracket,hr,popBracket,if_neg hb]
      exact ht
    | inr k =>
      have hb : strchr openingBrackets k.opening = true := by cases k <;> decide
      have hr : A.readChar (item (.inr k)) = k.opening := rfl
      simp only [List.map_cons,popToBracket,hr,popBracket,if_pos hb]

theorem popRest_item (os : List Op) (out : List (Instr Literal Op)) :
    popRest A ((os.map Sum.inl).map item) (codeText out) = ([],codeText (out ++ os.map .operator)) := by
  induction os generalizing out with
  | nil => simp [popRest]
  | cons o os ih =>
    have hr : A.readChar (item (.inl o)) = o.char := rfl
    have ht := ih (out ++ [.operator o])
    rw [codeText_append,List.append_assoc] at ht
    simp only [List.map_cons,popRest,hr]
    exact ht

theorem convert_spaces (k fuel : ℕ) (s : Bytes) (top : List (Item α)) (pstfix : Bytes) :
    convert A (k+fuel) (List.replicate k 32 ++ s) top pstfix = convert A fuel s top pstfix := by
  induction k with
  | zero => simp
  | succ k ih =>
    rw [Nat.succ_add,List.replicate_succ,List.cons_append,convert,if_pos rfl]
    exact ih

theorem convert_literal (v : Literal) {s : Bytes} (hs : ∀ c ∈ s.head?, isNumeral c = false) (fuel : ℕ)
    (top : List (Item α)) (pstfix : Bytes) :
    convert A (fuel+1) (v.text ++ s) top pstfix = convert A fuel s top (emit pstfix v.text) := by
  have ht : (v.text ++ s).takeWhile isNumeral = v.text := by
    rw [List.takeWhile_append_of_pos fun c hc => v.isNumeral_of_mem hc]
    cases s with
    | nil => simp
    | cons c s => simp [hs c rfl]
  obtain ⟨c,w,hw⟩ := List.exists_cons_of_ne_nil v.text_ne_nil
  have hc : isNumeral c = true := v.isNumeral_of_mem (by simp [hw])
  have h32 : c ≠ 32 := by
    rintro rfl
    exact absurd hc (by decide)
  have hd : (v.text ++ s).drop v.text.length = s := List.drop_left
  rw [hw,List.cons_append] at ht hd ⊢
  simp only [convert,if_neg h32,if_pos hc,ht,hd]

theorem convert_token (t : CalcToken) {s : Bytes}
    (hs : t.IsOperand → ∀ c ∈ s.head?, isNumeral c = false) (fuel : ℕ) (q : State Literal Op Bracket) :
    convert A (fuel+1) (tokenText t ++ s) (q.stack.map item) (codeText q.out) =
      convert A fuel s ((step Op.level q t).stack.map item) (codeText (step Op.level q t).out) := by
  cases t with
  | operand v =>
    have hv := convert_literal A v (hs trivial) fuel (q.stack.map item) (codeText q.out)
    simpa only [tokenText,step,codeText_append,instrText] using hv
  | operator o =>
    have hb : ¬ strchr brackets o.char = true := by cases o <;> decide
    have ho : isOperator o.char = true := by cases o <;> decide
    have h32 : o.char ≠ 32 := by cases o <;> decide
    have hp := popTighter_item A o q.stack q.out
    simp only [tokenText,List.singleton_append,convert,if_neg h32,isNumeral_operator,if_neg hb,
      if_pos ho,hp,step]
    rfl
  | opening k =>
    have hb : strchr brackets k.opening = true := by cases k <;> decide
    have ho : strchr openingBrackets k.opening = true := by cases k <;> decide
    have h32 : k.opening ≠ 32 := by cases k <;> decide
    simp only [tokenText,List.singleton_append,convert,if_neg h32,isNumeral_opening,if_pos hb,
      if_pos ho,step]
    rfl
  | closing k =>
    have hb : strchr brackets k.closing = true := by cases k <;> decide
    have ho : ¬ strchr openingBrackets k.closing = true := by cases k <;> decide
    have hc : strchr closingBrackets k.closing = true := by cases k <;> decide
    have h32 : k.closing ≠ 32 := by cases k <;> decide
    have hp := popToBracket_item A q.stack q.out
    simp only [tokenText,List.singleton_append,convert,if_neg h32,isNumeral_closing,if_pos hb,
      if_neg ho,if_pos hc,hp,step]
    rfl

/-- On a spelling the loop performs the translation of the tokens. -/
theorem convert_spells {ts : List CalcToken} {s : Bytes} (h : Spells ts s)
    (hts : ts.IsChain fun t u => t.IsOperand → ¬ u.IsOperand) {fuel : ℕ} (hf : s.length ≤ fuel)
    (q : State Literal Op Bracket) :
    convert A fuel s (q.stack.map item) (codeText q.out) =
      .ok (popRest A ((ts.foldl (step Op.level) q).stack.map item)
        (codeText (ts.foldl (step Op.level) q).out)) := by
  induction h generalizing fuel q with
  | nil n =>
    obtain ⟨m,rfl⟩ : ∃ m, fuel = n+m := ⟨fuel-n,by simp at hf; omega⟩
    have hn := convert_spaces A n m [] (q.stack.map item) (codeText q.out)
    rw [List.append_nil] at hn
    rw [hn]
    cases m <;> rfl
  | @cons n t ts s h ih =>
    rw [List.isChain_cons] at hts
    have hl : 0 < (tokenText t).length := by
      cases t with
      | operand v => exact List.length_pos_of_ne_nil v.text_ne_nil
      | _ => exact Nat.one_pos
    simp only [List.length_append,List.length_replicate] at hf
    obtain ⟨m,rfl⟩ : ∃ m, fuel = n+(m+1) := ⟨fuel-n-1,by omega⟩
    have hs : t.IsOperand → ∀ c ∈ s.head?, isNumeral c = false := fun ht =>
      head_of_spells h fun u hu => hts.1 u hu ht
    rw [List.append_assoc,convert_spaces,convert_token A t hs,ih hts.2 (by omega)]
    rfl

/-- `to_postfix` writes the code of the expression and leaves the stack empty. -/
theorem toPostfix_spells {n : ℕ} {ts : List CalcToken} {e : Expr Literal Op} {s : CString}
    (h : Parses Op.level n ts e) (hs : Spells ts s.bytes) :
    toPostfix A [] s = .ok ([],codeText e.code) := by
  obtain ⟨os,c,hf,hc⟩ := translate_flush h
  have hq := convert_spells A hs h.separated (Nat.le_refl s.length) ⟨[],[]⟩
  rw [hf] at hq
  exact hq.trans (congrArg Except.ok ((popRest_item A os c).trans (by rw [hc])))

end Translation

/-- What may follow a token in the postfix text. -/
def Ends (s : Bytes) : Prop := s = [] ∨ s.head? = some 32

theorem Ends.cases {s : Bytes} (hs : Ends s) : s = [] ∨ ∃ t, s = 32 :: t :=
  hs.imp_right List.head?_eq_some_iff.mp

theorem Ends.not_digit {s : Bytes} (hs : Ends s) : ∀ c, s.head? = some c → isDigit c = false := by
  intro c hc
  rcases hs with rfl | hs
  · simp at hc
  · obtain rfl : 32 = c := Option.some.inj (hs.symm.trans hc)
    rfl

theorem toLower_numeral {c : UInt8} (h : isNumeral c = true) : toLower c = c := by
  simp only [isNumeral,isDigit,Bool.or_eq_true,Bool.and_eq_true,decide_eq_true_eq] at h
  rw [toLower,if_neg]
  intro hc
  rcases h with h | rfl
  · exact absurd (UInt8.le_trans hc.1 h.2) (by decide)
  · exact absurd hc.1 (by decide)

theorem hexadecimal_numeral {t : Bytes} (hne : t ≠ []) (ht : ∀ c ∈ t, isNumeral c = true) {s : Bytes}
    (hs : Ends s) : hexadecimal (t ++ s) = 0 := by
  unfold hexadecimal
  split
  · rename_i x p he
    have hx : toLower x ≠ 120 := by
      cases t with
      | nil => exact (hne rfl).elim
      | cons c w =>
        rw [List.cons_append] at he
        cases w with
        | nil =>
          rcases hs with rfl | hs
          · simp at he
          · have hsx : s = x :: p := (List.cons.inj he).2
            obtain rfl : 32 = x := by simpa [hsx] using hs.symm
            decide
        | cons d w =>
          have hd : d = x := (List.cons.inj (List.cons.inj he).2).1
          have hn : isNumeral x = true := ht x (by simp [hd])
          rw [toLower_numeral hn]
          rintro rfl
          exact absurd hn (by decide)
    rw [if_neg (fun h => hx h.1)]
  · rfl

theorem mantissa_digits {w : Bytes} (hw : ∀ c ∈ w, isDigit c = true) {s : Bytes} (hs : Ends s) :
    mantissa isDigit (w ++ s) = w.length := by
  have ht := takeWhile_isDigit_append w s hw hs.not_digit
  simp only [mantissa,ht,List.drop_left]
  rcases hs.cases with rfl | ⟨t,rfl⟩
  · rfl
  · rfl

theorem mantissa_point {w f : Bytes} (hw : ∀ c ∈ w, isDigit c = true) (hf : ∀ c ∈ f, isDigit c = true)
    {s : Bytes} (hs : ∀ c, s.head? = some c → isDigit c = false) :
    mantissa isDigit (w ++ 46 :: (f ++ s)) =
      if w.length+f.length = 0 then 0 else w.length+1+f.length := by
  have ht := takeWhile_isDigit_append w (46 :: (f ++ s)) hw (fun c hc => by
    obtain rfl : 46 = c := Option.some.inj hc
    rfl)
  have hr := takeWhile_isDigit_append f s hf hs
  simp only [mantissa,ht,List.drop_left,hr]

theorem mantissa_literal (v : Literal) {s : Bytes} (hs : Ends s) :
    mantissa isDigit (v.text ++ s) = v.text.length := by
  have hd := v.digits
  have hne := v.nonempty
  cases hf : v.fraction with
  | none =>
    have ht : v.text = v.whole := by simp [Literal.text,hf]
    simp only [hf,Option.getD_none,List.append_nil] at hd
    rw [ht]
    exact mantissa_digits hd hs
  | some f =>
    have ht : v.text ++ s = v.whole ++ (46 :: (f ++ s)) := by simp [Literal.text,hf]
    simp only [hf,Option.getD_some] at hd hne
    have hpos := List.length_pos_of_ne_nil hne
    rw [List.length_append] at hpos
    rw [ht,mantissa_point (fun c hc => hd c (by simp [hc])) (fun c hc => hd c (by simp [hc])) hs.not_digit,
      if_neg (by omega)]
    simp only [Literal.text,hf,List.length_append,List.length_cons]
    omega

theorem exponent_ends {s : Bytes} (hs : Ends s) : exponent (fun c => toLower c = 101) s = 0 := by
  rcases hs.cases with rfl | ⟨t,rfl⟩
  · rfl
  · have hm : ¬ (decide (toLower 32 = 101) = true) := by decide
    simp only [exponent]
    rw [if_neg (fun h => hm h.1)]

theorem strtodLength_literal (v : Literal) {s : Bytes} (hs : Ends s) :
    strtodLength (v.text ++ s) = v.text.length := by
  have hl := List.length_pos_of_ne_nil v.text_ne_nil
  have hx := hexadecimal_numeral v.text_ne_nil (fun c hc => v.isNumeral_of_mem hc) hs
  simp only [strtodLength,hx,mantissa_literal v hs,List.drop_left,exponent_ends hs]
  rw [if_neg (by simp),if_neg (by omega)]
  rfl

def spaced (is : List (Instr Literal Op)) : Bytes := is.flatMap fun i => 32 :: instrText i

theorem instrText_ne_nil (i : Instr Literal Op) : instrText i ≠ [] := by
  cases i with
  | operand v => exact v.text_ne_nil
  | operator o => simp [instrText]

theorem codeText_cons (i : Instr Literal Op) (is : List (Instr Literal Op)) :
    codeText (i :: is) = instrText i ++ spaced is := by
  induction is using List.reverseRecOn with
  | nil => simp [codeText,emit,appendSeparator,spaced]
  | append_singleton is j ih =>
    have hne : instrText i ++ spaced is ≠ [] := by simp [instrText_ne_nil i]
    rw [← List.cons_append,codeText_append,ih,emit,appendSeparator,if_neg hne]
    simp [spaced]

theorem apply_char (A : Arithmetic α) (o : Op) (x y : α) : A.apply o.char x y = some (o.apply A x y) := by
  cases o <;> rfl

theorem evalLoop_operand (A : Arithmetic α) (v : Literal) {s : Bytes} (hs : Ends s)
    (fuel : ℕ) (top : List (Item α)) :
    evalLoop A (fuel+1) (v.text ++ s) top = evalLoop A fuel s (.number (A.number v.text) :: top) := by
  have hl := strtodLength_literal v hs
  have hd : (v.text ++ s).drop v.text.length = s := List.drop_left
  have ht : (v.text ++ s).take v.text.length = v.text := List.take_left
  obtain ⟨c,w,hw⟩ := List.exists_cons_of_ne_nil v.text_ne_nil
  have hc : isNumeral c = true := v.isNumeral_of_mem (by simp [hw])
  have hsp : isSpace c = false := by
    simp only [isNumeral,Bool.or_eq_true,decide_eq_true_eq] at hc
    rcases hc with hc | rfl
    · exact isSpace_of_isDigit hc
    · rfl
  rw [hw,List.cons_append] at hl hd ht ⊢
  simp only [evalLoop,hsp,hc,hl,hd,ht]
  simp

theorem evalLoop_operator (A : Arithmetic α) (o : Op) (s : Bytes) (fuel : ℕ) (x y : α)
    (top : List (Item α)) :
    evalLoop A (fuel+1) (o.char :: s) (.number y :: .number x :: top) =
      evalLoop A fuel s (.number (o.apply A x y) :: top) := by
  have hs : isSpace o.char = false := by cases o <;> rfl
  simp only [evalLoop,hs,isNumeral_operator,pop,readDouble,apply_char,bind,Except.bind]
  simp

/-- The loop runs the code whose text it reads. -/
theorem evalLoop_exec (A : Arithmetic α) (is : List (Instr Literal Op)) {s : List α} {v : α} {r : List α}
    (h : exec (fun v => A.number v.text) (Op.apply A) is s = some (v :: r)) {fuel : ℕ}
    (hf : (spaced is).length < fuel) :
    evalLoop A fuel (spaced is) (s.map .number) = .ok (v,r.map .number) := by
  induction is generalizing s fuel with
  | nil =>
    obtain ⟨fuel,rfl⟩ : ∃ m, fuel = m+1 := ⟨fuel-1,by omega⟩
    obtain rfl : s = v :: r := Option.some.inj h
    rfl
  | cons i is ih =>
    have hl := List.length_pos_of_ne_nil (instrText_ne_nil i)
    have he : spaced (i :: is) = 32 :: (instrText i ++ spaced is) := rfl
    rw [he,List.length_cons,List.length_append] at hf
    obtain ⟨fuel,rfl⟩ : ∃ m, fuel = m+1+1 := ⟨fuel-2,by omega⟩
    have hsp : isSpace 32 = true := rfl
    have hlt : (spaced is).length < fuel := by omega
    rw [he,evalLoop,if_pos hsp]
    cases i with
    | operand w =>
      have hs : Ends (spaced is) := by
        cases is with
        | nil => exact Or.inl rfl
        | cons j js => exact Or.inr rfl
      have hw := ih (s:=A.number w.text :: s) h hlt
      exact (evalLoop_operand A w hs fuel _).trans hw
    | operator o =>
      obtain ⟨y,x,t,rfl⟩ : ∃ y x t, s = y :: x :: t := by
        cases s with
        | nil => simp [exec,execInstr] at h
        | cons y s =>
          cases s with
          | nil => simp [exec,execInstr] at h
          | cons x t => exact ⟨y,x,t,rfl⟩
      have hw := ih (s:=o.apply A x y :: t) h hlt
      exact (evalLoop_operator A o _ fuel x y _).trans hw

theorem instrText_nul (i : Instr Literal Op) : 0 ∉ instrText i := by
  cases i with
  | operand v =>
    intro h
    exact absurd (v.isNumeral_of_mem h) (by decide)
  | operator o => cases o <;> decide

theorem spaced_nul (is : List (Instr Literal Op)) : 0 ∉ spaced is := by
  intro h
  obtain ⟨i,_,hi⟩ := List.mem_flatMap.mp h
  rcases List.mem_cons.mp hi with h0 | hi
  · exact absurd h0 (by decide)
  · exact instrText_nul i hi

theorem evalPostfix_code (A : Arithmetic α) (e : Expr Literal Op) {fuel : ℕ}
    (hf : (codeText e.code).length < fuel) :
    evalPostfix A fuel (codeText e.code) = .ok (value A e,[]) := by
  obtain ⟨i,is,hc⟩ := List.exists_cons_of_ne_nil e.code_ne_nil
  have hx : exec (fun v => A.number v.text) (Op.apply A) e.code [] = some [value A e] := by
    have h := exec_code (fun v => A.number v.text) (Op.apply A) e [] []
    rw [List.append_nil] at h
    exact h
  have hs : spaced e.code = 32 :: codeText e.code := by
    rw [hc,codeText_cons]
    rfl
  have hl : (spaced e.code).length < fuel+1 := by
    rw [hs,List.length_cons]
    omega
  have h := evalLoop_exec A e.code hx hl
  -- the space in front of the first instruction is skipped
  rw [hs,evalLoop,if_pos (by rfl : isSpace 32 = true)] at h
  have hnul : ∀ b ∈ codeText e.code, decide (b ≠ 0) = true := by
    intro b hb
    have hb' : b ∈ spaced e.code := by
      rw [hs]
      exact List.mem_cons_of_mem _ hb
    have hne : b ≠ 0 := fun h0 => spaced_nul e.code (h0 ▸ hb')
    simpa using hne
  rwa [evalPostfix,List.takeWhile_eq_self_iff.mpr hnul]

/-- Every spelling of an expression is translated without a fault and evaluated to the
value of the expression, with nothing left on the stack. -/
theorem eval_expression (A : Arithmetic α) {ts : List CalcToken} {e : Expr Literal Op} {s : CString}
    (he : Parses Op.level 0 ts e) (hs : Spells ts s.bytes) :
    ∃ pstfix, toPostfix A [] s = .ok ([],pstfix) ∧
      ∀ fuel, pstfix.length < fuel →
        evalPostfix A fuel pstfix = .ok (value A e,[]) ∧ eval A fuel [] s = .ok (value A e,[]) := by
  have hp := toPostfix_spells A he hs
  refine ⟨codeText e.code,hp,fun fuel hf => ?_⟩
  have hv := evalPostfix_code A e hf
  exact ⟨hv,bind_eq_ok.mpr ⟨_,hp,hv⟩⟩

def digit (n : Fin 10) : Literal where
  whole := [48+n.val.toUInt8]
  fraction := none
  digits := by revert n; decide +kernel
  nonempty := by simp

def integers : Arithmetic ℤ where
  add := (· + ·)
  sub := (· - ·)
  mul := (· * ·)
  div := (· / ·)
  number w := digitsValue w
  firstByte _ := 0

theorem eval_expression_mixed :
    ∃ pstfix, toPostfix integers [] (lit "9-[1 +\x7b2\x7d]* 2-1") = .ok ([],pstfix) ∧
      ∀ fuel, pstfix.length < fuel → evalPostfix integers fuel pstfix = .ok (2,[]) ∧
        eval integers fuel [] (lit "9-[1 +\x7b2\x7d]* 2-1") = .ok (2,[]) := by
  have hn (n : ℕ) (d : Fin 10) :
      Parses Op.level n [(.operand (digit d) : CalcToken)] (.operand (digit d)) := .operand n (digit d)
  have ha : Parses Op.level 0 _ _ := .binary Op.add (Nat.zero_le _) (hn 1 1) (.bracket 2 Bracket.curly (hn 0 2))
  have hm : Parses Op.level 2 _ _ := .binary Op.mul (le_refl 2) (.bracket 2 Bracket.square ha) (hn 3 2)
  have hs : Parses Op.level 1 _ _ := .binary Op.sub (le_refl 1) (hn 1 9) hm
  have he : Parses Op.level 0 _ _ := .binary Op.sub (Nat.zero_le _) hs (hn 2 1)
  have h : Spells _ _ := .cons 0 (.operand (digit 9)) (.cons 0 (.operator .sub) (.cons 0 (.opening .square)
    (.cons 0 (.operand (digit 1)) (.cons 1 (.operator .add) (.cons 0 (.opening .curly)
    (.cons 0 (.operand (digit 2)) (.cons 0 (.closing .curly) (.cons 0 (.closing .square)
    (.cons 0 (.operator .mul) (.cons 1 (.operand (digit 2)) (.cons 0 (.operator .sub)
    (.cons 0 (.operand (digit 1)) (.nil 0)))))))))))))
  exact eval_expression integers (s:=lit "9-[1 +\x7b2\x7d]* 2-1") he h

end CalculatorGrammar
end CodingChallenges
