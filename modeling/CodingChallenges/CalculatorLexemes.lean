import Mathlib.Data.Bool.AllAny
import CodingChallenges.CalculatorGrammar

/-! The calculator on any string, well formed or not. `to_postfix` takes numerals, operators
and brackets from the string and drops every other byte. What it writes is a function of
these lexemes, and the length of the text follows from how many of each kind there are. -/
namespace CodingChallenges
namespace CalculatorLexemes

open CText CMemory Calculator

inductive Lexeme
  | numeral (t : Bytes)
  | operator (c : UInt8)
  | opening (c : UInt8)
  | closing
  deriving DecidableEq

def lexeme (c : UInt8) : List Lexeme :=
  if c ∈ openingBrackets then [.opening c]
  else if c ∈ closingBrackets then [.closing]
  else if isOperator c then [.operator c]
  else []

def pending (t : Bytes) : List Lexeme := if t = [] then [] else [.numeral t]

/-- The lexemes of a text behind the beginning `t` of a numeral. -/
def lexFrom : Bytes → Bytes → List Lexeme
  | t, [] => pending t
  | t, c :: p => if isNumeral c then lexFrom (t ++ [c]) p else pending t ++ (lexeme c ++ lexFrom [] p)

def lex (p : Bytes) : List Lexeme := lexFrom [] p

def Lexeme.Valid : Lexeme → Prop
  | .numeral t => t ≠ [] ∧ ∀ c ∈ t, isNumeral c = true
  | .operator c => isOperator c = true
  | .opening c => c ∈ openingBrackets
  | .closing => True

theorem lexFrom_cons {t : Bytes} (ht : t ≠ []) (p : Bytes) :
    lexFrom t p = .numeral (t ++ p.takeWhile isNumeral) :: lex (p.dropWhile isNumeral) := by
  induction p generalizing t with
  | nil => simp [lexFrom,lex,pending,ht]
  | cons c p ih =>
    by_cases hc : isNumeral c = true
    · have hr := ih (t:=t ++ [c]) (by simp)
      simp [lexFrom,hc,hr]
    · simp [lexFrom,lex,pending,hc,ht]

theorem lex_numeral {c : UInt8} (hc : isNumeral c = true) (p : Bytes) :
    lex (c :: p) = .numeral ((c :: p).takeWhile isNumeral) :: lex ((c :: p).dropWhile isNumeral) := by
  have h := lexFrom_cons (t:=[c]) (by simp) p
  rw [lex,lexFrom,if_pos hc,List.nil_append,h,List.takeWhile_cons_of_pos hc,List.dropWhile_cons_of_pos hc]
  rfl

theorem lex_other {c : UInt8} (hc : ¬ isNumeral c = true) (p : Bytes) :
    lex (c :: p) = lexeme c ++ lex p := by
  rw [lex,lexFrom,if_neg hc]
  rfl

theorem valid_lexeme {c : UInt8} {l : Lexeme} (h : l ∈ lexeme c) : l.Valid := by
  unfold lexeme at h
  split_ifs at h with h₁ h₂ h₃
  · obtain rfl := List.mem_singleton.mp h
    exact h₁
  · obtain rfl := List.mem_singleton.mp h
    trivial
  · obtain rfl := List.mem_singleton.mp h
    exact h₃
  · contradiction

theorem valid_lexFrom {t p : Bytes} (ht : ∀ c ∈ t, isNumeral c = true) {l : Lexeme}
    (h : l ∈ lexFrom t p) : l.Valid := by
  have hpending {t : Bytes} (ht : ∀ c ∈ t, isNumeral c = true) (h : l ∈ pending t) : l.Valid := by
    unfold pending at h
    split_ifs at h with hne
    · contradiction
    · obtain rfl := List.mem_singleton.mp h
      exact ⟨hne,ht⟩
  induction p generalizing t with
  | nil => exact hpending ht h
  | cons c p ih =>
    rw [lexFrom] at h
    split_ifs at h with hc
    · refine ih (fun d hd => ?_) h
      rcases List.mem_append.mp hd with hd | hd
      · exact ht d hd
      · rwa [List.mem_singleton.mp hd]
    · rcases List.mem_append.mp h with h | h
      · exact hpending ht h
      · rcases List.mem_append.mp h with h | h
        · exact valid_lexeme h
        · exact ih (by simp) h

theorem valid_of_mem_lex {p : Bytes} {l : Lexeme} (h : l ∈ lex p) : l.Valid := valid_lexFrom (by simp) h

variable {α : Type} (A : Arithmetic α)

/-- The postfix text of the lexemes, behind what is written, with `top` waiting. -/
def write : List Lexeme → List (Item α) → Bytes → Bytes
  | [], top, pstfix => (popRest A top pstfix).2
  | .numeral t :: ls, top, pstfix => write ls top (emit pstfix t)
  | .operator c :: ls, top, pstfix =>
    write ls (.character c :: (popTighter A c top pstfix).1) (popTighter A c top pstfix).2
  | .opening c :: ls, top, pstfix => write ls (.character c :: top) pstfix
  | .closing :: ls, top, pstfix => write ls (popToBracket A top pstfix).1 (popToBracket A top pstfix).2

theorem popRest_nil (top : List (Item α)) (pstfix : Bytes) : (popRest A top pstfix).1 = [] := by
  induction top generalizing pstfix with
  | nil => rfl
  | cons x s ih => exact ih _

theorem strchr_iff {set : Bytes} {c : UInt8} (hc : c ≠ 0) : strchr set c = true ↔ c ∈ set := by
  simp [strchr,hc]

theorem mem_brackets {c : UInt8} : c ∈ brackets ↔ c ∈ openingBrackets ∨ c ∈ closingBrackets := by
  have hsub : ∀ b ∈ brackets, b ∈ openingBrackets ∨ b ∈ closingBrackets :=
    List.all_iff_forall_prop.mp (by decide)
  have hsup : ∀ b ∈ openingBrackets ++ closingBrackets, b ∈ brackets := List.all_iff_forall_prop.mp (by decide)
  exact ⟨hsub c,fun h => hsup c (List.mem_append.mpr h)⟩

theorem not_isNumeral_space : ¬ isNumeral 32 = true := by decide

theorem convert_lex {p : Bytes} (h0 : 0 ∉ p) {fuel : ℕ} (hf : p.length ≤ fuel) (top : List (Item α))
    (pstfix : Bytes) : convert A fuel p top pstfix = .ok ([],write A (lex p) top pstfix) := by
  induction fuel generalizing p top pstfix with
  | zero =>
    obtain rfl := List.length_eq_zero_iff.mp (Nat.le_zero.mp hf)
    exact congrArg Except.ok (Prod.ext (popRest_nil A top pstfix) rfl)
  | succ fuel ih =>
    cases p with
    | nil => exact congrArg Except.ok (Prod.ext (popRest_nil A top pstfix) rfl)
    | cons c p =>
      have hc0 : c ≠ 0 := fun h => h0 (by simp [h])
      have hp0 : 0 ∉ p := fun h => h0 (by simp [h])
      have hp : p.length ≤ fuel := Nat.le_of_succ_le_succ hf
      rw [convert]
      split_ifs with h32 hn hb ho hcl hop
      · subst h32
        rw [lex_other not_isNumeral_space]
        exact ih hp0 hp top pstfix
      · have hd : (c :: p).drop ((c :: p).takeWhile isNumeral).length = (c :: p).dropWhile isNumeral := by
          have happ := List.takeWhile_append_dropWhile (p:=isNumeral) (l:=c :: p)
          exact (congrArg (List.drop _) happ.symm).trans List.drop_left
        have hsuf : (c :: p).dropWhile isNumeral <:+ p := by
          rw [List.dropWhile_cons_of_pos hn]
          exact List.dropWhile_suffix _
        show convert A fuel ((c :: p).drop ((c :: p).takeWhile isNumeral).length) top _ = _
        rw [lex_numeral hn,hd]
        exact ih (fun h => hp0 (hsuf.subset h)) (hsuf.length_le.trans hp) top _
      · rw [lex_other hn,lexeme,if_pos ((strchr_iff hc0).mp ho)]
        exact ih hp0 hp _ pstfix
      · rw [lex_other hn,lexeme,if_neg (fun h => ho ((strchr_iff hc0).mpr h)),
          if_pos ((strchr_iff hc0).mp hcl)]
        exact ih hp0 hp _ _
      · rcases mem_brackets.mp ((strchr_iff hc0).mp hb) with h | h
        · exact absurd ((strchr_iff hc0).mpr h) ho
        · exact absurd ((strchr_iff hc0).mpr h) hcl
      · have hno := not_or.mp fun h => hb ((strchr_iff hc0).mpr (mem_brackets.mpr h))
        rw [lex_other hn,lexeme,if_neg hno.1,if_neg hno.2,if_pos hop]
        exact ih hp0 hp _ _
      · have hno := not_or.mp fun h => hb ((strchr_iff hc0).mpr (mem_brackets.mpr h))
        rw [lex_other hn,lexeme,if_neg hno.1,if_neg hno.2,if_neg hop]
        exact ih hp0 hp top pstfix

/-- `to_postfix` returns for every string and stack, and leaves the stack empty. -/
theorem toPostfix_eq (top : List (Item α)) (expr : CString) :
    toPostfix A top expr = .ok ([],write A (lex expr.bytes) top []) :=
  convert_lex A expr.nul_free (le_refl _) top []

def characters (ops : Bytes) : List (Item α) := ops.map .character

/-- An incoming operator takes `x` off the stack. -/
def tighter (c x : UInt8) : Bool := !strchr brackets x && shouldPop x c

/-- A closing bracket takes `x` off the stack, not as its partner. -/
def inside (x : UInt8) : Bool := !strchr openingBrackets x

def emitAll (pstfix ops : Bytes) : Bytes := ops.foldl (fun s c => emit s [c]) pstfix

def unwind (ops : Bytes) : Bytes := (ops.dropWhile inside).drop 1

theorem popTighter_characters (c : UInt8) (ops pstfix : Bytes) :
    popTighter A c (characters ops) pstfix =
      (characters (ops.dropWhile (tighter c)),emitAll pstfix (ops.takeWhile (tighter c))) := by
  induction ops generalizing pstfix with
  | nil => rfl
  | cons x ops ih =>
    have hr : A.readChar (.character x) = x := rfl
    simp only [characters,List.map_cons,popTighter,hr]
    by_cases hx : tighter c x = true
    · have hx' : ¬ strchr brackets x = true ∧ shouldPop x c = true := by simpa [tighter] using hx
      rw [if_pos hx',List.dropWhile_cons_of_pos hx,List.takeWhile_cons_of_pos hx]
      exact ih _
    · have hx' : ¬ (¬ strchr brackets x = true ∧ shouldPop x c = true) := by simpa [tighter] using hx
      rw [if_neg hx',List.dropWhile_cons_of_neg hx,List.takeWhile_cons_of_neg hx]
      rfl

theorem popToBracket_characters (ops pstfix : Bytes) :
    popToBracket A (characters ops) pstfix =
      (characters (unwind ops),emitAll pstfix (ops.takeWhile inside)) := by
  induction ops generalizing pstfix with
  | nil => rfl
  | cons x ops ih =>
    have hr : A.readChar (.character x) = x := rfl
    simp only [characters,List.map_cons,popToBracket,hr,unwind]
    by_cases hx : strchr openingBrackets x = true
    · have hx' : ¬ inside x = true := by simp [inside,hx]
      rw [if_pos hx,List.dropWhile_cons_of_neg hx',List.takeWhile_cons_of_neg hx']
      rfl
    · have hx' : inside x = true := by simp [inside,hx]
      rw [if_neg hx,List.dropWhile_cons_of_pos hx',List.takeWhile_cons_of_pos hx']
      exact ih _

theorem popRest_characters (ops pstfix : Bytes) :
    popRest A (characters ops) pstfix = ([],emitAll pstfix ops) := by
  induction ops generalizing pstfix with
  | nil => rfl
  | cons x ops ih => exact ih _

theorem write_operator (c : UInt8) (ls : List Lexeme) (ops pstfix : Bytes) :
    write A (.operator c :: ls) (characters ops) pstfix =
      write A ls (characters (c :: ops.dropWhile (tighter c)))
        (emitAll pstfix (ops.takeWhile (tighter c))) := by
  rw [write,popTighter_characters]
  rfl

theorem write_opening (c : UInt8) (ls : List Lexeme) (ops pstfix : Bytes) :
    write A (.opening c :: ls) (characters ops) pstfix = write A ls (characters (c :: ops)) pstfix := rfl

theorem write_closing (ls : List Lexeme) (ops pstfix : Bytes) :
    write A (.closing :: ls) (characters ops) pstfix =
      write A ls (characters (unwind ops)) (emitAll pstfix (ops.takeWhile inside)) := by
  rw [write,popToBracket_characters]

theorem write_nil (ops pstfix : Bytes) : write A [] (characters ops) pstfix = emitAll pstfix ops := by
  rw [write,popRest_characters]

def Waiting (ops : Bytes) : Prop := ∀ x ∈ ops, isOperator x = true ∨ x ∈ openingBrackets

theorem Waiting.ne_zero {ops : Bytes} (h : Waiting ops) {x : UInt8} (hx : x ∈ ops) : x ≠ 0 := by
  rintro rfl
  rcases h 0 hx with h | h
  · exact absurd h (by decide)
  · exact absurd h (by decide)

theorem Waiting.sublist {ops ops' : Bytes} (h : Waiting ops) (hs : ops'.Sublist ops) : Waiting ops' :=
  fun x hx => h x (hs.subset hx)

theorem Waiting.dropWhile {ops : Bytes} (h : Waiting ops) (p : UInt8 → Bool) : Waiting (ops.dropWhile p) :=
  h.sublist (List.dropWhile_suffix p).sublist

theorem Waiting.unwind {ops : Bytes} (h : Waiting ops) : Waiting (unwind ops) :=
  (h.dropWhile inside).sublist (List.drop_sublist 1 _)

theorem Waiting.cons {ops : Bytes} (h : Waiting ops) {c : UInt8}
    (hc : isOperator c = true ∨ c ∈ openingBrackets) : Waiting (c :: ops) := by
  intro x hx
  rcases List.mem_cons.mp hx with rfl | hx
  · exact hc
  · exact h x hx

def openings (ops : Bytes) : ℕ := ops.countP (· ∈ openingBrackets)

def depth (d : ℕ) : Lexeme → ℕ
  | .opening _ => d+1
  | .closing => d-1
  | .operator _ | .numeral _ => d

def unclosed (ls : List Lexeme) : ℕ := ls.foldl depth 0

def weight (f : UInt8 → ℕ) (ops : Bytes) : ℕ := (ops.map f).sum

theorem weight_split (f : UInt8 → ℕ) (p : UInt8 → Bool) (ops : Bytes) :
    weight f (ops.takeWhile p)+weight f (ops.dropWhile p) = weight f ops := by
  rw [weight,weight,weight,← List.sum_append,← List.map_append,List.takeWhile_append_dropWhile]

theorem notOpening_of_isOperator {c : UInt8} (hc : isOperator c = true) : c ∉ openingBrackets := by
  intro h
  have hnone : ∀ b ∈ openingBrackets, ¬ isOperator b = true := List.all_iff_forall_prop.mp (by decide)
  exact hnone c h hc

theorem openings_cons_operator {c : UInt8} (hc : isOperator c = true) (ops : Bytes) :
    openings (c :: ops) = openings ops := by
  simp [openings,notOpening_of_isOperator hc]

theorem openings_dropWhile {p : UInt8 → Bool} (hp : ∀ x, p x = true → x ∉ openingBrackets) (ops : Bytes) :
    openings (ops.dropWhile p) = openings ops := by
  have hz : (ops.takeWhile p).countP (· ∈ openingBrackets) = 0 := by
    rw [List.countP_eq_zero]
    intro x hx
    simpa using hp x (List.mem_takeWhile_imp hx)
  have happ := List.takeWhile_append_dropWhile (p:=p) (l:=ops)
  have hcount := congrArg (List.countP (· ∈ openingBrackets)) happ
  rw [List.countP_append,hz,Nat.zero_add] at hcount
  exact hcount

theorem notOpening_of_tighter {c x : UInt8} (h : tighter c x = true) : x ∉ openingBrackets := by
  intro hx
  have hb : strchr brackets x = true := by simp [strchr,mem_brackets.mpr (Or.inl hx)]
  simp [tighter,hb] at h

theorem notOpening_of_inside {x : UInt8} (h : inside x = true) : x ∉ openingBrackets := by
  intro hx
  have hb : strchr openingBrackets x = true := by simp [strchr,hx]
  simp [inside,hb] at h

theorem dropWhile_inside {ops : Bytes} (hw : Waiting ops) {x : UInt8} {rest : Bytes}
    (hd : ops.dropWhile inside = x :: rest) : x ∈ openingBrackets := by
  have hin : ¬ inside x = true := by
    have h := List.head?_dropWhile_not inside ops
    simpa [hd] using h
  have hmem : x ∈ ops := (List.dropWhile_suffix inside).subset (by simp [hd])
  exact (strchr_iff (hw.ne_zero hmem)).mp (by simpa [inside] using hin)

theorem unwind_spec {ops : Bytes} (hw : Waiting ops) {f : UInt8 → ℕ} {k : ℕ}
    (hf : ∀ c ∈ openingBrackets, f c = k) :
    openings (unwind ops) = openings ops-1 ∧
      weight f (ops.takeWhile inside)+weight f (unwind ops)+k*openings ops =
        weight f ops+k*(openings ops-1) := by
  have hsplit := weight_split f inside ops
  have hopen := openings_dropWhile (p:=inside) (fun x hx => notOpening_of_inside hx) ops
  cases hd : ops.dropWhile inside with
  | nil =>
    rw [hd] at hsplit hopen
    have h0 : openings ops = 0 := hopen.symm
    simp only [unwind,hd,List.drop_nil,h0]
    exact ⟨rfl,by omega⟩
  | cons x rest =>
    have hx := dropWhile_inside hw hd
    rw [hd] at hsplit hopen
    have ho : openings ops = openings rest+1 := by
      rw [← hopen]
      simp [openings,hx]
    have hwx : weight f (x :: rest) = k+weight f rest := by simp [weight,hf x hx]
    rw [hwx] at hsplit
    simp only [unwind,hd,List.drop_succ_cons,List.drop_zero,ho,Nat.add_sub_cancel,Nat.mul_succ]
    exact ⟨trivial,by omega⟩

inductive Token
  | numeral (t : Bytes)
  | character (c : UInt8)
  deriving DecidableEq

def Token.text : Token → Bytes
  | .numeral t => t
  | .character c => [c]

def Token.Valid : Token → Prop
  | .numeral t => t ≠ [] ∧ ∀ c ∈ t, isNumeral c = true
  | .character c => isOperator c = true ∨ c ∈ openingBrackets

def spaced (ts : List Token) : Bytes := ts.flatMap fun t => 32 :: t.text

/-- The characters on the stack and the tokens that are written. -/
structure Scan where
  ops : Bytes
  out : List Token

def Scan.step (q : Scan) : Lexeme → Scan
  | .numeral t => ⟨q.ops,q.out ++ [.numeral t]⟩
  | .operator c => ⟨c :: q.ops.dropWhile (tighter c),q.out ++ (q.ops.takeWhile (tighter c)).map .character⟩
  | .opening c => ⟨c :: q.ops,q.out⟩
  | .closing => ⟨unwind q.ops,q.out ++ (q.ops.takeWhile inside).map .character⟩

def scan (ls : List Lexeme) : Scan := ls.foldl Scan.step ⟨[],[]⟩

def Scan.flush (q : Scan) : List Token := q.out ++ q.ops.map .character

theorem scan_snoc (ls : List Lexeme) (l : Lexeme) : scan (ls ++ [l]) = (scan ls).step l := by
  rw [scan,List.foldl_append]
  rfl

/-- A text with a space in front, unless it is empty; then every token is behind a space. -/
def padded (pstfix : Bytes) : Bytes := if pstfix = [] then [] else 32 :: pstfix

theorem padded_emit (pstfix : Bytes) {t : Bytes} (ht : t ≠ []) :
    padded (emit pstfix t) = padded pstfix ++ 32 :: t := by
  by_cases hp : pstfix = []
  · simp [padded,emit,appendSeparator,hp,ht]
  · simp [padded,emit,appendSeparator,hp]

theorem padded_emitAll (pstfix ops : Bytes) :
    padded (emitAll pstfix ops) = padded pstfix ++ spaced (ops.map .character) := by
  induction ops generalizing pstfix with
  | nil => simp [emitAll,spaced]
  | cons c ops ih =>
    have h := ih (emit pstfix [c])
    rw [padded_emit pstfix (by simp)] at h
    simpa [emitAll,spaced,Token.text] using h

theorem spaced_append (ts us : List Token) : spaced (ts ++ us) = spaced ts ++ spaced us := List.flatMap_append

theorem length_spaced (ts : List Token) :
    (spaced ts).length = (ts.map fun t => t.text.length+1).sum := by
  rw [spaced,List.length_flatMap]
  rfl

theorem padded_write {ls : List Lexeme} (hls : ∀ l ∈ ls, l.Valid) {q : Scan} {pstfix : Bytes}
    (hp : padded pstfix = spaced q.out) :
    padded (write A ls (characters q.ops) pstfix) = spaced (ls.foldl Scan.step q).flush := by
  induction ls generalizing q pstfix with
  | nil => rw [write_nil,padded_emitAll,hp,← spaced_append]; rfl
  | cons l ls ih =>
    have hl := hls l (by simp)
    have hrest : ∀ l ∈ ls, l.Valid := fun l h => hls l (by simp [h])
    cases l with
    | numeral t =>
      have h : padded (emit pstfix t) = spaced (q.step (.numeral t)).out := by
        rw [padded_emit pstfix hl.1,hp,Scan.step,spaced_append]
        simp [spaced,Token.text]
      exact ih hrest h
    | operator c =>
      have h : padded (emitAll pstfix (q.ops.takeWhile (tighter c))) = spaced (q.step (.operator c)).out := by
        rw [padded_emitAll,hp,Scan.step,spaced_append]
      rw [write_operator]
      exact ih hrest h
    | opening c =>
      rw [write_opening]
      exact ih (q:=q.step (.opening c)) hrest hp
    | closing =>
      have h : padded (emitAll pstfix (q.ops.takeWhile inside)) = spaced (q.step .closing).out := by
        rw [padded_emitAll,hp,Scan.step,spaced_append]
      rw [write_closing]
      exact ih hrest h

theorem padded_write_lex (p : Bytes) : padded (write A (lex p) [] []) = spaced (scan (lex p)).flush :=
  padded_write A (fun _ h => valid_of_mem_lex h) (q:=⟨[],[]⟩) rfl

/-- What a lexeme brings to a total over the tokens; brackets are counted apart. -/
def Lexeme.share (f : Token → ℕ) : Lexeme → ℕ
  | .numeral t => f (.numeral t)
  | .operator c => f (.character c)
  | _ => 0

def Scan.total (f : Token → ℕ) (q : Scan) : ℕ := (q.flush.map f).sum

theorem sum_written (f : Token → ℕ) (out : List Token) (ops : Bytes) :
    ((out ++ ops.map Token.character).map f).sum = (out.map f).sum+weight (fun c => f (.character c)) ops := by
  rw [List.map_append,List.sum_append,List.map_map]
  rfl

theorem total_eq (f : Token → ℕ) (q : Scan) :
    q.total f = (q.out.map f).sum+weight (fun c => f (.character c)) q.ops := sum_written f q.out q.ops

theorem waiting_step {q : Scan} (hw : Waiting q.ops) {l : Lexeme} (hl : l.Valid) :
    Waiting (q.step l).ops := by
  cases l with
  | numeral t => exact hw
  | operator c => exact (hw.dropWhile _).cons (Or.inl hl)
  | opening c => exact hw.cons (Or.inr hl)
  | closing => exact hw.unwind

theorem openings_step {q : Scan} (hw : Waiting q.ops) {l : Lexeme} (hl : l.Valid) :
    openings (q.step l).ops = depth (openings q.ops) l := by
  cases l with
  | numeral t => rfl
  | operator c =>
    exact (openings_cons_operator hl _).trans (openings_dropWhile (fun x hx => notOpening_of_tighter hx) q.ops)
  | opening c =>
    have hc : c ∈ openingBrackets := hl
    simp [Scan.step,openings,depth,hc]
  | closing => exact (unwind_spec hw (f:=fun _ => 2) (k:=2) (fun _ _ => rfl)).1

theorem total_step {q : Scan} (hw : Waiting q.ops) {l : Lexeme} (hl : l.Valid) {f : Token → ℕ} {k : ℕ}
    (hf : ∀ c ∈ openingBrackets, f (.character c) = k) :
    (q.step l).total f+k*openings q.ops = q.total f+l.share f+k*openings (q.step l).ops := by
  have ho := openings_step hw hl
  rw [ho,total_eq,total_eq]
  cases l with
  | numeral t =>
    simp only [Scan.step,List.map_append,List.sum_append,Lexeme.share,depth,List.map_cons,List.map_nil,
      List.sum_cons,List.sum_nil]
    omega
  | operator c =>
    have hs := weight_split (fun c => f (.character c)) (tighter c) q.ops
    have hcons : weight (fun c => f (.character c)) (c :: q.ops.dropWhile (tighter c)) =
        f (.character c)+weight (fun c => f (.character c)) (q.ops.dropWhile (tighter c)) := rfl
    simp only [Scan.step,sum_written,Lexeme.share,depth,hcons]
    omega
  | opening c =>
    have hc : f (.character c) = k := hf c hl
    have hcons : weight (fun c => f (.character c)) (c :: q.ops) =
        f (.character c)+weight (fun c => f (.character c)) q.ops := rfl
    simp only [Scan.step,Lexeme.share,depth,hcons,hc,Nat.mul_succ]
    omega
  | closing =>
    have hs := (unwind_spec hw (f:=fun c => f (.character c)) hf).2
    simp only [Scan.step,sum_written,Lexeme.share,depth]
    omega

theorem unclosed_snoc (ls : List Lexeme) (l : Lexeme) : unclosed (ls ++ [l]) = depth (unclosed ls) l := by
  rw [unclosed,List.foldl_append]
  rfl

theorem waiting_scan {ls : List Lexeme} (hls : ∀ l ∈ ls, l.Valid) : Waiting (scan ls).ops := by
  induction ls using List.reverseRecOn with
  | nil => exact fun _ h => by simp [scan] at h
  | append_singleton ls l ih =>
    rw [scan_snoc]
    exact waiting_step (ih fun l h => hls l (by simp [h])) (hls l (by simp))

theorem openings_scan {ls : List Lexeme} (hls : ∀ l ∈ ls, l.Valid) :
    openings (scan ls).ops = unclosed ls := by
  induction ls using List.reverseRecOn with
  | nil => rfl
  | append_singleton ls l ih =>
    have hrest : ∀ l ∈ ls, l.Valid := fun l h => hls l (by simp [h])
    rw [scan_snoc,unclosed_snoc,← ih hrest]
    exact openings_step (waiting_scan hrest) (hls l (by simp))

/-- A total over the tokens of a string is the total of the shares, whatever the order, and the
brackets that stay open. -/
theorem total_scan {ls : List Lexeme} (hls : ∀ l ∈ ls, l.Valid) {f : Token → ℕ} {k : ℕ}
    (hf : ∀ c ∈ openingBrackets, f (.character c) = k) :
    (scan ls).total f = (ls.map (Lexeme.share f)).sum+k*unclosed ls := by
  induction ls using List.reverseRecOn with
  | nil => rfl
  | append_singleton ls l ih =>
    have hrest : ∀ l ∈ ls, l.Valid := fun l h => hls l (by simp [h])
    have h := ih hrest
    have ht := total_step (waiting_scan hrest) (hls l (by simp)) hf
    rw [← scan_snoc,openings_scan hrest,openings_scan hls] at ht
    rw [List.map_append,List.sum_append]
    simp only [List.map_cons,List.map_nil,List.sum_cons,List.sum_nil]
    omega

theorem isOperator_of_mem_out {ls : List Lexeme} (hls : ∀ l ∈ ls, l.Valid) {c : UInt8}
    (hc : Token.character c ∈ (scan ls).out) : isOperator c = true := by
  induction ls using List.reverseRecOn with
  | nil => simp [scan] at hc
  | append_singleton ls l ih =>
    have hrest : ∀ l ∈ ls, l.Valid := fun l h => hls l (by simp [h])
    have hw := waiting_scan hrest
    have hpopped {p : UInt8 → Bool} (hp : ∀ x, p x = true → x ∉ openingBrackets)
        (hc : Token.character c ∈ (scan ls).out ++ ((scan ls).ops.takeWhile p).map .character) :
        isOperator c = true := by
      rcases List.mem_append.mp hc with hc | hc
      · exact ih hrest hc
      · obtain ⟨x,hx,hxc⟩ := List.mem_map.mp hc
        obtain rfl : x = c := Token.character.inj hxc
        rcases hw x ((List.takeWhile_prefix p).subset hx) with h | h
        · exact h
        · exact (hp x (List.mem_takeWhile_imp hx) h).elim
    rw [scan_snoc] at hc
    cases l with
    | numeral t => exact ih hrest (by simpa [Scan.step] using hc)
    | operator d => exact hpopped (fun x hx => notOpening_of_tighter hx) hc
    | opening d => exact ih hrest hc
    | closing => exact hpopped (fun x hx => notOpening_of_inside hx) hc

theorem numeral_mem_out {ls : List Lexeme} {t : Bytes} :
    Token.numeral t ∈ (scan ls).out ↔ Lexeme.numeral t ∈ ls := by
  induction ls using List.reverseRecOn with
  | nil => simp [scan]
  | append_singleton ls l ih =>
    rw [scan_snoc]
    cases l with
    | numeral u => simp [Scan.step,ih]
    | operator c => simp [Scan.step,ih]
    | opening c => simp [Scan.step,ih]
    | closing => simp [Scan.step,ih]

theorem valid_scan {ls : List Lexeme} (hls : ∀ l ∈ ls, l.Valid) {t : Token} (ht : t ∈ (scan ls).flush) :
    t.Valid := by
  rcases List.mem_append.mp ht with ht | ht
  · cases t with
    | numeral t => exact hls _ (numeral_mem_out.mp ht)
    | character c => exact Or.inl (isOperator_of_mem_out hls ht)
  · obtain ⟨c,hc,rfl⟩ := List.mem_map.mp ht
    exact waiting_scan hls c hc

theorem length_write_lex (p : Bytes) :
    (padded (write A (lex p) [] [])).length =
      ((lex p).map (Lexeme.share fun t => t.text.length+1)).sum+2*unclosed (lex p) := by
  rw [padded_write_lex,length_spaced]
  exact total_scan (fun _ h => valid_of_mem_lex h) (fun _ _ => rfl)

end CalculatorLexemes
end CodingChallenges
