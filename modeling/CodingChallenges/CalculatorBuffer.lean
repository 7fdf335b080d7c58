import CodingChallenges.CBuffer
import CodingChallenges.CalculatorLoop

/-! The buffer that `to_postfix` writes into. It is allocated with one byte more than the
expression has and filled store by store. The passes of the calculator are given again with
every store made, and compared with those that only collect the text. -/
namespace CodingChallenges
namespace CalculatorBuffer

open CText CMemory CBuffer Calculator CalculatorLexemes CalculatorLoop

/-- `pstfix` and `idx`. -/
structure Writer where
  pstfix : Buffer
  idx : ℕ

/-- `pstfix[idx++] = b`. -/
def Writer.put (w : Writer) (b : UInt8) : Except Fault Writer := do
  let m ← store w.pstfix w.idx [b]
  .ok ⟨m,w.idx+1⟩

def Writer.appendSeparator (w : Writer) : Except Fault Writer :=
  if w.idx ≠ 0 then w.put 32 else .ok w

def Writer.emit (w : Writer) (token : Bytes) : Except Fault Writer := do
  let w ← w.appendSeparator
  token.foldlM Writer.put w

variable {α : Type} (A : Arithmetic α)

def Writer.popToBracket : List (Item α) → Writer → Except Fault (List (Item α) × Writer)
  | [], w => .ok ([],w)
  | x :: s, w => do
    let c := A.readChar x
    if strchr openingBrackets c then .ok (s,w)
    else
      let w ← w.emit [c]
      Writer.popToBracket s w

def Writer.popTighter (incoming : UInt8) :
    List (Item α) → Writer → Except Fault (List (Item α) × Writer)
  | [], w => .ok ([],w)
  | x :: s, w => do
    let c := A.readChar x
    if ¬ strchr brackets c ∧ shouldPop c incoming then
      let w ← w.emit [c]
      Writer.popTighter incoming s w
    else .ok (x :: s,w)

def Writer.popRest : List (Item α) → Writer → Except Fault (List (Item α) × Writer)
  | [], w => .ok ([],w)
  | x :: s, w => do
    let w ← w.emit [A.readChar x]
    Writer.popRest s w

def Writer.convert : ℕ → Bytes → List (Item α) → Writer → Except Fault (List (Item α) × Writer)
  | _, [], top, w => Writer.popRest A top w
  | 0, _ :: _, _, _ => .error .endless
  | fuel+1, c :: p, top, w =>
    if c = 32 then Writer.convert fuel p top w
    else if isNumeral c then do
      let digits := (c :: p).takeWhile isNumeral
      let w ← w.emit digits
      Writer.convert fuel ((c :: p).drop digits.length) top w
    else if strchr brackets c then
      if strchr openingBrackets c then Writer.convert fuel p (.character c :: top) w
      else if strchr closingBrackets c then do
        let r ← Writer.popToBracket A top w
        Writer.convert fuel p r.1 r.2
      else Writer.convert fuel p top w
    else if isOperator c then do
      let r ← Writer.popTighter A c top w
      Writer.convert fuel p (.character c :: r.1) r.2
    else Writer.convert fuel p top w

/-- `to_postfix`: the stack that is left and the buffer that is returned. -/
def toPostfix (top : List (Item α)) (expr : CString) : Except Fault (List (Item α) × Buffer) := do
  let r ← Writer.convert A expr.length expr.bytes top ⟨fresh (expr.length+1),0⟩
  .ok (r.1,r.2.pstfix)

/-- A buffer of `size` cells behind the stores of a text; one past its end is a fault. -/
def written (size : ℕ) (text : Bytes) : Except Fault Writer :=
  if text.length ≤ size then .ok ⟨text.map some ++ fresh (size-text.length),text.length⟩
  else .error .outOfBounds

theorem written_put (size : ℕ) (text : Bytes) (b : UInt8) :
    (written size text >>= fun w => w.put b) = written size (text ++ [b]) := by
  unfold written
  rw [List.length_append,List.length_singleton]
  rcases Nat.lt_trichotomy text.length size with h | h | h
  · have hs := store_next 0 text [b] (size-text.length) (size-(text.length+1)) (i:=text.length)
      (by simp) (by simp; omega)
    have h0 : fresh 0 = [] := rfl
    rw [h0,List.nil_append,List.nil_append] at hs
    rw [if_pos h.le,if_pos (Nat.succ_le_of_lt h)]
    simp only [bind,Except.bind,Writer.put,hs]
  · subst h
    rw [if_pos (le_refl _),if_neg (by omega)]
    simp [bind,Except.bind,Writer.put,store]
  · rw [if_neg (by omega),if_neg (by omega)]
    rfl

theorem written_copy (size : ℕ) (text token : Bytes) :
    (written size text >>= fun w => token.foldlM Writer.put w) = written size (text ++ token) := by
  induction token generalizing text with
  | nil =>
    rw [List.append_nil]
    exact bind_pure _
  | cons b token ih =>
    have hp := written_put size text b
    have h := ih (text ++ [b])
    rw [← hp,bind_assoc,List.append_assoc] at h
    exact h

theorem written_separator (size : ℕ) (text : Bytes) :
    (written size text >>= fun w => w.appendSeparator) =
      written size (if text = [] then text else text ++ [32]) := by
  by_cases h : text = []
  · subst h
    rfl
  · rw [if_neg h,← written_put]
    unfold written
    split_ifs with hs
    · have hl : text.length ≠ 0 := fun h0 => h (List.length_eq_zero_iff.mp h0)
      simp only [bind,Except.bind,Writer.appendSeparator,if_pos hl]
    · rfl

theorem written_emit (size : ℕ) (text token : Bytes) :
    (written size text >>= fun w => w.emit token) = written size (emit text token) := by
  have hs := written_separator size text
  have hc := written_copy size (if text = [] then text else text ++ [32]) token
  rw [← hs,bind_assoc] at hc
  have he : (if text = [] then text else text ++ [32]) ++ token = emit text token := by
    unfold emit appendSeparator
    split_ifs with h
    · rw [h]
    · rfl
  rw [he] at hc
  exact hc

def result (size : ℕ) (r : List (Item α) × Bytes) : Except Fault (List (Item α) × Writer) := do
  let w ← written size r.2
  .ok (r.1,w)

theorem written_popToBracket (size : ℕ) (top : List (Item α)) (text : Bytes) :
    (written size text >>= fun w => Writer.popToBracket A top w) = result size (popToBracket A top text) := by
  induction top generalizing text with
  | nil => rfl
  | cons x s ih =>
    simp only [Writer.popToBracket,popToBracket]
    split_ifs with h
    · rfl
    · rw [← ih,← written_emit,bind_assoc]

theorem written_popTighter (c : UInt8) (size : ℕ) (top : List (Item α)) (text : Bytes) :
    (written size text >>= fun w => Writer.popTighter A c top w) = result size (popTighter A c top text) := by
  induction top generalizing text with
  | nil => rfl
  | cons x s ih =>
    simp only [Writer.popTighter,popTighter]
    split_ifs with h
    · rw [← ih,← written_emit,bind_assoc]
    · rfl

theorem written_popRest (size : ℕ) (top : List (Item α)) (text : Bytes) :
    (written size text >>= fun w => Writer.popRest A top w) = result size (popRest A top text) := by
  induction top generalizing text with
  | nil => rfl
  | cons x s ih =>
    simp only [Writer.popRest,popRest]
    rw [← ih,← written_emit,bind_assoc]

theorem written_convert (size : ℕ) {fuel : ℕ} {p : Bytes} {top : List (Item α)} {text : Bytes}
    {r : List (Item α) × Bytes} (h : convert A fuel p top text = .ok r) :
    (written size text >>= fun w => Writer.convert A fuel p top w) = result size r := by
  induction fuel generalizing p top text with
  | zero =>
    cases p with
    | nil =>
      obtain rfl := Except.ok.inj h
      exact written_popRest A size top text
    | cons c p => cases h
  | succ fuel ih =>
    cases p with
    | nil =>
      obtain rfl := Except.ok.inj h
      exact written_popRest A size top text
    | cons c p =>
      rw [convert] at h
      simp only [Writer.convert]
      split_ifs at h ⊢ with h32 hn hb ho hcl hop
      · exact ih h
      · rw [← ih h,← written_emit,bind_assoc]
      · exact ih h
      · rw [← bind_assoc,written_popToBracket,result,bind_assoc]
        exact ih h
      · exact ih h
      · rw [← bind_assoc,written_popTighter,result,bind_assoc]
        exact ih h
      · exact ih h

/-- The buffer of `to_postfix` holds the text where it fits; else a store is outside of it. -/
theorem toPostfix_buffer (top : List (Item α)) (expr : CString) :
    toPostfix A top expr = (do
      let w ← written (expr.length+1) (write A (lex expr.bytes) top [])
      .ok ([],w.pstfix)) := by
  have h := written_convert A (expr.length+1) (toPostfix_eq A top expr)
  have hw : written (expr.length+1) [] = .ok ⟨fresh (expr.length+1),0⟩ := rfl
  rw [hw] at h
  rw [toPostfix,show Writer.convert A expr.length expr.bytes top ⟨fresh (expr.length+1),0⟩ = _ from h,
    result,bind_assoc]
  rfl

/-- Every store is inside the buffer exactly when the numerals and operators, a space with each,
and the brackets left open, two bytes each, take two bytes more than the expression at most. -/
theorem toPostfix_inside_iff (expr : CString) :
    (∃ r, toPostfix A [] expr = .ok r) ↔
      ((lex expr.bytes).map (Lexeme.share fun t => t.text.length+1)).sum+2*unclosed (lex expr.bytes) ≤
        expr.length+2 := by
  rw [← length_write_lex A,toPostfix_buffer,written]
  have hpad (text : Bytes) : (padded text).length ≤ expr.length+2 ↔ text.length ≤ expr.length+1 := by
    unfold padded
    split_ifs with h
    · simp [h]
    · rw [List.length_cons]
      omega
  rw [hpad]
  split_ifs with h
  · exact ⟨fun _ => h,fun _ => ⟨_,rfl⟩⟩
  · refine ⟨?_,fun h' => (h h').elim⟩
    rintro ⟨r,hr⟩
    cases hr

/-- No call on the empty stack stores a terminator: either a store is outside the buffer, or the buffer that is
returned does not hold a string. -/
theorem toPostfix_unterminated (expr : CString) :
    ¬ ∃ r s, toPostfix A [] expr = .ok r ∧ stringOf r.2 = .ok s := by
  rintro ⟨r,s,hr,hs⟩
  rw [toPostfix_buffer,written] at hr
  split_ifs at hr with h
  · obtain rfl := Except.ok.inj hr
    rcases List.mem_append.mp (nul_mem_of_stringOf hs) with h0 | h0
    · obtain ⟨b,hb,hb0⟩ := List.mem_map.mp h0
      obtain rfl : b = 0 := Option.some.inj hb0
      exact write_nul A expr.bytes hb
    · cases List.eq_of_mem_replicate h0
  · cases hr

theorem toPostfix_overrun :
    toPostfix CalculatorGrammar.integers [] (lit "1+1") = .error .outOfBounds ∧
      (do
        let r ← toPostfix CalculatorGrammar.integers [] (lit "1")
        stringOf r.2) = .error .uninitialised := by
  decide

end CalculatorBuffer
end CodingChallenges
