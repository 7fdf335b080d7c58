import CodingChallenges.CalculatorLoop

/-! Evaluations one after the other. They share the stack `top`, which the second pass empties
when it starts and not when it ends: the numbers that an evaluation leaves are on the stack
when the first pass of the next one starts. -/
namespace CodingChallenges
namespace CalculatorSession

open CText CMemory Calculator CalculatorLexemes CalculatorLoop

variable {α : Type} (A : Arithmetic α)

def session (fuel : ℕ) : List (Item α) → List CString → Except Fault (List (List (Item α) × α))
  | _, [] => .ok []
  | top, e :: es => do
    let r ← eval A fuel top e
    let rest ← session fuel r.2 es
    .ok ((top,r.1) :: rest)

/-- Every call found an empty stack and has the result it would have as the first. -/
def Separate (fuel : ℕ) (es : List CString) (trace : List (List (Item α) × α)) : Prop :=
  List.Forall₂ (fun e t => t.1 = [] ∧ ∃ top, eval A fuel [] e = .ok (t.2,top)) es trace

/-- The numbers are one more than the operators and two for each bracket left open take away. -/
def Balanced (e : CString) : Prop :=
  numbers (lex e.bytes) = operators (lex e.bytes)+2*unclosed (lex e.bytes)+1

def cost : Token → ℕ
  | .numeral _ => 0
  | .character c => if isOperator c then 1 else 2

def given : Token → ℕ
  | .numeral t => numbersIn t
  | .character _ => 0

theorem execute_count {t : Token} {m n : ℕ} (h : execute m t = some n) : n+cost t = m+given t := by
  cases t with
  | numeral t => exact (Option.some.inj h).symm
  | character c =>
    rw [execute] at h
    split_ifs at h with h2 hc
    · obtain rfl := Option.some.inj h
      simp only [cost,if_pos hc,given]
      omega
    · obtain rfl := Option.some.inj h
      simp only [cost,if_neg hc,given]
      omega

theorem foldlM_count {ts : List Token} {m n : ℕ} (h : ts.foldlM execute m = some n) :
    n+(ts.map cost).sum = m+(ts.map given).sum := by
  induction ts generalizing m with
  | nil => exact (Option.some.inj h).symm
  | cons t ts ih =>
    rw [List.foldlM_cons] at h
    obtain ⟨k,hk,h⟩ := Option.bind_eq_some_iff.mp h
    have hstep := execute_count hk
    have hrest := ih h
    simp only [List.map_cons,List.sum_cons]
    omega

theorem evalLoop_left {ts : List Token} (hv : ∀ t ∈ ts, t.Valid) {fuel : ℕ} {xs : List α} {v : α}
    {top : List (Item α)} (h : evalLoop A fuel (spaced ts) (xs.map .number) = .ok (v,top)) :
    ts.foldlM execute xs.length = some (top.length+1) := by
  induction ts generalizing fuel xs with
  | nil =>
    cases fuel with
    | zero => cases h
    | succ fuel =>
      cases xs with
      | nil => cases h
      | cons x xs =>
        have hr : (x,xs.map Item.number) = (v,top) := Except.ok.inj h
        rw [← (Prod.mk.inj hr).2,List.length_map]
        rfl
  | cons t ts ih =>
    have hne : evalLoop A fuel (spaced (t :: ts)) (xs.map .number) ≠ .error .endless := by
      rw [h]
      exact fun h => by cases h
    have hmore := evalLoop_mono A hne (rounds t)
    rw [h] at hmore
    by_cases hr : readableToken t = true
    · have htoken := evalLoop_token A (hv t (by simp)) hr ts xs
      rw [List.foldlM_cons]
      cases he : execute xs.length t with
      | none =>
        rw [he] at htoken
        cases hmore.symm.trans (htoken fuel)
      | some n =>
        rw [he] at htoken
        obtain ⟨ys,rfl,hy⟩ := htoken
        exact ih (fun t ht => hv t (by simp [ht])) ((hy fuel).symm.trans hmore)
    · cases t with
      | character c => exact (hr rfl).elim
      | numeral t =>
        have hun : readable t = false := by simpa [readableToken] using hr
        exact (hne (evalLoop_unreadable_token A (hv (.numeral t) (by simp)) hun ts fuel _)).elim

theorem sum_cost {ls : List Lexeme} (hls : ∀ l ∈ ls, l.Valid) :
    (ls.map (Lexeme.share cost)).sum = operators ls := by
  rw [operators]
  refine congrArg List.sum (List.map_congr_left fun l hl => ?_)
  have hvalid := hls l hl
  cases l with
  | operator c =>
    have hc : isOperator c = true := hvalid
    simp [Lexeme.share,cost,hc]
  | _ => rfl

/-- How many numbers a returning evaluation leaves. -/
theorem eval_left {fuel : ℕ} {e : CString} {v : α} {top : List (Item α)}
    (h : eval A fuel [] e = .ok (v,top)) :
    top.length+1+operators (lex e.bytes)+2*unclosed (lex e.bytes) = numbers (lex e.bytes) := by
  have hls : ∀ l ∈ lex e.bytes, l.Valid := fun l hl => valid_of_mem_lex hl
  cases fuel with
  | zero =>
    rw [eval,toPostfix_eq] at h
    cases h
  | succ fuel =>
    rw [eval_eq] at h
    have h0 : evalLoop A (fuel+2) (spaced (scan (lex e.bytes)).flush) (([] : List α).map .number) =
        .ok (v,top) := h
    have hx := foldlM_count (evalLoop_left A (fun t ht => valid_scan hls ht) h0)
    have hcost := total_scan hls (f:=cost) (k:=2) (by
      intro c hc
      have hno : ¬ isOperator c = true := fun ho => notOpening_of_isOperator ho hc
      simp [cost,hno])
    have hgiven := total_scan hls (f:=given) (k:=0) (fun _ _ => rfl)
    have hnum : ((lex e.bytes).map (Lexeme.share given)).sum = numbers (lex e.bytes) := rfl
    rw [sum_cost hls] at hcost
    rw [hnum] at hgiven
    simp only [Scan.total] at hcost hgiven
    rw [List.length_nil] at hx
    omega

theorem eval_left_nil_iff {fuel : ℕ} {e : CString} {v : α} {top : List (Item α)}
    (h : eval A fuel [] e = .ok (v,top)) : top = [] ↔ Balanced e := by
  have hl := eval_left A h
  rw [← List.length_eq_zero_iff,Balanced]
  omega

/-- Calls that all return are separate exactly when every string but the last is balanced. -/
theorem session_separate_iff {fuel : ℕ} {es : List CString} {trace : List (List (Item α) × α)}
    (h : session A fuel [] es = .ok trace) :
    Separate A fuel es trace ↔ ∀ e ∈ es.dropLast, Balanced e := by
  induction es generalizing trace with
  | nil =>
    obtain rfl := Except.ok.inj h
    simp [Separate]
  | cons e es ih =>
    rw [session] at h
    obtain ⟨⟨v,top⟩,hv,h⟩ := bind_eq_ok.mp h
    obtain ⟨rest,hrest,h⟩ := bind_eq_ok.mp h
    obtain rfl := Except.ok.inj h
    have hbal := eval_left_nil_iff A hv
    rw [Separate,List.forall₂_cons]
    cases es with
    | nil =>
      obtain rfl := Except.ok.inj hrest
      simp [hv]
    | cons e' es =>
      rw [List.dropLast_cons_of_ne_nil (by simp)]
      constructor
      · rintro ⟨_,hall⟩
        have htop : top = [] := by
          rw [session] at hrest
          obtain ⟨r,_,h⟩ := bind_eq_ok.mp hrest
          obtain ⟨rest',_,h⟩ := bind_eq_ok.mp h
          obtain rfl := Except.ok.inj h
          exact (List.forall₂_cons.mp hall).1.1
        subst htop
        intro x hx
        rcases List.mem_cons.mp hx with rfl | hx
        · exact hbal.mp rfl
        · exact (ih hrest).mp hall x hx
      · intro hall
        obtain rfl := hbal.mpr (hall e (by simp))
        exact ⟨⟨rfl,_,hv⟩,(ih hrest).mpr fun x hx => hall x (by simp [hx])⟩

theorem session_separate_two :
    session CalculatorGrammar.integers 9 [] [lit "1+1",lit "1 2"] = .ok [([],2),([],2)] ∧
      (Separate CalculatorGrammar.integers 9 [lit "1+1",lit "1 2"] [([],2),([],2)] ↔
        ∀ e ∈ [lit "1+1",lit "1 2"].dropLast, Balanced e) :=
  ⟨by decide,session_separate_iff CalculatorGrammar.integers (by decide)⟩

theorem session_leak :
    ∃ trace, session CalculatorGrammar.integers 9 [] [lit "1 2",lit "3"] = .ok trace ∧
      ¬ Separate CalculatorGrammar.integers 9 [lit "1 2",lit "3"] trace := by
  refine ⟨[([],2),([.number 1],3)],by decide,fun h => ?_⟩
  have h2 := (List.forall₂_cons.mp (List.forall₂_cons.mp h).2).1.1
  cases h2

end CalculatorSession
end CodingChallenges
