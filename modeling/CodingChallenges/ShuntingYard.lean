import Mathlib.Data.List.Basic
import Mathlib.Tactic

/-! Operator precedence translation for any operators, operands and kinds of brackets.
Operands go straight to the output; operators wait on a stack until one that binds no
tighter, or a closing bracket, arrives. The output is the code of the expression in
which operators of equal precedence associate to the left, and a stack machine that
runs the code leaves the value of the expression on top of what it started with. -/
namespace CodingChallenges
namespace ShuntingYard

inductive Token (ν ω κ : Type)
  | operand (v : ν)
  | operator (o : ω)
  | opening (k : κ)
  | closing (k : κ)
  deriving DecidableEq

inductive Expr (ν ω : Type)
  | operand (v : ν)
  | binary (o : ω) (a b : Expr ν ω)

inductive Instr (ν ω : Type)
  | operand (v : ν)
  | operator (o : ω)
  deriving DecidableEq

variable {ν ω κ α : Type}

namespace Expr

/-- Operands first, then the operator between them. -/
def code : Expr ν ω → List (Instr ν ω)
  | operand v => [.operand v]
  | binary o a b => a.code ++ b.code ++ [.operator o]

def value (number : ν → α) (apply : ω → α → α → α) : Expr ν ω → α
  | operand v => number v
  | binary o a b => apply o (a.value number apply) (b.value number apply)

theorem code_ne_nil (e : Expr ν ω) : e.code ≠ [] := by
  cases e <;> simp [code]

end Expr

def execInstr (number : ν → α) (apply : ω → α → α → α) : Instr ν ω → List α → Option (List α)
  | .operand v, s => some (number v :: s)
  | .operator o, y :: x :: s => some (apply o x y :: s)
  | .operator _, _ => none

def exec (number : ν → α) (apply : ω → α → α → α) : List (Instr ν ω) → List α → Option (List α)
  | [], s => some s
  | i :: is, s => (execInstr number apply i s).bind (exec number apply is)

theorem exec_code (number : ν → α) (apply : ω → α → α → α) (e : Expr ν ω)
    (rest : List (Instr ν ω)) (s : List α) :
    exec number apply (e.code ++ rest) s = exec number apply rest (e.value number apply :: s) := by
  induction e generalizing rest s with
  | operand v => simp [Expr.code,Expr.value,exec,execInstr]
  | binary o a b iha ihb =>
    simp only [Expr.code,Expr.value,List.append_assoc]
    rw [iha,ihb]
    simp [exec,execInstr]

/-- The tokens of an expression whose operators outside brackets have precedence `n` at
least. The left operand may use operators of the same precedence, the right one only
tighter ones; brackets hold any expression and may be redundant. -/
inductive Parses (prec : ω → ℕ) : ℕ → List (Token ν ω κ) → Expr ν ω → Prop
  | operand (n : ℕ) (v : ν) : Parses prec n [.operand v] (.operand v)
  | bracket (n : ℕ) (k : κ) {ts : List (Token ν ω κ)} {e : Expr ν ω} (h : Parses prec 0 ts e) :
      Parses prec n (.opening k :: ts ++ [.closing k]) e
  | binary {n : ℕ} (o : ω) {ts us : List (Token ν ω κ)} {a b : Expr ν ω} (hn : n ≤ prec o)
      (ha : Parses prec (prec o) ts a) (hb : Parses prec (prec o+1) us b) :
      Parses prec n (ts ++ .operator o :: us) (.binary o a b)

def Token.IsOperand : Token ν ω κ → Prop
  | .operand _ => True
  | _ => False

@[simp] theorem isOperand_operand (v : ν) : (.operand v : Token ν ω κ).IsOperand := trivial
@[simp] theorem not_isOperand_operator (o : ω) : ¬ (.operator o : Token ν ω κ).IsOperand := id
@[simp] theorem not_isOperand_opening (k : κ) : ¬ (.opening k : Token ν ω κ).IsOperand := id
@[simp] theorem not_isOperand_closing (k : κ) : ¬ (.closing k : Token ν ω κ).IsOperand := id

/-- Between two operands of an expression there is always another token. -/
theorem Parses.separated {prec : ω → ℕ} {n : ℕ} {ts : List (Token ν ω κ)} {e : Expr ν ω}
    (h : Parses prec n ts e) : ts.IsChain fun t u => t.IsOperand → ¬ u.IsOperand := by
  induction h with
  | operand n v => simp
  | bracket n k _ ih =>
    rw [List.cons_append,List.isChain_cons,List.isChain_append]
    exact ⟨by simp,ih,by simp,by simp⟩
  | binary o _ _ _ iha ihb =>
    rw [List.isChain_append,List.isChain_cons]
    exact ⟨iha,⟨by simp,ihb⟩,by simp⟩

/-- What waits on the stack and the code written so far. -/
structure State (ν ω κ : Type) where
  stack : List (ω ⊕ κ)
  out : List (Instr ν ω)

/-- Move operators to the output while they bind as tightly as `p`. -/
def popOperators (prec : ω → ℕ) (p : ℕ) : List (ω ⊕ κ) → List (Instr ν ω) → State ν ω κ
  | .inl o :: s, out =>
    if p ≤ prec o then popOperators prec p s (out ++ [.operator o]) else ⟨.inl o :: s,out⟩
  | s, out => ⟨s,out⟩

def popBracket : List (ω ⊕ κ) → List (Instr ν ω) → State ν ω κ
  | .inl o :: s, out => popBracket s (out ++ [.operator o])
  | .inr _ :: s, out => ⟨s,out⟩
  | [], out => ⟨[],out⟩

def step (prec : ω → ℕ) (q : State ν ω κ) : Token ν ω κ → State ν ω κ
  | .operand v => ⟨q.stack,q.out ++ [.operand v]⟩
  | .opening k => ⟨.inr k :: q.stack,q.out⟩
  | .closing _ => popBracket q.stack q.out
  | .operator o =>
    let r := popOperators prec (prec o) q.stack q.out
    ⟨.inl o :: r.stack,r.out⟩

/-- The operators that lie above the first bracket bind less tightly than `n`. -/
def Opens (prec : ω → ℕ) (n : ℕ) : List (ω ⊕ κ) → Prop
  | .inl o :: s => prec o < n ∧ Opens prec n s
  | _ => True

theorem Opens.mono {prec : ω → ℕ} {m n : ℕ} (h : m ≤ n) {s : List (ω ⊕ κ)} (hs : Opens prec m s) :
    Opens prec n s := by
  induction s with
  | nil => trivial
  | cons x s ih =>
    cases x with
    | inl o => exact ⟨lt_of_lt_of_le hs.1 h,ih hs.2⟩
    | inr k => trivial

theorem popOperators_of_opens {prec : ω → ℕ} {p : ℕ} {s : List (ω ⊕ κ)} (hs : Opens prec p s)
    (out : List (Instr ν ω)) : popOperators prec p s out = ⟨s,out⟩ := by
  cases s with
  | nil => rfl
  | cons x s =>
    cases x with
    | inl o =>
      have ho : prec o < p := hs.1
      rw [popOperators,if_neg (by omega)]
    | inr k => rfl

theorem popOperators_append {prec : ω → ℕ} {p : ℕ} (os : List ω) (ho : ∀ o ∈ os, p ≤ prec o)
    {s : List (ω ⊕ κ)} (hs : Opens prec p s) (out : List (Instr ν ω)) :
    popOperators prec p (os.map .inl ++ s) out = ⟨s,out ++ os.map .operator⟩ := by
  induction os generalizing out with
  | nil => simpa using popOperators_of_opens hs out
  | cons o os ih =>
    have hp : p ≤ prec o := ho o (by simp)
    have ht := ih (fun o h => ho o (by simp [h])) (out ++ [.operator o])
    simp only [List.map_cons,List.cons_append,popOperators,if_pos hp,ht]
    simp

theorem popBracket_append (os : List ω) (k : κ) (s : List (ω ⊕ κ)) (out : List (Instr ν ω)) :
    popBracket (os.map .inl ++ .inr k :: s) out = ⟨s,out ++ os.map .operator⟩ := by
  induction os generalizing out with
  | nil => simp [popBracket]
  | cons o os ih =>
    have ht := ih (out ++ [.operator o])
    rw [List.append_assoc] at ht
    simpa [popBracket] using ht

/-- Reading an expression writes its code up to the operators it leaves on the stack,
which are the last ones of the code and bind as tightly as the expression does. -/
theorem translate {prec : ω → ℕ} {n : ℕ} {ts : List (Token ν ω κ)} {e : Expr ν ω}
    (h : Parses prec n ts e) (s : List (ω ⊕ κ)) (hs : Opens prec n s) (out : List (Instr ν ω)) :
    ∃ (os : List ω) (c : List (Instr ν ω)),
      ts.foldl (step prec) ⟨s,out⟩ = ⟨os.map .inl ++ s,out ++ c⟩ ∧
      c ++ os.map .operator = e.code ∧ ∀ o ∈ os, n ≤ prec o := by
  induction h generalizing s out with
  | operand n v => exact ⟨[],[.operand v],rfl,rfl,by simp⟩
  | bracket n k _ ih =>
    obtain ⟨os,c,hf,hc,_⟩ := ih (.inr k :: s) trivial out
    have hp := popBracket_append os k s (out ++ c)
    rw [List.append_assoc,hc] at hp
    refine ⟨[],_,?_,List.append_nil _,by simp⟩
    rw [List.cons_append,List.foldl_cons,List.foldl_append]
    simpa [step,hf] using hp
  | @binary n o ts us a b hn _ _ iha ihb =>
    obtain ⟨os,c,hf,hc,ho⟩ := iha s (hs.mono hn) out
    -- the operator finds only those of the left operand that bind as tightly
    have hp := popOperators_append os ho (hs.mono hn) (out ++ c)
    rw [List.append_assoc,hc] at hp
    have ho' : Opens prec (prec o+1) (.inl o :: s) := ⟨Nat.lt_succ_self _,hs.mono (by omega)⟩
    obtain ⟨os',c',hf',hc',hb⟩ := ihb (.inl o :: s) ho' (out ++ a.code)
    refine ⟨os' ++ [o],a.code ++ c',?_,?_,?_⟩
    · rw [List.foldl_append,hf,List.foldl_cons]
      simpa [step,hp] using hf'
    · simp [Expr.code,← hc']
    · intro q hq
      rcases List.mem_append.mp hq with hq | hq
      · have hq' := hb q hq
        omega
      · rw [List.mem_singleton.mp hq]
        exact hn

/-- After the last token the waiting operators complete the code. -/
theorem translate_flush {prec : ω → ℕ} {n : ℕ} {ts : List (Token ν ω κ)} {e : Expr ν ω}
    (h : Parses prec n ts e) :
    ∃ (os : List ω) (c : List (Instr ν ω)),
      ts.foldl (step prec) ⟨[],[]⟩ = ⟨os.map .inl,c⟩ ∧ c ++ os.map .operator = e.code := by
  obtain ⟨os,c,hf,hc,_⟩ := translate h [] trivial []
  exact ⟨os,c,by simpa using hf,hc⟩

end ShuntingYard
end CodingChallenges
