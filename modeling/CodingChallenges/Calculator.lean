import CodingChallenges.CMemory
import CodingChallenges.ShuntingYard

/-! The calculator: `to_postfix`, `eval_postfix` and `eval`.
Both passes work on the one global stack `top` of untyped pointers, so an item is a
pointer into the expression or to a number. Read as a character, a number is its first
byte in memory; reading a character as a number is a fault. The postfix buffer is the
text written so far and `idx` is its length. The arithmetic of `double` and the number
a text denotes are parameters. -/
namespace CodingChallenges
namespace Calculator

open CText CMemory ShuntingYard

/-- What a `void *` on the stack points to. -/
inductive Item (α : Type)
  | character (c : UInt8)
  | number (x : α)
  deriving DecidableEq

/-- The operations on `double`, the number `strtod` makes of the text it reads, and the first
byte of a number in memory. -/
structure Arithmetic (α : Type) where
  add : α → α → α
  sub : α → α → α
  mul : α → α → α
  div : α → α → α
  number : Bytes → α
  firstByte : α → UInt8

variable {α : Type}

def brackets : Bytes := ascii "()\x7b\x7d[]"
def openingBrackets : Bytes := ascii "(\x7b["
def closingBrackets : Bytes := ascii ")\x7d]"

/-- `strchr(set, c) != NULL`; the terminator is found too. -/
def strchr (set : Bytes) (c : UInt8) : Bool := c = 0 || c ∈ set

/-- `pop()`: an empty stack ends the program. -/
def pop : List (Item α) → Except Fault (Item α × List (Item α))
  | [] => .error (.exit 1)
  | x :: s => .ok (x,s)

/-- `*(char *) item`. -/
def Arithmetic.readChar (A : Arithmetic α) : Item α → UInt8
  | .character c => c
  | .number x => A.firstByte x

def readDouble : Item α → Except Fault α
  | .number x => .ok x
  | .character _ => .error .wrongMember

def prec (op : UInt8) : ℕ :=
  if op = 43 ∨ op = 45 then 1
  else if op = 42 ∨ op = 47 then 2
  else 0

def isRightAssociative (incoming : UInt8) : Bool := incoming = 94

def shouldPop (stackOp incoming : UInt8) : Bool :=
  if prec incoming < prec stackOp then true
  else if prec stackOp = prec incoming ∧ isRightAssociative incoming = false then true
  else false

def appendSeparator (pstfix : Bytes) : Bytes :=
  if pstfix = [] then [] else pstfix ++ [32]

def emit (pstfix token : Bytes) : Bytes := appendSeparator pstfix ++ token

variable (A : Arithmetic α)

/-- The loop behind a closing bracket: any opening bracket ends it. -/
def popToBracket : List (Item α) → Bytes → List (Item α) × Bytes
  | [], pstfix => ([],pstfix)
  | x :: s, pstfix =>
    let c := A.readChar x
    if strchr openingBrackets c then (s,pstfix) else popToBracket s (emit pstfix [c])

def popTighter (incoming : UInt8) : List (Item α) → Bytes → List (Item α) × Bytes
  | [], pstfix => ([],pstfix)
  | x :: s, pstfix =>
    let c := A.readChar x
    if ¬ strchr brackets c ∧ shouldPop c incoming then popTighter incoming s (emit pstfix [c])
    else (x :: s,pstfix)

def popRest : List (Item α) → Bytes → List (Item α) × Bytes
  | [], pstfix => ([],pstfix)
  | x :: s, pstfix => popRest s (emit pstfix [A.readChar x])

def isNumeral (c : UInt8) : Bool := isDigit c || c = 46

def isOperator (c : UInt8) : Bool := c = 43 || c = 45 || c = 42 || c = 47

/-- The loop over the expression; `fuel` bounds its rounds. -/
def convert : ℕ → Bytes → List (Item α) → Bytes → Except Fault (List (Item α) × Bytes)
  | _, [], top, pstfix => .ok (popRest A top pstfix)
  | 0, _ :: _, _, _ => .error .endless
  | fuel+1, c :: p, top, pstfix =>
    if c = 32 then convert fuel p top pstfix
    else if isNumeral c then
      let digits := (c :: p).takeWhile isNumeral
      convert fuel ((c :: p).drop digits.length) top (emit pstfix digits)
    else if strchr brackets c then
      if strchr openingBrackets c then convert fuel p (.character c :: top) pstfix
      else if strchr closingBrackets c then
        let r := popToBracket A top pstfix
        convert fuel p r.1 r.2
      else convert fuel p top pstfix
    else if isOperator c then
      let r := popTighter A c top pstfix
      convert fuel p (.character c :: r.1) r.2
    else convert fuel p top pstfix

/-- Each round takes a byte of the expression at least. -/
def toPostfix (top : List (Item α)) (expr : CString) : Except Fault (List (Item α) × Bytes) :=
  convert A expr.length expr.bytes top []

def mantissa (digit : UInt8 → Bool) (p : Bytes) : ℕ :=
  let whole := (p.takeWhile digit).length
  match p.drop whole with
  | 46 :: q =>
    let fraction := (q.takeWhile digit).length
    if whole+fraction = 0 then 0 else whole+1+fraction
  | _ => whole

def exponent (mark : UInt8 → Bool) : Bytes → ℕ
  | c :: p =>
    let sign := match p with
      | 43 :: _ => 1
      | 45 :: _ => 1
      | _ => 0
    let digits := ((p.drop sign).takeWhile isDigit).length
    if mark c ∧ digits ≠ 0 then 1+sign+digits else 0
  | [] => 0

def isHexDigit (c : UInt8) : Bool := isDigit c || (97 ≤ toLower c && toLower c ≤ 102)

def hexadecimal : Bytes → ℕ
  | 48 :: x :: p =>
    let n := mantissa isHexDigit p
    if toLower x = 120 ∧ n ≠ 0 then 2+n+exponent (fun c => toLower c = 112) (p.drop n) else 0
  | _ => 0

/-- `end - p` after `strtod(p, &end)`, where `p` starts with a digit or a point. -/
def strtodLength (p : Bytes) : ℕ :=
  if hexadecimal p ≠ 0 then hexadecimal p
  else
    let n := mantissa isDigit p
    if n = 0 then 0 else n+exponent (fun c => toLower c = 101) (p.drop n)

def Arithmetic.apply (c : UInt8) (op1 op2 : α) : Option α :=
  if c = 43 then some (A.add op1 op2)
  else if c = 42 then some (A.mul op1 op2)
  else if c = 45 then some (A.sub op1 op2)
  else if c = 47 then some (A.div op1 op2)
  else none

/-- The loop of `eval_postfix` and the last `pop`; a text `strtod` cannot read is not
passed, so `fuel` bounds the rounds. -/
def evalLoop : ℕ → Bytes → List (Item α) → Except Fault (α × List (Item α))
  | 0, _, _ => .error .endless
  | _+1, [], top => do
    let r ← pop top
    let v ← readDouble r.1
    .ok (v,r.2)
  | fuel+1, c :: p, top =>
    if isSpace c then evalLoop fuel p top
    else if isNumeral c then
      let used := strtodLength (c :: p)
      evalLoop fuel ((c :: p).drop used) (.number (A.number ((c :: p).take used)) :: top)
    else do
      let r ← pop top
      let op2 ← readDouble r.1
      let r ← pop r.2
      let op1 ← readDouble r.1
      match A.apply c op1 op2 with
      | some res => evalLoop fuel p (.number res :: r.2)
      | none => evalLoop fuel p r.2

/-- The stack is reset first, whatever it held; the text ends at its first NUL. -/
def evalPostfix (fuel : ℕ) (expr : Bytes) : Except Fault (α × List (Item α)) :=
  evalLoop A fuel (expr.takeWhile (· ≠ 0)) []

def eval (fuel : ℕ) (top : List (Item α)) (expr : CString) :
    Except Fault (α × List (Item α)) := do
  let r ← toPostfix A top expr
  evalPostfix A fuel r.2

end Calculator
end CodingChallenges
