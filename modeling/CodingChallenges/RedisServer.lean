import CodingChallenges.RedisDb
import CodingChallenges.RedisResp

/-! The command dispatcher of the Redis clone (`server.c`): reply encoders, one
branch for each command, and `exec_command`. A call sees one reading of the clock,
since only the last one it makes can matter. Reply buffers are large enough for what
`snprintf` writes, so no reply is cut. -/
namespace CodingChallenges
namespace RedisServer

open CText CMemory RedisDb RedisResp

def nilBulk : CString := lit "$-1\r\n"

def respSimple (s : Option CString) : CString :=
  match s with
  | none => nilBulk
  | some s => lit "+" ++ s ++ lit "\r\n"

def respInteger (i_val : ℤ) : CString := lit ":" ++ intText i_val ++ lit "\r\n"

def respError (s : Option CString) : CString :=
  match s with
  | none => nilBulk
  | some s => lit "-" ++ s ++ lit "\r\n"

def respBulk (s : Option CString) : CString :=
  match s with
  | none => nilBulk
  | some s => lit "$" ++ natText s.length ++ lit "\r\n" ++ s ++ lit "\r\n"

def isEqualIgnoreCase (a b : CString) : Bool := eqIgnoreCase a b

inductive Command
  | PING | ECHO | SET | GET | EXISTS | DEL | INCR
  deriving DecidableEq

def Command.word : Command → CString
  | .PING => lit "PING"
  | .ECHO => lit "ECHO"
  | .SET => lit "SET"
  | .GET => lit "GET"
  | .EXISTS => lit "EXISTS"
  | .DEL => lit "DEL"
  | .INCR => lit "INCR"

/-- The comparisons in the order `exec_command` makes them. -/
def commandOf (cmd_name : CString) : Option Command :=
  [.PING,.ECHO,.SET,.GET,.EXISTS,.DEL,.INCR].find? fun c => isEqualIgnoreCase cmd_name c.word

def cmdName (cmd : RespValue) : Except Fault (Option CString) :=
  match cmd with
  | .arrays count _ =>
    if 0 < count then do
      let s ← cmd.item 0
      .ok (some s)
    else .ok none
  | .simpleString s => .ok (some s)
  | _ => .ok none

/-- `cmd->type != ARRAYS || cmd->data.array.count < n`. -/
def tooFew (cmd : RespValue) (n : ℤ) : Bool :=
  match cmd with
  | .arrays count _ => count < n
  | _ => true

def unknownCommand : CString := lit "ERR unknown command"
def syntaxError : CString := lit "ERR syntax error"
def notInRange : CString := lit "ERR value is not an integer or out of range"

def wrongNumber (name : CString) : CString :=
  lit "ERR wrong number of arguments for '" ++ name ++ lit "'"

def execEcho (db : HashTab) (cmd : RespValue) : Except Fault (HashTab × CString) :=
  if tooFew cmd 2 then .ok (db,respError (some (wrongNumber (lit "echo"))))
  else do
    .ok (db,respBulk (some (← cmd.item 1)))

def isExpiryFlag (opt : CString) : Bool :=
  eqIgnoreCase opt (lit "EX") || eqIgnoreCase opt (lit "PX") ||
    eqIgnoreCase opt (lit "EXAT") || eqIgnoreCase opt (lit "PXAT")

/-- Arithmetic of `uint64_t`. -/
def expiryOf (opt : CString) (now n : UInt64) : UInt64 :=
  if eqIgnoreCase opt (lit "EX") then now + n * 1000
  else if eqIgnoreCase opt (lit "PX") then now + n
  else if eqIgnoreCase opt (lit "EXAT") then n * 1000
  else n

/-- `*end == '\0'` and `n > 0`. -/
def acceptsNumber (s : CString) : Bool :=
  let c := strtoll s
  c.used == s.length && decide (0 < c.value)

/-- The option loop of SET from item `i` on, for at most the given number of rounds:
the error it stops with, or the expiry it ends with. -/
def setOptions (cmd : RespValue) (now : UInt64) :
    ℕ → ℕ → UInt64 → Except Fault (Except CString UInt64)
  | 0, _, _ => .error .endless
  | rounds+1, i, expires_at_ms => do
    let count ← cmd.count
    if ¬ (i : ℤ) < count then .ok (.ok expires_at_ms)
    else do
      let opt ← cmd.item i
      if ¬ isExpiryFlag opt then .ok (.error syntaxError)
      else if count ≤ (i : ℤ)+1 then .ok (.error syntaxError)
      else do
        let number ← cmd.item (i+1)
        if ¬ acceptsNumber number then .ok (.error notInRange)
        else setOptions cmd now rounds (i+2) (expiryOf opt now (strtoll number).value.toNat.toUInt64)

def execSet (db : HashTab) (now : UInt64) (cmd : RespValue) : Except Fault (HashTab × CString) :=
  if tooFew cmd 3 then .ok (db,respError (some (wrongNumber (lit "set"))))
  else do
    let key ← cmd.item 1
    let value ← cmd.item 2
    match ← setOptions cmd now (← cmd.count).toNat 3 0 with
    | .error err => .ok (db,respError (some err))
    | .ok expires_at_ms => .ok (dbSetEx db key value expires_at_ms,respSimple (some (lit "OK")))

def execGet (db : HashTab) (now : UInt64) (cmd : RespValue) : Except Fault (HashTab × CString) :=
  if tooFew cmd 2 then .ok (db,respError (some (wrongNumber (lit "get"))))
  else do
    let r := dbGet db (← cmd.item 1) now
    .ok (r.1,respBulk r.2)

/-- No check of type or count here. -/
def execExists (db : HashTab) (now : UInt64) (cmd : RespValue) : Except Fault (HashTab × CString) := do
  let r := dbGet db (← cmd.item 1) now
  .ok (r.1,respInteger (if r.2.isSome then 1 else 0))

/-- The loop of DEL over the items from `i` on. -/
def delKeys (cmd : RespValue) : ℕ → ℕ → HashTab → ℤ → Except Fault (HashTab × ℤ)
  | 0, _, db, del_success => .ok (db,del_success)
  | n+1, i, db, del_success => do
    let r := dbDel db (← cmd.item i)
    delKeys cmd n (i+1) r.1 (del_success + if r.2 then 1 else 0)

/-- No check of type or count here either. -/
def execDel (db : HashTab) (cmd : RespValue) : Except Fault (HashTab × CString) := do
  let to_del := (← cmd.count) - 1
  let r ← delKeys cmd to_del.toNat 1 db 0
  if to_del = 1 then .ok (r.1,if r.2 ≠ 0 then respSimple (some (lit "OK")) else respInteger 0)
  else .ok (r.1,respInteger r.2)

def execIncr (db : HashTab) (cmd : RespValue) : Except Fault (HashTab × CString) :=
  if tooFew cmd 2 then .ok (db,respError (some (wrongNumber (lit "incr"))))
  else do
    let r ← dbIncr db (← cmd.item 1)
    match r.2 with
    | .failed error => .ok (r.1,respError (some error))
    | .ok value => .ok (r.1,respInteger (atoi value))

def dispatch (db : HashTab) (now : UInt64) (cmd : RespValue) : Except Fault (HashTab × CString) := do
  match ← cmdName cmd with
  | none => .ok (db,respError (some unknownCommand))
  | some cmd_name =>
    match commandOf cmd_name with
    | some .PING => .ok (db,respSimple (some (lit "PONG")))
    | some .ECHO => execEcho db cmd
    | some .SET => execSet db now cmd
    | some .GET => execGet db now cmd
    | some .EXISTS => execExists db now cmd
    | some .DEL => execDel db cmd
    | some .INCR => execIncr db cmd
    | none => .ok (db,respError (some unknownCommand))

/-- What `exec_command` does with the parsed value, `free_resp` included. -/
def execValue (db : HashTab) (now : UInt64) (cmd : RespValue) : Except Fault (HashTab × CString) := do
  let r ← dispatch db now cmd
  freeResp (some cmd)
  .ok r

def execCommand (db : HashTab) (now : UInt64) (request : Bytes) : Except Fault (HashTab × CString) := do
  match ← parse request with
  | none => .error .nullPointer
  | some cmd => execValue db now cmd

theorem commandOf_eq_some {w : CString} {c : Command} :
    commandOf w = some c ↔ eqIgnoreCase w c.word = true := by
  constructor
  · intro h
    exact List.find?_some (p:=fun c : Command => isEqualIgnoreCase w c.word) h
  · intro h
    have hne : ∀ c' : Command, c' ≠ c → eqIgnoreCase w c'.word = false := by
      intro c' hc
      by_contra hw
      have hu := eqIgnoreCase_unique (by simpa using hw) h
      revert hc hu
      cases c' <;> cases c <;> decide
    cases c <;> simp [commandOf,isEqualIgnoreCase,h,hne]

theorem execValue_initialised {cmd : RespValue} (h : Initialised cmd) (db : HashTab) (now : UInt64) :
    execValue db now cmd = dispatch db now cmd := by
  rw [execValue,freeResp_initialised h]
  cases dispatch db now cmd <;> rfl

end RedisServer
end CodingChallenges
