import CodingChallenges.RedisServer

/-! The dispatcher as a function of argument lists.
`perform` says what each command does with its arguments; the indexing code of
`exec_command` computes it on every array whose slots are assigned. What the code
does with the other values follows. -/
namespace CodingChallenges
namespace RedisCommands

open CText CMemory RedisDb RedisResp RedisServer

def options (now : UInt64) : List CString → UInt64 → Except CString UInt64
  | [], expires_at_ms => .ok expires_at_ms
  | [_], _ => .error syntaxError
  | opt :: number :: rest, _ =>
    if ¬ isExpiryFlag opt then .error syntaxError
    else if ¬ acceptsNumber number then .error notInRange
    else options now rest (expiryOf opt now (strtoll number).value.toNat.toUInt64)

def delOne (r : HashTab × ℤ) (key : CString) : HashTab × ℤ :=
  ((dbDel r.1 key).1,r.2 + if (dbDel r.1 key).2 then 1 else 0)

def delReply (keys : List CString) (n : ℤ) : CString :=
  if keys.length = 1 then if n ≠ 0 then respSimple (some (lit "OK")) else respInteger 0
  else respInteger n

/-- A command word and its arguments. EXISTS without one has no result. -/
def perform (db : HashTab) (now : UInt64) : List CString → Except Fault (HashTab × CString)
  | [] => .ok (db,respError (some unknownCommand))
  | w :: args =>
    match commandOf w, args with
    | some .PING, _ => .ok (db,respSimple (some (lit "PONG")))
    | some .ECHO, text :: _ => .ok (db,respBulk (some text))
    | some .ECHO, [] => .ok (db,respError (some (wrongNumber (lit "echo"))))
    | some .SET, key :: value :: opts =>
      match options now opts 0 with
      | .error err => .ok (db,respError (some err))
      | .ok expires_at_ms => .ok (dbSetEx db key value expires_at_ms,respSimple (some (lit "OK")))
    | some .SET, _ => .ok (db,respError (some (wrongNumber (lit "set"))))
    | some .GET, key :: _ => .ok ((dbGet db key now).1,respBulk (dbGet db key now).2)
    | some .GET, [] => .ok (db,respError (some (wrongNumber (lit "get"))))
    | some .EXISTS, key :: _ =>
      .ok ((dbGet db key now).1,respInteger (if (dbGet db key now).2.isSome then 1 else 0))
    | some .EXISTS, [] => .error .badIndex
    | some .DEL, keys =>
      .ok ((keys.foldl delOne (db,0)).1,delReply keys (keys.foldl delOne (db,0)).2)
    | some .INCR, key :: _ =>
      match dbIncr db key with
      | .error fault => .error fault
      | .ok (db,.failed error) => .ok (db,respError (some error))
      | .ok (db,.ok value) => .ok (db,respInteger (atoi value))
    | some .INCR, [] => .ok (db,respError (some (wrongNumber (lit "incr"))))
    | none, _ => .ok (db,respError (some unknownCommand))

theorem options_of_notFlag {opt : CString} (h : ¬ isExpiryFlag opt) (now : UInt64)
    (rest : List CString) (exp : UInt64) : options now (opt :: rest) exp = .error syntaxError := by
  cases rest with
  | nil => rfl
  | cons number rest => simp [options,h]

theorem setOptions_args {count : ℤ} {args : List CString} (hc : args.length = count.toNat)
    (now : UInt64) {rounds i : ℕ} (hi : i ≤ args.length) (hr : args.length < i+rounds) (exp : UInt64) :
    setOptions (.arrays count (args.map some)) now rounds i exp = .ok (options now (args.drop i) exp) := by
  induction rounds generalizing i exp with
  | zero => omega
  | succ rounds ih =>
    by_cases hlt : i < args.length
    · have hlt' : (i : ℤ) < count := by omega
      have hd : args.drop i = args[i] :: args.drop (i+1) := List.drop_eq_getElem_cons hlt
      by_cases hf : isExpiryFlag args[i] = true
      · by_cases hnext : i+1 < args.length
        · have hnext' : ¬ count ≤ (i : ℤ)+1 := by omega
          have hd' : args.drop (i+1) = args[i+1] :: args.drop (i+2) := List.drop_eq_getElem_cons hnext
          have ht := ih (i:=i+2) (by omega) (by omega)
          rw [hd,hd']
          by_cases hn : acceptsNumber args[i+1] = true
          · simp [setOptions,RespValue.count,item_map_some hc,options,hlt,hlt',hf,hnext,hnext',hn,
              ht,bind,Except.bind]
          · simp [setOptions,RespValue.count,item_map_some hc,options,hlt,hlt',hf,hnext,hnext',hn,
              bind,Except.bind]
        · have hnext' : count ≤ (i : ℤ)+1 := by omega
          have hd' : args.drop (i+1) = [] := List.drop_eq_nil_of_le (by omega)
          rw [hd,hd']
          simp [setOptions,RespValue.count,item_map_some hc,options,hlt,hlt',hf,hnext',bind,Except.bind]
      · rw [hd,options_of_notFlag hf]
        simp [setOptions,RespValue.count,item_map_some hc,hlt,hlt',hf,bind,Except.bind]
    · have hlt' : ¬ (i : ℤ) < count := by omega
      have hd : args.drop i = [] := List.drop_eq_nil_of_le (by omega)
      rw [hd]
      simp [setOptions,RespValue.count,options,hlt',bind,Except.bind]

theorem delKeys_args {count : ℤ} {args : List CString} (hc : args.length = count.toNat) {n i : ℕ}
    (hn : i+n = args.length) (db : HashTab) (d : ℤ) :
    delKeys (.arrays count (args.map some)) n i db d = .ok ((args.drop i).foldl delOne (db,d)) := by
  induction n generalizing i db d with
  | zero => simp [delKeys,List.drop_eq_nil_of_le (by omega : args.length ≤ i)]
  | succ n ih =>
    have hlt : i < args.length := by omega
    have hd : args.drop i = args[i] :: args.drop (i+1) := List.drop_eq_getElem_cons hlt
    have ht := ih (i:=i+1) (by omega)
    rw [hd,List.foldl_cons]
    simp [delKeys,item_map_some hc,hlt,ht,delOne,bind,Except.bind]

section Branches

variable {count : ℤ} {w : CString} {args : List CString}

theorem tooFew_args (hc : (w :: args).length = count.toNat) (n : ℤ) :
    tooFew (.arrays count ((w :: args).map some)) n = decide ((args.length : ℤ)+1 < n) := by
  have h : count = (args.length : ℤ)+1 := by
    simp only [List.length_cons] at hc
    omega
  simp [tooFew,h]

theorem execEcho_args (hc : (w :: args).length = count.toNat) (db : HashTab) (now : UInt64)
    (hw : commandOf w = some .ECHO) :
    execEcho db (.arrays count ((w :: args).map some)) = perform db now (w :: args) := by
  have h2 := tooFew_args hc 2
  cases args with
  | nil =>
    rw [decide_eq_true (by simp)] at h2
    simp only [execEcho,h2,perform,hw,if_true]
  | cons text rest =>
    rw [decide_eq_false (by simp only [List.length_cons]; omega)] at h2
    simp [execEcho,h2,item_map_some hc,perform,hw,bind,Except.bind,-List.map_cons]

theorem execSet_args (hc : (w :: args).length = count.toNat) (db : HashTab) (now : UInt64)
    (hw : commandOf w = some .SET) :
    execSet db now (.arrays count ((w :: args).map some)) = perform db now (w :: args) := by
  have h3 := tooFew_args hc 3
  cases args with
  | nil =>
    rw [decide_eq_true (by simp)] at h3
    simp only [execSet,h3,perform,hw,if_true]
  | cons key rest =>
    cases rest with
    | nil =>
      rw [decide_eq_true (by simp)] at h3
      simp only [execSet,h3,perform,hw,if_true]
    | cons value opts =>
      rw [decide_eq_false (by simp only [List.length_cons]; omega)] at h3
      have hrounds : (w :: key :: value :: opts).length < 3+count.toNat := by omega
      have ho := setOptions_args hc now (by simp) hrounds 0
      simp only [execSet,h3,item_map_some hc,ho,RespValue.count,bind,Except.bind,perform,hw]
      simp only [List.drop_succ_cons,List.drop_zero]
      cases options now opts 0 <;> simp

theorem execGet_args (hc : (w :: args).length = count.toNat) (db : HashTab) (now : UInt64)
    (hw : commandOf w = some .GET) :
    execGet db now (.arrays count ((w :: args).map some)) = perform db now (w :: args) := by
  have h2 := tooFew_args hc 2
  cases args with
  | nil =>
    rw [decide_eq_true (by simp)] at h2
    simp only [execGet,h2,perform,hw,if_true]
  | cons key rest =>
    rw [decide_eq_false (by simp only [List.length_cons]; omega)] at h2
    simp [execGet,h2,item_map_some hc,perform,hw,bind,Except.bind,-List.map_cons]

theorem execExists_args (hc : (w :: args).length = count.toNat) (db : HashTab) (now : UInt64)
    (hw : commandOf w = some .EXISTS) :
    execExists db now (.arrays count ((w :: args).map some)) = perform db now (w :: args) := by
  cases args with
  | nil => simp [execExists,item_map_some hc,perform,hw,bind,Except.bind,-List.map_cons]
  | cons key rest => simp [execExists,item_map_some hc,perform,hw,bind,Except.bind,-List.map_cons]

theorem execDel_args (hc : (w :: args).length = count.toNat) (db : HashTab) (now : UInt64)
    (hw : commandOf w = some .DEL) :
    execDel db (.arrays count ((w :: args).map some)) = perform db now (w :: args) := by
  have hcount : count-1 = args.length := by
    simp only [List.length_cons] at hc
    omega
  have hd := delKeys_args hc (n:=args.length) (i:=1) (by simp [Nat.add_comm]) db 0
  simp only [List.drop_succ_cons,List.drop_zero] at hd
  simp only [execDel,RespValue.count,hcount,Int.toNat_natCast,hd,bind,Except.bind,perform,hw,delReply,
    Nat.cast_eq_one]
  by_cases h1 : args.length = 1
  · simp only [if_pos h1]
  · simp only [if_neg h1]

theorem execIncr_args (hc : (w :: args).length = count.toNat) (db : HashTab) (now : UInt64)
    (hw : commandOf w = some .INCR) :
    execIncr db (.arrays count ((w :: args).map some)) = perform db now (w :: args) := by
  have h2 := tooFew_args hc 2
  cases args with
  | nil =>
    rw [decide_eq_true (by simp)] at h2
    simp only [execIncr,h2,perform,hw,if_true]
  | cons key rest =>
    rw [decide_eq_false (by simp only [List.length_cons]; omega)] at h2
    have hi : RespValue.item (.arrays count ((w :: key :: rest).map some)) 1 = .ok key :=
      item_map_some hc 1
    simp only [execIncr,h2,hi,perform,hw,bind,Except.bind]
    rcases dbIncr db key with fault | ⟨db',value | error⟩ <;> rfl

end Branches

theorem dispatch_args {count : ℤ} {args : List CString} (hc : args.length = count.toNat)
    (db : HashTab) (now : UInt64) :
    dispatch db now (.arrays count (args.map some)) = perform db now args := by
  cases args with
  | nil =>
    have h0 : ¬ 0 < count := by
      simp only [List.length_nil] at hc
      omega
    simp [dispatch,cmdName,perform,h0,bind,Except.bind]
  | cons w args =>
    have hname : cmdName (.arrays count ((w :: args).map some)) = .ok (some w) := by
      have hcount : 0 < count := by
        simp only [List.length_cons] at hc
        omega
      rw [cmdName,if_pos hcount,item_map_some hc]
      rfl
    simp only [dispatch,hname,bind,Except.bind]
    cases hw : commandOf w with
    | none => simp only [perform,hw]
    | some c =>
      cases c with
      | PING => simp only [perform,hw]
      | ECHO => exact execEcho_args hc db now hw
      | SET => exact execSet_args hc db now hw
      | GET => exact execGet_args hc db now hw
      | EXISTS => exact execExists_args hc db now hw
      | DEL => exact execDel_args hc db now hw
      | INCR => exact execIncr_args hc db now hw

theorem options_error {now exp : UInt64} {opts : List CString} {err : CString}
    (h : options now opts exp = .error err) : err = syntaxError ∨ err = notInRange := by
  induction opts, exp using options.induct now with
  | case1 exp => cases h
  | case2 opt exp => exact Or.inl (Except.error.inj h).symm
  | case3 opt number rest exp hf =>
    simp only [options,if_pos hf,Except.error.injEq] at h
    exact Or.inl h.symm
  | case4 opt number rest exp hf hn =>
    simp only [options,if_neg hf,if_pos hn,Except.error.injEq] at h
    exact Or.inr h.symm
  | case5 opt number rest exp hf hn ih =>
    simp only [options,if_neg hf,if_neg hn] at h
    exact ih h

def errorTexts : List CString :=
  [unknownCommand,syntaxError,notInRange,notAnInteger,wrongNumber (lit "echo"),wrongNumber (lit "set"),
    wrongNumber (lit "get"),wrongNumber (lit "incr")]

inductive Performed (db : HashTab) (now : UInt64) : List CString → HashTab → CString → Prop
  | refused {args : List CString} {msg : CString} (text : msg ∈ errorTexts) :
      Performed db now args db (respError (some msg))
  | ping {w : CString} {rest : List CString} (cmd : commandOf w = some .PING) :
      Performed db now (w :: rest) db (respSimple (some (lit "PONG")))
  | echo {w text : CString} {rest : List CString} (cmd : commandOf w = some .ECHO) :
      Performed db now (w :: text :: rest) db (respBulk (some text))
  | set {w key value : CString} {opts : List CString} {expires_at_ms : UInt64}
      (cmd : commandOf w = some .SET) (accepted : options now opts 0 = .ok expires_at_ms) :
      Performed db now (w :: key :: value :: opts) (dbSetEx db key value expires_at_ms)
        (respSimple (some (lit "OK")))
  | get {w key : CString} {rest : List CString} (cmd : commandOf w = some .GET) :
      Performed db now (w :: key :: rest) (dbGet db key now).1 (respBulk (dbGet db key now).2)
  | exist {w key : CString} {rest : List CString} (cmd : commandOf w = some .EXISTS) :
      Performed db now (w :: key :: rest) (dbGet db key now).1
        (respInteger (if (dbGet db key now).2.isSome then 1 else 0))
  | del {w : CString} {keys : List CString} (cmd : commandOf w = some .DEL) :
      Performed db now (w :: keys) (keys.foldl delOne (db,0)).1
        (delReply keys (keys.foldl delOne (db,0)).2)
  | incr {w key value : CString} {rest : List CString} {db' : HashTab} (cmd : commandOf w = some .INCR)
      (counted : dbIncr db key = .ok (db',.ok value)) :
      Performed db now (w :: key :: rest) db' (respInteger (atoi value))

theorem performed_set {db db' : HashTab} {now : UInt64} {w : CString} {args : List CString}
    {reply : CString} (hw : commandOf w = some .SET)
    (h : perform db now (w :: args) = .ok (db',reply)) : Performed db now (w :: args) db' reply := by
  rcases args with _ | ⟨key,_ | ⟨value,opts⟩⟩ <;> simp only [perform,hw] at h
  · cases h
    exact .refused (by simp [errorTexts])
  · cases h
    exact .refused (by simp [errorTexts])
  · cases ho : options now opts 0 with
    | error err =>
      rw [ho] at h
      cases h
      rcases options_error ho with rfl | rfl <;> exact .refused (by simp [errorTexts])
    | ok exp =>
      rw [ho] at h
      cases h
      exact .set hw ho

theorem performed_incr {db db' : HashTab} {now : UInt64} {w : CString} {args : List CString}
    {reply : CString} (hw : commandOf w = some .INCR)
    (h : perform db now (w :: args) = .ok (db',reply)) : Performed db now (w :: args) db' reply := by
  cases args with
  | nil =>
    simp only [perform,hw] at h
    cases h
    exact .refused (by simp [errorTexts])
  | cons key rest =>
    simp only [perform,hw] at h
    cases hi : dbIncr db key with
    | error fault =>
      rw [hi] at h
      contradiction
    | ok q =>
      cases q with
      | mk db₁ res =>
        cases res with
        | ok value =>
          rw [hi] at h
          cases h
          exact .incr hw hi
        | failed error =>
          rw [hi] at h
          cases h
          obtain ⟨rfl,rfl⟩ := dbIncr_failed hi
          exact .refused (by simp [errorTexts])

/-- Every command that returns has done one of these. -/
theorem performed_of_ok {db db' : HashTab} {now : UInt64} {args : List CString} {reply : CString}
    (h : perform db now args = .ok (db',reply)) : Performed db now args db' reply := by
  cases args with
  | nil =>
    cases h
    exact .refused (by simp [errorTexts])
  | cons w args =>
    cases hw : commandOf w with
    | none =>
      simp only [perform,hw] at h
      cases h
      exact .refused (by simp [errorTexts])
    | some c =>
      cases c with
      | PING =>
        simp only [perform,hw] at h
        cases h
        exact .ping hw
      | ECHO =>
        cases args <;> simp only [perform,hw] at h <;> cases h
        · exact .refused (by simp [errorTexts])
        · exact .echo hw
      | SET => exact performed_set hw h
      | GET =>
        cases args <;> simp only [perform,hw] at h <;> cases h
        · exact .refused (by simp [errorTexts])
        · exact .get hw
      | EXISTS =>
        cases args <;> simp only [perform,hw] at h <;> cases h
        exact .exist hw
      | DEL =>
        simp only [perform,hw] at h
        cases h
        exact .del hw
      | INCR => exact performed_incr hw h

/-- The only commands without a result are EXISTS without a key, and INCR of a key that
holds the largest `int`. -/
theorem perform_error {db : HashTab} {now : UInt64} {args : List CString} {fault : Fault} :
    perform db now args = .error fault ↔
      (fault = .badIndex ∧ ∃ w, args = [w] ∧ commandOf w = some .EXISTS) ∨
      (fault = .intOverflow ∧ ∃ w key rest, args = w :: key :: rest ∧ commandOf w = some .INCR ∧
        AtIntMax db key) := by
  cases args with
  | nil => simp [perform]
  | cons w args =>
    cases hw : commandOf w with
    | none => simp [perform,hw]
    | some c =>
      cases c with
      | SET =>
        rcases args with _ | ⟨key,_ | ⟨value,opts⟩⟩
        · simp [perform,hw]
        · simp [perform,hw]
        · cases ho : options now opts 0 <;> simp [perform,hw,ho]
      | EXISTS =>
        cases args with
        | nil => simpa [perform,hw] using eq_comm
        | cons key rest => simp [perform,hw]
      | INCR =>
        cases args with
        | nil => simp [perform,hw]
        | cons key rest =>
          have hi : perform db now (w :: key :: rest) = .error fault ↔ dbIncr db key = .error fault := by
            simp only [perform,hw]
            rcases dbIncr db key with f | ⟨db',value | error⟩ <;> simp
          rw [hi,dbIncr_error]
          simp [hw]
      | _ => cases args <;> simp [perform,hw]

def wordOf : RespValue → Option CString
  | .arrays count items => if 0 < count then items.head?.join else none
  | .simpleString s => some s
  | _ => none

def argc : RespValue → ℤ
  | .arrays count _ => count
  | _ => 0

/-- The items of an array a command needs, its own word among them. -/
def needs : Command → ℤ
  | .PING => 1
  | .SET => 3
  | _ => 2

/-- No read of an inactive member of the union and none outside the items. -/
def NoStray (r : Except Fault (HashTab × CString)) : Prop :=
  r ≠ .error .wrongMember ∧ r ≠ .error .badIndex

/-- An error reply, and nothing done. -/
def Refused (db : HashTab) (r : Except Fault (HashTab × CString)) : Prop :=
  ∃ msg, r = .ok (db,respError (some msg))

@[simp] theorem refused_respError (db : HashTab) (msg : CString) :
    Refused db (.ok (db,respError (some msg))) := ⟨msg,rfl⟩

def Respects (db : HashTab) (now : UInt64) (v : RespValue) : Prop :=
  NoStray (execValue db now v) ∧ ∀ w, wordOf v = some w → ∀ c, commandOf w = some c →
    argc v < needs c → Refused db (execValue db now v)

theorem wordOf_args {count : ℤ} {args : List CString} (hc : args.length = count.toNat) :
    wordOf (.arrays count (args.map some)) = args.head? := by
  cases args with
  | nil =>
    simp only [List.length_nil] at hc
    rw [wordOf,if_neg (by omega)]
    rfl
  | cons w args =>
    simp only [List.length_cons] at hc
    rw [wordOf,if_pos (by omega)]
    rfl

theorem dispatch_simpleString (db : HashTab) (now : UInt64) (s : CString) :
    dispatch db now (.simpleString s) =
      match commandOf s with
      | some .PING => .ok (db,respSimple (some (lit "PONG")))
      | some .ECHO => .ok (db,respError (some (wrongNumber (lit "echo"))))
      | some .SET => .ok (db,respError (some (wrongNumber (lit "set"))))
      | some .GET => .ok (db,respError (some (wrongNumber (lit "get"))))
      | some .INCR => .ok (db,respError (some (wrongNumber (lit "incr"))))
      | some .EXISTS => .error .wrongMember
      | some .DEL => .error .wrongMember
      | none => .ok (db,respError (some unknownCommand)) := by
  simp only [dispatch,cmdName,bind,Except.bind]
  cases commandOf s with
  | none => rfl
  | some c => cases c <;> rfl

theorem noStray_perform {db : HashTab} {now : UInt64} {w : CString} {args : List CString} :
    NoStray (perform db now (w :: args)) ↔ (commandOf w = some .EXISTS → args ≠ []) := by
  simp only [NoStray,ne_eq,perform_error]
  simp
  tauto

theorem not_refused_del (db : HashTab) (now : UInt64) {w : CString} (hw : commandOf w = some .DEL) :
    ¬ Refused db (perform db now [w]) := by
  rintro ⟨msg,h⟩
  simp only [perform,hw,Except.ok.injEq,Prod.mk.injEq] at h
  have hb := congrArg (fun s : CString => s.bytes.head?) h.2
  exact absurd hb (by simp [delReply,respInteger,respError,lit,ascii])

theorem not_refused_ping (db : HashTab) : ¬ Refused db (.ok (db,respSimple (some (lit "PONG")))) := by
  rintro ⟨msg,h⟩
  simp only [Except.ok.injEq,Prod.mk.injEq,true_and] at h
  have hb := congrArg (fun s : CString => s.bytes.head?) h
  exact absurd hb (by simp [respSimple,respError,lit,ascii])

theorem refused_perform (db : HashTab) (now : UInt64) {w : CString} {args : List CString} {c : Command}
    (hw : commandOf w = some c) (hn : (args.length : ℤ)+1 < needs c) (he : c ≠ .EXISTS) (hd : c ≠ .DEL) :
    Refused db (perform db now (w :: args)) := by
  cases c with
  | PING =>
    simp only [needs] at hn
    omega
  | SET =>
    rcases args with _ | ⟨key,_ | ⟨value,opts⟩⟩
    · simp [perform,hw]
    · simp [perform,hw]
    · simp only [needs,List.length_cons] at hn
      omega
  | EXISTS => contradiction
  | DEL => contradiction
  | _ =>
    cases args with
    | nil => simp [perform,hw]
    | cons text rest =>
      simp only [needs,List.length_cons] at hn
      omega

theorem respects_args {count : ℤ} {w : CString} {args : List CString}
    (hc : (w :: args).length = count.toNat) (db : HashTab) (now : UInt64) :
    (NoStray (perform db now (w :: args)) ↔ (commandOf w = some .EXISTS → 2 ≤ count)) ∧
    (NoStray (perform db now (w :: args)) ∧ (∀ c, commandOf w = some c → count < needs c →
        Refused db (perform db now (w :: args))) ↔
      (commandOf w = some .EXISTS → 2 ≤ count) ∧ (commandOf w = some .DEL → 2 ≤ count)) := by
  have hcount : count = (args.length : ℤ)+1 := by
    simp only [List.length_cons] at hc
    omega
  have hpos : args ≠ [] ↔ 2 ≤ count := by
    rw [hcount,← List.length_pos_iff]
    omega
  have hstray : NoStray (perform db now (w :: args)) ↔ (commandOf w = some .EXISTS → 2 ≤ count) := by
    rw [noStray_perform,hpos]
  refine ⟨hstray,?_⟩
  rw [hstray]
  constructor
  · rintro ⟨hs,hr⟩
    refine ⟨hs,fun hd => ?_⟩
    by_contra hlt
    have hnil : args = [] := by
      by_contra hne
      exact hlt (hpos.mp hne)
    have href := hr .DEL hd (by simp only [needs]; omega)
    rw [hnil] at href
    exact not_refused_del db now hd href
  · rintro ⟨hs,hd⟩
    refine ⟨hs,fun c hcmd hlt => ?_⟩
    have hne : ∀ c', (commandOf w = some c' → 2 ≤ count) → needs c' = 2 → c ≠ c' := by
      rintro c' h2 hn rfl
      have hle := h2 hcmd
      omega
    rw [hcount] at hlt
    exact refused_perform db now hcmd hlt (hne .EXISTS hs rfl) (hne .DEL hd rfl)

/-- The dispatcher makes a stray read exactly on EXISTS without an array that has a key, and on
DEL without an array; apart from these only a DEL without a key and a PING without an array
get a reply that is no error. -/
theorem execValue_respects_iff (db : HashTab) (now : UInt64) (v : RespValue) (hv : Initialised v) :
    (NoStray (execValue db now v) ↔ ∀ w, wordOf v = some w →
      (commandOf w = some .EXISTS → 2 ≤ argc v) ∧ (commandOf w = some .DEL → 1 ≤ argc v)) ∧
    (Respects db now v ↔ ∀ w, wordOf v = some w →
      (commandOf w = some .EXISTS → 2 ≤ argc v) ∧ (commandOf w = some .DEL → 2 ≤ argc v) ∧
        (commandOf w = some .PING → 1 ≤ argc v)) := by
  simp only [Respects,execValue_initialised hv]
  cases v with
  | simpleString s =>
    rw [dispatch_simpleString]
    cases hs : commandOf s with
    | none => simp [wordOf,hs,NoStray]
    | some c => cases c <;> simp [wordOf,argc,needs,hs,NoStray,not_refused_ping]
  | arrays count items =>
    obtain ⟨args,rfl,hc⟩ := hv count items rfl
    rw [dispatch_args hc,wordOf_args hc,argc]
    cases args with
    | nil => simp [perform,NoStray]
    | cons w args =>
      have hone : 1 ≤ count := by
        simp only [List.length_cons] at hc
        omega
      have h := respects_args hc db now
      simp only [List.head?_cons,Option.some.injEq,forall_eq',hone,implies_true,and_true]
      exact h
  | _ => simp [dispatch,cmdName,wordOf,NoStray,bind,Except.bind]

theorem execValue_respects_get :
    Respects emptyTab 0 (.arrays 2 [some (lit "get"),some (lit "k")]) :=
  (execValue_respects_iff emptyTab 0 (.arrays 2 [some (lit "get"),some (lit "k")])
    (initialised_args [lit "get",lit "k"])).2.mpr fun w hw => by
      obtain rfl : lit "get" = w := Option.some.inj hw
      decide

/-- EXISTS as a simple string or without a key, and DEL and PING as a simple string. -/
theorem exec_command_stray_read :
    ¬ (∀ db now v, Initialised v → Respects db now v) ∧
    execValue emptyTab 0 (.simpleString (lit "EXISTS")) = .error .wrongMember ∧
    execValue emptyTab 0 (.arrays 1 [some (lit "EXISTS")]) = .error .badIndex ∧
    execValue emptyTab 0 (.simpleString (lit "DEL")) = .error .wrongMember ∧
    execValue emptyTab 0 (.simpleString (lit "PING")) = .ok (emptyTab,respSimple (some (lit "PONG"))) := by
  have hs : execValue emptyTab 0 (.simpleString (lit "EXISTS")) = .error .wrongMember := rfl
  refine ⟨?_,hs,rfl,rfl,rfl⟩
  intro h
  have hr := h emptyTab 0 (.simpleString (lit "EXISTS")) (fun _ _ hv => by cases hv)
  exact hr.1.1 hs

end RedisCommands
end CodingChallenges
