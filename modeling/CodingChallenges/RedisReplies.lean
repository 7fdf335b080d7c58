import CodingChallenges.RedisParser
import CodingChallenges.RedisCommands

/-! Which requests get a reply, and what the replies look like on the wire. -/
namespace CodingChallenges
namespace RedisReplies

open CText CMemory RedisDb RedisResp RedisParser RedisServer RedisCommands

/-- One reply a client can frame. -/
inductive WellFormedReply : Bytes → Prop
  | simple {line : Bytes} (cr : 13 ∉ line) (lf : 10 ∉ line) : WellFormedReply (43 :: (line ++ crlf))
  | error {line : Bytes} (cr : 13 ∉ line) (lf : 10 ∉ line) : WellFormedReply (45 :: (line ++ crlf))
  | integer (z : ℤ) : WellFormedReply (58 :: (decimal z ++ crlf))
  | nil : WellFormedReply (ascii "$-1\r\n")
  | bulk (payload : Bytes) : WellFormedReply (encodeBulk payload)

theorem respBulk_bytes (s : CString) : (respBulk (some s)).bytes = encodeBulk s.bytes := by
  simp [respBulk,encodeBulk,natText,CString.length,crlf,lit,ascii]

theorem wellFormed_respInteger (z : ℤ) : WellFormedReply (respInteger z).bytes := .integer z

theorem wellFormed_respBulk (s : Option CString) : WellFormedReply (respBulk s).bytes := by
  cases s with
  | none => exact .nil
  | some s =>
    rw [respBulk_bytes]
    exact .bulk s.bytes

theorem wellFormed_respSimple {s : CString} (h : 13 ∉ s.bytes ∧ 10 ∉ s.bytes) :
    WellFormedReply (respSimple (some s)).bytes := .simple h.1 h.2

theorem wellFormed_respError {s : CString} (h : 13 ∉ s.bytes ∧ 10 ∉ s.bytes) :
    WellFormedReply (respError (some s)).bytes := .error h.1 h.2

theorem wellFormed_delReply (keys : List CString) (n : ℤ) : WellFormedReply (delReply keys n).bytes := by
  unfold delReply
  split_ifs
  · exact wellFormed_respSimple (by decide)
  · exact wellFormed_respInteger 0
  · exact wellFormed_respInteger n

theorem errorTexts_oneLine : ∀ msg ∈ errorTexts, 13 ∉ msg.bytes ∧ 10 ∉ msg.bytes := by decide

/-- Every command that returns gives one reply. -/
theorem perform_wellFormed {db db' : HashTab} {now : UInt64} {args : List CString} {reply : CString}
    (h : perform db now args = .ok (db',reply)) : WellFormedReply reply.bytes := by
  cases performed_of_ok h with
  | refused text => exact wellFormed_respError (errorTexts_oneLine _ text)
  | ping => exact wellFormed_respSimple (by decide)
  | echo => exact wellFormed_respBulk _
  | set => exact wellFormed_respSimple (by decide)
  | get => exact wellFormed_respBulk _
  | exist => exact wellFormed_respInteger _
  | del => exact wellFormed_delReply _ _
  | incr => exact wellFormed_respInteger _

def Performable (db : HashTab) (args : List CString) : Prop :=
  ∀ w rest, args = w :: rest →
    (commandOf w = some .EXISTS → rest ≠ []) ∧
    (commandOf w = some .INCR → ∀ key, rest.head? = some key → ¬ AtIntMax db key)

theorem performable_iff {db : HashTab} {now : UInt64} {args : List CString} :
    Performable db args ↔ ∃ r, perform db now args = .ok r := by
  have herr : (∃ r, perform db now args = .ok r) ↔ ∀ fault, perform db now args ≠ .error fault := by
    cases perform db now args <;> simp
  rw [herr]
  simp only [ne_eq,perform_error]
  constructor
  · rintro h fault (⟨_,w,rfl,hw⟩ | ⟨_,w,key,rest,rfl,hw,hk⟩)
    · exact (h w [] rfl).1 hw rfl
    · exact (h w (key :: rest) rfl).2 hw key rfl hk
  · rintro h w rest rfl
    constructor
    · rintro hw rfl
      exact h .badIndex (Or.inl ⟨rfl,w,rfl,hw⟩)
    · intro hw key hkey hk
      cases rest with
      | nil => cases hkey
      | cons key' rest =>
        cases hkey
        exact h .intOverflow (Or.inr ⟨rfl,w,key,rest,rfl,hw,hk⟩)

theorem execCommand_items {t : CString} {xs : List CString} (h : HoldsItems t xs) (db : HashTab)
    (now : UInt64) {s : CString} (hs : s.bytes = 42 :: t.bytes) :
    execCommand db now s.object = perform db now xs := by
  have hp : parse s.object = .ok (some (.arrays (toInt (strtol t).value) (xs.map some))) := by
    rw [parse_array hs]
    exact parseArray_of_items h
  have hi : Initialised (.arrays (toInt (strtol t).value) (xs.map some)) := by
    rintro _ _ ⟨⟩
    exact ⟨xs,rfl,h.length⟩
  simp only [execCommand,hp,bind,Except.bind]
  rw [execValue_initialised hi,dispatch_args h.length]

theorem holdsItems_of_execCommand {db : HashTab} {now : UInt64} {s t : CString}
    {r : HashTab × CString} (hs : s.bytes = 42 :: t.bytes) (h : execCommand db now s.object = .ok r) :
    ∃ xs, HoldsItems t xs := by
  obtain ⟨v,hp,hv⟩ := bind_eq_ok.mp h
  have hp' : parseArray (42 :: t.object) = .ok v := (parse_array hs).symm.trans hp
  obtain ⟨items,hi,rfl⟩ := parseArray_object.mp hp'
  obtain ⟨_,_,hf⟩ := bind_eq_ok.mp hv
  obtain ⟨_,hf,_⟩ := bind_eq_ok.mp hf
  have hl : items.length = (toInt (strtol t).value).toNat := by
    rw [parseItems_length hi,List.length_replicate]
  obtain ⟨xs,hx,_⟩ := holdsItems_of_parseArray hp' (initialised_of_freeResp hl hf)
  exact ⟨xs,hx⟩

/-- The requests `exec_command` answers. -/
def Answerable (db : HashTab) (s : CString) : Prop :=
  ∃ b t, s.bytes = b :: t.bytes ∧
    (b = 43 ∧ commandOf (lineText t) ≠ some .EXISTS ∧ commandOf (lineText t) ≠ some .DEL ∨
      b = 45 ∨ b = 58 ∨ b = 42 ∧ ∃ xs, HoldsItems t xs ∧ Performable db xs)

/-- The call returns, with one well-formed reply. -/
def Answered (db : HashTab) (now : UInt64) (request : Bytes) : Prop :=
  ∃ db' reply, execCommand db now request = .ok (db',reply) ∧ WellFormedReply reply.bytes

theorem execValue_simpleString (db : HashTab) (now : UInt64) (w : CString) :
    (∃ db' reply, execValue db now (.simpleString w) = .ok (db',reply) ∧ WellFormedReply reply.bytes) ↔
      commandOf w ≠ some .EXISTS ∧ commandOf w ≠ some .DEL := by
  have he : ∀ msg : CString, 13 ∉ msg.bytes ∧ 10 ∉ msg.bytes → ∃ db' reply,
      (.ok (db,respError (some msg)) : Except Fault (HashTab × CString)) = .ok (db',reply) ∧
        WellFormedReply reply.bytes :=
    fun msg h => ⟨_,_,rfl,wellFormed_respError h⟩
  rw [execValue_initialised (fun _ _ h => by cases h),dispatch_simpleString]
  cases hw : commandOf w with
  | none => simpa using he unknownCommand (by decide)
  | some c =>
    cases c with
    | PING =>
      have hp : WellFormedReply (respSimple (some (lit "PONG"))).bytes := wellFormed_respSimple (by decide)
      simp [hp]
    | EXISTS => simp
    | DEL => simp
    | ECHO => simpa using he (wrongNumber (lit "echo")) (by decide)
    | SET => simpa using he (wrongNumber (lit "set")) (by decide)
    | GET => simpa using he (wrongNumber (lit "get")) (by decide)
    | INCR => simpa using he (wrongNumber (lit "incr")) (by decide)

theorem execCommand_of_parse {db : HashTab} {request : Bytes} {v : RespValue}
    (h : parse request = .ok (some v)) (now : UInt64) :
    execCommand db now request = execValue db now v := by
  simp only [execCommand,h,bind,Except.bind]

theorem answerable_of_answered {db : HashTab} {now : UInt64} {s : CString}
    (h : Answered db now s.object) : Answerable db s := by
  obtain ⟨db',reply,h,hw⟩ := h
  cases hs : s.bytes with
  | nil =>
    obtain ⟨v,hp,_⟩ := bind_eq_ok.mp h
    rw [parse_empty hs] at hp
    contradiction
  | cons b rest =>
    have ht : s.bytes = b :: (s.drop 1).bytes := by simp [hs]
    have hp := parse_first ht []
    rw [← CString.object] at hp
    refine ⟨b,s.drop 1,by simp [hs],?_⟩
    by_cases h43 : b = 43
    · rw [if_pos h43] at hp
      rw [execCommand_of_parse hp] at h
      exact Or.inl ⟨h43,(execValue_simpleString db now _).mp ⟨db',reply,h,hw⟩⟩
    · by_cases h45 : b = 45
      · exact Or.inr (Or.inl h45)
      · by_cases h58 : b = 58
        · exact Or.inr (Or.inr (Or.inl h58))
        · by_cases h42 : b = 42
          · subst h42
            obtain ⟨xs,hx⟩ := holdsItems_of_execCommand ht h
            rw [execCommand_items hx db now ht] at h
            exact Or.inr (Or.inr (Or.inr ⟨rfl,xs,hx,performable_iff.mpr ⟨_,h⟩⟩))
          · rw [if_neg h43,if_neg h45,if_neg h58,if_neg h42] at hp
            obtain ⟨v,hp',_⟩ := bind_eq_ok.mp h
            rw [hp] at hp'
            contradiction

theorem answered_of_answerable {db : HashTab} (now : UInt64) {s : CString} (h : Answerable db s) :
    Answered db now s.object := by
  obtain ⟨b,t,hs,hb⟩ := h
  have hp := parse_first hs []
  have hline : WellFormedReply (respError (some unknownCommand)).bytes :=
    wellFormed_respError (by decide)
  rcases hb with ⟨rfl,hc⟩ | rfl | rfl | ⟨rfl,xs,hx,hperf⟩
  · obtain ⟨db',reply,h,hw⟩ := (execValue_simpleString db now (lineText t)).mpr hc
    exact ⟨db',reply,(execCommand_of_parse hp now).trans h,hw⟩
  · exact ⟨db,_,execCommand_of_parse hp now,hline⟩
  · exact ⟨db,_,execCommand_of_parse hp now,hline⟩
  · obtain ⟨r,hr⟩ := performable_iff.mp hperf
    exact ⟨r.1,r.2,(execCommand_items hx db now hs).trans hr,perform_wellFormed hr⟩

/-- `exec_command` returns with one well-formed reply exactly on the one-line requests
other than EXISTS and DEL, and on the arrays that hold their items and can be performed. -/
theorem answered_iff_answerable (db : HashTab) (now : UInt64) (s : CString) :
    Answered db now s.object ↔ Answerable db s :=
  ⟨answerable_of_answered,answered_of_answerable now⟩

/-- Text without a type byte and a bulk string end the process; EXISTS in a line, an
array with too little behind it and INCR at the largest `int` do not return either. -/
theorem exec_command_unanswered :
    ¬ (∀ db now, ∀ s : CString, s.bytes ≠ [] → Answered db now s.object) ∧
    execCommand emptyTab 0 (lit "PING\r\n").object = .error (.exit 1) ∧
    execCommand emptyTab 0 (lit "$4\r\nPING\r\n").object = .error (.exit 1) ∧
    execCommand emptyTab 0 (lit "+EXISTS\r\n").object = .error .wrongMember ∧
    execCommand emptyTab 0 (lit "*2\r\n$3\r\nGET\r\n").object = .error .uninitialised ∧
    execCommand (dbSet emptyTab (lit "k") (lit "2147483647")) 0
      (lit "*2\r\n$4\r\nINCR\r\n$1\r\nk\r\n").object = .error .intOverflow := by
  have hexit : execCommand emptyTab 0 (lit "PING\r\n").object = .error (.exit 1) := rfl
  refine ⟨?_,hexit,rfl,rfl,by decide,by decide⟩
  intro h
  obtain ⟨_,_,he,_⟩ := h emptyTab 0 (lit "PING\r\n") (by decide)
  rw [hexit] at he
  contradiction

theorem perform_error_reply {db db' : HashTab} {now : UInt64} {args : List CString} {reply : CString}
    (h : perform db now args = .ok (db',reply)) (he : reply.bytes.head? = some 45) : db' = db := by
  have hbulk (s : Option CString) : (respBulk s).bytes.head? = some 36 := by cases s <;> rfl
  cases performed_of_ok h with
  | refused => rfl
  | ping => rfl
  | echo => rfl
  | set => exact absurd he (by decide)
  | get => exact absurd ((hbulk _).symm.trans he) (by decide)
  | exist => exact absurd (show some 58 = some (45 : UInt8) from he) (by decide)
  | @del w keys =>
    rw [delReply] at he
    split_ifs at he
    · exact absurd he (by decide)
    · exact absurd he (by decide)
    · exact absurd (show some 58 = some (45 : UInt8) from he) (by decide)
  | incr => exact absurd (show some 58 = some (45 : UInt8) from he) (by decide)

theorem dispatch_notArray {db : HashTab} {now : UInt64} {v : RespValue} {r : HashTab × CString}
    (hv : ∀ count items, v ≠ .arrays count items) (h : dispatch db now v = .ok r) : r.1 = db := by
  cases v with
  | arrays count items => exact absurd rfl (hv count items)
  | simpleString s =>
    rw [dispatch_simpleString] at h
    split at h <;> cases h <;> rfl
  | _ =>
    cases h
    rfl

/-- Whatever the request: when the reply begins with '-', the store is what it was. -/
theorem error_reply_keeps_store (db db' : HashTab) (now : UInt64) (request : Bytes) (reply : CString)
    (h : execCommand db now request = .ok (db',reply)) (he : reply.bytes.head? = some 45) : db' = db := by
  obtain ⟨v,hp,h⟩ := bind_eq_ok.mp h
  cases v with
  | none => contradiction
  | some v =>
    obtain ⟨r,hd,h⟩ := bind_eq_ok.mp h
    obtain ⟨_,hf,h⟩ := bind_eq_ok.mp h
    obtain rfl := Except.ok.inj h
    by_cases hv : ∃ count items, v = .arrays count items
    · obtain ⟨count,items,rfl⟩ := hv
      have hi := initialised_of_freeResp (parse_arrays_length hp) hf
      obtain ⟨args,rfl,hc⟩ := hi count items rfl
      rw [dispatch_args hc] at hd
      exact perform_error_reply hd he
    · exact dispatch_notArray (fun count items hc => hv ⟨count,items,hc⟩) hd

/-- The second pair is the one that offends. -/
theorem error_reply_keeps_store_options : ∃ db' reply,
    execCommand (dbSet emptyTab (lit "k") (lit "1")) 5
      (encode [ascii "set",ascii "k",ascii "2",ascii "EX",ascii "7",ascii "px",ascii "0"] ++ [0]) =
        .ok (db',reply) ∧ db' = dbSet emptyTab (lit "k") (lit "1") := by
  refine ⟨_,_,rfl,error_reply_keeps_store _ _ 5 (encode [ascii "set",ascii "k",ascii "2",ascii "EX",
    ascii "7",ascii "px",ascii "0"] ++ [0]) _ rfl (by decide)⟩

end RedisReplies
end CodingChallenges
