import CodingChallenges.Runs
import CodingChallenges.RedisReplies

/-! Requests one after the other: a value set through the protocol is read back
through the protocol, whatever other requests come in between. -/
namespace CodingChallenges
namespace RedisSession

open CText CMemory RedisDb RedisResp RedisParser RedisServer RedisCommands RedisReplies Runs

/-- The object `exec_command` is given for an argument list. -/
def request (args : List Bytes) : Bytes := encode args ++ [0]

/-- One call of `exec_command`, at its reading of the clock. -/
def serve (db : HashTab) (r : UInt64 × List Bytes) : Except Fault (HashTab × CString) :=
  execCommand db r.1 (request r.2)

def CountFits (args : List Bytes) : Prop := (args.length : ℤ) ≤ INT_MAX

def LengthsFit (args : List Bytes) : Prop := ∀ a ∈ args, (a.length : ℤ) ≤ INT_MAX-4

instance (args : List Bytes) : Decidable (CountFits args) := inferInstanceAs (Decidable (_ ≤ _))

instance (args : List Bytes) : Decidable (LengthsFit args) :=
  inferInstanceAs (Decidable (∀ a ∈ args, _))

def NoOverflow (db : HashTab) (args : List CString) : Prop :=
  ∀ w key rest, args = w :: key :: rest → commandOf w = some .INCR → ¬ AtIntMax db key

def Names (key : CString) : List CString → Prop
  | [] => False
  | w :: rest =>
    (commandOf w = some .SET ∨ commandOf w = some .INCR) ∧ rest.head? = some key ∨
      commandOf w = some .DEL ∧ key ∈ rest

instance (key : CString) : (args : List CString) → Decidable (Names key args)
  | [] => isFalse id
  | w :: rest => inferInstanceAs (Decidable
      ((commandOf w = some .SET ∨ commandOf w = some .INCR) ∧ rest.head? = some key ∨
        commandOf w = some .DEL ∧ key ∈ rest))

/-- The requests that may come in between. -/
def Between (key : CString) (args : List CString) : Prop :=
  args ≠ [] ∧ (∀ w, args = [w] → commandOf w ≠ some .EXISTS) ∧ ¬ Names key args

/-- GET and EXISTS of the key, in any letter case, reply with its value and with 1. -/
def ReadsBack (db : HashTab) (key value : CString) : Prop :=
  ∀ now (w : CString),
    (commandOf w = some .GET → ∃ db' reply,
      serve db (now,[w.bytes,key.bytes]) = .ok (db',reply) ∧ reply.bytes = encodeBulk value.bytes) ∧
    (commandOf w = some .EXISTS → ∃ db' reply,
      serve db (now,[w.bytes,key.bytes]) = .ok (db',reply) ∧ reply.bytes = ascii ":1\r\n")

/-- Set, then any requests in between: every call returns, and the value is read back.
`Sized` says which requests are sent, `Safe` what holds before each. -/
def StoreFidelity (Sized : List Bytes → Prop) (Safe : HashTab → List CString → Prop) : Prop :=
  ∀ db now (set key value : CString) (between : List (UInt64 × List Bytes)),
    commandOf set = some .SET → Sized [set.bytes,key.bytes,value.bytes] →
    (∀ r ∈ between, Sized r.2 ∧ Between key (r.2.map cut)) →
    AllSteps serve (fun db r => Safe db (r.2.map cut)) db
      ((now,[set.bytes,key.bytes,value.bytes]) :: between) →
    ∃ db' replies, run serve db ((now,[set.bytes,key.bytes,value.bytes]) :: between) = .ok (db',replies) ∧
      ReadsBack db' key value

/-- A request that fits is performed as its arguments read as strings. -/
theorem serve_fits {args : List Bytes} (hc : CountFits args) (hl : LengthsFit args) (db : HashTab)
    (now : UInt64) : serve db (now,args) = perform db now (args.map cut) := by
  have hp : parse (request args) = .ok (some (.arrays args.length ((args.map cut).map some))) :=
    parse_encode_cut args hc hl (by simp)
  have hlen : (args.map cut).length = ((args.length : ℕ) : ℤ).toNat := by simp
  have hi : Initialised (.arrays args.length ((args.map cut).map some)) := by
    rintro _ _ ⟨⟩
    exact ⟨args.map cut,rfl,hlen⟩
  rw [serve,execCommand_of_parse hp,execValue_initialised hi,dispatch_args hlen]

theorem lookup_delOne_other {key key' : CString} (h : key ≠ key') (r : HashTab × ℤ) :
    lookup (delOne r key').1 key = lookup r.1 key := lookup_undef_other h

theorem lookup_foldl_delOne {key : CString} (keys : List CString) (h : key ∉ keys) (r : HashTab × ℤ) :
    lookup (keys.foldl delOne r).1 key = lookup r.1 key := by
  induction keys generalizing r with
  | nil => rfl
  | cons k keys ih =>
    simp only [List.mem_cons,not_or] at h
    rw [List.foldl_cons,ih h.2,lookup_delOne_other h.1]

/-- A request that does not name the key leaves an entry without expiry where it is. -/
theorem perform_keeps {db db' : HashTab} {now : UInt64} {args : List CString} {reply key : CString}
    {e : Entry} (h : perform db now args = .ok (db',reply)) (hn : ¬ Names key args)
    (he : lookup db key = some e) (h0 : e.expires_at_ms = 0) : lookup db' key = some e := by
  cases performed_of_ok h with
  | refused => exact he
  | ping => exact he
  | echo => exact he
  | @set w k value opts exp cmd =>
    have hk : key ≠ k := by
      rintro rfl
      simp [Names,cmd] at hn
    exact (lookup_install_other hk).trans he
  | get => exact lookup_dbGet_persistent he h0 now
  | exist => exact lookup_dbGet_persistent he h0 now
  | @del w keys cmd =>
    have hk : key ∉ keys := by simpa [Names,cmd] using hn
    exact (lookup_foldl_delOne keys hk (db,0)).trans he
  | @incr w k value rest db' cmd counted =>
    have hk : key ≠ k := by
      rintro rfl
      simp [Names,cmd] at hn
    exact (lookup_dbIncr_other counted hk).trans he

theorem perform_between {db : HashTab} (now : UInt64) {args : List CString} {key : CString}
    (hb : Between key args) (hs : NoOverflow db args) : ∃ r, perform db now args = .ok r := by
  apply performable_iff.mp
  rintro w rest rfl
  constructor
  · rintro hw rfl
    exact hb.2.1 w rfl hw
  · intro hw k hk
    cases rest with
    | nil => cases hk
    | cons k' rest =>
      cases hk
      exact hs w k rest rfl hw

theorem noOverflow_of_ne {w : CString} (hw : commandOf w ≠ some .INCR) (db : HashTab)
    (rest : List CString) : NoOverflow db (w :: rest) := by
  intro w' key rest' h hi
  obtain rfl := (List.cons.inj h).1
  contradiction

theorem serve_keeps {key : CString} {e : Entry} (h0 : e.expires_at_ms = 0)
    (between : List (UInt64 × List Bytes))
    (hb : ∀ r ∈ between, (CountFits r.2 ∧ LengthsFit r.2) ∧ Between key (r.2.map cut)) {db : HashTab}
    (hs : AllSteps serve (fun db r => NoOverflow db (r.2.map cut)) db between)
    (he : lookup db key = some e) :
    ∃ db' replies, run serve db between = .ok (db',replies) ∧ lookup db' key = some e := by
  induction between generalizing db with
  | nil => exact ⟨db,[],rfl,he⟩
  | cons r between ih =>
    obtain ⟨⟨hc,hl⟩,hr⟩ := hb r (by simp)
    have hserve : serve db r = perform db r.1 (r.2.map cut) := serve_fits hc hl db r.1
    obtain ⟨⟨db₁,reply⟩,hp⟩ := perform_between r.1 hr hs.1
    have he₁ := perform_keeps hp hr.2.2 he h0
    have hstep : serve db r = .ok (db₁,reply) := hserve.trans hp
    obtain ⟨db',replies,hrun,he'⟩ := ih (fun q hq => hb q (by simp [hq])) (hs.2 db₁ reply hstep) he₁
    exact ⟨db',reply :: replies,run_cons hstep hrun,he'⟩

theorem length_of_command {w : CString} {c : Command} (h : commandOf w = some c) :
    w.bytes.length = c.word.bytes.length := by
  have hl := congrArg List.length ((eqIgnoreCase_iff w c.word).mp (commandOf_eq_some.mp h))
  simpa using hl

theorem fits_read {w key : CString} {c : Command} (hw : commandOf w = some c)
    (hk : (key.bytes.length : ℤ) ≤ INT_MAX-4) :
    CountFits [w.bytes,key.bytes] ∧ LengthsFit [w.bytes,key.bytes] := by
  refine ⟨by simp [CountFits,INT_MAX],?_⟩
  intro a ha
  simp only [List.mem_cons,List.not_mem_nil,or_false] at ha
  rcases ha with rfl | rfl
  · rw [length_of_command hw]
    cases c <;> decide
  · exact hk

theorem readsBack_of_lookup {db : HashTab} {key value : CString}
    (he : lookup db key = some ⟨key,value,0⟩) (hk : (key.bytes.length : ℤ) ≤ INT_MAX-4) :
    ReadsBack db key value := by
  intro now w
  have hget : dbGet db key now = (db,some value) := by
    simp [dbGet,he,expired]
  have hread : ∀ c, commandOf w = some c →
      serve db (now,[w.bytes,key.bytes]) = perform db now [w,key] := by
    intro c hw
    have hf := fits_read hw hk
    have h := serve_fits hf.1 hf.2 db now
    simpa only [List.map_cons,List.map_nil,cut_bytes] using h
  constructor
  · intro hw
    refine ⟨db,respBulk (some value),?_,respBulk_bytes value⟩
    rw [hread _ hw]
    simp only [perform,hw,hget]
  · intro hw
    refine ⟨db,respInteger 1,?_,rfl⟩
    rw [hread _ hw]
    simp only [perform,hw,hget,Option.isSome_some,if_true]

/-- With sizes that an `int` holds and no overflow on the way, a value set is read back. -/
theorem storeFidelity_fits (db : HashTab) (now : UInt64) (set key value : CString)
    (between : List (UInt64 × List Bytes)) (hset : commandOf set = some .SET)
    (hsized : CountFits [set.bytes,key.bytes,value.bytes] ∧ LengthsFit [set.bytes,key.bytes,value.bytes])
    (hb : ∀ r ∈ between, (CountFits r.2 ∧ LengthsFit r.2) ∧ Between key (r.2.map cut))
    (hs : AllSteps serve (fun db r => NoOverflow db (r.2.map cut)) db
      ((now,[set.bytes,key.bytes,value.bytes]) :: between)) :
    ∃ db' replies, run serve db ((now,[set.bytes,key.bytes,value.bytes]) :: between) = .ok (db',replies) ∧
      ReadsBack db' key value := by
  have hserve : serve db (now,[set.bytes,key.bytes,value.bytes]) = perform db now [set,key,value] := by
    have h := serve_fits hsized.1 hsized.2 db now
    simpa only [List.map_cons,List.map_nil,cut_bytes] using h
  have hstep : serve db (now,[set.bytes,key.bytes,value.bytes]) =
      .ok (dbSetEx db key value 0,respSimple (some (lit "OK"))) := by
    rw [hserve]
    simp only [perform,hset,options]
  have he : lookup (dbSetEx db key value 0) key = some ⟨key,value,0⟩ := lookup_install_self
  obtain ⟨db',replies,hrun,he'⟩ := serve_keeps rfl between hb (hs.2 _ _ hstep) he
  exact ⟨db',_,run_cons hstep hrun,readsBack_of_lookup he' (hsized.2 _ (by simp))⟩

theorem storeFidelity_fits_del : ∃ db' replies db'' reply,
    run serve emptyTab [(0,[ascii "Set",ascii "k",ascii "v\r\n"]),(1,[ascii "DEL",ascii "j"])] =
      .ok (db',replies) ∧
    serve db' (2,[ascii "get",ascii "k"]) = .ok (db'',reply) ∧ reply.bytes = ascii "$3\r\nv\r\n\r\n" := by
  have hsafe : AllSteps serve (fun db r => NoOverflow db (r.2.map cut)) emptyTab
      [(0,[ascii "Set",ascii "k",ascii "v\r\n"]),(1,[ascii "DEL",ascii "j"])] := by
    refine allSteps_of_forall _ (fun db r hr => ?_) emptyTab
    simp only [List.mem_cons,List.not_mem_nil,or_false] at hr
    rcases hr with rfl | rfl
    · exact noOverflow_of_ne (by decide) db _
    · exact noOverflow_of_ne (by decide) db _
  obtain ⟨db',replies,hrun,hread⟩ := storeFidelity_fits emptyTab 0 (lit "Set") (lit "k") (lit "v\r\n")
    [(1,[ascii "DEL",ascii "j"])] (by decide) ⟨by decide,by decide⟩ (by
      intro r hr
      obtain rfl : r = (1,[ascii "DEL",ascii "j"]) := by simpa using hr
      exact ⟨⟨by decide,by decide⟩,by decide,fun w hw => absurd hw (by simp),by decide⟩) hsafe
  obtain ⟨db'',reply,hs,hr⟩ := (hread 2 (lit "get")).1 (by decide)
  exact ⟨db',replies,db'',reply,hrun,hs,hr⟩

theorem serve_tooLong (db : HashTab) (now : UInt64) (args : List Bytes) {v : Bytes}
    (hc : CountFits (args ++ [v])) (hl : LengthsFit args) (hv : v.length = 2^31) :
    serve db (now,args ++ [v]) = .error .nullPointer := by
  obtain ⟨hd,hp⟩ := parse_header (args ++ [v]) (hc.trans (by decide)) (by simp : (0 : UInt8) ∈ [0])
  have hcount : toInt (args ++ [v]).length = (args ++ [v]).length :=
    toInt_of_range (by simp only [INT_MIN]; omega) hc
  rw [List.flatMap_append,List.append_assoc,List.flatMap_singleton] at hd
  rw [hcount,Int.toNat_natCast,parseItems_tooLong args (by simp) hd (by simp) hl hv] at hp
  simp only [serve,execCommand,request,hp,Except.map,bind,Except.bind]

theorem lengthsFit_copies (args : List Bytes) {more : List Bytes} {a : Bytes}
    (hl : LengthsFit (args ++ [a])) (hm : ∀ b ∈ more, b = a) : LengthsFit (args ++ more) := by
  intro b hb
  rcases List.mem_append.mp hb with hb | hb
  · exact hl b (by simp [hb])
  · exact hl b (by simp [hm b hb])

/-- Of 2^32 arguments more than a request that fits, the parser sees none. -/
theorem serve_tooMany (db : HashTab) (now : UInt64) (args : List Bytes) {more : List Bytes}
    (hc : CountFits args) (hl : LengthsFit args) (hm : more.length = 2^32) :
    serve db (now,args ++ more) = perform db now (args.map cut) := by
  have hsum : ((args ++ more).length : ℤ) = args.length+2^32 := by
    rw [List.length_append,hm]
    push_cast
    rfl
  have hcount : toInt (args ++ more).length = args.length := by
    rw [hsum]
    exact (Int.add_bmod_right _ (2^32)).trans (toInt_of_range (by simp only [INT_MIN]; omega) hc)
  have hlong : ((args ++ more).length : ℤ) ≤ LONG_MAX := by
    simp only [CountFits,INT_MAX] at hc
    simp only [LONG_MAX]
    omega
  have hp := parse_encode_prefix args more hlong hcount hl (by simp : (0 : UInt8) ∈ [0])
  rw [serve,request,execCommand_of_parse hp,execValue_initialised (by simpa using initialised_args (args.map cut)),
    dispatch_args (by simp)]

theorem not_storeFidelity {Sized : List Bytes → Prop} {Safe : HashTab → List CString → Prop}
    (value : CString) (between : List (UInt64 × List Bytes)) (fault : Fault)
    (hsized : Sized [ascii "SET",ascii "k",value.bytes])
    (hb : ∀ r ∈ between, Sized r.2 ∧ Between (lit "k") (r.2.map cut))
    (hs : ∀ db, ∀ r ∈ (0,[ascii "SET",ascii "k",value.bytes]) :: between, Safe db (r.2.map cut))
    (hrun : run serve emptyTab ((0,[ascii "SET",ascii "k",value.bytes]) :: between) = .error fault) :
    ¬ StoreFidelity Sized Safe := by
  intro h
  obtain ⟨_,_,hok,_⟩ := h emptyTab 0 (lit "SET") (lit "k") value between (by decide) hsized hb
    (allSteps_of_forall _ hs _)
  exact absurd (hrun.symm.trans hok) (by simp)

theorem notIncr_set : commandOf (cut (ascii "SET")) ≠ some .INCR := by decide

theorem not_storeFidelity_long (value : CString) (hv : value.bytes.length = 2^31) :
    ¬ StoreFidelity CountFits NoOverflow := by
  have hstep : serve emptyTab (0,[ascii "SET",ascii "k",value.bytes]) = .error .nullPointer :=
    serve_tooLong emptyTab 0 [ascii "SET",ascii "k"] (by simp [CountFits,INT_MAX]) (by decide) hv
  refine not_storeFidelity value [] .nullPointer (by simp [CountFits,INT_MAX]) (by simp) ?_
    (by simp only [run,hstep])
  intro db r hr
  obtain rfl := List.mem_singleton.mp hr
  exact noOverflow_of_ne notIncr_set db _

theorem not_storeFidelity_many (keys : List Bytes) (hk : keys.length = 2^32)
    (hkeys : ∀ a ∈ keys, a = ascii "k") : ¬ StoreFidelity LengthsFit NoOverflow := by
  have hset : serve emptyTab (0,[ascii "SET",ascii "k",ascii "v"]) =
      .ok (dbSetEx emptyTab (lit "k") (lit "v") 0,respSimple (some (lit "OK"))) := rfl
  have hstep : serve (dbSetEx emptyTab (lit "k") (lit "v") 0) (0,ascii "EXISTS" :: keys) =
      .error .badIndex :=
    (serve_tooMany _ 0 [ascii "EXISTS"] (by simp [CountFits,INT_MAX]) (by decide) hk).trans rfl
  have hexists : commandOf (cut (ascii "EXISTS")) = some .EXISTS := by decide
  refine not_storeFidelity (lit "v") [(0,ascii "EXISTS" :: keys)] .badIndex (by decide) ?_ ?_ ?_
  · intro r hr
    obtain rfl := List.mem_singleton.mp hr
    refine ⟨lengthsFit_copies [ascii "EXISTS"] (by decide) hkeys,by simp,?_,by simp [Names,hexists]⟩
    intro w hw
    have hl := congrArg List.length hw
    simp [hk] at hl
  · intro db r hr
    simp only [List.mem_cons,List.not_mem_nil,or_false] at hr
    rcases hr with rfl | rfl
    · exact noOverflow_of_ne notIncr_set db _
    · exact noOverflow_of_ne (by rw [hexists]; decide) db _
  · have hv : (lit "v").bytes = ascii "v" := rfl
    simp only [run,hv,hset,hstep]

theorem run_overflow : run serve emptyTab [(0,[ascii "SET",ascii "k",(lit "v").bytes]),
    (0,[ascii "SET",ascii "n",ascii "2147483647"]),(0,[ascii "INCR",ascii "n"])] =
      .error .intOverflow := by decide

def letters (n : ℕ) : CString := ⟨List.replicate n 97,by simp [List.mem_replicate]⟩

theorem letters_length (n : ℕ) : (letters n).bytes.length = n := List.length_replicate

/-- Without a bound on the count or on the lengths, or without care for the sum of INCR, a
call between the set and the read may not return. -/
theorem storeFidelity_needs_bounds :
    ¬ StoreFidelity (fun _ => True) (fun _ _ => True) ∧
    ¬ StoreFidelity (fun args => CountFits args ∧ LengthsFit args) (fun _ _ => True) ∧
    ¬ StoreFidelity CountFits NoOverflow ∧ ¬ StoreFidelity LengthsFit NoOverflow := by
  have hsum : ∀ r ∈ [((0 : UInt64),[ascii "SET",ascii "n",ascii "2147483647"]),(0,[ascii "INCR",ascii "n"])],
      (CountFits r.2 ∧ LengthsFit r.2) ∧ Between (lit "k") (r.2.map cut) := by
    intro r hr
    simp only [List.mem_cons,List.not_mem_nil,or_false] at hr
    rcases hr with rfl | rfl
    · exact ⟨⟨by decide,by decide⟩,by decide,fun w hw => absurd hw (by simp),by decide⟩
    · exact ⟨⟨by decide,by decide⟩,by decide,fun w hw => absurd hw (by simp),by decide⟩
  have hk : ∀ a ∈ List.replicate (2^32) (ascii "k"), a = ascii "k" := fun a ha =>
    List.eq_of_mem_replicate ha
  refine ⟨?_,?_,not_storeFidelity_long (letters (2^31)) (letters_length _),
    not_storeFidelity_many _ List.length_replicate hk⟩
  · exact not_storeFidelity (lit "v") _ .intOverflow trivial (fun r hr => ⟨trivial,(hsum r hr).2⟩)
      (fun _ _ _ => trivial) run_overflow
  · exact not_storeFidelity (lit "v") _ .intOverflow (by decide) hsum (fun _ _ _ => trivial) run_overflow

end RedisSession
end CodingChallenges
