import CodingChallenges.NumberText
import CodingChallenges.RedisSession

/-! The options of SET: the grammar the option loop accepts, and the instant it stores
against the one that was asked for. -/
namespace CodingChallenges
namespace RedisSetOptions

open CText CMemory RedisDb RedisResp RedisParser RedisServer RedisCommands RedisReplies RedisSession
  NumberText

inductive ExpiryFlag
  | EX | PX | EXAT | PXAT
  deriving DecidableEq

namespace ExpiryFlag

def word : ExpiryFlag → CString
  | EX => lit "EX"
  | PX => lit "PX"
  | EXAT => lit "EXAT"
  | PXAT => lit "PXAT"

/-- What the code computes, modulo 2^64. -/
def stored (now n : UInt64) : ExpiryFlag → UInt64
  | EX => now+n*1000
  | PX => now+n
  | EXAT => n*1000
  | PXAT => n

def instant (now n : ℕ) : ExpiryFlag → ℕ
  | EX => now+1000*n
  | PX => now+n
  | EXAT => 1000*n
  | PXAT => n

end ExpiryFlag

/-- `strtoll` takes the whole text, with a positive result. -/
def PositiveNumber (s : CString) : Prop := (strtoll s).used = s.length ∧ 0 < (strtoll s).value

instance (s : CString) : Decidable (PositiveNumber s) := inferInstanceAs (Decidable (_ ∧ _))

inductive OptionPairs : List CString → List (ExpiryFlag × ℤ) → Prop
  | nil : OptionPairs [] []
  | cons {opt number : CString} {rest : List CString} {f : ExpiryFlag} {ps : List (ExpiryFlag × ℤ)}
      (flag : eqIgnoreCase opt f.word = true) (positive : PositiveNumber number)
      (more : OptionPairs rest ps) : OptionPairs (opt :: number :: rest) ((f,(strtoll number).value) :: ps)

/-- The error of the first option behind good pairs that offends. -/
inductive Offends : List CString → CString → Prop
  | unknown {opt : CString} {rest : List CString} (word : ∀ f : ExpiryFlag, eqIgnoreCase opt f.word = false) :
      Offends (opt :: rest) syntaxError
  | dangling {opt : CString} {f : ExpiryFlag} (flag : eqIgnoreCase opt f.word = true) :
      Offends [opt] syntaxError
  | number {opt number : CString} {rest : List CString} {f : ExpiryFlag}
      (flag : eqIgnoreCase opt f.word = true) (bad : ¬ PositiveNumber number) :
      Offends (opt :: number :: rest) notInRange
  | later {opt number err : CString} {rest : List CString} {f : ExpiryFlag}
      (flag : eqIgnoreCase opt f.word = true) (positive : PositiveNumber number) (more : Offends rest err) :
      Offends (opt :: number :: rest) err

/-- The expiry of the last pair, or the one there was when there is none. -/
def lastExpiry (now exp : UInt64) (ps : List (ExpiryFlag × ℤ)) : UInt64 :=
  match ps.getLast? with
  | none => exp
  | some (f,n) => f.stored now n.toNat.toUInt64

theorem isExpiryFlag_iff {opt : CString} :
    isExpiryFlag opt = true ↔ ∃ f : ExpiryFlag, eqIgnoreCase opt f.word = true := by
  simp only [isExpiryFlag,Bool.or_eq_true]
  constructor
  · rintro (((h | h) | h) | h)
    · exact ⟨.EX,h⟩
    · exact ⟨.PX,h⟩
    · exact ⟨.EXAT,h⟩
    · exact ⟨.PXAT,h⟩
  · rintro ⟨f,h⟩
    cases f
    · exact Or.inl (Or.inl (Or.inl h))
    · exact Or.inl (Or.inl (Or.inr h))
    · exact Or.inl (Or.inr h)
    · exact Or.inr h

theorem expiryOf_flag {opt : CString} {f : ExpiryFlag} (h : eqIgnoreCase opt f.word = true) (now n : UInt64) :
    expiryOf opt now n = f.stored now n := by
  have hne : ∀ g : ExpiryFlag, g ≠ f → eqIgnoreCase opt g.word = false := by
    intro g hg
    by_contra hw
    have hu := eqIgnoreCase_unique (by simpa using hw) h
    revert hg hu
    cases g <;> cases f <;> decide
  have hword : lit "EX" = ExpiryFlag.EX.word ∧ lit "PX" = ExpiryFlag.PX.word ∧
    lit "EXAT" = ExpiryFlag.EXAT.word := ⟨rfl,rfl,rfl⟩
  rw [expiryOf,hword.1,hword.2.1,hword.2.2]
  cases f <;> simp [h,hne,ExpiryFlag.stored]

theorem acceptsNumber_iff {s : CString} : acceptsNumber s = true ↔ PositiveNumber s := by
  simp [acceptsNumber,PositiveNumber]

theorem lastExpiry_cons (now exp : UInt64) (f : ExpiryFlag) (n : ℤ) (ps : List (ExpiryFlag × ℤ)) :
    lastExpiry now exp ((f,n) :: ps) = lastExpiry now (f.stored now n.toNat.toUInt64) ps := by
  cases ps using List.reverseRecOn with
  | nil => rfl
  | append_singleton ps p => rw [lastExpiry,lastExpiry,← List.cons_append,List.getLast?_concat,List.getLast?_concat]

/-- On a list of the grammar the loop ends with the expiry of the last pair. -/
theorem options_of_pairs {opts : List CString} {ps : List (ExpiryFlag × ℤ)} (h : OptionPairs opts ps)
    (now exp : UInt64) : options now opts exp = .ok (lastExpiry now exp ps) := by
  induction h generalizing exp with
  | nil => rfl
  | cons flag positive more ih =>
    have hf := isExpiryFlag_iff.mpr ⟨_,flag⟩
    have hn := acceptsNumber_iff.mpr positive
    rw [options,if_neg (not_not.mpr hf),if_neg (not_not.mpr hn),ih,expiryOf_flag flag,lastExpiry_cons]

/-- On any other list it stops with the error of the option that offends. -/
theorem options_of_offends {opts : List CString} {err : CString} (h : Offends opts err)
    (now exp : UInt64) : options now opts exp = .error err := by
  induction h generalizing exp with
  | unknown word =>
    refine options_of_notFlag (fun hf => ?_) now _ exp
    obtain ⟨f,hf⟩ := isExpiryFlag_iff.mp hf
    simp [word f] at hf
  | dangling flag => rfl
  | number flag bad =>
    have hf := isExpiryFlag_iff.mpr ⟨_,flag⟩
    rw [options,if_neg (not_not.mpr hf),if_pos fun hn => bad (acceptsNumber_iff.mp hn)]
  | later flag positive more ih =>
    have hf := isExpiryFlag_iff.mpr ⟨_,flag⟩
    have hn := acceptsNumber_iff.mpr positive
    rw [options,if_neg (not_not.mpr hf),if_neg (not_not.mpr hn),ih]

theorem pairs_or_offends : ∀ opts : List CString, (∃ ps, OptionPairs opts ps) ∨ ∃ err, Offends opts err
  | [] => Or.inl ⟨[],.nil⟩
  | [opt] => by
    by_cases hf : ∃ f : ExpiryFlag, eqIgnoreCase opt f.word = true
    · obtain ⟨f,hf⟩ := hf
      exact Or.inr ⟨_,.dangling hf⟩
    · exact Or.inr ⟨_,.unknown fun f => by simpa using fun h => hf ⟨f,h⟩⟩
  | opt :: number :: rest => by
    by_cases hf : ∃ f : ExpiryFlag, eqIgnoreCase opt f.word = true
    · obtain ⟨f,hf⟩ := hf
      by_cases hn : PositiveNumber number
      · rcases pairs_or_offends rest with ⟨ps,hp⟩ | ⟨err,he⟩
        · exact Or.inl ⟨_,.cons hf hn hp⟩
        · exact Or.inr ⟨err,.later hf hn he⟩
      · exact Or.inr ⟨_,.number hf hn⟩
    · exact Or.inr ⟨_,.unknown fun f => by simpa using fun h => hf ⟨f,h⟩⟩

/-- On every array [SET,k,v] with options: OK exactly for the lists of the grammar, and then
the key is bound with the expiry of the last pair; else an error, and nothing is done. Each
string is read up to its first NUL. `Sized` says which arrays are sent. -/
def SetGrammar (Sized : List Bytes → Prop) : Prop :=
  ∀ (db : HashTab) (now : UInt64) (set key value : Bytes) (opts : List Bytes),
    commandOf (cut set) = some .SET → Sized (set :: key :: value :: opts) →
    ∃ db' reply, serve db (now,set :: key :: value :: opts) = .ok (db',reply) ∧
      (reply.bytes = ascii "+OK\r\n" ↔ ∃ ps, OptionPairs (opts.map cut) ps) ∧
      (∀ ps, OptionPairs (opts.map cut) ps →
        lookup db' (cut key) = some ⟨cut key,cut value,lastExpiry now 0 ps⟩ ∧
        ∀ k, k ≠ cut key → lookup db' k = lookup db k) ∧
      ((¬ ∃ ps, OptionPairs (opts.map cut) ps) →
        db' = db ∧ ∃ err, Offends (opts.map cut) err ∧ reply = respError (some err))

theorem perform_set_pairs {db : HashTab} {now : UInt64} {w key value : CString} {opts : List CString}
    {ps : List (ExpiryFlag × ℤ)} (hw : commandOf w = some .SET) (hp : OptionPairs opts ps) :
    perform db now (w :: key :: value :: opts) =
      .ok (dbSetEx db key value (lastExpiry now 0 ps),respSimple (some (lit "OK"))) := by
  simp only [perform,hw,options_of_pairs hp now]

theorem perform_set_offends {db : HashTab} {now : UInt64} {w key value err : CString} {opts : List CString}
    (hw : commandOf w = some .SET) (he : Offends opts err) :
    perform db now (w :: key :: value :: opts) = .ok (db,respError (some err)) := by
  simp only [perform,hw,options_of_offends he now]

theorem lastExpiry_unique {opts : List CString} {ps qs : List (ExpiryFlag × ℤ)} (hp : OptionPairs opts ps)
    (hq : OptionPairs opts qs) (now : UInt64) : lastExpiry now 0 ps = lastExpiry now 0 qs :=
  Except.ok.inj ((options_of_pairs hp now 0).symm.trans (options_of_pairs hq now 0))

theorem setGrammar_fits : SetGrammar fun args => CountFits args ∧ LengthsFit args := by
  intro db now set key value opts hset hsized
  have hserve := serve_fits hsized.1 hsized.2 db now
  simp only [List.map_cons] at hserve
  rcases pairs_or_offends (opts.map cut) with ⟨ps,hp⟩ | ⟨err,he⟩
  · refine ⟨_,_,hserve.trans (perform_set_pairs hset hp),⟨fun _ => ⟨ps,hp⟩,fun _ => rfl⟩,?_,?_⟩
    · intro qs hq
      rw [lastExpiry_unique hq hp now]
      exact ⟨lookup_install_self,fun k hk => lookup_install_other hk⟩
    · exact fun hn => absurd ⟨ps,hp⟩ hn
  · have hn : ¬ ∃ ps, OptionPairs (opts.map cut) ps := by
      rintro ⟨ps,hp⟩
      have ho := (options_of_pairs hp now 0).symm.trans (options_of_offends he now 0)
      contradiction
    refine ⟨db,_,hserve.trans (perform_set_offends hset he),⟨fun hok => ?_,fun h => absurd h hn⟩,?_,?_⟩
    · exact absurd (show some (45 : UInt8) = some 43 from congrArg List.head? hok) (by decide)
    · exact fun ps hp => absurd ⟨ps,hp⟩ hn
    · exact fun _ => ⟨rfl,err,he,rfl⟩

theorem setGrammar_fits_pairs : ∃ db' reply,
    serve emptyTab (1000,[ascii "SET",ascii "k",ascii "v",ascii "ex",ascii "5",ascii "Pxat",ascii "+7"]) =
      .ok (db',reply) ∧ lookup db' (lit "k") = some ⟨lit "k",lit "v",7⟩ := by
  obtain ⟨db',reply,hs,_,hp,_⟩ := setGrammar_fits emptyTab 1000 (ascii "SET") (ascii "k") (ascii "v")
    [ascii "ex",ascii "5",ascii "Pxat",ascii "+7"] (by decide) ⟨by decide,by decide⟩
  refine ⟨db',reply,hs,(hp _ (.cons (f:=.EX) (by decide) (by decide)
    (.cons (f:=.PXAT) (by decide) (by decide) .nil))).1.trans ?_⟩
  decide

theorem not_setGrammar_long (v : Bytes) (hv : v.length = 2^31) : ¬ SetGrammar CountFits := by
  intro h
  obtain ⟨_,_,hok,_⟩ := h emptyTab 0 (ascii "SET") (ascii "k") v [] (by decide) (by simp [CountFits,INT_MAX])
  have hstop := serve_tooLong emptyTab 0 [ascii "SET",ascii "k"] (by simp [CountFits,INT_MAX])
    (by decide) hv
  have hfault := hstop.symm.trans hok
  contradiction

theorem not_setGrammar_many (opts : List Bytes) (ho : opts.length = 2^32) (hx : ∀ a ∈ opts, a = ascii "x") :
    ¬ SetGrammar LengthsFit := by
  intro h
  have hserve : serve emptyTab (0,ascii "SET" :: ascii "k" :: ascii "v" :: opts) =
      .ok (dbSetEx emptyTab (lit "k") (lit "v") 0,respSimple (some (lit "OK"))) :=
    (serve_tooMany emptyTab 0 [ascii "SET",ascii "k",ascii "v"] (by simp [CountFits,INT_MAX])
      (by decide) ho).trans rfl
  have hfit : LengthsFit (ascii "SET" :: ascii "k" :: ascii "v" :: opts) :=
    lengthsFit_copies [ascii "SET",ascii "k",ascii "v"] (by decide) hx
  obtain ⟨_,_,hok,hreply,_⟩ := h emptyTab 0 (ascii "SET") (ascii "k") (ascii "v") opts (by decide) hfit
  obtain ⟨rfl,rfl⟩ := Prod.mk.inj (Except.ok.inj (hserve.symm.trans hok))
  obtain ⟨ps,hps⟩ := hreply.mp rfl
  cases opts with
  | nil => simp at ho
  | cons a opts =>
    obtain rfl := hx a (by simp)
    have hflag : ∀ f : ExpiryFlag, eqIgnoreCase (cut (ascii "x")) f.word = false := by
      intro f
      cases f <;> decide
    rw [List.map_cons] at hps
    generalize opts.map cut = rest at hps
    cases hps with
    | cons flag => simp [hflag] at flag

/-- Both bounds are needed. -/
theorem setGrammar_needs_bounds :
    ¬ SetGrammar (fun _ => True) ∧ ¬ SetGrammar CountFits ∧ ¬ SetGrammar LengthsFit := by
  have hlong := not_setGrammar_long (letters (2^31)).bytes (letters_length _)
  refine ⟨fun h => hlong fun db now set key value opts hset _ => h db now set key value opts hset trivial,
    hlong,?_⟩
  exact not_setGrammar_many (List.replicate (2^32) (ascii "x")) List.length_replicate
    fun a ha => List.eq_of_mem_replicate ha

theorem positiveNumber_denotes {s : CString} {n : ℕ} (hn : 0 < n) (h : Denotes s.bytes n) :
    PositiveNumber s ∧ (strtoll s).value.toNat = min n (2^63-1) := by
  have hs : strtoll s = ⟨saturate n,s.length,_⟩ := strtol_denotes h
  rw [PositiveNumber,hs]
  refine ⟨⟨rfl,saturate_pos.mpr (by omega)⟩,?_⟩
  simp only [saturate,LONG_MIN,LONG_MAX]
  omega

/-- The arithmetic of `uint64_t` keeps the instant modulo 2^64. -/
theorem toNat_stored (f : ExpiryFlag) (now : UInt64) {n : ℕ} (hn : n < 2^63) :
    (f.stored now n.toUInt64).toNat = f.instant now.toNat n % 2^64 := by
  have hu : n.toUInt64.toNat = n := Nat.mod_eq_of_lt (by omega)
  have hthousand : (1000 : UInt64).toNat = 1000 := rfl
  cases f <;>
    simp only [ExpiryFlag.stored,ExpiryFlag.instant,UInt64.toNat_add,UInt64.toNat_mul,hu,hthousand]
  all_goals omega

theorem instant_lt (f : ExpiryFlag) (now : ℕ) {m n : ℕ} (h : m < n) :
    f.instant now m < f.instant now n := by
  cases f <;> simp only [ExpiryFlag.instant] <;> omega

theorem toNat_stored_eq_iff (f : ExpiryFlag) (now : UInt64) {n : ℕ} (h : f.instant now.toNat n < 2^64) :
    (f.stored now (min n (2^63-1)).toUInt64).toNat = f.instant now.toNat n ↔ n ≤ 2^63-1 := by
  rw [toNat_stored f now (by omega)]
  by_cases hn : n ≤ 2^63-1
  · rw [min_eq_left hn,Nat.mod_eq_of_lt h]
    exact iff_of_true rfl hn
  · have hlt := instant_lt f now.toNat (m:=min n (2^63-1)) (n:=n) (by omega)
    rw [Nat.mod_eq_of_lt (hlt.trans h)]
    exact iff_of_false hlt.ne hn

theorem OptionPairs.append {opts opts' : List CString} {ps qs : List (ExpiryFlag × ℤ)}
    (h : OptionPairs opts ps) (h' : OptionPairs opts' qs) : OptionPairs (opts ++ opts') (ps ++ qs) := by
  induction h with
  | nil => exact h'
  | cons flag positive more ih => exact .cons flag positive ih

/-- The SET is accepted and stores the very instant asked for, as an unbounded number; where
that is no `uint64_t`, the SET is refused. -/
def ExpiryExact (db : HashTab) (now : UInt64) (request : Bytes) (key : CString) (f : ExpiryFlag) (n : ℕ) :
    Prop :=
  ∃ db' reply, execCommand db now request = .ok (db',reply) ∧
    if f.instant now.toNat n < 2^64 then
      reply.bytes = ascii "+OK\r\n" ∧
        ∃ e, lookup db' key = some e ∧ e.expires_at_ms.toNat = f.instant now.toNat n
    else reply.bytes.head? = some 45

theorem execCommand_set_last (db : HashTab) (now : UInt64) {request : Bytes} {count : ℤ}
    {w key value opt number : CString} {opts : List CString} {ps : List (ExpiryFlag × ℤ)} {f : ExpiryFlag}
    {n : ℕ} (hw : commandOf w = some .SET)
    (hp : parse request =
      .ok (some (.arrays count ((w :: key :: value :: (opts ++ [opt,number])).map some))))
    (hopts : OptionPairs opts ps) (hflag : eqIgnoreCase opt f.word = true) (hn : 0 < n)
    (hd : Denotes number.bytes n) :
    execCommand db now request =
      .ok (dbSetEx db key value (f.stored now (min n (2^63-1)).toUInt64),respSimple (some (lit "OK"))) := by
  obtain ⟨hpos,hval⟩ := positiveNumber_denotes hn hd
  have hpairs := hopts.append (.cons hflag hpos .nil)
  have hlast : lastExpiry now 0 (ps ++ [(f,(strtoll number).value)]) =
      f.stored now (min n (2^63-1)).toUInt64 := by
    rw [lastExpiry,List.getLast?_concat]
    exact congrArg (fun k : ℕ => f.stored now k.toUInt64) hval
  have hi : Initialised (.arrays count ((w :: key :: value :: (opts ++ [opt,number])).map some)) := by
    rintro _ _ ⟨⟩
    exact ⟨_,rfl,by simpa using parse_arrays_length hp⟩
  have hlen := parse_arrays_length hp
  rw [List.length_map] at hlen
  rw [execCommand_of_parse hp,execValue_initialised hi,dispatch_args hlen,perform_set_pairs hw hpairs,hlast]

/-- The stored instant is the one asked for exactly when the number is a `long long` and the
instant a `uint64_t`. -/
theorem expiryExact_iff (db : HashTab) (now : UInt64) (request : Bytes) (count : ℤ)
    (w key value opt number : CString) (opts : List CString) (ps : List (ExpiryFlag × ℤ)) (f : ExpiryFlag)
    (n : ℕ) (hw : commandOf w = some .SET)
    (hp : parse request =
      .ok (some (.arrays count ((w :: key :: value :: (opts ++ [opt,number])).map some))))
    (hopts : OptionPairs opts ps) (hflag : eqIgnoreCase opt f.word = true) (hn : 0 < n)
    (hd : Denotes number.bytes n) :
    ExpiryExact db now request key f n ↔ (n : ℤ) ≤ LONG_MAX ∧ f.instant now.toNat n < 2^64 := by
  have hexec := execCommand_set_last db now hw hp hopts hflag hn hd
  have hlong : (n : ℤ) ≤ LONG_MAX ↔ n ≤ 2^63-1 := by
    simp only [LONG_MAX]
    omega
  rw [hlong]
  constructor
  · rintro ⟨db',reply,hok,h⟩
    obtain ⟨rfl,rfl⟩ := Prod.mk.inj (Except.ok.inj (hexec.symm.trans hok))
    split_ifs at h with hrange
    · obtain ⟨_,e,he,hexact⟩ := h
      obtain rfl := Option.some.inj (lookup_install_self.symm.trans he)
      exact ⟨(toNat_stored_eq_iff f now hrange).mp hexact,hrange⟩
    · exact absurd h (by decide)
  · rintro ⟨hle,hrange⟩
    refine ⟨_,_,hexec,?_⟩
    rw [if_pos hrange]
    exact ⟨rfl,_,lookup_install_self,(toNat_stored_eq_iff f now hrange).mpr hle⟩

theorem expiryExact_iff_seconds :
    ExpiryExact emptyTab 1000
      (encode [ascii "SET",ascii "k",ascii "v",ascii "PX",ascii "1",ascii "EX",ascii "60"] ++ [0]) (lit "k") .EX
      60 :=
  (expiryExact_iff emptyTab 1000
    (encode [ascii "SET",ascii "k",ascii "v",ascii "PX",ascii "1",ascii "EX",ascii "60"] ++ [0]) 7 (lit "SET")
    (lit "k") (lit "v") (lit "EX") (lit "60") [lit "PX",lit "1"] [(.PX,1)] .EX 60 (by decide) rfl
    (.cons (f:=.PX) (by decide) (by decide) .nil) (by decide) (by decide)
    (readNumeral_eq_some_length.mp (by decide))).mpr (by decide)

/-- EXAT with 2^61 seconds, which are 125*2^64 milliseconds, is stored as no expiry at all. -/
theorem set_expiry_wraps :
    ¬ (∀ db now request count w key value opt number opts ps f n,
      commandOf w = some .SET →
      parse request = .ok (some (.arrays count ((w :: key :: value :: (opts ++ [opt,number])).map some))) →
      OptionPairs opts ps → eqIgnoreCase opt (ExpiryFlag.word f) = true → 0 < n →
      Denotes number.bytes (n : ℕ) → ExpiryExact db now request key f n) ∧
    execCommand emptyTab 1000
        (encode [ascii "SET",ascii "k",ascii "v",ascii "EXAT",ascii "2305843009213693952"] ++ [0]) =
      .ok (dbSet emptyTab (lit "k") (lit "v"),respSimple (some (lit "OK"))) := by
  have hd : Denotes (lit "2305843009213693952").bytes ((2^61 : ℕ) : ℤ) :=
    readNumeral_eq_some_length.mp (by decide)
  have hp : parse (encode [ascii "SET",ascii "k",ascii "v",ascii "EXAT",ascii "2305843009213693952"] ++ [0]) =
      .ok (some (.arrays 5 ((lit "SET" :: lit "k" :: lit "v" ::
        ([] ++ [lit "EXAT",lit "2305843009213693952"])).map some))) := rfl
  have hexec := execCommand_set_last emptyTab 1000 (by decide) hp .nil
    (f:=.EXAT) (by decide) (by decide) hd
  have hzero : ExpiryFlag.EXAT.stored 1000 (min (2^61) (2^63-1) : ℕ).toUInt64 = 0 := by decide
  rw [hzero] at hexec
  refine ⟨fun h => ?_,hexec⟩
  obtain ⟨db',reply,hok,hexact⟩ := h emptyTab 1000 _ 5 _ _ _ _ _ [] [] .EXAT (2^61) (by decide) hp .nil
    (by decide) (by decide) hd
  obtain ⟨rfl,rfl⟩ := Prod.mk.inj (Except.ok.inj (hexec.symm.trans hok))
  rw [if_neg (by decide)] at hexact
  exact absurd hexact (by decide)

end RedisSetOptions
end CodingChallenges
