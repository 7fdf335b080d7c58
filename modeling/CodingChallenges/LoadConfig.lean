import CodingChallenges.NumberText
import CodingChallenges.Runs

/-! How the load balancer is configured: the options of `main` and `add_backend`.
Every option has an argument, so `getopt` takes one option from each word, with its argument behind
it in the word or in the next one. A `getopt` that permutes looks for options behind an operand too,
another one stops there. What `getopt` prints itself is left out. -/
namespace CodingChallenges
namespace LoadConfig

open CText NumberText Runs

def MAX_BACKENDS : ℕ := 64

/-- `sizeof(backends[0].host)` and `sizeof(health_path)`. -/
def HOST_SZ : ℕ := 64
def HEALTH_PATH_SZ : ℕ := 256

structure Backend where
  host : CString
  port : ℤ
  healthy : ℕ
  deriving DecidableEq

structure Config where
  listen_port : ℤ
  backends : List Backend
  health_path : CString
  health_period : ℤ
  deriving DecidableEq

def initial : Config := ⟨8080,[],lit "/health",10⟩

/-- The index of the last `c`. -/
def lastIndex (c : UInt8) : Bytes → Option ℕ
  | [] => none
  | b :: s =>
    match lastIndex c s with
    | some i => some (i+1)
    | none => if b = c then some 0 else none

def strrchr (s : CString) (c : UInt8) : Option ℕ := lastIndex c s.bytes

def addBackend (cfg : Config) (hostport : CString) : Config × Bytes :=
  if MAX_BACKENDS ≤ cfg.backends.length then (cfg,ascii "too many backends\n")
  else
    match strrchr hostport 58 with
    | none => (cfg,ascii "bad backend '" ++ hostport.bytes ++ ascii "' (need host:port)\n")
    | some colon =>
      let hlen := if HOST_SZ ≤ colon then HOST_SZ-1 else colon
      ({ cfg with
          backends := cfg.backends ++ [⟨hostport.take hlen,atoi (hostport.drop (colon+1)),1⟩] },[])

/-- What a word is to `getopt`: the end of the options, an operand, no option that there is, or an
option with its argument or without. -/
inductive Word
  | ends
  | operand
  | unknown
  | attached (c : UInt8) (optarg : CString)
  | apart (c : UInt8)

def wordOf (arg : CString) : Word :=
  match arg.bytes with
  | [] => .operand
  | b :: rest =>
    if b ≠ 45 then .operand
    else
      match rest with
      | [] => .operand
      | c :: _ =>
        if arg = lit "--" then .ends
        else if c ∈ ascii "pbht" then
          if arg.length = 2 then .apart c else .attached c (arg.drop 2)
        else .unknown

def setOption (cfg : Config) (c : UInt8) (optarg : CString) : Config × Bytes :=
  if c = 112 then ({ cfg with listen_port := atoi optarg },[])
  else if c = 98 then addBackend cfg optarg
  else if c = 104 then ({ cfg with health_path := optarg.take (HEALTH_PATH_SZ-1) },[])
  else ({ cfg with health_period := atoi optarg },[])

/-- `main` returns, or starts its threads; either way it has printed on standard error. -/
inductive Outcome
  | returns (status : ℕ) (printed : Bytes)
  | serves (cfg : Config) (printed : Bytes)
  deriving DecidableEq

def usage (name : CString) : Bytes :=
  ascii "usage: " ++ name.bytes ++ ascii " -p port -b host:port [-b host:port ...] [-h /health] [-t seconds]\n"

/-- `main` behind the options. -/
def start (cfg : Config) (printed : Bytes) : Outcome :=
  if cfg.backends.length = 0 then
    .returns 1 (printed ++ ascii "error: provide at least one -b host:port\n")
  else .serves cfg printed

/-- The loop over the options; `name` is `argv[0]`. -/
def readOptions (permutes : Bool) (name : CString) : Config → Bytes → List CString → Outcome
  | cfg, printed, [] => start cfg printed
  | cfg, printed, arg :: args =>
    match wordOf arg with
    | .ends => start cfg printed
    | .operand => if permutes then readOptions permutes name cfg printed args else start cfg printed
    | .unknown => .returns 1 (printed ++ usage name)
    | .attached c optarg =>
      readOptions permutes name (setOption cfg c optarg).1 (printed ++ (setOption cfg c optarg).2) args
    | .apart c =>
      match args with
      | [] => .returns 1 (printed ++ usage name)
      | optarg :: args =>
        readOptions permutes name (setOption cfg c optarg).1 (printed ++ (setOption cfg c optarg).2) args

def main (permutes : Bool) (name : CString) (args : List CString) : Outcome :=
  readOptions permutes name initial [] args

inductive Setting
  | port (z : ℤ)
  | backend (host : CString) (z : ℤ)
  | path (s : CString)
  | period (z : ℤ)
  deriving DecidableEq

def Setting.letter : Setting → UInt8
  | .port _ => 112
  | .backend _ _ => 98
  | .path _ => 104
  | .period _ => 116

def Setting.argument : Setting → CString
  | .port z => intText z
  | .backend host z => host ++ lit ":" ++ intText z
  | .path s => s
  | .period z => intText z

def InInt (z : ℤ) : Prop := INT_MIN ≤ z ∧ z ≤ INT_MAX

instance (z : ℤ) : Decidable (InInt z) := inferInstanceAs (Decidable (_ ∧ _))

/-- The numbers are in `int` and the texts fit their buffers. -/
def Setting.Fits : Setting → Prop
  | .port z => InInt z
  | .backend host z => host.length < HOST_SZ ∧ InInt z
  | .path s => s.length < HEALTH_PATH_SZ
  | .period z => InInt z

def Setting.flag (s : Setting) : CString := ⟨[45,s.letter],by cases s <;> simp [Setting.letter]⟩

instance : (s : Setting) → Decidable s.Fits
  | .port z => inferInstanceAs (Decidable (InInt z))
  | .backend _ _ => inferInstanceAs (Decidable (_ ∧ _))
  | .path _ => inferInstanceAs (Decidable (_ < _))
  | .period z => inferInstanceAs (Decidable (InInt z))

/-- The words of an option: its argument is a word of its own, or stands behind the letter. -/
def Setting.words (apart : Bool) (s : Setting) : List CString :=
  if apart then [s.flag,s.argument] else [s.flag ++ s.argument]

def Setting.port? : Setting → Option ℤ
  | .port z => some z
  | _ => none

def Setting.backend? : Setting → Option Backend
  | .backend host z => some ⟨host,z,1⟩
  | _ => none

def Setting.path? : Setting → Option CString
  | .path s => some s
  | _ => none

def Setting.period? : Setting → Option ℤ
  | .period z => some z
  | _ => none

/-- The last setting of a kind counts, and the backends are the first that there is room for. -/
def configOf (cfg : Config) (settings : List Setting) : Config where
  listen_port := (settings.filterMap Setting.port?).getLast?.getD cfg.listen_port
  backends := (cfg.backends ++ settings.filterMap Setting.backend?).take MAX_BACKENDS
  health_path := (settings.filterMap Setting.path?).getLast?.getD cfg.health_path
  health_period := (settings.filterMap Setting.period?).getLast?.getD cfg.health_period

/-- No option is found any more. -/
def Finished (permutes : Bool) : List CString → Prop
  | [] => True
  | arg :: args =>
    match wordOf arg with
    | .ends => True
    | .operand => permutes = true → Finished permutes args
    | _ => False

variable {cfg : Config} {s : Setting} {permutes : Bool} {name : CString} {printed : Bytes}

theorem lastIndex_none {c : UInt8} {w : Bytes} (h : c ∉ w) : lastIndex c w = none := by
  induction w with
  | nil => rfl
  | cons b w ih =>
    rw [List.mem_cons,not_or] at h
    rw [lastIndex,ih h.2,if_neg (Ne.symm h.1)]

theorem lastIndex_append {c : UInt8} {w : Bytes} (v : Bytes) (h : c ∉ w) :
    lastIndex c (v ++ c :: w) = some v.length := by
  induction v with
  | nil => rw [List.nil_append,lastIndex,lastIndex_none h,if_pos rfl,List.length_nil]
  | cons b v ih => rw [List.cons_append,lastIndex,ih,List.length_cons]

theorem colon_notMem_decimal (z : ℤ) : 58 ∉ decimal z := by
  have hnat : 58 ∉ decimalNat z.natAbs := fun h => absurd (isDigit_of_mem_decimalNat h) (by decide)
  unfold decimal
  split_ifs <;> simp [hnat]

theorem atoi_intText {z : ℤ} (h : InInt z) : atoi (intText z) = z := atoi_denotes (denotes_decimal z) h.1 h.2

theorem atoi_inInt (s : CString) : InInt (atoi s) :=
  ⟨Int.le_bmod (by norm_num),Int.le_of_lt_add_one (Int.bmod_lt (by norm_num))⟩

theorem addBackend_full (h : MAX_BACKENDS ≤ cfg.backends.length) (hostport : CString) :
    addBackend cfg hostport = (cfg,ascii "too many backends\n") := if_pos h

/-- A host that fits is kept, colons and all, and the port behind the last one is read back. -/
theorem addBackend_argument (h : ¬ MAX_BACKENDS ≤ cfg.backends.length) {host : CString} {z : ℤ}
    (hhost : host.length < HOST_SZ) (hz : InInt z) :
    addBackend cfg (host ++ lit ":" ++ intText z) =
      ({ cfg with backends := cfg.backends ++ [⟨host,z,1⟩] },[]) := by
  have hbytes : (host ++ lit ":" ++ intText z).bytes = host.bytes ++ 58 :: decimal z := by
    rw [CString.append_bytes,CString.append_bytes,List.append_assoc]
    rfl
  have hcolon : strrchr (host ++ lit ":" ++ intText z) 58 = some host.length := by
    rw [strrchr,hbytes]
    exact lastIndex_append host.bytes (colon_notMem_decimal z)
  have htake : (host ++ lit ":" ++ intText z).take host.length = host := by
    ext1
    rw [CString.take_bytes,hbytes]
    exact List.take_left
  have hdrop : (host ++ lit ":" ++ intText z).drop (host.length+1) = intText z := by
    ext1
    rw [CString.drop_bytes,hbytes,← List.drop_drop,show host.length = host.bytes.length from rfl,List.drop_left]
    rfl
  rw [addBackend,if_neg h,hcolon]
  simp only [if_neg (Nat.not_le.mpr hhost),htake,hdrop,atoi_intText hz]

theorem wordOf_apart (s : Setting) : wordOf s.flag = .apart s.letter := by
  cases s <;> rfl

theorem wordOf_attached (hne : s.argument.bytes ≠ []) :
    wordOf (s.flag ++ s.argument) = .attached s.letter s.argument := by
  have hbytes : (s.flag ++ s.argument).bytes = 45 :: s.letter :: s.argument.bytes := rfl
  have hletter : s.letter ∈ ascii "pbht" ∧ s.letter ≠ 45 := by cases s <;> simp [Setting.letter,ascii]
  have hends : s.flag ++ s.argument ≠ lit "--" := by
    intro h
    have hb := congrArg CString.bytes h
    rw [hbytes,show (lit "--").bytes = [45,45] from rfl,List.cons.injEq,List.cons.injEq] at hb
    exact hletter.2 hb.2.1
  have hlen : ¬ (s.flag ++ s.argument).length = 2 := by
    intro h
    rw [CString.length,hbytes] at h
    exact hne (List.length_eq_zero_iff.mp (by simpa using h))
  have hdrop : (s.flag ++ s.argument).drop 2 = s.argument := by
    ext1
    rw [CString.drop_bytes,hbytes]
    rfl
  rw [wordOf,hbytes]
  simp only [ne_eq,not_true_eq_false,if_false,if_neg hends,if_pos hletter.1,if_neg hlen,hdrop]

def Setting.apply (cfg : Config) : Setting → Config × Bytes
  | .port z => ({ cfg with listen_port := z },[])
  | .backend host z =>
    if MAX_BACKENDS ≤ cfg.backends.length then (cfg,ascii "too many backends\n")
    else ({ cfg with backends := cfg.backends ++ [⟨host,z,1⟩] },[])
  | .path s => ({ cfg with health_path := s },[])
  | .period z => ({ cfg with health_period := z },[])

theorem setOption_argument (h : s.Fits) : setOption cfg s.letter s.argument = s.apply cfg := by
  cases s with
  | port z => exact congrArg (fun z => (({ cfg with listen_port := z } : Config),([] : Bytes))) (atoi_intText h)
  | backend host z =>
    by_cases hfull : MAX_BACKENDS ≤ cfg.backends.length
    · exact (addBackend_full hfull _).trans (if_pos hfull).symm
    · exact (addBackend_argument hfull h.1 h.2).trans (if_neg hfull).symm
  | path s =>
    have htake : s.take (HEALTH_PATH_SZ-1) = s := by
      ext1
      exact List.take_of_length_le (Nat.le_pred_of_lt h)
    exact congrArg (fun s => (({ cfg with health_path := s } : Config),([] : Bytes))) htake
  | period z =>
    exact congrArg (fun z => (({ cfg with health_period := z } : Config),([] : Bytes))) (atoi_intText h)

structure Spelled where
  setting : Setting
  apart : Bool
  fits : setting.Fits
  whole : apart = false → setting.argument.bytes ≠ []

theorem readOptions_words (x : Spelled) (args : List CString) :
    readOptions permutes name cfg printed (x.setting.words x.apart ++ args) =
      readOptions permutes name (x.setting.apply cfg).1 (printed ++ (x.setting.apply cfg).2) args := by
  obtain ⟨s,apart,hfits,hwhole⟩ := x
  rw [← setOption_argument hfits]
  cases apart with
  | true =>
    show readOptions permutes name cfg printed (s.flag :: s.argument :: args) = _
    rw [readOptions,wordOf_apart]
  | false =>
    show readOptions permutes name cfg printed ((s.flag ++ s.argument) :: args) = _
    rw [readOptions,wordOf_attached (hwhole rfl)]

theorem readOptions_spelled (l : List Spelled) (args : List CString) :
    readOptions permutes name cfg printed (l.flatMap (fun x => x.setting.words x.apart) ++ args) =
      readOptions permutes name (follow Setting.apply cfg (l.map Spelled.setting)).1
        (printed ++ (follow Setting.apply cfg (l.map Spelled.setting)).2.flatten) args := by
  induction l generalizing cfg printed with
  | nil => simp [follow]
  | cons x l ih =>
    rw [List.flatMap_cons,List.append_assoc,readOptions_words,ih,List.map_cons,follow]
    simp [List.append_assoc]

theorem length_apply (h : cfg.backends.length ≤ MAX_BACKENDS) (s : Setting) :
    (s.apply cfg).1.backends.length ≤ MAX_BACKENDS := by
  cases s with
  | backend host z =>
    rw [Setting.apply]
    split_ifs with hfull
    · exact h
    · rw [List.length_append]
      exact Nat.not_le.mp hfull
  | _ => exact h

theorem configOf_nil (h : cfg.backends.length ≤ MAX_BACKENDS) : configOf cfg [] = cfg := by
  simp [configOf,List.take_of_length_le h]

theorem configOf_cons (cfg : Config) (s : Setting) (l : List Setting) :
    configOf cfg (s :: l) = configOf (s.apply cfg).1 l := by
  cases s with
  | backend host z =>
    rw [Setting.apply]
    split_ifs with hfull
    · simp [configOf,Setting.port?,Setting.backend?,Setting.path?,Setting.period?,
        List.take_append_of_le_length hfull]
    · simp [configOf,Setting.port?,Setting.backend?,Setting.path?,Setting.period?]
  | _ =>
    simp [configOf,Setting.apply,Setting.port?,Setting.backend?,Setting.path?,Setting.period?,
      List.getLast?_cons,List.filterMap_cons]

def complaints (n : ℕ) : Bytes := (List.replicate n (ascii "too many backends\n")).flatten

theorem follow_apply (h : cfg.backends.length ≤ MAX_BACKENDS) (l : List Setting) :
    (follow Setting.apply cfg l).1 = configOf cfg l ∧
      (follow Setting.apply cfg l).2.flatten =
        complaints (cfg.backends.length+(l.filterMap Setting.backend?).length-MAX_BACKENDS) := by
  induction l generalizing cfg with
  | nil =>
    refine ⟨(configOf_nil h).symm,?_⟩
    rw [List.filterMap_nil,List.length_nil,Nat.add_zero,Nat.sub_eq_zero_of_le h]
    rfl
  | cons s l ih =>
    obtain ⟨hcfg,hprinted⟩ := ih (length_apply h s)
    refine ⟨by rw [follow,configOf_cons]; exact hcfg,?_⟩
    rw [follow,List.flatten_cons,hprinted]
    cases s with
    | backend host z =>
      have hlen : ((Setting.backend host z :: l).filterMap Setting.backend?).length =
          (l.filterMap Setting.backend?).length+1 := rfl
      rw [hlen,Setting.apply]
      split_ifs with hfull
      · rw [show cfg.backends.length+((l.filterMap Setting.backend?).length+1)-MAX_BACKENDS =
          cfg.backends.length+(l.filterMap Setting.backend?).length-MAX_BACKENDS+1 by omega,complaints,complaints,
          List.replicate_succ,List.flatten_cons]
      · simp only [List.length_append,List.length_cons,List.length_nil,List.nil_append]
        congr 1
        omega
    | _ => rfl

theorem main_spelled (permutes : Bool) (name : CString) (l : List Spelled) (args : List CString) :
    main permutes name (l.flatMap (fun x => x.setting.words x.apart) ++ args) =
      readOptions permutes name (configOf initial (l.map Spelled.setting))
        (complaints (((l.map Spelled.setting).filterMap Setting.backend?).length-MAX_BACKENDS)) args := by
  obtain ⟨hcfg,hprinted⟩ := follow_apply (show initial.backends.length ≤ MAX_BACKENDS by decide)
    (l.map Spelled.setting)
  rw [main,readOptions_spelled,hcfg,hprinted,List.nil_append,show initial.backends.length = 0 from rfl,Nat.zero_add]

theorem readOptions_finished {args : List CString} (h : Finished permutes args) :
    readOptions permutes name cfg printed args = start cfg printed := by
  induction args with
  | nil => rfl
  | cons arg args ih =>
    rw [Finished] at h
    rw [readOptions]
    split at h
    · rename_i hw
      rw [hw]
    · rename_i hw
      rw [hw]
      cases permutes with
      | false => rfl
      | true => exact ih (h rfl)
    · exact h.elim

/-- The command line in general: options in any order and either spelling, and behind them nothing that
counts as one. The last setting of a kind counts; of the backends those count that there is room for,
and each of the others is complained of; without a backend `main` returns. -/
theorem main_settings (name : CString) (l : List Spelled) {rest : List CString} (hrest : Finished permutes rest) :
    main permutes name (l.flatMap (fun x => x.setting.words x.apart) ++ rest) =
      start (configOf initial (l.map Spelled.setting))
        (complaints (((l.map Spelled.setting).filterMap Setting.backend?).length-MAX_BACKENDS)) := by
  rw [main_spelled,readOptions_finished hrest]

def sampleSettings : List Spelled :=
  [⟨.port 80,false,by decide,by decide⟩,⟨.backend (lit "::1") 8081,true,by decide,nofun⟩,
    ⟨.port (-5),true,by decide,nofun⟩]

/-- Behind an operand `getopt` looks for the end of the options. -/
theorem main_settings_sample :
    main true (lit "lb") (sampleSettings.flatMap (fun x => x.setting.words x.apart) ++ [lit "x",lit "--",lit "-b"]) =
      .serves ⟨-5,[⟨lit "::1",8081,1⟩],lit "/health",10⟩ [] := by
  have hrest : Finished true [lit "x",lit "--",lit "-b"] := fun _ => trivial
  rw [main_settings (lit "lb") sampleSettings hrest]
  rfl

/-- Where it does not permute, the option behind the operand is not read. -/
example : main false (lit "lb") [lit "stop",lit "-b",lit "a:1"] =
    .returns 1 (ascii "error: provide at least one -b host:port\n") ∧
  main true (lit "lb") [lit "stop",lit "-b",lit "a:1"] =
    .serves ⟨8080,[⟨lit "a",1,1⟩],lit "/health",10⟩ [] := by
  decide +kernel

structure Bounded (cfg : Config) : Prop where
  room : cfg.backends.length ≤ MAX_BACKENDS
  each : ∀ b ∈ cfg.backends, b.host.length < HOST_SZ ∧ InInt b.port ∧ b.healthy = 1
  path : cfg.health_path.length < HEALTH_PATH_SZ
  listen_port : InInt cfg.listen_port
  period : InInt cfg.health_period

theorem bounded_initial : Bounded initial := by
  refine ⟨by decide,fun b hb => ?_,by decide,by decide,by decide⟩
  cases hb

theorem take_length_lt {n k : ℕ} (s : CString) (h : n < k) : (s.take n).length < k :=
  (List.length_take_le n s.bytes).trans_lt h

theorem Bounded.addBackend (h : Bounded cfg) (hostport : CString) : Bounded (addBackend cfg hostport).1 := by
  unfold LoadConfig.addBackend
  split_ifs with hfull
  · exact h
  · split
    · exact h
    · rename_i colon _
      refine ⟨?_,?_,h.path,h.listen_port,h.period⟩
      · rw [List.length_append]
        exact Nat.not_le.mp hfull
      · intro b hb
        rcases List.mem_append.mp hb with hb | hb
        · exact h.each b hb
        · obtain rfl := List.mem_singleton.mp hb
          refine ⟨take_length_lt _ ?_,atoi_inInt _,rfl⟩
          split_ifs with hlen
          · decide
          · exact Nat.not_le.mp hlen

theorem Bounded.setOption (h : Bounded cfg) (c : UInt8) (optarg : CString) :
    Bounded (setOption cfg c optarg).1 := by
  unfold LoadConfig.setOption
  split_ifs
  · exact ⟨h.room,h.each,h.path,atoi_inInt _,h.period⟩
  · exact h.addBackend optarg
  · exact ⟨h.room,h.each,take_length_lt _ (by decide),h.listen_port,h.period⟩
  · exact ⟨h.room,h.each,h.path,h.listen_port,atoi_inInt _⟩

theorem start_bounded (h : Bounded cfg) {cfg' : Config} {printed' : Bytes}
    (hs : start cfg printed = .serves cfg' printed') : Bounded cfg' ∧ cfg'.backends ≠ [] := by
  rw [start] at hs
  split_ifs at hs with hnone
  cases hs
  exact ⟨h,fun he => hnone (by rw [he]; rfl)⟩

/-- Whatever the words are, the loop keeps the bounds. -/
theorem readOptions_bounded (h : Bounded cfg) {args : List CString} {cfg' : Config} {printed' : Bytes}
    (hs : readOptions permutes name cfg printed args = .serves cfg' printed') :
    Bounded cfg' ∧ cfg'.backends ≠ [] := by
  fun_induction readOptions permutes name cfg printed args with
  | case1 cfg printed => exact start_bounded h hs
  | case2 cfg printed arg args hw => exact start_bounded h hs
  | case3 cfg printed arg args hw hp ih => exact ih h hs
  | case4 cfg printed arg args hw hp => exact start_bounded h hs
  | case5 cfg printed arg args hw => cases hs
  | case6 cfg printed arg args c optarg hw ih => exact ih (h.setOption c optarg) hs
  | case7 cfg printed arg c hw => cases hs
  | case8 cfg printed arg c hw optarg args ih => exact ih (h.setOption c optarg) hs

def settingsOf (cfg : Config) : List Setting :=
  .port cfg.listen_port :: (cfg.backends.map fun b => .backend b.host b.port) ++
    [.path cfg.health_path,.period cfg.health_period]

theorem fits_settingsOf (h : Bounded cfg) {s : Setting} (hs : s ∈ settingsOf cfg) : s.Fits := by
  rcases List.mem_append.mp hs with hs | hs
  · rcases List.mem_cons.mp hs with rfl | hs
    · exact h.listen_port
    · obtain ⟨b,hb,rfl⟩ := List.mem_map.mp hs
      exact ⟨(h.each b hb).1,(h.each b hb).2.1⟩
  · rcases List.mem_cons.mp hs with rfl | hs
    · exact h.path
    · obtain rfl := List.mem_singleton.mp hs
      exact h.period

theorem backends_settingsOf (h : Bounded cfg) : (settingsOf cfg).filterMap Setting.backend? = cfg.backends := by
  have hback : (cfg.backends.map fun b => Setting.backend b.host b.port).filterMap Setting.backend? =
      cfg.backends := by
    rw [List.filterMap_map]
    refine (List.filterMap_congr fun b hb => ?_).trans List.filterMap_some
    obtain ⟨host,port,healthy⟩ := b
    exact congrArg (fun k => some (Backend.mk host port k)) (h.each _ hb).2.2.symm
  have hcut : (settingsOf cfg).filterMap Setting.backend? =
      (cfg.backends.map fun b => Setting.backend b.host b.port).filterMap Setting.backend? ++ [] :=
    List.filterMap_append
  rw [hcut,hback,List.append_nil]

theorem configOf_settingsOf (h : Bounded cfg) : configOf initial (settingsOf cfg) = cfg := by
  have hnone {α : Type} {f : Setting → Option α} (hf : ∀ host z, f (.backend host z) = none) :
      (cfg.backends.map fun b => Setting.backend b.host b.port).filterMap f = [] := by
    rw [List.filterMap_eq_nil_iff]
    intro s hs
    obtain ⟨b,-,rfl⟩ := List.mem_map.mp hs
    exact hf _ _
  have hport : (settingsOf cfg).filterMap Setting.port? = [cfg.listen_port] := by
    simp [settingsOf,List.filterMap_append,List.filterMap_cons,hnone (f:=Setting.port?) fun _ _ => rfl,Setting.port?]
  have hpath : (settingsOf cfg).filterMap Setting.path? = [cfg.health_path] := by
    simp [settingsOf,List.filterMap_append,List.filterMap_cons,hnone (f:=Setting.path?) fun _ _ => rfl,Setting.path?]
  have hperiod : (settingsOf cfg).filterMap Setting.period? = [cfg.health_period] := by
    simp [settingsOf,List.filterMap_append,List.filterMap_cons,hnone (f:=Setting.period?) fun _ _ => rfl,
      Setting.period?]
  rw [configOf,backends_settingsOf h,hport,hpath,hperiod,show initial.backends = [] from rfl,List.nil_append,
    List.take_of_length_le h.room]
  rfl

theorem exists_spelled {l : List Setting} (h : ∀ s ∈ l, s.Fits) :
    ∃ xs : List Spelled, xs.map Spelled.setting = l := by
  induction l with
  | nil => exact ⟨[],rfl⟩
  | cons s l ih =>
    obtain ⟨xs,hxs⟩ := ih fun s hs => h s (List.mem_cons_of_mem _ hs)
    exact ⟨⟨s,true,h s List.mem_cons_self,nofun⟩ :: xs,by rw [List.map_cons,hxs]⟩

/-- The configurations that `main` can start with are those within its bounds that have a backend. -/
theorem serves_iff (permutes : Bool) (name : CString) (cfg : Config) :
    (∃ args printed, main permutes name args = .serves cfg printed) ↔ Bounded cfg ∧ cfg.backends ≠ [] := by
  constructor
  · rintro ⟨args,printed,hs⟩
    exact readOptions_bounded bounded_initial hs
  · rintro ⟨h,hne⟩
    obtain ⟨xs,hxs⟩ := exists_spelled fun _ hs => fits_settingsOf h hs
    have hmain := main_spelled permutes name xs []
    rw [hxs,configOf_settingsOf h,backends_settingsOf h,readOptions,start,if_neg (by simpa using hne)] at hmain
    exact ⟨_,_,hmain⟩

end LoadConfig
end CodingChallenges
