import CodingChallenges.GrepTool
import CodingChallenges.WordCount

/-! The script `ccwc.sh` as a whole: its arguments, the counts and what it prints. Texts are ASCII, so
that `read` delivers bytes, and hold no NUL, which it would drop. -/
namespace CodingChallenges
namespace WcScript

open CText GrepTool WordCount

structure Flags where
  count_bytes : Bool
  count_lines : Bool
  count_words : Bool
  count_characters : Bool
  deriving DecidableEq

abbrev Text := {text : Bytes // ∀ c ∈ text, c ≠ 0 ∧ c < 128}

/-- `file` is `none` where it is empty. -/
structure State where
  flags : Flags
  file : Option CString
  input_buffer : Bytes

def isTxt (arg : CString) : Bool := ascii ".txt" <:+ arg.bytes

def readArg (files : CString → Option Text) (s : State) (arg : CString) : Except Bytes State :=
  if arg = lit "-c" then .ok { s with flags := { s.flags with count_bytes := true } }
  else if arg = lit "-l" then .ok { s with flags := { s.flags with count_lines := true } }
  else if arg = lit "-w" then .ok { s with flags := { s.flags with count_words := true } }
  else if arg = lit "-m" then .ok { s with flags := { s.flags with count_characters := true } }
  else if isTxt arg then
    match files arg with
    | none => .error (ascii "File does not exist: " ++ arg.bytes ++ [10])
    | some content => .ok { s with file := some arg, input_buffer := content.val }
  else .error (ascii "Error: only .txt files are supported\n")

/-- `while IFS= read -r line`: a line without a line feed ends the loop. -/
def countLines (lines : ℕ) : List Bytes → ℕ
  | [] => lines
  | line :: rest => if line.getLast? = some 10 then countLines (lines+1) rest else lines

def percent8d (n : ℕ) : Bytes := List.replicate (8-(decimalNat n).length) 32 ++ decimalNat n

def report (flags : Flags) (lines bytes words chars : ℕ) (file : Option CString) : Bytes :=
  let output := (if flags.count_lines then percent8d lines else []) ++
    (if flags.count_bytes then percent8d bytes else []) ++
    (if flags.count_words then percent8d words else []) ++
    (if flags.count_characters then percent8d chars else [])
  let output := if output = [] then percent8d lines ++ [32] ++ percent8d words ++ [32] ++ percent8d bytes
    else output
  match file with
  | some file => output ++ [32] ++ file.bytes ++ [10]
  | none => output ++ [10]

/-- What `cat` writes. -/
def catted (text : Option Text) : Bytes := text.elim [] Subtype.val

/-- The script does not set `file` before the loop, so it starts as the environment has it. -/
def inherited (env : CString) : Option CString := if env.bytes = [] then none else some env

/-- The status and what is printed. `files` is what `cat` writes of a file that is there, `env` is `$file`
of the environment and `pipe` what comes through a pipe. -/
def ccwc (files : CString → Option Text) (env : CString) (pipe : Option Text) (args : List CString) : ℕ × Bytes :=
  if args = [] ∧ pipe = none then (1,ascii "Try this: ccwc <option> <filename>\n")
  else
    match args.foldlM (readArg files) ⟨⟨false,false,false,false⟩,inherited env,catted pipe⟩ with
    | .error printed => (1,printed)
    | .ok s =>
      let input_buffer := match s.file with
        | some file => catted (files file)
        | none => s.input_buffer
      let k := counting input_buffer
      (0,report s.flags (countLines 0 (textLines input_buffer)) k.bytes k.words k.chars s.file)

theorem countLines_textLines (lines : ℕ) (text : Bytes) :
    countLines lines (textLines text) = lines+text.count 10 := by
  induction text using line_induction generalizing lines with
  | last w h10 =>
    rw [List.count_eq_zero_of_not_mem h10]
    by_cases hw : w = []
    · subst hw
      rfl
    · rw [textLines_last h10 hw,countLines,if_neg fun h => h10 (List.mem_of_getLast? h)]
      rfl
  | line w s h10 ih =>
    rw [textLines_lf h10,countLines,if_pos (by simp),ih,List.count_append,List.count_eq_zero_of_not_mem h10,
      List.count_cons_self]
    omega

theorem foldl_countChar_bytes (k : Counters) (text : Bytes) :
    ((text.map delivered).foldl countChar k).bytes = k.bytes+text.length ∧
      ((text.map delivered).foldl countChar k).chars = k.chars+text.length := by
  induction text generalizing k with
  | nil => exact ⟨rfl,rfl⟩
  | cons c text ih =>
    have hone : (countChar k (delivered c)).bytes = k.bytes+1 ∧ (countChar k (delivered c)).chars = k.chars+1 := by
      unfold countChar
      dsimp only
      split_ifs <;> exact ⟨rfl,rfl⟩
    obtain ⟨hb,hc⟩ := ih (countChar k (delivered c))
    rw [List.map_cons,List.foldl_cons,hb,hc,hone.1,hone.2,List.length_cons]
    exact ⟨by omega,by omega⟩

theorem counting_bytes (text : Bytes) :
    (counting text).bytes = text.length ∧ (counting text).chars = text.length := by
  obtain ⟨hb,hc⟩ := foldl_countChar_bytes ⟨0,0,0,false⟩ text
  exact ⟨hb.trans (Nat.zero_add _),hc.trans (Nat.zero_add _)⟩

/-- The runs of characters that are no blank of their line; a line feed is one of the others. -/
def runs (text : Bytes) : List Bytes := (text.splitOnP isBlank).filter (· ≠ [])

theorem counting_runs (text : Bytes) : (counting text).words = (runs text).length := by
  obtain ⟨f,fs,hs,hn⟩ := starts_splitOnP isBlank false text
  rw [counting_words,hn,runs,hs,List.filter_cons]
  by_cases hf : f = [] <;> simp [hf,Nat.add_comm]

def isFlag (arg : CString) : Bool := arg ∈ [lit "-c",lit "-l",lit "-w",lit "-m"]

def accepted (files : CString → Option Text) (arg : CString) : Bool :=
  isFlag arg || (isTxt arg && (files arg).isSome)

def complaint (arg : CString) : Bytes :=
  if isTxt arg then ascii "File does not exist: " ++ arg.bytes ++ [10]
  else ascii "Error: only .txt files are supported\n"

def flagsOf (args : List CString) : Flags :=
  ⟨lit "-c" ∈ args,lit "-l" ∈ args,lit "-w" ∈ args,lit "-m" ∈ args⟩

def Flags.or (a b : Flags) : Flags :=
  ⟨a.count_bytes || b.count_bytes,a.count_lines || b.count_lines,a.count_words || b.count_words,
    a.count_characters || b.count_characters⟩

variable {files : CString → Option Text} {arg : CString} {args : List CString} {s : State}

theorem not_isTxt (h : isFlag arg = true) : isTxt arg = false := by
  simp only [isFlag,List.mem_cons,List.not_mem_nil,or_false,decide_eq_true_eq] at h
  rcases h with rfl | rfl | rfl | rfl <;> decide

theorem readArg_flag (h : isFlag arg = true) :
    readArg files s arg = .ok { s with flags := (flagsOf [arg]).or s.flags } := by
  simp only [isFlag,List.mem_cons,List.not_mem_nil,or_false,decide_eq_true_eq] at h
  rcases h with rfl | rfl | rfl | rfl <;> rfl

theorem readArg_other (h : isFlag arg = false) : readArg files s arg =
    if accepted files arg then .ok { s with file := some arg, input_buffer := catted (files arg) }
    else .error (complaint arg) := by
  simp only [isFlag,List.mem_cons,List.not_mem_nil,or_false,decide_eq_false_iff_not,not_or] at h
  obtain ⟨hc,hl,hw,hm⟩ := h
  rw [readArg,if_neg hc,if_neg hl,if_neg hw,if_neg hm]
  cases ht : isTxt arg <;> cases hf : files arg <;>
    simp [accepted,isFlag,complaint,catted,hc,hl,hw,hm,ht,hf]

theorem flagsOf_cons (arg : CString) (args : List CString) :
    flagsOf (arg :: args) = (flagsOf args).or (flagsOf [arg]) := by
  simp [flagsOf,Flags.or,Bool.or_comm]

theorem or_assoc (a b c : Flags) : (a.or b).or c = a.or (b.or c) := by
  simp [Flags.or,Bool.or_assoc]

/-- The loop stops at the first argument that is not accepted, or has read them all. -/
theorem readArgs_eq (args : List CString) (s : State) :
    args.foldlM (readArg files) s =
      match args.find? fun arg => !accepted files arg with
      | some arg => .error (complaint arg)
      | none => .ok ⟨(flagsOf args).or s.flags,((args.filter isTxt).getLast?).or s.file,
          ((args.filter isTxt).getLast?).elim s.input_buffer fun file => catted (files file)⟩ := by
  induction args generalizing s with
  | nil => rfl
  | cons arg args ih =>
    rw [List.foldlM_cons,List.find?_cons]
    by_cases hflag : isFlag arg = true
    · have hok : accepted files arg = true := by simp [accepted,hflag]
      rw [readArg_flag hflag,hok,flagsOf_cons arg args,List.filter_cons_of_neg (by simp [not_isTxt hflag]),or_assoc]
      exact ih _
    · rw [Bool.not_eq_true] at hflag
      rw [readArg_other hflag]
      cases hok : accepted files arg with
      | false => rfl
      | true =>
        have htxt : isTxt arg = true := by
          rw [accepted,hflag,Bool.false_or,Bool.and_eq_true] at hok
          exact hok.1
        have hno : (flagsOf args).or (flagsOf [arg]) = flagsOf args := by
          simp only [isFlag,List.mem_cons,List.not_mem_nil,or_false,decide_eq_false_iff_not,not_or] at hflag
          obtain ⟨hc,hl,hw,hm⟩ := hflag
          simp [flagsOf,Flags.or,Ne.symm hc,Ne.symm hl,Ne.symm hw,Ne.symm hm]
        rw [flagsOf_cons arg args,hno,List.filter_cons_of_pos htxt,List.getLast?_cons]
        refine (ih _).trans ?_
        cases (args.filter isTxt).getLast? <;> rfl

def sampleText : Text := ⟨ascii "a b\nc\n",by decide +kernel⟩

example : ccwc (fun _ => some sampleText) (lit "") none [lit "-w",lit "x.txt",lit "-l"] =
    (0,ascii "       2       2 x.txt\n") := by
  decide +kernel

end WcScript
end CodingChallenges
