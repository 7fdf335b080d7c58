import CodingChallenges.AdjacentRuns
import CodingChallenges.CMemory
import CodingChallenges.CStream

/-! The `uniq` tool. A run of equal lines is printed when the next one starts, and the last one
behind the loop. -/
namespace CodingChallenges
namespace UniqTool

open CText CMemory CStream AdjacentRuns

abbrev MAX_LEN : ℕ := 10000

structure Options where
  print_count : Bool
  repeated_lines_only : Bool
  unique_lines_only : Bool
  input_file_path : Option CString
  output_file_path : Option CString

def isCount (arg : CString) : Bool := arg = lit "-c" || arg = lit "--count"

def isRepeated (arg : CString) : Bool := arg = lit "-d" || arg = lit "--repeated"

def isUnique (arg : CString) : Bool := arg = lit "-u"

/-- The loop over the arguments; it is the first of them, `argv[1]`, that is compared with `"-"`. -/
def readArgs (argv1 : CString) : List CString → Options → Options
  | [], o => o
  | arg :: args, o =>
    if isCount arg then readArgs argv1 args { o with print_count := true }
    else if isRepeated arg then readArgs argv1 args { o with repeated_lines_only := true }
    else if isUnique arg then readArgs argv1 args { o with unique_lines_only := true }
    else if argv1 = lit "-" then
      match args with
      | [] => o
      | path :: args => readArgs argv1 args { o with output_file_path := some path }
    else if o.input_file_path = none then readArgs argv1 args { o with input_file_path := some arg }
    else readArgs argv1 args o

def options (args : List CString) : Options :=
  readArgs (args.headD ⟨[],by simp⟩) args ⟨false,false,false,none,none⟩

/-- Where `fp_out` leads. -/
inductive Stream
  | stdout | file
  deriving DecidableEq

/-- What `stdout` and the output file have been given. -/
structure Written where
  stdout : Bytes
  file : Bytes
  deriving DecidableEq

def Written.write (w : Written) : Stream → Bytes → Written
  | .stdout, b => { w with stdout := w.stdout ++ b }
  | .file, b => { w with file := w.file ++ b }

def percent3d (n : ℤ) : Bytes := List.replicate (3-(decimal n).length) 32 ++ decimal n

def snprintf (size : ℕ) (text : Bytes) : Bytes := text.take (size-1)

def shouldPrint (o : Options) (count : ℤ) : Bool :=
  let should_print := true
  let should_print := if o.repeated_lines_only then count > 1 else should_print
  if o.unique_lines_only then count = 1 else should_print

def printRun (o : Options) (fp_out : Option Stream) (count : ℤ) (prev : CString) (w : Written) : Written :=
  if shouldPrint o count then
    match fp_out with
    | none =>
      if o.print_count then w.write .stdout (percent3d count ++ [32] ++ prev.bytes)
      else w.write .stdout prev.bytes
    | some fp =>
      if o.print_count then w.write fp (snprintf (2*MAX_LEN) (percent3d count ++ [32] ++ prev.bytes))
      else w.write fp prev.bytes
  else w

def printLast (o : Options) (count : ℤ) (prev : CString) (w : Written) : Written :=
  if count > 0 ∧ shouldPrint o count then
    if o.print_count then w.write .stdout (percent3d count ++ [32] ++ prev.bytes)
    else w.write .stdout prev.bytes
  else w

structure State where
  prev : CString
  count : ℤ
  written : Written

def readLine (o : Options) (fp_out : Option Stream) (s : State) (buf : Bytes) : Except Fault State :=
  let buf := CString.ofBuffer buf
  if s.prev.bytes ≠ [] ∧ buf ≠ s.prev then
    .ok ⟨buf,1,printRun o fp_out s.count s.prev s.written⟩
  else do
    let count ← addInt s.count 1
    .ok ⟨buf,count,s.written⟩

def copyRuns (o : Options) (fp_out : Option Stream) (content : Bytes) : Except Fault Written := do
  let s ← (chunks (MAX_LEN-1) content).foldlM (readLine o fp_out) ⟨⟨[],by simp⟩,0,⟨[],[]⟩⟩
  .ok (printLast o s.count s.prev s.written)

/-- The two files: `fopen` for reading, and whether the output file can be opened. -/
structure Files where
  fopen : CString → Option Bytes
  writable : CString → Bool

/-- `main`: its value and what is written. -/
def uniq (args : List CString) (files : Files) (stdin : Bytes) : Except Fault (ℕ × Written) :=
  let o := options args
  match o.input_file_path.elim (some stdin) files.fopen with
  | none => .ok (1,⟨[],[]⟩)
  | some content =>
    if o.output_file_path.elim true files.writable then do
      let w ← copyRuns o (some (o.output_file_path.elim .stdout fun _ => .file)) content
      .ok (0,w)
    else .ok (1,⟨[],[]⟩)

/-- A line goes with the one before it when they are equal, and always after an empty buffer. -/
def joins (prev buf : CString) : Bool := prev.bytes = [] || buf = prev

variable {o : Options} {fp_out : Option Stream} {prev : CString} {n : ℕ} {w : Written}

def printAll (o : Options) (fp_out : Option Stream) (rs : List (ℕ × CString)) (w : Written) : Written :=
  rs.foldl (fun w r => printRun o fp_out r.1 r.2 w) w

theorem readLine_eq_addInt {buf : Bytes} (h : joins prev (CString.ofBuffer buf) = true) (s : State)
    (hs : s.prev = prev) : readLine o fp_out s buf =
      addInt s.count 1 >>= fun count => .ok ⟨CString.ofBuffer buf,count,s.written⟩ := by
  have hc : ¬ (s.prev.bytes ≠ [] ∧ CString.ofBuffer buf ≠ s.prev) := by
    rw [hs]
    simpa [joins,imp_iff_not_or,or_comm] using h
  exact if_neg hc

theorem readLine_joins {buf : Bytes} (h : joins prev (CString.ofBuffer buf) = true)
    (hn : ((n+1 : ℕ) : ℤ) ≤ INT_MAX) :
    readLine o fp_out ⟨prev,n,w⟩ buf = .ok ⟨CString.ofBuffer buf,(n+1 : ℕ),w⟩ := by
  have h0 : INT_MIN ≤ 0 := by decide
  rw [Nat.cast_succ] at hn ⊢
  rw [readLine_eq_addInt h _ rfl,addInt_of_range (by omega) hn]
  rfl

theorem readLine_overflow {buf : Bytes} (h : joins prev (CString.ofBuffer buf) = true)
    (hn : ¬ ((n+1 : ℕ) : ℤ) ≤ INT_MAX) : readLine o fp_out ⟨prev,n,w⟩ buf = .error .intOverflow := by
  have hadd : addInt n 1 = .error .intOverflow := by
    rw [Nat.cast_succ] at hn
    exact if_neg fun hr => hn hr.2
  rw [readLine_eq_addInt h _ rfl,hadd]
  rfl

theorem readLine_other {buf : Bytes} (h : ¬ joins prev (CString.ofBuffer buf) = true) :
    readLine o fp_out ⟨prev,n,w⟩ buf = .ok ⟨CString.ofBuffer buf,(1 : ℕ),printRun o fp_out n prev w⟩ := by
  have hc : prev.bytes ≠ [] ∧ CString.ofBuffer buf ≠ prev := by simpa [joins] using h
  simp only [readLine,if_pos hc]
  rfl

/-- The loop holds the last run and has printed those before it. -/
theorem foldlM_readLine (o : Options) (fp_out : Option Stream) (w : Written) (bufs : List Bytes)
    (h : ∀ r ∈ pending joins prev n (bufs.map CString.ofBuffer), (r.1 : ℤ) ≤ INT_MAX) :
    ∃ rs last, pending joins prev n (bufs.map CString.ofBuffer) = rs ++ [last] ∧
      bufs.foldlM (readLine o fp_out) ⟨prev,n,w⟩ = .ok ⟨last.2,last.1,printAll o fp_out rs w⟩ := by
  induction bufs generalizing prev n w with
  | nil => exact ⟨[],(n,prev),rfl,rfl⟩
  | cons buf bufs ih =>
    rw [List.map_cons,pending] at h ⊢
    rw [List.foldlM_cons]
    by_cases hj : joins prev (CString.ofBuffer buf) = true
    · rw [if_pos hj] at h ⊢
      obtain ⟨x,hx,hn⟩ := exists_ge_pending (r:=joins) (CString.ofBuffer buf) (n+1)
        (bufs.map CString.ofBuffer)
      rw [readLine_joins hj ((Int.ofNat_le.mpr hn).trans (h x hx))]
      exact ih w h
    · rw [if_neg hj] at h ⊢
      rw [readLine_other hj]
      have hrest : ∀ r ∈ pending joins (CString.ofBuffer buf) 1 (bufs.map CString.ofBuffer),
          (r.1 : ℤ) ≤ INT_MAX := fun r hr => h r (by simp [hr])
      obtain ⟨rs,last,hp,hr⟩ := ih (printRun o fp_out n prev w) hrest
      exact ⟨(n,prev) :: rs,last,by rw [hp]; rfl,hr⟩

theorem foldlM_readLine_overflow (bufs : List Bytes) (hn : (n : ℤ) ≤ INT_MAX)
    (h : ¬ ∀ r ∈ pending joins prev n (bufs.map CString.ofBuffer), (r.1 : ℤ) ≤ INT_MAX) :
    bufs.foldlM (readLine o fp_out) ⟨prev,n,w⟩ = .error .intOverflow := by
  induction bufs generalizing prev n w with
  | nil => exact absurd (by simpa [pending] using hn) h
  | cons buf bufs ih =>
    rw [List.map_cons,pending] at h
    rw [List.foldlM_cons]
    by_cases hj : joins prev (CString.ofBuffer buf) = true
    · rw [if_pos hj] at h
      by_cases hn' : ((n+1 : ℕ) : ℤ) ≤ INT_MAX
      · rw [readLine_joins hj hn']
        exact ih hn' h
      · rw [readLine_overflow hj hn']
        rfl
    · rw [if_neg hj] at h
      rw [readLine_other hj]
      refine ih (by decide) fun hall => h fun r hr => ?_
      rcases List.mem_cons.mp hr with rfl | hr
      · exact hn
      · exact hall r hr

def runText (o : Options) (r : ℕ × CString) : Bytes :=
  if shouldPrint o r.1 then
    if o.print_count then percent3d r.1 ++ [32] ++ r.2.bytes else r.2.bytes
  else []

def sentText (o : Options) (r : ℕ × CString) : Bytes :=
  if o.print_count then snprintf (2*MAX_LEN) (runText o r) else runText o r

variable {fp : Stream} {rs : List (ℕ × CString)}

theorem write_nil (w : Written) (fp : Stream) : w.write fp [] = w := by
  cases fp <;> simp [Written.write]

theorem write_write (w : Written) (fp : Stream) (a b : Bytes) :
    (w.write fp a).write fp b = w.write fp (a ++ b) := by
  cases fp <;> simp [Written.write]

theorem printRun_eq (r : ℕ × CString) : printRun o (some fp) r.1 r.2 w = w.write fp (sentText o r) := by
  rw [printRun,sentText,runText]
  by_cases hs : shouldPrint o r.1 = true
  · by_cases hc : o.print_count = true
    · simp [hs,hc]
    · simp [hs,hc]
  · simp [hs,snprintf,write_nil]

theorem printAll_eq : printAll o (some fp) rs w = w.write fp (rs.flatMap (sentText o)) := by
  induction rs generalizing w with
  | nil => exact (write_nil w fp).symm
  | cons r rs ih =>
    have ht := ih (w:=printRun o (some fp) r.1 r.2 w)
    rw [printRun_eq,write_write] at ht
    rw [List.flatMap_cons,← ht,← printRun_eq]
    rfl

theorem printLast_eq {r : ℕ × CString} (hr : 0 < r.1) :
    printLast o r.1 r.2 w = w.write .stdout (runText o r) := by
  have hp : r.1 ≠ 0 := Nat.pos_iff_ne_zero.mp hr
  rw [printLast,runText]
  by_cases hs : shouldPrint o r.1 = true
  · by_cases hc : o.print_count = true
    · simp [hs,hc,hp]
    · simp [hs,hc,hp]
  · simp [hs,write_nil]

def buffers (content : Bytes) : List CString := (chunks (MAX_LEN-1) content).map CString.ofBuffer

theorem readLine_first (buf : Bytes) : readLine o fp_out ⟨⟨[],by simp⟩,0,w⟩ buf =
    .ok ⟨CString.ofBuffer buf,(1 : ℕ),w⟩ :=
  readLine_joins (n:=0) (by simp [joins]) (by decide)

/-- Every run goes to the stream, the last one to `stdout`. -/
theorem copyRuns_ok {content : Bytes} (h : ∀ r ∈ ends joins (buffers content), (r.1 : ℤ) ≤ INT_MAX) :
    copyRuns o (some fp) content = .ok (((⟨[],[]⟩ : Written).write fp
      ((ends joins (buffers content)).dropLast.flatMap (sentText o))).write .stdout
        ((ends joins (buffers content)).getLast?.elim [] (runText o))) := by
  rw [buffers] at h ⊢
  rw [copyRuns]
  generalize chunks (MAX_LEN-1) content = bufs at h
  cases bufs with
  | nil =>
    rw [List.map_nil,ends,List.dropLast_nil,List.flatMap_nil,write_nil]
    rfl
  | cons buf bufs =>
    rw [List.map_cons,ends] at h ⊢
    obtain ⟨rs,last,hp,hr⟩ := foldlM_readLine o (some fp) ⟨[],[]⟩ bufs h
    have hpos : 0 < last.1 := pos_of_mem_pending (r:=joins) Nat.one_pos (by rw [hp]; simp)
    rw [List.foldlM_cons,readLine_first]
    show (bufs.foldlM (readLine o (some fp)) _) >>= _ = _
    rw [hr,hp,List.dropLast_concat,List.getLast?_concat,← printAll_eq]
    exact congrArg Except.ok (printLast_eq hpos)

theorem copyRuns_overflow {content : Bytes}
    (h : ¬ ∀ r ∈ ends joins (buffers content), (r.1 : ℤ) ≤ INT_MAX) :
    copyRuns o fp_out content = .error .intOverflow := by
  rw [buffers] at h
  rw [copyRuns]
  generalize chunks (MAX_LEN-1) content = bufs at h
  cases bufs with
  | nil => exact absurd (by simp [ends]) h
  | cons buf bufs =>
    rw [List.map_cons,ends] at h
    rw [List.foldlM_cons,readLine_first]
    show (bufs.foldlM (readLine o fp_out) _) >>= _ = _
    rw [foldlM_readLine_overflow bufs (by decide) h]
    rfl

def isOption (arg : CString) : Bool := isCount arg || isRepeated arg || isUnique arg

theorem not_isRepeated_of_isCount {arg : CString} (h : isCount arg = true) :
    isRepeated arg = false ∧ isUnique arg = false := by
  simp only [isCount,Bool.or_eq_true,decide_eq_true_eq] at h
  rcases h with rfl | rfl <;> decide

theorem not_isUnique_of_isRepeated {arg : CString} (h : isRepeated arg = true) : isUnique arg = false := by
  simp only [isRepeated,Bool.or_eq_true,decide_eq_true_eq] at h
  rcases h with rfl | rfl <;> decide

theorem readArgs_eq {argv1 : CString} {args : List CString}
    (h : ∀ arg ∈ args, isOption arg = true ∨ argv1 ≠ lit "-") (o : Options) : readArgs argv1 args o =
      ⟨o.print_count || args.any isCount,o.repeated_lines_only || args.any isRepeated,
        o.unique_lines_only || args.any isUnique,
        o.input_file_path.or (args.find? fun arg => !isOption arg),o.output_file_path⟩ := by
  induction args generalizing o with
  | nil => simp [readArgs]
  | cons arg args ih =>
    have ht := ih fun a ha => h a (by simp [ha])
    rw [readArgs.eq_def]
    by_cases hc : isCount arg = true
    · obtain ⟨hr,hu⟩ := not_isRepeated_of_isCount hc
      simp [hc,hr,hu,ht,isOption]
    · by_cases hr : isRepeated arg = true
      · have hu := not_isUnique_of_isRepeated hr
        simp [hc,hr,hu,ht,isOption]
      · by_cases hu : isUnique arg = true
        · simp [hc,hr,hu,ht,isOption]
        · have hn : ¬ isOption arg = true := by simp [isOption,hc,hr,hu]
          have h1 : argv1 ≠ lit "-" := (h arg (by simp)).resolve_left hn
          cases hi : o.input_file_path <;> simp [hc,hr,hu,h1,hi,ht,isOption]

theorem options_of_head {args : List CString} (h : args.head? ≠ some (lit "-")) :
    options args = ⟨args.any isCount,args.any isRepeated,args.any isUnique,
      args.find? fun arg => !isOption arg,none⟩ := by
  have hne : ∀ arg ∈ args, isOption arg = true ∨ args.headD ⟨[],by simp⟩ ≠ lit "-" := by
    cases args with
    | nil => simp
    | cons a args => exact fun _ _ => Or.inr (by simpa using h)
  rw [options,readArgs_eq hne]
  simp

theorem options_path {opts : List CString} (h : ∀ arg ∈ opts, isOption arg = true) (path : CString) :
    options (lit "-" :: path :: opts) =
      ⟨opts.any isCount,opts.any isRepeated,opts.any isUnique,none,some path⟩ := by
  have hnone : (opts.find? fun arg => !isOption arg) = none := by
    rw [List.find?_eq_none]
    simpa using h
  have hfirst : readArgs (lit "-") (lit "-" :: path :: opts) ⟨false,false,false,none,none⟩ =
      readArgs (lit "-") opts ⟨false,false,false,none,some path⟩ := rfl
  rw [options,List.headD_cons,hfirst,readArgs_eq fun arg ha => Or.inl (h arg ha),hnone]
  simp

theorem length_percent3d {n : ℕ} (hn : (n : ℤ) ≤ INT_MAX) : (percent3d n).length ≤ 10 := by
  have hlt : n < 10^10 := by
    simp only [INT_MAX] at hn
    omega
  have hl : (decimal n).length ≤ 10 := by
    rw [decimal,if_neg (by omega),Int.natAbs_natCast,decimalNat,List.length_map]
    exact Nat.toDigits_length 10 n 10 (by norm_num) hlt
  rw [percent3d,List.length_append,List.length_replicate]
  omega

/-- The buffer has room for the count and the line. -/
theorem sentText_eq {content : Bytes} {r : ℕ × CString} (hr : r ∈ ends joins (buffers content))
    (hn : (r.1 : ℤ) ≤ INT_MAX) : sentText o r = runText o r := by
  obtain ⟨buf,hbuf,hb⟩ := List.mem_map.mp (mem_of_mem_ends hr)
  have hlen : r.2.bytes.length ≤ 9999 := by
    rw [← hb,CString.bytes_ofBuffer]
    exact (List.takeWhile_prefix _).length_le.trans (length_le_of_mem_chunks hbuf)
  have hp := length_percent3d hn
  rw [sentText]
  split_ifs with hc
  · refine List.take_of_length_le ?_
    rw [runText]
    split_ifs
    · simp only [List.length_append,List.length_singleton,MAX_LEN]
      omega
    · simp
  · rfl

theorem flatMap_dropLast {α : Type} (g : α → Bytes) (l : List α) :
    l.dropLast.flatMap g ++ l.getLast?.elim [] g = l.flatMap g := by
  rcases List.eq_nil_or_concat l with rfl | ⟨l,a,rfl⟩
  · rfl
  · simp

theorem copyRuns_stdout {content : Bytes} (h : ∀ r ∈ ends joins (buffers content), (r.1 : ℤ) ≤ INT_MAX) :
    copyRuns o (some .stdout) content = .ok ⟨(ends joins (buffers content)).flatMap (runText o),[]⟩ := by
  have hsent : (ends joins (buffers content)).dropLast.flatMap (sentText o) =
      (ends joins (buffers content)).dropLast.flatMap (runText o) :=
    List.flatMap_congr fun r hr => sentText_eq (List.mem_of_mem_dropLast hr) (h r (List.mem_of_mem_dropLast hr))
  rw [copyRuns_ok h,hsent,write_write,flatMap_dropLast]
  rfl

theorem copyRuns_file {content : Bytes} (h : ∀ r ∈ ends joins (buffers content), (r.1 : ℤ) ≤ INT_MAX) :
    copyRuns o (some .file) content = .ok ⟨(ends joins (buffers content)).getLast?.elim [] (runText o),
      (ends joins (buffers content)).dropLast.flatMap (runText o)⟩ := by
  have hsent : (ends joins (buffers content)).dropLast.flatMap (sentText o) =
      (ends joins (buffers content)).dropLast.flatMap (runText o) :=
    List.flatMap_congr fun r hr => sentText_eq (List.mem_of_mem_dropLast hr) (h r (List.mem_of_mem_dropLast hr))
  rw [copyRuns_ok h,hsent]
  rfl

def withLf (line : CString) : CString := CString.ofBuffer (line.bytes ++ [10])

theorem withLf_bytes (line : CString) : (withLf line).bytes = line.bytes ++ [10] :=
  CString.bytes_ofBuffer_of_notMem (by simp [line.nul_free])

theorem joins_withLf (a b : CString) : joins (withLf a) (withLf b) = (a == b) := by
  rw [joins,Bool.eq_iff_iff,Bool.or_eq_true,decide_eq_true_eq,decide_eq_true_eq,beq_iff_eq,CString.ext_iff,
    CString.ext_iff,withLf_bytes,withLf_bytes]
  simpa using eq_comm

variable {args : List CString} {files : Files} {stdin : Bytes} {lines : List CString}

theorem buffers_lines (h : ∀ line ∈ lines, 10 ∉ line.bytes ∧ line.length ≤ 9998) :
    buffers (lines.flatMap fun line => line.bytes ++ [10]) = lines.map withLf := by
  have hfit : ∀ w ∈ lines.map CString.bytes, 10 ∉ w ∧ w.length < MAX_LEN-1 := by
    intro w hw
    obtain ⟨line,hl,rfl⟩ := List.mem_map.mp hw
    exact ⟨(h line hl).1,lt_of_le_of_lt (h line hl).2 (by decide)⟩
  have hc := chunks_lines hfit
  rw [List.flatMap_map,List.map_map] at hc
  rw [buffers,hc,List.map_map]
  rfl

def input (args : List CString) (files : Files) (stdin : Bytes) : Option Bytes :=
  (args.find? fun arg => !isOption arg).elim (some stdin) files.fopen

def kept (args : List CString) (n : ℕ) : Bool :=
  (!args.any isRepeated || 2 ≤ n) && (!args.any isUnique || n = 1)

def runOut (args : List CString) : List CString → Bytes
  | [] => []
  | line :: run =>
    if kept args (run.length+1) then
      (if args.any isCount then percent3d (run.length+1) ++ [32] else []) ++ line.bytes ++ [10]
    else []

theorem shouldPrint_eq_kept (hout : args.head? ≠ some (lit "-"))
    (hdu : ¬ (args.any isRepeated = true ∧ args.any isUnique = true)) {n : ℕ} :
    shouldPrint (options args) n = kept args n := by
  rw [options_of_head hout,shouldPrint,kept]
  rcases hd : args.any isRepeated with _ | _ <;> rcases hu : args.any isUnique with _ | _
  · rfl
  · simp
  · simp
    omega
  · exact absurd ⟨hd,hu⟩ hdu

theorem runText_withLf (hout : args.head? ≠ some (lit "-"))
    (hdu : ¬ (args.any isRepeated = true ∧ args.any isUnique = true)) (line : CString) (run : List CString) :
    runText (options args) (run.length+1,withLf line) = runOut args (line :: run) := by
  rw [runText,shouldPrint_eq_kept hout hdu,runOut,options_of_head hout,withLf_bytes]
  split_ifs <;> simp

theorem ends_lines (hlines : ∀ line ∈ lines, 10 ∉ line.bytes ∧ line.length ≤ 9998) :
    ends joins (buffers (lines.flatMap fun line => line.bytes ++ [10])) =
      (ends (· == ·) lines).map fun x => (x.1,withLf x.2) := by
  rw [buffers_lines hlines,ends_map joins_withLf]

theorem flatMap_runOut (hout : args.head? ≠ some (lit "-"))
    (hdu : ¬ (args.any isRepeated = true ∧ args.any isUnique = true)) :
    (lines.splitBy (· == ·)).flatMap (runOut args) =
      (ends (· == ·) lines).flatMap fun x => runText (options args) (x.1,withLf x.2) := by
  refine flatMap_splitBy fun run hr line hl => ?_
  rw [getLast?_of_mem_splitBy hr] at hl
  cases run with
  | nil => cases hl
  | cons l run =>
    obtain rfl : l = line := Option.some.inj hl
    exact (runText_withLf hout hdu l run).symm

theorem uniq_stdout (hout : args.head? ≠ some (lit "-")) {content : Bytes}
    (hin : input args files stdin = some content) : uniq args files stdin =
      copyRuns (options args) (some .stdout) content >>= fun w => .ok (0,w) := by
  have hi : (options args).input_file_path.elim (some stdin) files.fopen = input args files stdin := by
    rw [options_of_head hout]
    rfl
  have ho : (options args).output_file_path = none := by rw [options_of_head hout]
  rw [uniq,hi,hin,ho]
  rfl

/-- Every run of lines is printed once, with what the options ask for. -/
theorem uniq_groups (hout : args.head? ≠ some (lit "-"))
    (hdu : ¬ (args.any isRepeated = true ∧ args.any isUnique = true))
    (hlines : ∀ line ∈ lines, 10 ∉ line.bytes ∧ line.length ≤ 9998)
    (hin : input args files stdin = some (lines.flatMap fun line => line.bytes ++ [10]))
    (hruns : ∀ run ∈ lines.splitBy (· == ·), (run.length : ℤ) ≤ INT_MAX) :
    uniq args files stdin = .ok (0,⟨(lines.splitBy (· == ·)).flatMap (runOut args),[]⟩) := by
  have hends := ends_lines hlines
  have hbound : ∀ r ∈ ends joins (buffers (lines.flatMap fun line => line.bytes ++ [10])),
      (r.1 : ℤ) ≤ INT_MAX := by
    rw [hends,List.forall_mem_map]
    exact (forall_ends_iff (P:=fun n => (n : ℤ) ≤ INT_MAX)).mpr hruns
  rw [uniq_stdout hout hin,copyRuns_stdout hbound,hends,flatMap_runOut hout hdu,List.flatMap_map]
  rfl

/-- A line twice and another one once, counted. -/
theorem uniq_groups_count : ([lit "-c"].head? ≠ some (lit "-")) ∧
    (∀ run ∈ [lit "a",lit "a",lit "b"].splitBy (· == ·), (run.length : ℤ) ≤ INT_MAX) ∧
    uniq [lit "-c"] ⟨fun _ => none,fun _ => false⟩ (ascii "a\na\nb\n") =
      .ok (0,⟨([lit "a",lit "a",lit "b"].splitBy (· == ·)).flatMap (runOut [lit "-c"]),[]⟩) :=
  ⟨by decide,by decide,uniq_groups (by decide) (by decide) (by decide) (by decide) (by decide)⟩

theorem uniq_empty_lines (hout : args.head? ≠ some (lit "-")) {m : ℕ} (hm : INT_MAX < (m+1 : ℕ))
    (hin : input args files stdin = some (List.replicate (m+1) [10]).flatten) :
    uniq args files stdin = .error .intOverflow := by
  have hlines : ∀ line ∈ List.replicate (m+1) (CString.ofBuffer []),
      10 ∉ line.bytes ∧ line.length ≤ 9998 := by
    intro line hl
    rw [List.eq_of_mem_replicate hl]
    decide
  have hcontent : (List.replicate (m+1) [10]).flatten =
      (List.replicate (m+1) (CString.ofBuffer [])).flatMap fun line => line.bytes ++ [10] := by
    rw [List.flatMap_def,List.map_replicate]
    rfl
  rw [uniq_stdout hout hin,hcontent,copyRuns_overflow]
  · rfl
  · rw [ends_lines hlines,ends_replicate (beq_self_eq_true _)]
    simpa using hm

theorem uniq_overflow : uniq [] ⟨fun _ => none,fun _ => false⟩ (List.replicate (2^31) [10]).flatten =
    .error .intOverflow :=
  uniq_empty_lines (m:=2^31-1) (by decide) (by decide) rfl

/-- The same bytes reach the file, and none `stdout`. -/
def Agree (opts : List CString) (path : CString) (files : Files) (stdin : Bytes) : Prop :=
  ∃ w w', uniq (lit "-" :: path :: opts) files stdin = .ok (0,w) ∧ uniq opts files stdin = .ok (0,w') ∧
    w.file = w'.stdout ∧ w.stdout = []

variable {opts : List CString} {path : CString}

theorem uniq_path (hopts : ∀ arg ∈ opts, isOption arg = true) (hpath : files.writable path = true) :
    uniq (lit "-" :: path :: opts) files stdin =
      copyRuns (options (lit "-" :: path :: opts)) (some .file) stdin >>= fun w => .ok (0,w) := by
  rw [uniq,options_path hopts]
  show (if files.writable path = true then _ else _) = _
  rw [if_pos hpath]
  rfl

theorem head?_ne_of_isOption (hopts : ∀ arg ∈ opts, isOption arg = true) : opts.head? ≠ some (lit "-") := by
  intro h
  have ho := hopts _ (List.mem_of_mem_head? h)
  exact absurd ho (by decide)

theorem input_options (hopts : ∀ arg ∈ opts, isOption arg = true) : input opts files stdin = some stdin := by
  have hnone : (opts.find? fun arg => !isOption arg) = none := by
    rw [List.find?_eq_none]
    simpa using hopts
  rw [input,hnone]
  rfl

theorem runText_path (hopts : ∀ arg ∈ opts, isOption arg = true) (r : ℕ × CString) :
    runText (options (lit "-" :: path :: opts)) r = runText (options opts) r := by
  rw [runText,runText,options_path hopts,options_of_head (head?_ne_of_isOption hopts)]
  rfl

/-- A last run that is not printed, or whose last line starts with a NUL and is not counted. -/
def Silent (o : Options) (run : List CString) : Prop :=
  shouldPrint o run.length = false ∨ (o.print_count = false ∧ run.getLast? = some (CString.ofBuffer []))

theorem runText_eq_nil_iff (r : ℕ × CString) : runText o r = [] ↔
    shouldPrint o r.1 = false ∨ (o.print_count = false ∧ r.2 = CString.ofBuffer []) := by
  rw [runText,CString.ext_iff]
  cases shouldPrint o r.1 <;> cases o.print_count <;> simp

theorem silent_last_iff {bufs : List CString} : (ends joins bufs).getLast?.elim [] (runText o) = [] ↔
    ∀ run ∈ (bufs.splitBy joins).getLast?, Silent o run := by
  have hl := getLast?_splitBy (r:=joins) bufs
  cases hs : (bufs.splitBy joins).getLast? with
  | none =>
    rw [hs,Option.map_none,eq_comm,Option.map_eq_none_iff] at hl
    simp [hl]
  | some run =>
    rw [hs,Option.map_some] at hl
    obtain ⟨x,hx,he⟩ := Option.map_eq_some_iff.mp hl.symm
    rw [Prod.mk.injEq] at he
    rw [hx,Option.elim_some,runText_eq_nil_iff,he.1]
    simp [Silent,← he.2]

/-- The two ways agree exactly when the counter has room for every run and the last one prints nothing. -/
theorem agree_iff (hopts : ∀ arg ∈ opts, isOption arg = true) (hpath : files.writable path = true) :
    Agree opts path files stdin ↔
      (∀ run ∈ (buffers stdin).splitBy joins, (run.length : ℤ) ≤ INT_MAX) ∧
        ∀ run ∈ ((buffers stdin).splitBy joins).getLast?, Silent (options opts) run := by
  rw [← forall_ends_iff (P:=fun n => (n : ℤ) ≤ INT_MAX)]
  by_cases hb : ∀ r ∈ ends joins (buffers stdin), (r.1 : ℤ) ≤ INT_MAX
  · have hlast : Agree opts path files stdin ↔
        (ends joins (buffers stdin)).getLast?.elim [] (runText (options opts)) = [] := by
      have hin : input opts files stdin = some stdin := input_options hopts
      have hstdout := uniq_stdout (head?_ne_of_isOption hopts) hin
      have hfile : uniq (lit "-" :: path :: opts) files stdin = _ := uniq_path hopts hpath
      rw [copyRuns_stdout hb,← flatMap_dropLast] at hstdout
      rw [copyRuns_file hb,funext (runText_path hopts)] at hfile
      refine ⟨fun ⟨w,w',hw,hw',_,h0⟩ => ?_,fun h0 => ?_⟩
      · rw [hfile] at hw
        obtain rfl := (Prod.mk.inj (Except.ok.inj hw)).2
        exact h0
      · refine ⟨_,_,hfile,hstdout,?_,h0⟩
        rw [h0,List.append_nil]
    rw [hlast,and_iff_right hb]
    exact silent_last_iff
  · rw [Agree,uniq_path hopts hpath,copyRuns_overflow hb]
    refine iff_of_false ?_ fun h => hb h.1
    rintro ⟨w,w',hw,-⟩
    cases hw

/-- Lines that occur twice are asked for, and the last one occurs once. -/
theorem agree_iff_repeated : (∀ arg ∈ [lit "-d"], isOption arg = true) ∧
    (Agree [lit "-d"] (lit "out") ⟨fun _ => none,fun _ => true⟩ (ascii "a\na\nb\n") ↔
      (∀ run ∈ (buffers (ascii "a\na\nb\n")).splitBy joins, (run.length : ℤ) ≤ INT_MAX) ∧
        ∀ run ∈ ((buffers (ascii "a\na\nb\n")).splitBy joins).getLast?, Silent (options [lit "-d"]) run) :=
  ⟨by decide,agree_iff (by decide) rfl⟩

/-- The last run goes to `stdout`. -/
theorem agree_last : ¬ Agree [] (lit "out") ⟨fun _ => none,fun _ => true⟩ (ascii "a\n") := by
  rintro ⟨w,w',hw,hw',hfile,h0⟩
  have h : uniq [lit "-",lit "out"] ⟨fun _ => none,fun _ => true⟩ (ascii "a\n") =
      .ok (0,⟨ascii "a\n",[]⟩) := by decide
  rw [h] at hw
  obtain rfl := (Prod.mk.inj (Except.ok.inj hw)).2
  exact absurd h0 (by decide)

end UniqTool
end CodingChallenges
