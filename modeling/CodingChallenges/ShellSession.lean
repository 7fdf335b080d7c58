import CodingChallenges.ShellDirectory
import CodingChallenges.ShellEditor
import CodingChallenges.ShellHistory

/-! The shell from its start to its end (`main`, `process_input`, `execute_cmd`, `exec_cd`).
A session is what the shell runs, in order. It is compared with the commands that the keys
spell, recalled ones included. What the children print or execute is only named here. `free`
counts the descriptors the shell may still open; its `fork`s succeed. -/
namespace CodingChallenges
namespace ShellSession

open CText CMemory CBuffer CStream ShellDirectory ShellEditor ShellHistory ShellWords Pieces

variable {Dir : Type} (fs : FileSystem Dir)

/-- `exec_cd`; what `cd` returns is dropped. -/
def execCd (path : Option CString) (s : Shell Dir) : Except Fault (Shell Dir) :=
  match path with
  | none => .error .nullPointer
  | some p => do
    let r ← cd fs (trim p) s
    .ok r.2

def items (h : History) : Except Fault (List CString) :=
  (h.history.take h.hc).mapM fun
    | some (some s) => .ok s
    | some none => .error .nullPointer
    | none => .error .uninitialised

def percent5d (n : ℕ) : Bytes := List.replicate (5-(decimalNat n).length) 32 ++ decimalNat n

/-- What the command `history` prints. -/
def historyText (history : List CString) : Bytes :=
  (history.zipIdx 1).flatMap fun p => percent5d p.2 ++ [9] ++ p.1.bytes

inductive Child
  | history (text : Bytes)
  | cd (path : CString)
  | exec (args : List CString)

/-- `execute_cmd` behind `build_args`. -/
def executeArgs (history : List CString) : List CString → Except Fault Child
  | [] => .error .nullPointer
  | name :: args =>
    if eqIgnoreCase name (lit "history") then .ok (.history (historyText history))
    else if name = lit "cd" then
      match args with
      | [] => .error .nullPointer
      | path :: _ => .ok (.cd path)
    else .ok (.exec (name :: args))

def executeCmd (history : List CString) (cmd : CString) : Except Fault Child := do
  let v ← buildArgs cmd
  let args ← walk v
  executeArgs history args

/-- What the shell runs: `cd` itself, everything else in children, whose faults stay theirs. -/
inductive Event
  | cd (path : Option CString)
  | pipeline (children : List (Except Fault Child))

/-- `handle_cmd`; an array of no pipes cannot be declared, and a pipe that could not be made is
closed with what its array happens to hold. -/
def handleCmd (history : List CString) (free : ℕ) : List CString → Except Fault Event
  | [] => .error .badSize
  | s :: segments =>
    if 2*(s :: segments).length ≤ free then .ok (.pipeline ((s :: segments).map (executeCmd history)))
    else .error .uninitialised

/-- One command that is not `exit`. -/
def runCommand (history : List CString) (free : ℕ) (cmd : CString) (s : Shell Dir) :
    Except Fault (Shell Dir × Event) := do
  let v ← buildArgs cmd
  let args ← walk v
  match args with
  | [] => .error .nullPointer
  | name :: args =>
    if name = lit "cd" then do
      let s ← execCd fs args.head? s
      .ok (s,.cd args.head?)
    else do
      let v ← extractSegments cmd
      let segments ← walk v
      let e ← handleCmd history free segments
      .ok (s,e)

/-- `history_load`. The stream it opens stays open; where none can be opened the array counts
as empty. -/
def loadOpen (h : History) : ℕ → Except Fault (History × ℕ)
  | 0 => .ok ({ h with hc := 0 },0)
  | free+1 => do
    let h ← historyLoad h
    .ok (h,free)

/-- `history_add`. Nothing is written where the file cannot be opened. -/
def addOpen (h : History) (cmd : CString) : ℕ → Except Fault (History × ℕ)
  | 0 => loadOpen h 0
  | free+1 => loadOpen { h with file := h.file ++ cmd.bytes ++ [10] } (free+1)

structure Final (Dir : Type) where
  record : History
  shell : Shell Dir
  events : List Event

/-- `process_input`. Every line takes a byte of the input. -/
def processInput : ℕ → ℕ → Bytes → Buffer → History → Shell Dir → Except Fault (Final Dir)
  | 0, _, _, _, _, _ => .error .endless
  | fuel+1, free, input, buf, record, s => do
    let history ← items record
    let r ← ShellEditor.fgets history buf LINE_SZ input
    match r.1 with
    | none => .ok ⟨record,s,[]⟩
    | some buf => do
      let line ← stringOf buf
      match trim line with
      | none => processInput fuel free r.2 buf record s
      | some cmd => do
        let a ← addOpen record cmd free
        if eqIgnoreCase cmd (lit "exit") then .ok ⟨a.1,s,[]⟩
        else do
          let history ← items a.1
          let e ← runCommand fs history a.2 cmd s
          let f ← processInput fuel a.2 r.2 buf a.1 e.1
          .ok { f with events := e.2 :: f.events }

/-- `main`, with the history file as it is found. -/
def main (file : Bytes) (free : ℕ) (input : Bytes) (s : Shell Dir) : Except Fault (Final Dir) := do
  let l ← loadOpen { start with file := file } free
  processInput fs (input.length+1) l.2 input (List.replicate LINE_SZ (some 0)) l.1 s

def recorded (cmds : List CString) : List CString := cmds.map (· ++ newline)

def typed (cmds : List CString) (keys : List Key) : Bytes := (Reference.after (recorded cmds) keys).text

def command (cmds : List CString) (keys : List Key) : CString := CString.ofBuffer (strip (typed cmds keys))

/-- The arguments, an empty one between two separators. -/
def arguments (cmd : CString) : List CString := (pieces isSeparator [] cmd.bytes).map CString.ofBuffer

/-- The stages in front of the first blank one. -/
def segments (cmd : CString) : List CString :=
  (((cmd.bytes.splitOnP isBar).takeWhile nonblank).map strip).map CString.ofBuffer

def runPipeline (cmds : List CString) : List CString → Except Fault Event
  | [] => .error .badSize
  | s :: rest => .ok (.pipeline ((s :: rest).map fun s => executeArgs (recorded cmds) (arguments s)))

/-- What a command does; the last one of `cmds` is the command itself. -/
def effect (cmds : List CString) (cmd : CString) (s : Shell Dir) : Except Fault (Shell Dir × Event) :=
  match arguments cmd with
  | [] => .error .nullPointer
  | name :: args =>
    if name = lit "cd" then do
      let s ← execCd fs args.head? s
      .ok (s,.cd args.head?)
    else do
      let e ← runPipeline cmds (segments cmd)
      .ok (s,e)

/-- What lines of keys do: all commands, the shell and what ran. -/
def session : List CString → Shell Dir → List (List Key) → Except Fault (List CString × Shell Dir × List Event)
  | cmds, s, [] => .ok (cmds,s,[])
  | cmds, s, keys :: lines =>
    let cmd := command cmds keys
    if cmd.bytes = [] then session cmds s lines
    else if eqIgnoreCase cmd (lit "exit") then .ok (cmds ++ [cmd],s,[])
    else do
      let e ← effect fs (cmds ++ [cmd]) cmd s
      let r ← session (cmds ++ [cmd]) e.1 lines
      .ok (r.1,r.2.1,e.2 :: r.2.2)

/-- The line stays inside the editor's buffers. -/
def Typable (cmds : List CString) (keys : List Key) : Prop :=
  (∀ k ∈ keys, k.Valid) ∧ StaysShort (recorded cmds) keys

/-- The command stays inside the arrays it is taken apart into. -/
def Runnable (cmd : CString) : Prop :=
  Fits isBar 16 128 cmd.bytes ∧ Fits isSeparator 100 100 cmd.bytes

/-- Every line does, up to an `exit`, and the history has room for the commands. -/
def Fitting : List CString → List (List Key) → Prop
  | _, [] => True
  | cmds, keys :: lines =>
    Typable cmds keys ∧
      if (command cmds keys).bytes = [] then Fitting cmds lines
      else (command cmds keys).length ≤ 1022 ∧ cmds.length < MAX_HISTORY ∧
        (eqIgnoreCase (command cmds keys) (lit "exit") = false →
          Runnable (command cmds keys) ∧ Fitting (cmds ++ [command cmds keys]) lines)

def input (lines : List (List Key)) : Bytes := lines.flatMap fun keys => keys.flatMap Key.bytes ++ [10]

theorem bind_ok {ε α β : Type} (a : α) (f : α → Except ε β) : (Except.ok a >>= f) = f a := rfl

theorem length_store {m m' : Buffer} {i : ℕ} {w : Bytes} (h : store m i w = .ok m') : m'.length = m.length := by
  rw [store] at h
  split_ifs at h with hle
  obtain rfl := Except.ok.inj h
  simp only [List.length_append,List.length_take,List.length_map,List.length_drop]
  omega

theorem length_loadHistInto {buf : Buffer} {item : CString} {r : Buffer × ℕ}
    (h : loadHistInto buf item = .ok r) : r.1.length = buf.length := by
  obtain ⟨b₁,h₁,h⟩ := bind_eq_ok.mp h
  obtain ⟨b₂,h₂,h⟩ := bind_eq_ok.mp h
  obtain rfl := Except.ok.inj h
  exact (length_store h₂).trans (length_store h₁)

variable {history : List CString}

theorem saveDraft_buf {e e' : Editor} (h : saveDraft history e = .ok e') : e'.buf = e.buf := by
  unfold saveDraft at h
  split_ifs at h
  · obtain ⟨text,_,h⟩ := bind_eq_ok.mp h
    obtain ⟨draft,_,h⟩ := bind_eq_ok.mp h
    rw [← Except.ok.inj h]
  · rw [← Except.ok.inj h]

theorem length_pressUp {e e' : Editor} (h : pressUp history e = .ok e') : e'.buf.length = e.buf.length := by
  unfold pressUp at h
  split_ifs at h
  · obtain ⟨e₁,h₁,h⟩ := bind_eq_ok.mp h
    obtain ⟨item,_,h⟩ := bind_eq_ok.mp h
    obtain ⟨r,hr,h⟩ := bind_eq_ok.mp h
    obtain rfl := Except.ok.inj h
    rw [← saveDraft_buf h₁]
    exact length_loadHistInto hr
  · rw [← Except.ok.inj h]

theorem length_pressDown {e e' : Editor} (h : pressDown history e = .ok e') : e'.buf.length = e.buf.length := by
  unfold pressDown at h
  split_ifs at h
  · obtain ⟨text,_,h⟩ := bind_eq_ok.mp h
    obtain ⟨b₁,h₁,h⟩ := bind_eq_ok.mp h
    obtain ⟨b₂,h₂,h⟩ := bind_eq_ok.mp h
    obtain rfl := Except.ok.inj h
    exact (length_store h₂).trans (length_store h₁)
  · obtain ⟨item,_,h⟩ := bind_eq_ok.mp h
    obtain ⟨r,hr,h⟩ := bind_eq_ok.mp h
    obtain rfl := Except.ok.inj h
    exact length_loadHistInto hr
  · rw [← Except.ok.inj h]

theorem length_press {e e' : Editor} {k : Key} (h : press history e k = .ok e') :
    e'.buf.length = e.buf.length := by
  cases k with
  | byte c =>
    simp only [press] at h
    split_ifs at h
    · rw [← Except.ok.inj h]
    · rw [← Except.ok.inj h]
    · rw [← Except.ok.inj h]
    · obtain ⟨b,hb,h⟩ := bind_eq_ok.mp h
      obtain rfl := Except.ok.inj h
      exact length_store hb
  | escape second third =>
    simp only [press] at h
    split_ifs at h
    · exact length_pressUp h
    · exact length_pressDown h
    · rw [← Except.ok.inj h]
    · rw [← Except.ok.inj h]

theorem length_editLoop {sz fuel : ℕ} {w rest : Bytes} {e e' : Editor}
    (h : editLoop history sz fuel w e = .ok (some e',rest)) : e'.buf.length = e.buf.length := by
  induction fuel generalizing w e with
  | zero => cases w <;> simp [editLoop] at h
  | succ fuel ih =>
    cases w with
    | nil => simp [editLoop] at h
    | cons c w =>
      rw [editLoop] at h
      split_ifs at h
      · simp only [Except.ok.injEq,Prod.mk.injEq,Option.some.injEq] at h
        rw [h.1]
      · obtain ⟨k,_,h⟩ := bind_eq_ok.mp h
        obtain ⟨e₁,h₁,h⟩ := bind_eq_ok.mp h
        exact (ih h).trans (length_press h₁)

theorem length_filled {buf b : Buffer} {sz : ℕ} {w rest : Bytes}
    (h : ShellEditor.fgets history buf sz w = .ok (some b,rest)) : b.length = buf.length := by
  obtain ⟨⟨o,w'⟩,hr,h⟩ := bind_eq_ok.mp h
  cases o with
  | none => simp at h
  | some e =>
    obtain ⟨b',hb,h⟩ := bind_eq_ok.mp h
    simp only [Except.ok.injEq,Prod.mk.injEq,Option.some.injEq] at h
    rw [← h.1]
    exact (length_store hb).trans (length_editLoop hr)

theorem histLine_recorded (cmd : CString) : histLine (cmd ++ newline) = cmd.bytes := by
  have hbytes : (cmd ++ newline).bytes = cmd.bytes ++ [10] := rfl
  rw [histLine,hbytes,List.getLast?_concat,if_pos rfl,List.dropLast_concat]

theorem line_recorded (cmds : List CString) (i : ℕ) :
    Reference.line (recorded cmds) i = (cmds[i]?.map CString.bytes).getD [] := by
  rw [Reference.line,recorded,List.getElem?_map,Option.map_map]
  exact congrArg (fun f => (Option.map f cmds[i]?).getD []) (funext histLine_recorded)

theorem lf_notMem_line {cmds : List CString} (h : ∀ c ∈ cmds, 10 ∉ c.bytes) (i : ℕ) :
    10 ∉ Reference.line (recorded cmds) i := by
  rw [line_recorded]
  cases hc : cmds[i]? with
  | none => exact List.not_mem_nil
  | some c => exact h c (List.mem_of_getElem? hc)

theorem press_lf {cmds : List CString} (h : ∀ c ∈ cmds, 10 ∉ c.bytes) {k : Key} (hk : k.Valid) {r : Reference}
    (ht : 10 ∉ r.text) (hs : 10 ∉ r.saved) :
    10 ∉ (r.press (recorded cmds) k).text ∧ 10 ∉ (r.press (recorded cmds) k).saved := by
  unfold Reference.press
  split_ifs with h127 h3 hup hdraft hdown hback
  · exact ⟨fun hm => ht (List.mem_of_mem_dropLast hm),hs⟩
  · exact ⟨List.not_mem_nil,List.not_mem_nil⟩
  · exact ⟨lf_notMem_line h _,ht⟩
  · exact ⟨lf_notMem_line h _,hs⟩
  · exact ⟨hs,hs⟩
  · exact ⟨lf_notMem_line h _,hs⟩
  · cases k with
    | escape second third => exact ⟨ht,hs⟩
    | byte c => exact ⟨by simp [ht,Ne.symm hk.2.1],hs⟩

theorem lf_notMem_typed {cmds : List CString} (h : ∀ c ∈ cmds, 10 ∉ c.bytes) {keys : List Key}
    (hk : ∀ k ∈ keys, k.Valid) : 10 ∉ typed cmds keys := by
  have hboth : 10 ∉ (Reference.after (recorded cmds) keys).text ∧
      10 ∉ (Reference.after (recorded cmds) keys).saved := by
    induction keys using List.reverseRecOn with
    | nil => exact ⟨List.not_mem_nil,List.not_mem_nil⟩
    | append_singleton keys k ih =>
      obtain ⟨ht,hs⟩ := ih fun k hm => hk k (by simp [hm])
      rw [Reference.after,List.foldl_append]
      exact press_lf h (hk k (by simp)) ht hs
  exact hboth.1

theorem trim_typed {cmds : List CString} {keys : List Key} {line : CString} (h : line.bytes = typed cmds keys) :
    trim line = if (command cmds keys).bytes = [] then none else some (command cmds keys) := by
  have htrim := trim_bytes line
  have hnul : 0 ∉ strip line.bytes := fun h0 =>
    line.nul_free ((List.dropWhile_sublist _).subset ((List.rdropWhile_prefix _ _).subset h0))
  have hcmd : (command cmds keys).bytes = strip line.bytes := by
    rw [command,← h]
    exact CString.bytes_ofBuffer_of_notMem hnul
  have hblank : strip line.bytes = [] ↔ ¬ nonblank line.bytes = true := by
    rw [strip,List.rdropWhile_eq_nil_iff]
    constructor
    · intro hall hn
      obtain ⟨c,hc,hcb⟩ := List.any_eq_true.mp hn
      have hcb : ¬ isBlank c = true := by simpa using hcb
      rw [← List.takeWhile_append_dropWhile (p:=isBlank) (l:=line.bytes)] at hc
      rcases List.mem_append.mp hc with hc | hc
      · exact hcb (List.mem_takeWhile_imp hc)
      · exact hcb (hall c hc)
    · intro hn c hc
      by_contra hcb
      exact hn (List.any_eq_true.mpr ⟨c,(List.dropWhile_sublist _).subset hc,by simpa using hcb⟩)
  by_cases hn : nonblank line.bytes = true
  · rw [if_pos hn] at htrim
    obtain ⟨u,hu,hub⟩ := Option.map_eq_some_iff.mp htrim
    rw [hu,if_neg fun hnil => hblank.mp (hcmd.symm.trans hnil) hn]
    exact congrArg some (CString.ext (hub.trans hcmd.symm))
  · rw [if_neg hn] at htrim
    rw [Option.map_eq_none_iff.mp htrim,if_pos (hcmd.trans (hblank.mpr hn))]

theorem walk_arguments {cmd : CString} (h : Fits isSeparator 100 100 cmd.bytes) :
    (buildArgs cmd >>= walk) = .ok (arguments cmd) := by
  obtain ⟨v,args,hv,ha,hbytes⟩ := walk_args h
  refine bind_eq_ok.mpr ⟨v,hv,ha.trans (congrArg Except.ok ?_)⟩
  have hself : args.map (fun a => CString.ofBuffer a.bytes) = args :=
    (List.map_congr_left fun a _ => CString.ofBuffer_self a).trans (List.map_id _)
  rw [arguments,← hbytes,List.map_map]
  exact hself.symm

theorem walk_stages {cmd : CString} (h : Fits isBar 16 128 cmd.bytes) :
    (extractSegments cmd >>= walk) = .ok (segments cmd) ∧
      ∀ s ∈ segments cmd, s.bytes <:+: cmd.bytes := by
  obtain ⟨v,walked,hv,hw,hbytes⟩ := walk_segments h
  have hself : walked.map (fun a => CString.ofBuffer a.bytes) = walked :=
    (List.map_congr_left fun a _ => CString.ofBuffer_self a).trans (List.map_id _)
  have heq : segments cmd = walked := by
    rw [segments,← hbytes,List.map_map]
    exact hself
  refine ⟨bind_eq_ok.mpr ⟨v,hv,hw.trans (congrArg Except.ok heq.symm)⟩,fun s hs => ?_⟩
  rw [heq] at hs
  have hmem := List.mem_map_of_mem (f:=CString.bytes) hs
  rw [hbytes,takeWhile_splitOnP (by decide)] at hmem
  obtain ⟨p,hp,hps⟩ := List.mem_map.mp hmem
  have hin := (infix_of_mem_pieces ((List.takeWhile_sublist _).subset hp)).1
  rw [← hps]
  exact ((List.rdropWhile_prefix _ _).isInfix.trans (List.dropWhile_suffix _).isInfix).trans hin

theorem executeCmd_eq {history : List CString} {cmd : CString} (h : Fits isSeparator 100 100 cmd.bytes) :
    executeCmd history cmd = executeArgs history (arguments cmd) := by
  rw [executeCmd,← bind_assoc,walk_arguments h]
  rfl

theorem length_segments_le {cmd : CString} (h : Fits isBar 16 128 cmd.bytes) : (segments cmd).length ≤ 15 := by
  have hpieces : (pieces isBar [] cmd.bytes).length+1 ≤ 16 := ((fits_iff (by decide) _).mp h).1
  have htaken : (segments cmd).length = ((pieces isBar [] cmd.bytes).takeWhile nonblank).length := by
    rw [segments,← takeWhile_splitOnP (by decide),List.length_map,List.length_map]
  rw [htaken]
  exact (List.takeWhile_sublist _).length_le.trans (Nat.le_of_succ_le_succ hpieces)

/-- The arrays are large enough, so the command does what its words and stages say. -/
theorem runCommand_eq {cmds : List CString} {cmd : CString} (h : Runnable cmd) {free : ℕ} (hfree : 30 ≤ free)
    (s : Shell Dir) : runCommand fs (recorded cmds) free cmd s = effect fs cmds cmd s := by
  obtain ⟨hbar,hsep⟩ := h
  obtain ⟨hstages,hparts⟩ := walk_stages hbar
  have hpipe : handleCmd (recorded cmds) free (segments cmd) = runPipeline cmds (segments cmd) := by
    have hfew := length_segments_le hbar
    cases hs : segments cmd with
    | nil => rfl
    | cons t rest =>
      rw [hs] at hfew
      rw [handleCmd,if_pos (by omega)]
      refine congrArg (fun l => Except.ok (Event.pipeline l)) (List.map_congr_left fun u hu => ?_)
      exact executeCmd_eq (hsep.part (hparts u (hs ▸ hu)))
  rw [runCommand,← bind_assoc,walk_arguments hsep,effect]
  cases arguments cmd with
  | nil => rfl
  | cons name args =>
    rw [bind_ok]
    dsimp only
    split_ifs
    · rfl
    · rw [← bind_assoc,hstages,← hpipe]
      rfl

theorem after_concat (history : List CString) (keys : List Key) (k : Key) :
    Reference.after history (keys ++ [k]) = (Reference.after history keys).press history k := by
  rw [Reference.after,List.foldl_append]
  rfl

theorem press_up {history : List CString} {r : Reference} (h : 0 < r.slot) :
    r.press history up = ⟨Reference.line history (r.slot-1),r.slot-1,
      if r.slot = history.length then r.text else r.saved⟩ := by
  simp [Reference.press,up,h]

theorem press_up_oldest {history : List CString} {r : Reference} (h : ¬ 0 < r.slot) :
    r.press history up = r := by
  simp [Reference.press,up,down,h]

theorem after_ups {history : List CString} (hne : history ≠ []) (k : ℕ) :
    Reference.after history (List.replicate (k+1) up) =
      ⟨Reference.line history (history.length-(k+1)),history.length-(k+1),[]⟩ := by
  have hpos : 0 < history.length := List.length_pos_of_ne_nil hne
  induction k with
  | zero =>
    change Reference.press history ⟨[],history.length,[]⟩ up = _
    rw [press_up hpos,if_pos rfl]
  | succ k ih =>
    rw [List.replicate_succ',after_concat,ih]
    by_cases h0 : 0 < history.length-(k+1)
    · rw [press_up h0,if_neg (show history.length-(k+1) ≠ history.length by omega)]
      rfl
    · have hsame : history.length-(k+1+1) = history.length-(k+1) := by omega
      rw [press_up_oldest h0,hsame]

theorem after_bytes (history : List CString) {w : Bytes} (hw : ∀ c ∈ w, c ≠ 127 ∧ c ≠ 3) :
    Reference.after history (w.map Key.byte) = ⟨w,history.length,[]⟩ := by
  induction w using List.reverseRecOn with
  | nil => rfl
  | append_singleton w c ih =>
    obtain ⟨h127,h3⟩ := hw c (by simp)
    rw [List.map_append,List.map_singleton,after_concat,ih fun c hc => hw c (by simp [hc])]
    simp [Reference.press,h127,h3,up,down]

section Recall

variable {cmds : List CString} {k : ℕ} {c : CString}

theorem typed_ups (hc : cmds[cmds.length-(k+1)]? = some c) :
    typed cmds (List.replicate (k+1) up) = c.bytes := by
  have hne : recorded cmds ≠ [] := by
    rintro h
    obtain rfl := List.map_eq_nil_iff.mp h
    simp at hc
  have hlen : (recorded cmds).length = cmds.length := List.length_map _
  rw [typed,after_ups hne,hlen,line_recorded,hc]
  rfl

theorem typable_ups (hc : cmds[cmds.length-(k+1)]? = some c) (hshort : ∀ c ∈ cmds, c.length ≤ 1022) :
    Typable cmds (List.replicate (k+1) up) := by
  refine ⟨fun key hkey => by rw [List.eq_of_mem_replicate hkey]; trivial,fun p hp => ?_⟩
  have hne : recorded cmds ≠ [] := by
    rintro h
    obtain rfl := List.map_eq_nil_iff.mp h
    simp at hc
  obtain ⟨j,rfl⟩ : ∃ j, p = List.replicate j up :=
    ⟨p.length,List.eq_replicate_of_mem fun key hkey => List.eq_of_mem_replicate (hp.subset hkey)⟩
  cases j with
  | zero => exact Nat.succ_pos _
  | succ j =>
    rw [after_ups hne,line_recorded]
    cases hd : cmds[(recorded cmds).length-(j+1)]? with
    | none => exact Nat.succ_pos _
    | some d => exact Nat.lt_succ_of_le ((hshort d (List.mem_of_getElem? hd)).trans (by decide))

theorem typable_bytes {w : Bytes} (hplain : ∀ b ∈ w, b ≠ 127 ∧ b ≠ 3)
    (hvalid : ∀ b ∈ w, b ≠ 0 ∧ b ≠ 10 ∧ b ≠ 27) (hlt : w.length < LINE_SZ) :
    Typable cmds (w.map Key.byte) := by
  constructor
  · intro key hkey
    obtain ⟨b,hb,rfl⟩ := List.mem_map.mp hkey
    exact hvalid b hb
  · intro p hp
    obtain ⟨v,hv,rfl⟩ := List.prefix_map_iff.mp hp
    rw [after_bytes _ fun b hb => hplain b (hv.subset hb)]
    exact Nat.lt_of_le_of_lt hv.length_le hlt

end Recall

structure Recorded (h : History) (cmds : List CString) : Prop where
  file : h.file = text cmds
  size : h.history.length = MAX_HISTORY
  items : items h = .ok (recorded cmds)
  lf : ∀ c ∈ cmds, 10 ∉ c.bytes
  short : ∀ c ∈ cmds, c.length ≤ 1022
  room : cmds.length ≤ MAX_HISTORY

theorem items_cells (cmds : List CString) (rest : Pointers) (file : Bytes) :
    items ⟨file,((cmds.map line).map cell) ++ rest,cmds.length⟩ = .ok (recorded cmds) := by
  have htake : (((cmds.map line).map cell) ++ rest).take cmds.length = (cmds.map line).map cell :=
    List.take_left' (by simp)
  rw [items,htake]
  induction cmds with
  | nil => rfl
  | cons c cmds ih =>
    simp only [List.map_cons,List.mapM_cons,cell_line]
    rw [ih (List.take_left' (by simp))]
    rfl

theorem load_recorded {cmds : List CString} (hlf : ∀ c ∈ cmds, 10 ∉ c.bytes)
    (hshort : ∀ c ∈ cmds, c.length ≤ 1022) (hmax : cmds.length ≤ MAX_HISTORY) {h : History}
    (hfile : h.file = text cmds) (hsize : h.history.length = MAX_HISTORY) (free : ℕ) :
    ∃ h', loadOpen h (free+1) = .ok (h',free) ∧ Recorded h' cmds := by
  have hchunks : chunks 1023 h.file = cmds.map line := hfile ▸ chunks_text hlf hshort
  have hload := historyLoad_eq hsize
  rw [hchunks,List.length_map,if_pos hmax] at hload
  refine ⟨_,bind_eq_ok.mpr ⟨_,hload,rfl⟩,hfile,?_,items_cells cmds _ _,hlf,hshort,hmax⟩
  simp only [List.length_append,List.length_map,List.length_drop,hsize]
  omega

theorem add_recorded {h : History} {cmds : List CString} (hr : Recorded h cmds) {cmd : CString}
    (hlf : 10 ∉ cmd.bytes) (hshort : cmd.length ≤ 1022) (hroom : cmds.length < MAX_HISTORY) (free : ℕ) :
    ∃ h', addOpen h cmd (free+1) = .ok (h',free) ∧ Recorded h' (cmds ++ [cmd]) := by
  refine load_recorded (h:={ h with file := h.file ++ cmd.bytes ++ [10] }) ?_ ?_ (by simpa using hroom) ?_
    hr.size free
  · intro c hc
    rcases List.mem_append.mp hc with hc | hc
    · exact hr.lf c hc
    · rwa [List.mem_singleton.mp hc]
  · intro c hc
    rcases List.mem_append.mp hc with hc | hc
    · exact hr.short c hc
    · rwa [List.mem_singleton.mp hc]
  · rw [text_snoc,← hr.file,line,List.append_assoc]

def outcome (f : Final Dir) : Bytes × Shell Dir × List Event := (f.record.file,f.shell,f.events)

theorem more_events (x : Except Fault (Final Dir)) (e : Event) :
    (x >>= fun f => .ok { f with events := e :: f.events }).map outcome =
      (x.map outcome).map fun o => (o.1,o.2.1,e :: o.2.2) := by
  cases x <;> rfl

theorem more_session (x : Except Fault (List CString × Shell Dir × List Event)) (e : Event) :
    (x >>= fun r => .ok (r.1,r.2.1,e :: r.2.2)).map (fun r => (text r.1,r.2)) =
      (x.map fun r => (text r.1,r.2)).map fun o => (o.1,o.2.1,e :: o.2.2) := by
  cases x <;> rfl

theorem length_le_input (lines : List (List Key)) : lines.length ≤ (input lines).length := by
  induction lines with
  | nil => exact Nat.zero_le _
  | cons keys lines ih =>
    have hcons : input (keys :: lines) = keys.flatMap Key.bytes ++ 10 :: input lines := by simp [input]
    rw [hcons,List.length_append,List.length_cons,List.length_cons]
    omega

/-- One round of the loop, behind a line that was read. -/
theorem processInput_line {history : List CString} {record : History} (hi : items record = .ok history)
    {w rest : Bytes} {buf b : Buffer} {line : CString}
    (hf : ShellEditor.fgets history buf LINE_SZ w = .ok (some b,rest)) (hline : stringOf b = .ok line)
    (s : Shell Dir) (fuel free : ℕ) :
    (trim line = none →
      processInput fs (fuel+1) free w buf record s = processInput fs fuel free rest b record s) ∧
      ∀ cmd, trim line = some cmd → processInput fs (fuel+1) free w buf record s = (do
        let a ← addOpen record cmd free
        if eqIgnoreCase cmd (lit "exit") then .ok ⟨a.1,s,[]⟩
        else do
          let history ← items a.1
          let e ← runCommand fs history a.2 cmd s
          let f ← processInput fs fuel a.2 rest b a.1 e.1
          .ok { f with events := e.2 :: f.events }) := by
  rw [processInput,hi,bind_ok,hf,bind_ok]
  dsimp only
  rw [hline,bind_ok]
  constructor
  · intro ht
    rw [ht]
  · intro cmd ht
    rw [ht]

/-- A command takes one descriptor for good, and thirty are enough for the pipes of one. -/
theorem processInput_session {cmds : List CString} {record : History} {buf : Buffer} {lines : List (List Key)}
    (hr : Recorded record cmds) (hb : buf.length = LINE_SZ) (hfit : Fitting cmds lines) (s : Shell Dir)
    {fuel free : ℕ} (hfuel : lines.length < fuel) (hfree : lines.length+30 ≤ free) :
    (processInput fs fuel free (input lines) buf record s).map outcome =
      (session fs cmds s lines).map fun r => (text r.1,r.2) := by
  induction lines generalizing cmds record buf s fuel free with
  | nil =>
    obtain ⟨fuel,rfl⟩ := Nat.exists_eq_succ_of_ne_zero hfuel.ne'
    rw [processInput,hr.items]
    simp only [session,Except.map,← hr.file]
    rfl
  | cons keys lines ih =>
    obtain ⟨fuel,rfl⟩ := Nat.exists_eq_succ_of_ne_zero (Nat.ne_zero_of_lt hfuel)
    have hfuel : lines.length < fuel := Nat.lt_of_succ_lt_succ hfuel
    obtain ⟨free,rfl⟩ : ∃ k, free = k+1 := Nat.exists_eq_succ_of_ne_zero (by omega)
    have hfree : lines.length+30 ≤ free := by
      rw [List.length_cons] at hfree
      omega
    obtain ⟨⟨hvalid,hstay⟩,hrest⟩ := hfit
    obtain ⟨b,line,hf,hline,hbytes⟩ := fgets_keys hb keys hvalid hstay (input lines)
    have hb' : b.length = LINE_SZ := (length_filled hf).trans hb
    have hin : input (keys :: lines) = keys.flatMap Key.bytes ++ 10 :: input lines := by simp [input]
    have hround := processInput_line fs hr.items hf hline s fuel (free+1)
    rw [← hin,trim_typed hbytes] at hround
    rw [session]
    by_cases hblank : (command cmds keys).bytes = []
    · rw [if_pos hblank] at hrest hround
      rw [if_pos hblank,hround.1 rfl]
      exact ih hr hb' hrest s hfuel (hfree.trans (Nat.le_succ free))
    · rw [if_neg hblank] at hrest hround
      rw [if_neg hblank,hround.2 _ rfl]
      obtain ⟨hshort,hroom,hrest⟩ := hrest
      have hlf : 10 ∉ (command cmds keys).bytes := fun h10 => by
        have hstrip := List.takeWhile_sublist _ |>.subset h10
        exact lf_notMem_typed hr.lf hvalid
          ((List.dropWhile_sublist _).subset ((List.rdropWhile_prefix _ _).subset hstrip))
      obtain ⟨record',hadd,hr'⟩ := add_recorded hr hlf hshort hroom free
      rw [hadd]
      by_cases hexit : eqIgnoreCase (command cmds keys) (lit "exit") = true
      · simp only [bind,Except.bind,if_pos hexit,Except.map,outcome,hr'.file]
      · obtain ⟨hrun,hnext⟩ := hrest (by simpa using hexit)
        have hpipes : 30 ≤ free := (Nat.le_add_left _ _).trans hfree
        simp only [bind,Except.bind,if_neg hexit,hr'.items,runCommand_eq fs hrun hpipes]
        cases he : effect fs (cmds ++ [command cmds keys]) (command cmds keys) s with
        | error f => rfl
        | ok e =>
          have h := ih hr' hb' hnext e.1 hfuel hfree
          exact (more_events _ e.2).trans ((congrArg _ h).trans (more_session _ e.2).symm)

def sampleLines : List (List Key) := [[up],(lit "history|wc").bytes.map Key.byte]

theorem fitting_sample : Fitting [lit "ls"] sampleLines := by
  refine ⟨typable_ups (k:=0) (c:=lit "ls") (by decide) (by decide),?_⟩
  rw [if_neg (by decide)]
  refine ⟨by decide,by decide,fun _ => ⟨⟨(fits_iff (by decide) _).mpr (by decide),
    (fits_iff (by decide) _).mpr (by decide)⟩,
    typable_bytes (by decide +kernel) (by decide +kernel) (by decide),?_⟩⟩
  rw [if_neg (by decide)]
  exact ⟨by decide,by decide,fun _ => ⟨⟨(fits_iff (by decide) _).mpr (by decide),
    (fits_iff (by decide) _).mpr (by decide)⟩,trivial⟩⟩

end ShellSession
end CodingChallenges
