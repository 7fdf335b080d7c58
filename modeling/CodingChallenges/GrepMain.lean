import CodingChallenges.GrepTool

/-! `main` of the `grep` tool: a pattern language of seven forms, decided anew for every line. -/
namespace CodingChallenges
namespace GrepMain

open CText CMemory CStream GrepTool

/-- `isalpha` in the "C" locale. -/
def isAlpha (b : UInt8) : Bool := (65 ≤ b && b ≤ 90) || (97 ≤ b && b ≤ 122)

/-- `strncmp(buf, prefix, strlen(prefix)) == 0`. -/
def hasPrefix (buf front : CString) : Bool := buf.take front.length = front

def hasDigit : Bytes → Bool
  | [] => false
  | c :: s => if isDigit c then true else hasDigit s

def hasNonChar : Bytes → Bool
  | [] => false
  | c :: s =>
    if c = 10 || c = 32 || c = 9 then hasNonChar s
    else if !isAlpha c then true
    else hasNonChar s

def hasByte (b : UInt8) : Bytes → Bool
  | [] => false
  | c :: s => if c = b then true else hasByte b s

/-- `single` is `type == SINGLE_CHARACTER`. -/
structure State where
  single : Bool
  matched_line_count : ℤ
  printed : Bytes

def State.print (s : State) (buf : CString) : State := { s with printed := s.printed ++ buf.bytes }

/-- The body of the loop over the lines; `none` is the `return 1` in it. -/
def searchLine (opt arg : CString) (s : State) (buf : CString) : Except Fault (Option State) :=
  if opt.bytes.head? = some 94 then
    .ok (some (if hasPrefix buf (opt.drop 1) then s.print buf else s))
  else if opt = lit "\\d" then .ok (some (if hasDigit buf.bytes then s.print buf else s))
  else if opt = lit "\\w" then .ok (some (if hasNonChar buf.bytes then s else s.print buf))
  else if opt = lit "-v" then .ok (some (if strstr buf arg then s else s.print buf))
  else if opt.bytes = [] then .ok (some { s.print buf with single := false })
  else if opt.length = 1 then
    if hasByte (opt.bytes.headD 0) buf.bytes then do
      let matched_line_count ← addInt s.matched_line_count 1
      .ok (some { s.print buf with single := true, matched_line_count := matched_line_count })
    else .ok (some { s with single := true })
  else .ok none

/-- The loop, and what stands behind it: the value of `main` and what is printed. -/
def searchLines (opt arg : CString) : State → List CString → Except Fault (ℕ × Bytes)
  | s, [] => .ok (if s.single then if s.matched_line_count ≠ 0 then 0 else 1 else 0,s.printed)
  | s, buf :: bufs => do
    match ← searchLine opt arg s buf with
    | none => .ok (1,s.printed ++ ascii "undefine behavior")
    | some s => searchLines opt arg s bufs

/-- `main` for `argv[1]` and what follows it, with so many descriptors. -/
def grep (fs : FileSystem) (fuel free : ℕ) (stdin : Bytes) : List CString → Except Fault (ℕ × Bytes)
  | opt :: arg :: args =>
    if eqIgnoreCase opt (lit "-r") then
      match args with
      | [] => .error .nullPointer
      | dir :: _ => do
        let r ← listLinesRecursively fs arg fuel free dir
        .ok (0,r.2.2.flatMap fun line => line.1.bytes ++ [58] ++ line.2)
    else
      match if eqIgnoreCase opt (lit "-v") then some stdin else if free = 0 then none else fs.fopen arg with
      | none => .ok (1,[])
      | some content => searchLines opt arg ⟨false,0,[]⟩ ((chunks (MAX_LINE_LENGTH-1) content).map CString.ofBuffer)
  | _ => .ok (1,[])

inductive Form
  | anchored (front : Bytes)
  | digit
  | letters
  | without
  | every
  | byte (c : UInt8)

def formOf (opt : CString) : Option Form :=
  match opt.bytes with
  | [] => some .every
  | c :: rest =>
    if c = 94 then some (.anchored rest)
    else if opt = lit "\\d" then some .digit
    else if opt = lit "\\w" then some .letters
    else if opt = lit "-v" then some .without
    else if rest = [] then some (.byte c)
    else none

def Form.selects (arg : CString) : Form → Bytes → Bool
  | .anchored front, line => front <+: line
  | .digit, line => line.any isDigit
  | .letters, line => line.all fun c => isAlpha c || c = 10 || c = 32 || c = 9
  | .without, line => !(arg.bytes <:+: line)
  | .every, _ => true
  | .byte c, line => c ∈ line

/-- Only for one byte does the value tell whether a line was selected. -/
def Form.value (selected lines : List Bytes) : Form → ℕ
  | .byte _ => if lines ≠ [] ∧ selected = [] then 1 else 0
  | _ => 0

variable {opt arg buf : CString} {s : State}

theorem hasPrefix_eq (buf front : CString) : hasPrefix buf front = decide (front.bytes <+: buf.bytes) := by
  rw [hasPrefix,decide_eq_decide,List.prefix_iff_eq_take,CString.ext_iff]
  exact eq_comm

theorem hasDigit_eq (w : Bytes) : hasDigit w = w.any isDigit := by
  induction w with
  | nil => rfl
  | cons c w ih =>
    rw [hasDigit,List.any_cons,ih]
    cases isDigit c <;> rfl

theorem hasNonChar_eq (w : Bytes) :
    hasNonChar w = !w.all fun c => isAlpha c || c = 10 || c = 32 || c = 9 := by
  induction w with
  | nil => rfl
  | cons c w ih =>
    rw [hasNonChar,List.all_cons,ih]
    cases ha : isAlpha c <;> by_cases h10 : c = 10 <;> by_cases h32 : c = 32 <;> by_cases h9 : c = 9 <;>
      simp [h10,h32,h9]

theorem hasByte_eq (b : UInt8) (w : Bytes) : hasByte b w = decide (b ∈ w) := by
  induction w with
  | nil => rfl
  | cons c w ih =>
    rw [hasByte,ih]
    by_cases hc : c = b
    · simp [hc]
    · simp [hc,Ne.symm hc]

variable {f : Form} {c : UInt8} {rest : Bytes}

theorem formOf_cons (ho : opt.bytes = c :: rest) : formOf opt =
    if c = 94 then some (.anchored rest)
    else if opt = lit "\\d" then some .digit
    else if opt = lit "\\w" then some .letters
    else if opt = lit "-v" then some .without
    else if rest = [] then some (.byte c)
    else none := by
  rw [formOf,ho]

theorem formOf_nil (ho : opt.bytes = []) : formOf opt = some .every := by
  rw [formOf,ho]

theorem searchLine_cons (ho : opt.bytes = c :: rest) (arg : CString) (s : State) (buf : CString) :
    searchLine opt arg s buf =
      if c = 94 then .ok (some (if rest <+: buf.bytes then s.print buf else s))
      else if opt = lit "\\d" then .ok (some (if buf.bytes.any isDigit then s.print buf else s))
      else if opt = lit "\\w" then
        .ok (some (if buf.bytes.all fun c => isAlpha c || c = 10 || c = 32 || c = 9 then s.print buf else s))
      else if opt = lit "-v" then .ok (some (if !(arg.bytes <:+: buf.bytes) then s.print buf else s))
      else if rest = [] then
        if c ∈ buf.bytes then do
          let matched_line_count ← addInt s.matched_line_count 1
          .ok (some { s.print buf with single := true, matched_line_count := matched_line_count })
        else .ok (some { s with single := true })
      else .ok none := by
  have hdrop : (opt.drop 1).bytes = rest := by rw [CString.drop_bytes,ho]; rfl
  have hlen : opt.length = 1 ↔ rest = [] := by
    show opt.bytes.length = 1 ↔ _
    rw [ho,List.length_cons]
    simp
  rw [searchLine,ho,hasPrefix_eq,hasDigit_eq,hasNonChar_eq,hasByte_eq,hdrop,strstr]
  simp only [List.head?_cons,Option.some.injEq,List.headD_cons,reduceCtorEq,if_false,hlen,decide_eq_true_eq]
  congr 3
  · cases buf.bytes.all _ <;> rfl
  · by_cases hp : arg.bytes <:+: buf.bytes <;> by_cases hc : c ∈ buf.bytes <;> simp [hp,hc]

theorem searchLine_other (hf : formOf opt = some f) (hb : ∀ c, f ≠ .byte c) (hs : s.single = false) :
    searchLine opt arg s buf = .ok (some (if f.selects arg buf.bytes then s.print buf else s)) := by
  cases ho : opt.bytes with
  | nil =>
    rw [formOf_nil ho] at hf
    obtain rfl := Option.some.inj hf
    have hempty : opt = ⟨[],by simp⟩ := CString.ext ho
    subst hempty
    have hsame : ({ s.print buf with single := false } : State) = s.print buf := by rw [← hs]; rfl
    show Except.ok (some { s.print buf with single := false }) = _
    rw [hsame]
    rfl
  | cons c rest =>
    rw [formOf_cons ho] at hf
    rw [searchLine_cons ho]
    split_ifs at hf with h94 hd hw hv hrest
    · obtain rfl := Option.some.inj hf
      rw [if_pos h94]
      simp only [Form.selects,decide_eq_true_eq]
    · obtain rfl := Option.some.inj hf
      rw [if_neg h94,if_pos hd]
      rfl
    · obtain rfl := Option.some.inj hf
      rw [if_neg h94,if_neg hd,if_pos hw]
      rfl
    · obtain rfl := Option.some.inj hf
      rw [if_neg h94,if_neg hd,if_neg hw,if_pos hv]
      rfl
    · exact absurd (Option.some.inj hf).symm (hb c)

theorem searchLine_byte (hf : formOf opt = some (.byte c)) : searchLine opt arg s buf =
    if c ∈ buf.bytes then do
      let matched_line_count ← addInt s.matched_line_count 1
      .ok (some { s.print buf with single := true, matched_line_count := matched_line_count })
    else .ok (some { s with single := true }) := by
  cases ho : opt.bytes with
  | nil =>
    rw [formOf_nil ho] at hf
    cases hf
  | cons d rest =>
    rw [formOf_cons ho] at hf
    rw [searchLine_cons ho]
    split_ifs at hf with h94 hd hw hv hrest
    all_goals cases hf
    rw [if_neg h94,if_neg hd,if_neg hw,if_neg hv,if_pos hrest]

theorem searchLine_none (hf : formOf opt = none) : searchLine opt arg s buf = .ok none := by
  cases ho : opt.bytes with
  | nil =>
    rw [formOf_nil ho] at hf
    cases hf
  | cons d rest =>
    rw [formOf_cons ho] at hf
    rw [searchLine_cons ho]
    split_ifs at hf with h94 hd hw hv hrest
    rw [if_neg h94,if_neg hd,if_neg hw,if_neg hv,if_neg hrest]

def selected (arg : CString) (f : Form) (bufs : List CString) : List Bytes :=
  (bufs.map CString.bytes).filter (f.selects arg)

theorem selected_cons (arg : CString) (f : Form) (buf : CString) (bufs : List CString) :
    selected arg f (buf :: bufs) =
      if f.selects arg buf.bytes then buf.bytes :: selected arg f bufs else selected arg f bufs := by
  rw [selected,List.map_cons,List.filter_cons]
  rfl

theorem searchLines_other (hf : formOf opt = some f) (hb : ∀ c, f ≠ .byte c) (hs : s.single = false)
    (bufs : List CString) :
    searchLines opt arg s bufs = .ok (0,s.printed ++ (selected arg f bufs).flatten) := by
  induction bufs generalizing s with
  | nil => simp [searchLines,hs,selected]
  | cons buf bufs ih =>
    rw [searchLines,searchLine_other hf hb hs,selected_cons]
    simp only [bind,Except.bind]
    by_cases hsel : f.selects arg buf.bytes = true
    · rw [if_pos hsel,if_pos hsel,ih (s:=s.print buf) hs,List.flatten_cons,State.print,List.append_assoc]
    · rw [if_neg hsel,if_neg hsel,ih hs]

/-- With one byte the value is 1 when there are lines and none is selected. -/
theorem searchLines_byte (hf : formOf opt = some (.byte c)) (h0 : 0 ≤ s.matched_line_count) {bufs : List CString}
    (hmax : s.matched_line_count+bufs.length ≤ INT_MAX) :
    searchLines opt arg s bufs =
      .ok (if (s.single = true ∨ bufs ≠ []) ∧ s.matched_line_count = 0 ∧ selected arg (.byte c) bufs = []
          then 1 else 0,
        s.printed ++ (selected arg (.byte c) bufs).flatten) := by
  induction bufs generalizing s with
  | nil =>
    rw [searchLines]
    cases hs : s.single <;> simp [selected]
  | cons buf bufs ih =>
    rw [List.length_cons] at hmax
    rw [searchLines,searchLine_byte hf,selected_cons]
    by_cases hmem : c ∈ buf.bytes
    · have hsel : (Form.byte c).selects arg buf.bytes = true := decide_eq_true hmem
      have hmin : INT_MIN ≤ s.matched_line_count+1 := le_trans (by decide) (Int.add_nonneg h0 (by decide))
      rw [if_pos hmem,if_pos hsel,addInt_of_range hmin (by push_cast at hmax; omega)]
      simp only [bind,Except.bind]
      rw [ih (s:={ s.print buf with single := true, matched_line_count := s.matched_line_count+1 })
        (by simp only; omega) (by simp only; push_cast at hmax; omega)]
      have hne : ¬ s.matched_line_count+1 = 0 := by omega
      simp [hne,State.print]
    · have hsel : ¬ (Form.byte c).selects arg buf.bytes = true := by simpa [Form.selects] using hmem
      rw [if_neg hmem,if_neg hsel]
      simp only [bind,Except.bind]
      rw [ih (s:={ s with single := true }) h0 (by simp only; push_cast at hmax; omega)]
      simp

theorem map_chunks {content : CString} (h : ∀ line ∈ textLines content.bytes, line.length ≤ MAX_LINE_LENGTH-1) :
    ((chunks (MAX_LINE_LENGTH-1) content.bytes).map CString.ofBuffer).map CString.bytes =
      textLines content.bytes := by
  have hself : ∀ buf ∈ chunks (MAX_LINE_LENGTH-1) content.bytes, (CString.ofBuffer buf).bytes = buf := by
    intro buf hb
    refine CString.bytes_ofBuffer_of_notMem fun h0 => content.nul_free ?_
    rw [← flatten_chunks (n:=MAX_LINE_LENGTH-1) (by decide) content.bytes]
    exact List.mem_flatten_of_mem hb h0
  have hlines : chunks (MAX_LINE_LENGTH-1) content.bytes = textLines content.bytes := by
    rw [chunks_textLines (by decide)]
    refine (List.flatMap_congr fun line hl => chunks_of_mem_textLines hl (h line hl)).trans ?_
    exact List.flatMap_singleton' _
  have hid : (chunks (MAX_LINE_LENGTH-1) content.bytes).map (CString.bytes ∘ CString.ofBuffer) =
      chunks (MAX_LINE_LENGTH-1) content.bytes := (List.map_congr_left hself).trans (List.map_id _)
  rw [List.map_map,hid,hlines]

/-- What `grep` prints and returns for an option other than -r: the lines its form selects, in order;
the value 1 where the option is one byte that no line has; and a complaint at the first line where
the option has no form. -/
theorem grep_lines {fs : FileSystem} {fuel free : ℕ} {stdin : Bytes} {args : List CString} {content : CString}
    (hr : eqIgnoreCase opt (lit "-r") = false)
    (hin : (if eqIgnoreCase opt (lit "-v") then some stdin else if free = 0 then none else fs.fopen arg) =
      some content.bytes)
    (hfit : ∀ line ∈ textLines content.bytes, line.length ≤ MAX_LINE_LENGTH-1)
    (hcount : ((textLines content.bytes).length : ℤ) ≤ INT_MAX) :
    grep fs fuel free stdin (opt :: arg :: args) = .ok (match formOf opt with
      | some f =>
        (f.value ((textLines content.bytes).filter (f.selects arg)) (textLines content.bytes),
          ((textLines content.bytes).filter (f.selects arg)).flatten)
      | none => if textLines content.bytes = [] then (0,[]) else (1,ascii "undefine behavior")) := by
  have hmap := map_chunks hfit
  have hrun : grep fs fuel free stdin (opt :: arg :: args) = searchLines opt arg ⟨false,0,[]⟩
      ((chunks (MAX_LINE_LENGTH-1) content.bytes).map CString.ofBuffer) := by
    simp only [grep,hr,Bool.false_eq_true,if_false,hin]
  rw [hrun]
  generalize (chunks (MAX_LINE_LENGTH-1) content.bytes).map CString.ofBuffer = bufs at hmap
  rw [← hmap] at hcount ⊢
  rw [List.length_map] at hcount
  cases hf : formOf opt with
  | none =>
    cases bufs with
    | nil => rfl
    | cons buf bufs =>
      rw [searchLines,searchLine_none hf]
      rfl
  | some f =>
    by_cases hb : ∃ c, f = .byte c
    · obtain ⟨c,rfl⟩ := hb
      rw [searchLines_byte hf (le_refl 0) (by simpa using hcount)]
      simp [Form.value,selected]
    · have hother : ∀ c, f ≠ .byte c := fun c hc => hb ⟨c,hc⟩
      have hvalue (xs ys : List Bytes) : f.value xs ys = 0 := by
        cases f with
        | byte c => exact absurd rfl (hother c)
        | _ => rfl
      rw [searchLines_other hf hother rfl]
      exact congrArg Except.ok (Prod.ext (hvalue _ _).symm rfl)

def oneFile (content : CString) : FileSystem := ⟨fun _ => none,fun _ => some content.bytes⟩

/-- One byte that no line has, and an empty file. -/
theorem grep_lines_byte : grep (oneFile (lit "ab\ncd\n")) 0 1 [] [lit "x",lit "f"] = .ok (1,[]) ∧
    grep (oneFile (lit "")) 0 1 [] [lit "x",lit "f"] = .ok (0,[]) := by
  have hr : eqIgnoreCase (lit "x") (lit "-r") = false := by decide
  have hin (content : CString) : (if eqIgnoreCase (lit "x") (lit "-v") then some []
      else if 1 = 0 then none else (oneFile content).fopen (lit "f")) = some content.bytes := rfl
  exact ⟨grep_lines hr (hin (lit "ab\ncd\n")) (by decide) (by decide),
    grep_lines hr (hin (lit "")) (by decide) (by decide)⟩

end GrepMain
end CodingChallenges
