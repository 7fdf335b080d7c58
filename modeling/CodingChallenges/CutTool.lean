import Mathlib.Data.Bool.AllAny
import CodingChallenges.CMemory
import CodingChallenges.CStream

/-! The `cut` tool. The columns of `-f` are the bits of a word, and a counter of the fields
is tried against them byte by byte. A shift past the word has no defined result. -/
namespace CodingChallenges
namespace CutTool

open CText CMemory CStream

abbrev BUFSIZE : ℕ := 1000

/-- `1u << cval`. -/
def columnBit (cval : ℕ) : Except Fault (BitVec 32) :=
  if cval < 32 then .ok (1#32 <<< cval) else .error .intOverflow

/-- `cval * 10 + (*carg - '0')`. -/
def nextValue (cval : ℕ) (c : UInt8) : Except Fault ℕ :=
  if 10*cval+(c.toNat-48) < 2^31 then .ok (10*cval+(c.toNat-48)) else .error .intOverflow

def isComma (c : UInt8) : Bool := c = 32 || c = 44

/-- The loop over the text of `-f`, from the bits and the number read so far. -/
def readColumns : Bytes → BitVec 32 × ℕ → Except Fault (BitVec 32 × ℕ)
  | [], (colFetch,cval) => do
    let b ← columnBit cval
    .ok (colFetch ||| b,cval)
  | c :: carg, (colFetch,cval) =>
    if isComma c then do
      let b ← columnBit cval
      readColumns carg (colFetch ||| b,0)
    else if !isDigit c then .error (.exit 1)
    else do
      let cval ← nextValue cval c
      readColumns carg (colFetch,cval)

structure Options where
  delimiter : UInt8
  colFetch : BitVec 32
  cval : ℕ
  filename : Option CString

def defaults : Options := ⟨9,0,0,none⟩

def isColumns (arg : CString) : Bool := arg.bytes.take 2 = [45,102]

def isDelimiter (arg : CString) : Bool := arg.bytes.take 2 = [45,100]

def readArg (o : Options) (arg : CString) : Except Fault Options :=
  if isColumns arg then do
    let r ← readColumns (arg.bytes.drop 2) (o.colFetch,o.cval)
    .ok { o with colFetch := r.1, cval := r.2 }
  else if isDelimiter arg then .ok { o with delimiter := arg.bytes[2]?.getD 0 }
  else .ok { o with filename := some arg }

/-- `field`, `pfch` and what has been printed. -/
structure Cursor where
  field : ℕ
  pfch : Bool
  out : Bytes

/-- `col_fetch & (1 << field)`; the shift is one of an `int`. -/
def fetches (colFetch : BitVec 32) (field : ℕ) : Except Fault Bool :=
  if field < 31 then .ok (colFetch &&& (1#32 <<< field) ≠ 0#32) else .error .intOverflow

/-- `field++`, and the delimiter in front of a field of the list. -/
def nextField (colFetch : BitVec 32) (delimiter : UInt8) (q : Cursor) : Except Fault Cursor :=
  let q := { q with field := q.field+1 }
  if q.pfch then do
    let b ← fetches colFetch q.field
    .ok (if b then { q with out := q.out ++ [delimiter] } else q)
  else .ok q

def cutByte (colFetch : BitVec 32) (delimiter : UInt8) (q : Cursor) (c : UInt8) : Except Fault Cursor :=
  if c = 10 then .ok q
  else do
    let q ← if delimiter = c then nextField colFetch delimiter q else .ok q
    let b ← fetches colFetch q.field
    .ok (if b ∧ c ≠ delimiter then { q with out := q.out ++ [c], pfch := true } else q)

/-- One `buf`, up to its terminator. -/
def cutBuffer (colFetch : BitVec 32) (delimiter : UInt8) (buf : Bytes) : Except Fault Bytes := do
  let q ← (CString.ofBuffer buf).bytes.foldlM (cutByte colFetch delimiter) ⟨1,false,[]⟩
  .ok (q.out ++ [10])

def cutChunks (colFetch : BitVec 32) (delimiter : UInt8) : List Bytes → Except Fault Bytes
  | [] => .ok []
  | buf :: bufs => do
    let out ← cutBuffer colFetch delimiter buf
    let rest ← cutChunks colFetch delimiter bufs
    .ok (out ++ rest)

/-- `main`: what is printed, from the file where it opens and from `stdin` where not. -/
def cut (args : List CString) (fopen : Option CString → Option Bytes) (stdin : Bytes) : Except Fault Bytes := do
  let o ← args.foldlM readArg defaults
  if o.colFetch = 0#32 then .ok []
  else cutChunks o.colFetch o.delimiter (chunks (BUFSIZE-1) ((fopen o.filename).getD stdin))

def columns (list : Bytes) : List ℕ := (list.splitOnP isComma).map digitsValue

/-- The fields of the list among those that are numbered from `k` on. -/
def pick (cols : List ℕ) (k : ℕ) : List Bytes → List Bytes
  | [] => []
  | f :: fs => if k ∈ cols then f :: pick cols (k+1) fs else pick cols (k+1) fs

def fields (d : UInt8) (w : Bytes) : List Bytes := w.splitOnP (· == d)

def selection (cols : List ℕ) (d : UInt8) (w : Bytes) : List Bytes := pick cols 1 (fields d w)

def selectedLine (cols : List ℕ) (d : UInt8) (w : Bytes) : Bytes := [d].intercalate (selection cols d w)

def columnsFrom (v : ℕ) : Bytes → List ℕ
  | [] => [v]
  | c :: w => if isComma c then v :: columnsFrom 0 w else columnsFrom (10*v+(c.toNat-48)) w

theorem columnsFrom_splitOnP (v : ℕ) (w : Bytes) :
    ∃ f fs, w.splitOnP isComma = f :: fs ∧
      columnsFrom v w = f.foldl (fun a d => 10*a + (d.toNat-48)) v :: fs.map digitsValue := by
  induction w generalizing v with
  | nil => exact ⟨[],[],rfl,rfl⟩
  | cons c w ih =>
    rw [List.splitOnP_cons_eq_if_modifyHead,columnsFrom]
    split_ifs with hc
    · obtain ⟨f,fs,hs,hv⟩ := ih 0
      exact ⟨[],f :: fs,by rw [hs],by rw [hv]; rfl⟩
    · obtain ⟨f,fs,hs,hv⟩ := ih (10*v+(c.toNat-48))
      exact ⟨c :: f,fs,by rw [hs]; rfl,hv⟩

theorem columns_eq (w : Bytes) : columns w = columnsFrom 0 w := by
  obtain ⟨f,fs,hs,hv⟩ := columnsFrom_splitOnP 0 w
  rw [columns,hs,hv]
  rfl

theorem exists_ge_columnsFrom (v : ℕ) (w : Bytes) : ∃ x ∈ columnsFrom v w, v ≤ x := by
  induction w generalizing v with
  | nil => exact ⟨v,by simp [columnsFrom],le_refl v⟩
  | cons c w ih =>
    rw [columnsFrom]
    split_ifs
    · exact ⟨v,by simp,le_refl v⟩
    · obtain ⟨x,hx,hle⟩ := ih (10*v+(c.toNat-48))
      exact ⟨x,hx,by omega⟩

theorem lt_of_columnsFrom {v : ℕ} {w : Bytes} (h : ∀ x ∈ columnsFrom v w, x < 32) : v < 32 := by
  obtain ⟨x,hx,hle⟩ := exists_ge_columnsFrom v w
  exact lt_of_le_of_lt hle (h x hx)

theorem getLsbD_columnBit {v k : ℕ} (hk : k < 32) : (1#32 <<< v).getLsbD k = decide (k = v) := by
  rw [← BitVec.twoPow_eq,BitVec.getLsbD_twoPow]
  by_cases h : k = v
  · simp [← h,hk]
  · simp [h,Ne.symm h]

variable {m : BitVec 32} {v : ℕ} {w : Bytes}

theorem columnsFrom_comma {c : UInt8} (hc : isComma c = true) :
    columnsFrom v (c :: w) = v :: columnsFrom 0 w := if_pos hc

theorem columnsFrom_digit {c : UInt8} (hc : ¬ isComma c = true) :
    columnsFrom v (c :: w) = columnsFrom (10*v+(c.toNat-48)) w := if_neg hc

theorem readColumns_comma {c : UInt8} (hc : isComma c = true) (hv : v < 32) :
    readColumns (c :: w) (m,v) = readColumns w (m ||| 1#32 <<< v,0) := by
  simp only [readColumns,if_pos hc,columnBit,if_pos hv,bind,Except.bind]

theorem readColumns_digit {c : UInt8} (hc : ¬ isComma c = true) (hd : isDigit c = true)
    (hv : 10*v+(c.toNat-48) < 2^31) : readColumns (c :: w) (m,v) = readColumns w (m,10*v+(c.toNat-48)) := by
  have hd' : ¬ (!isDigit c) = true := by simp [hd]
  simp only [readColumns,if_neg hc,if_neg hd',nextValue,if_pos hv,bind,Except.bind]

/-- A list of small numbers sets their bits. -/
theorem readColumns_ok (hw : ∀ c ∈ w, isComma c = true ∨ isDigit c = true)
    (h : ∀ x ∈ columnsFrom v w, x < 32) :
    ∃ m' v', readColumns w (m,v) = .ok (m',v') ∧
      ∀ k < 32, m'.getLsbD k = true ↔ m.getLsbD k = true ∨ k ∈ columnsFrom v w := by
  induction w generalizing m v with
  | nil =>
    have hv : v < 32 := lt_of_columnsFrom h
    refine ⟨m ||| 1#32 <<< v,v,by simp [readColumns,columnBit,hv,bind,Except.bind],fun k hk => ?_⟩
    simp [columnsFrom,getLsbD_columnBit hk]
  | cons c w ih =>
    have hw' : ∀ c ∈ w, isComma c = true ∨ isDigit c = true := fun c hc => hw c (by simp [hc])
    have hv : v < 32 := lt_of_columnsFrom h
    by_cases hc : isComma c = true
    · rw [columnsFrom_comma hc] at h
      obtain ⟨m',v',hr,hm⟩ := ih (m:=m ||| 1#32 <<< v) (v:=0) hw' fun x hx => h x (by simp [hx])
      refine ⟨m',v',(readColumns_comma hc hv).trans hr,fun k hk => ?_⟩
      rw [hm k hk,columnsFrom_comma hc]
      simp [getLsbD_columnBit hk,or_assoc]
    · rw [columnsFrom_digit hc] at h
      have hd : isDigit c = true := (hw c (by simp)).resolve_left hc
      have hlt : 10*v+(c.toNat-48) < 2^31 := lt_of_lt_of_le (lt_of_columnsFrom h) (by norm_num)
      obtain ⟨m',v',hr,hm⟩ := ih (m:=m) hw' h
      refine ⟨m',v',(readColumns_digit hc hd hlt).trans hr,fun k hk => ?_⟩
      rw [hm k hk,columnsFrom_digit hc]

/-- Any other number ends in a shift past the word, or in an overflow before that. -/
theorem readColumns_error (hw : ∀ c ∈ w, isComma c = true ∨ isDigit c = true)
    (h : ¬ ∀ x ∈ columnsFrom v w, x < 32) : readColumns w (m,v) = .error .intOverflow := by
  induction w generalizing m v with
  | nil =>
    have hv : ¬ v < 32 := fun hv => h (by simpa [columnsFrom] using hv)
    simp [readColumns,columnBit,hv,bind,Except.bind]
  | cons c w ih =>
    have hw' : ∀ c ∈ w, isComma c = true ∨ isDigit c = true := fun c hc => hw c (by simp [hc])
    by_cases hc : isComma c = true
    · rw [columnsFrom_comma hc] at h
      by_cases hv : v < 32
      · refine (readColumns_comma hc hv).trans (ih hw' fun hall => h fun x hx => ?_)
        rcases List.mem_cons.mp hx with rfl | hx
        · exact hv
        · exact hall x hx
      · simp only [readColumns,if_pos hc,columnBit,if_neg hv,bind,Except.bind]
    · rw [columnsFrom_digit hc] at h
      have hd : isDigit c = true := (hw c (by simp)).resolve_left hc
      by_cases hv : 10*v+(c.toNat-48) < 2^31
      · exact (readColumns_digit hc hd hv).trans (ih hw' h)
      · have hd' : ¬ (!isDigit c) = true := by simp [hd]
        simp only [readColumns,if_neg hc,if_neg hd',nextValue,if_neg hv,bind,Except.bind]

theorem fetches_eq {k : ℕ} (hk : k < 31) : fetches m k = .ok (m.getLsbD k) := by
  rw [fetches,if_pos hk,← BitVec.twoPow_eq,BitVec.and_twoPow]
  have hne : BitVec.twoPow 32 k ≠ 0#32 := by
    intro h
    have hbit := congrArg (BitVec.getLsbD · k) h
    simp [BitVec.getLsbD_twoPow] at hbit
    omega
  cases m.getLsbD k <;> simp [hne]

theorem fetches_error {k : ℕ} (hk : ¬ k < 31) : fetches m k = .error .intOverflow := if_neg hk

variable {d c : UInt8} {k : ℕ} {p : Bool} {o : Bytes}

theorem cutByte_lf (q : Cursor) : cutByte m d q 10 = .ok q := if_pos rfl

theorem cutByte_other (hc : c ≠ 10) (hd : c ≠ d) (hk : k < 31) :
    cutByte m d ⟨k,p,o⟩ c = .ok (if m.getLsbD k = true then ⟨k,true,o ++ [c]⟩ else ⟨k,p,o⟩) := by
  rw [cutByte,if_neg hc,if_neg (Ne.symm hd)]
  simp [fetches_eq hk,hd,bind,Except.bind]

theorem nextField_ok (hk : k+1 < 31) :
    nextField m d ⟨k,p,o⟩ = .ok ⟨k+1,p,o ++ if p && m.getLsbD (k+1) then [d] else []⟩ := by
  cases p
  · simp [nextField]
  · cases hb : m.getLsbD (k+1) <;> simp [nextField,fetches_eq hk,hb,bind,Except.bind]

theorem cutByte_delimiter (hd : d ≠ 10) (hk : k+1 < 31) :
    cutByte m d ⟨k,p,o⟩ d = .ok ⟨k+1,p,o ++ if p && m.getLsbD (k+1) then [d] else []⟩ := by
  rw [cutByte,if_neg hd,if_pos rfl,nextField_ok hk]
  simp [fetches_eq hk,bind,Except.bind]

theorem cutByte_delimiter_error (hd : d ≠ 10) (hk : ¬ k+1 < 31) :
    cutByte m d ⟨k,p,o⟩ d = .error .intOverflow := by
  rw [cutByte,if_neg hd,if_pos rfl]
  cases p <;> simp [nextField,fetches_error hk,bind,Except.bind]

theorem fields_delimiter (d : UInt8) (w : Bytes) : fields d (d :: w) = [] :: fields d w := by
  simp [fields,List.splitOnP_cons_eq_if_modifyHead]

theorem fields_other (hd : c ≠ d) (w : Bytes) :
    fields d (c :: w) = (fields d w).modifyHead (List.cons c) := by
  simp [fields,List.splitOnP_cons_eq_if_modifyHead,hd]

theorem exists_fields (d : UInt8) (w : Bytes) : ∃ f fs, fields d w = f :: fs :=
  List.exists_cons_of_ne_nil (List.splitOnP_ne_nil _ _)

/-- The selected fields as they are printed: a delimiter stands in front of one only where
a byte has been printed before. -/
def gather (d : UInt8) : Bool → List Bytes → Bytes
  | _, [] => []
  | p, f :: fs => (if p then [d] else []) ++ f ++ gather d (p || f ≠ []) fs

def printed (cols : List ℕ) (d : UInt8) (k : ℕ) (p : Bool) : List Bytes → Bytes
  | [] => []
  | f :: fs =>
    if k ∈ cols then f ++ gather d (p || f ≠ []) (pick cols (k+1) fs)
    else gather d p (pick cols (k+1) fs)

variable {cols : List ℕ}

theorem printed_start (fs : List Bytes) : printed cols d k false fs = gather d false (pick cols k fs) := by
  cases fs with
  | nil => rfl
  | cons f fs =>
    rw [printed,pick]
    split_ifs <;> simp [gather]

theorem printed_delimiter (w : Bytes) : printed cols d k p ([] :: fields d w) =
    (if p && decide (k+1 ∈ cols) then [d] else []) ++ printed cols d (k+1) p (fields d w) := by
  obtain ⟨f,fs,hf⟩ := exists_fields d w
  rw [hf]
  by_cases h : k+1 ∈ cols <;> simp [printed,pick,gather,h]

theorem printed_other (c : UInt8) (w : Bytes) : printed cols d k p ((fields d w).modifyHead (List.cons c)) =
    if k ∈ cols then c :: printed cols d k true (fields d w) else printed cols d k p (fields d w) := by
  obtain ⟨f,fs,hf⟩ := exists_fields d w
  rw [hf,List.modifyHead_cons]
  split_ifs with h <;> simp [printed,h]

/-- A line whose fields the word has bits for. -/
theorem foldlM_cutByte (hm : ∀ j < 32, m.getLsbD j = true ↔ j ∈ cols) (hd : d ≠ 10) (h10 : 10 ∉ w)
    (hk : k+(fields d w).length ≤ 31) :
    ∃ q, w.foldlM (cutByte m d) ⟨k,p,o⟩ = .ok q ∧ q.out = o ++ printed cols d k p (fields d w) := by
  induction w generalizing k p o with
  | nil => exact ⟨⟨k,p,o⟩,rfl,by simp [fields,printed,pick,gather]⟩
  | cons c w ih =>
    have hc10 : c ≠ 10 := Ne.symm (List.ne_of_not_mem_cons h10)
    have hw10 : 10 ∉ w := List.not_mem_of_not_mem_cons h10
    have hpos : 0 < (fields d w).length := List.length_pos_of_ne_nil (List.splitOnP_ne_nil _ _)
    rw [List.foldlM_cons]
    by_cases hcd : c = d
    · subst hcd
      rw [fields_delimiter,List.length_cons] at hk
      have hbit : m.getLsbD (k+1) = decide (k+1 ∈ cols) := by
        rw [Bool.eq_iff_iff,decide_eq_true_eq]
        exact hm (k+1) (by omega)
      rw [cutByte_delimiter hc10 (by omega),hbit]
      obtain ⟨q,hq,ho⟩ := ih (k:=k+1) (p:=p)
        (o:=o ++ if p && decide (k+1 ∈ cols) then [c] else []) hw10 (by omega)
      refine ⟨q,hq,?_⟩
      rw [ho,fields_delimiter,printed_delimiter,List.append_assoc]
    · rw [fields_other hcd,List.length_modifyHead] at hk
      rw [cutByte_other hc10 hcd (by omega),fields_other hcd]
      have hbit := hm k (by omega)
      by_cases h : k ∈ cols
      · obtain ⟨q,hq,ho⟩ := ih (p:=true) (o:=o ++ [c]) hw10 hk
        refine ⟨q,by rw [if_pos (hbit.mpr h)]; exact hq,?_⟩
        rw [ho,printed_other,if_pos h]
        simp
      · obtain ⟨q,hq,ho⟩ := ih (p:=p) (o:=o) hw10 hk
        refine ⟨q,by rw [if_neg (mt hbit.mp h)]; exact hq,?_⟩
        rw [ho,printed_other,if_neg h]

theorem foldlM_cutByte_error (hd : d ≠ 10) (h10 : 10 ∉ w) (hk : k < 31) (hlen : 31 < k+(fields d w).length) :
    w.foldlM (cutByte m d) ⟨k,p,o⟩ = .error .intOverflow := by
  induction w generalizing k p o with
  | nil =>
    have h1 : (fields d []).length = 1 := by simp [fields]
    omega
  | cons c w ih =>
    have hc10 : c ≠ 10 := Ne.symm (List.ne_of_not_mem_cons h10)
    have hw10 : 10 ∉ w := List.not_mem_of_not_mem_cons h10
    rw [List.foldlM_cons]
    by_cases hcd : c = d
    · subst hcd
      rw [fields_delimiter,List.length_cons] at hlen
      by_cases hk' : k+1 < 31
      · rw [cutByte_delimiter hc10 hk']
        exact ih hw10 hk' (by omega)
      · rw [cutByte_delimiter_error hc10 hk']
        rfl
    · rw [fields_other hcd,List.length_modifyHead] at hlen
      rw [cutByte_other hc10 hcd hk]
      split_ifs
      · exact ih hw10 hk hlen
      · exact ih hw10 hk hlen

/-- What `cut` prints for the fields of a line. -/
def lineOut (cols : List ℕ) (d : UInt8) (w : Bytes) : Bytes := gather d false (selection cols d w)

def firstNul (w : Bytes) : Bytes := w.takeWhile (· ≠ 0)

theorem firstNul_line (w : Bytes) :
    (CString.ofBuffer (w ++ [10])).bytes = firstNul w ∨
      (CString.ofBuffer (w ++ [10])).bytes = firstNul w ++ [10] := by
  rw [CString.bytes_ofBuffer,List.takeWhile_append,firstNul]
  split_ifs with h
  · exact Or.inr (by rw [(List.takeWhile_prefix _).eq_of_length h]; rfl)
  · exact Or.inl rfl

theorem cutBuffer_line (w : Bytes) : cutBuffer m d (w ++ [10]) =
    (firstNul w).foldlM (cutByte m d) ⟨1,false,[]⟩ >>= fun q => .ok (q.out ++ [10]) := by
  rcases firstNul_line w with h | h
  · rw [cutBuffer,h]
  · rw [cutBuffer,h,List.foldlM_append]
    cases (firstNul w).foldlM (cutByte m d) ⟨1,false,[]⟩ with
    | error f => rfl
    | ok q => simp [bind,Except.bind,cutByte_lf,pure,Except.pure]

theorem cutBuffer_ok (hm : ∀ j < 32, m.getLsbD j = true ↔ j ∈ cols) (hd : d ≠ 10) (h10 : 10 ∉ w)
    (hlen : (fields d (firstNul w)).length ≤ 30) :
    cutBuffer m d (w ++ [10]) = .ok (lineOut cols d (firstNul w) ++ [10]) := by
  have h0 : 10 ∉ firstNul w := fun h => h10 (List.takeWhile_subset _ h)
  obtain ⟨q,hq,ho⟩ := foldlM_cutByte (k:=1) (p:=false) (o:=[]) hm hd h0 (by omega)
  rw [cutBuffer_line,hq,lineOut,selection,← printed_start,← List.nil_append (printed _ _ _ _ _),← ho]
  rfl

theorem cutBuffer_error (hd : d ≠ 10) (h10 : 10 ∉ w) (hlen : ¬ (fields d (firstNul w)).length ≤ 30) :
    cutBuffer m d (w ++ [10]) = .error .intOverflow := by
  have h0 : 10 ∉ firstNul w := fun h => h10 (List.takeWhile_subset _ h)
  rw [cutBuffer_line,foldlM_cutByte_error hd h0 (by norm_num) (by omega)]
  rfl

theorem cutChunks_ok (hm : ∀ j < 32, m.getLsbD j = true ↔ j ∈ cols) (hd : d ≠ 10) {lines : List Bytes}
    (h10 : ∀ w ∈ lines, 10 ∉ w) (hlen : ∀ w ∈ lines, (fields d (firstNul w)).length ≤ 30) :
    cutChunks m d (lines.map (· ++ [10])) =
      .ok (lines.flatMap fun w => lineOut cols d (firstNul w) ++ [10]) := by
  induction lines with
  | nil => rfl
  | cons w lines ih =>
    have ht := ih (fun v hv => h10 v (by simp [hv])) fun v hv => hlen v (by simp [hv])
    rw [List.map_cons,cutChunks,cutBuffer_ok hm hd (h10 w (by simp)) (hlen w (by simp)),ht]
    rfl

theorem cutChunks_error (hm : ∀ j < 32, m.getLsbD j = true ↔ j ∈ cols) (hd : d ≠ 10) {lines : List Bytes}
    (h10 : ∀ w ∈ lines, 10 ∉ w) (hlen : ¬ ∀ w ∈ lines, (fields d (firstNul w)).length ≤ 30) :
    cutChunks m d (lines.map (· ++ [10])) = .error .intOverflow := by
  induction lines with
  | nil => exact absurd (by simp) hlen
  | cons w lines ih =>
    rw [List.map_cons,cutChunks]
    by_cases hw : (fields d (firstNul w)).length ≤ 30
    · have ht := ih (fun v hv => h10 v (by simp [hv])) fun hall => hlen fun v hv => ?_
      · rw [cutBuffer_ok hm hd (h10 w (by simp)) hw,ht]
        rfl
      · rcases List.mem_cons.mp hv with rfl | hv
        · exact hw
        · exact hall v hv
    · rw [cutBuffer_error hd (h10 w (by simp)) hw]
      rfl

theorem gather_true (d : UInt8) (fs : List Bytes) : gather d true fs = fs.flatMap (d :: ·) := by
  induction fs with
  | nil => rfl
  | cons f fs ih => simp [gather,ih]

theorem intercalate_cons (d : UInt8) (f : Bytes) (fs : List Bytes) :
    [d].intercalate (f :: fs) = f ++ fs.flatMap (d :: ·) := by
  induction fs generalizing f with
  | nil => simp
  | cons g fs ih =>
    rw [List.intercalate_cons_cons,ih g]
    simp

theorem length_gather_false (d : UInt8) (fs : List Bytes) :
    (gather d false fs).length ≤ (fs.flatMap (d :: ·)).length-1 := by
  induction fs with
  | nil => simp [gather]
  | cons f fs ih =>
    by_cases hf : f = []
    · subst hf
      simp [gather] at ih ⊢
      omega
    · simp [gather,hf,gather_true]

theorem length_intercalate (d : UInt8) (fs : List Bytes) :
    ([d].intercalate fs).length = (fs.flatMap (d :: ·)).length-1 := by
  cases fs with
  | nil => rfl
  | cons f fs => simp [intercalate_cons]

def Leading (fs : List Bytes) : Prop := fs.length ≤ 1 ∨ fs.head? ≠ some []

theorem gather_eq_intercalate (d : UInt8) {fs : List Bytes} (h : Leading fs) :
    gather d false fs = [d].intercalate fs := by
  cases fs with
  | nil => rfl
  | cons f fs =>
    by_cases hf : f = []
    · have hnil : fs = [] := by simpa [Leading,hf] using h
      simp [gather,hf,hnil]
    · simp [gather,hf,gather_true,intercalate_cons]

theorem leading_of_length (d : UInt8) {fs : List Bytes}
    (h : ([d].intercalate fs).length ≤ (gather d false fs).length) : Leading fs := by
  cases fs with
  | nil => exact Or.inl (by simp)
  | cons f fs =>
    by_cases hf : f = []
    · subst hf
      have hl := length_gather_false d fs
      rw [intercalate_cons] at h
      cases fs with
      | nil => exact Or.inl (by simp)
      | cons g fs =>
        simp [gather] at h hl
        omega
    · exact Or.inr (by simpa using hf)

theorem length_pick_le {w v : Bytes} (h : w <+: v) (k : ℕ) :
    ((pick cols k (fields d w)).flatMap (d :: ·)).length ≤
      ((pick cols k (fields d v)).flatMap (d :: ·)).length := by
  induction w generalizing v k with
  | nil =>
    obtain ⟨f,fs,hf⟩ := exists_fields d v
    have hn : fields d [] = [[]] := by simp [fields]
    rw [hn,hf,pick,pick,pick]
    split_ifs <;> simp
  | cons c w ih =>
    obtain ⟨v,rfl,hv⟩ := List.cons_prefix_iff.mp h
    by_cases hcd : c = d
    · subst hcd
      have ht := ih hv (k+1)
      rw [fields_delimiter,fields_delimiter,pick,pick]
      split_ifs
      · simpa using ht
      · exact ht
    · have ht := ih hv k
      obtain ⟨f,fs,hf⟩ := exists_fields d w
      obtain ⟨g,gs,hg⟩ := exists_fields d v
      rw [hf,hg,pick,pick] at ht
      rw [fields_other hcd,fields_other hcd,hf,hg,List.modifyHead_cons,List.modifyHead_cons,pick,pick]
      split_ifs at ht ⊢
      · simp at ht ⊢
        omega
      · exact ht

/-- The delimiter of the last `-d`, a tab where there is none. -/
def delimiterOf (args : List CString) : UInt8 :=
  args.foldl (fun d arg => if isDelimiter arg then arg.bytes[2]?.getD 0 else d) 9

def filenameOf (args : List CString) : Option CString :=
  args.foldl (fun name arg => if isColumns arg || isDelimiter arg then name else some arg) none

theorem isDelimiter_of_isColumns {arg : CString} (h : isColumns arg = true) : isDelimiter arg = false := by
  have ht : arg.bytes.take 2 = [45,102] := by simpa [isColumns] using h
  simp [isDelimiter,ht]

theorem readArg_other {arg : CString} (h : isColumns arg = false) (v : Options) :
    readArg v arg = .ok { v with
      delimiter := if isDelimiter arg then arg.bytes[2]?.getD 0 else v.delimiter
      filename := if isColumns arg || isDelimiter arg then v.filename else some arg } := by
  cases hd : isDelimiter arg <;> simp [readArg,h,hd]

theorem readArgs_other {args : List CString} (h : ∀ arg ∈ args, isColumns arg = false) (v : Options) :
    args.foldlM readArg v = .ok { v with
      delimiter := args.foldl (fun d arg => if isDelimiter arg then arg.bytes[2]?.getD 0 else d) v.delimiter
      filename := args.foldl (fun name arg =>
        if isColumns arg || isDelimiter arg then name else some arg) v.filename } := by
  induction args generalizing v with
  | nil => rfl
  | cons arg args ih =>
    rw [List.foldlM_cons,readArg_other (h arg (by simp))]
    exact ih (fun a ha => h a (by simp [ha])) _

section
variable {before after : List CString} {list : CString}

/-- The command has one list, of numbers between commas and blanks. -/
def OneList (before : List CString) (list : CString) (after : List CString) : Prop :=
  isColumns list = true ∧ (∀ c ∈ list.bytes.drop 2, isComma c = true ∨ isDigit c = true) ∧
    ∀ arg ∈ before ++ after, isColumns arg = false

theorem readArgs_ok (h : OneList before list after) (hc : ∀ x ∈ columns (list.bytes.drop 2), x < 32) :
    ∃ m v, (before ++ list :: after).foldlM readArg defaults =
        .ok ⟨delimiterOf (before ++ list :: after),m,v,filenameOf (before ++ list :: after)⟩ ∧
      ∀ k < 32, m.getLsbD k = true ↔ k ∈ columns (list.bytes.drop 2) := by
  obtain ⟨hl,hb,ho⟩ := h
  rw [columns_eq] at hc ⊢
  obtain ⟨m,v,hr,hm⟩ := readColumns_ok (m:=0#32) hb hc
  refine ⟨m,v,?_,fun k hk => by simpa using hm k hk⟩
  have hd := isDelimiter_of_isColumns hl
  rw [List.foldlM_append,readArgs_other fun arg ha => ho arg (by simp [ha])]
  have hlist (u : Options) (hu : u.colFetch = 0#32) (hv : u.cval = 0) :
      readArg u list = .ok { u with colFetch := m, cval := v } := by
    rw [readArg,if_pos hl,hu,hv,hr]
    rfl
  show (list :: after).foldlM readArg _ = _
  rw [List.foldlM_cons,hlist _ rfl rfl]
  refine (readArgs_other (fun arg ha => ho arg (by simp [ha])) _).trans ?_
  simp [delimiterOf,filenameOf,defaults,hl,hd]

theorem readArgs_error (h : OneList before list after) (hc : ¬ ∀ x ∈ columns (list.bytes.drop 2), x < 32) :
    (before ++ list :: after).foldlM readArg defaults = .error .intOverflow := by
  obtain ⟨hl,hb,ho⟩ := h
  rw [columns_eq] at hc
  have hr := readColumns_error (m:=0#32) hb hc
  rw [List.foldlM_append,readArgs_other fun arg ha => ho arg (by simp [ha])]
  show (list :: after).foldlM readArg _ = _
  rw [List.foldlM_cons,readArg,if_pos hl]
  show (readColumns (list.bytes.drop 2) (0#32,0) >>= _) >>= _ = _
  rw [hr]
  rfl

theorem ne_zero_of_columns {m : BitVec 32} {w : Bytes} (hc : ∀ x ∈ columns w, x < 32)
    (hm : ∀ k < 32, m.getLsbD k = true ↔ k ∈ columns w) : m ≠ 0#32 := by
  rintro rfl
  have hne : columns w ≠ [] := by simp [columns,List.splitOnP_ne_nil]
  obtain ⟨x,hx⟩ := List.exists_mem_of_ne_nil _ hne
  have hbit := (hm x (hc x hx)).mpr hx
  simp at hbit

/-- The shifts stay inside the word, the first selected field is not empty where others follow,
and what a NUL cuts off adds nothing. -/
def LineOk (cols : List ℕ) (d : UInt8) (w : Bytes) : Prop :=
  (fields d (firstNul w)).length ≤ 30 ∧ Leading (selection cols d (firstNul w)) ∧
    selectedLine cols d (firstNul w) = selectedLine cols d w

theorem lineOut_eq_iff (cols : List ℕ) (d : UInt8) (w : Bytes) :
    lineOut cols d (firstNul w) = selectedLine cols d w ↔
      Leading (selection cols d (firstNul w)) ∧ selectedLine cols d (firstNul w) = selectedLine cols d w := by
  refine ⟨fun h => ?_,fun h => (gather_eq_intercalate d h.1).trans h.2⟩
  have hle : ([d].intercalate (selection cols d (firstNul w))).length ≤
      ([d].intercalate (selection cols d w)).length := by
    rw [length_intercalate,length_intercalate]
    exact Nat.sub_le_sub_right (length_pick_le (List.takeWhile_prefix _) 1) 1
  have hlead := leading_of_length d (hle.trans (congrArg List.length h).ge)
  exact ⟨hlead,(gather_eq_intercalate d hlead).symm.trans h⟩

theorem lines_injective {f g : Bytes → Bytes} {lines : List Bytes} (hf : ∀ w ∈ lines, 10 ∉ f w)
    (hg : ∀ w ∈ lines, 10 ∉ g w)
    (h : lines.flatMap (fun w => f w ++ [10]) = lines.flatMap fun w => g w ++ [10]) :
    ∀ w ∈ lines, f w = g w := by
  induction lines with
  | nil => simp
  | cons v lines ih =>
    simp only [List.flatMap_cons,List.append_assoc,List.singleton_append] at h
    have hv : f v = g v := by
      rw [← takeWhile_ne (hf v (by simp)) _,h,takeWhile_ne (hg v (by simp))]
    rw [hv] at h
    have ht := ih (fun w hw => hf w (by simp [hw])) (fun w hw => hg w (by simp [hw]))
      (List.cons.inj (List.append_cancel_left h)).2
    intro w hw
    rcases List.mem_cons.mp hw with rfl | hw
    · exact hv
    · exact ht w hw

theorem mem_of_mem_pick {f : Bytes} {fs : List Bytes} (h : f ∈ pick cols k fs) : f ∈ fs := by
  induction fs generalizing k with
  | nil => exact h
  | cons g fs ih =>
    rw [pick] at h
    split_ifs at h
    · rcases List.mem_cons.mp h with rfl | h
      · simp
      · simp [ih h]
    · simp [ih h]

theorem lf_notMem_fields (d : UInt8) {w : Bytes} (h10 : 10 ∉ w) {f : Bytes} (hf : f ∈ fields d w) : 10 ∉ f := by
  induction w generalizing f with
  | nil =>
    obtain rfl : f = [] := by simpa [fields] using hf
    simp
  | cons c w ih =>
    have hw10 : 10 ∉ w := List.not_mem_of_not_mem_cons h10
    by_cases hcd : c = d
    · rw [hcd,fields_delimiter,List.mem_cons] at hf
      rcases hf with rfl | hf
      · simp
      · exact ih hw10 hf
    · obtain ⟨g,gs,hg⟩ := exists_fields d w
      rw [fields_other hcd,hg,List.modifyHead_cons,List.mem_cons] at hf
      have hc10 : 10 ≠ c := List.ne_of_not_mem_cons h10
      rcases hf with rfl | hf
      · simpa [hc10] using ih hw10 (f:=g) (by simp [hg])
      · exact ih hw10 (by simp [hg,hf])

theorem lf_notMem_gather {fs : List Bytes} (hd : d ≠ 10) (h : ∀ f ∈ fs, 10 ∉ f) : 10 ∉ gather d p fs := by
  induction fs generalizing p with
  | nil => simp [gather]
  | cons f fs ih =>
    have ht := ih (p:=p || f ≠ []) fun g hg => h g (by simp [hg])
    have hf := h f (by simp)
    rw [gather]
    cases p <;> simp_all [Ne.symm hd]

theorem lf_notMem_intercalate {fs : List Bytes} (hd : d ≠ 10) (h : ∀ f ∈ fs, 10 ∉ f) :
    10 ∉ [d].intercalate fs := by
  cases fs with
  | nil => simp
  | cons f fs =>
    rw [intercalate_cons,← gather_true]
    have hf := h f (by simp)
    have ht : 10 ∉ gather d true fs := lf_notMem_gather hd fun g hg => h g (by simp [hg])
    simp [hf,ht]

theorem lf_notMem_selection {w f : Bytes} (h10 : 10 ∉ w) (hf : f ∈ selection cols d w) : 10 ∉ f :=
  lf_notMem_fields d h10 (mem_of_mem_pick hf)

theorem cutChunks_iff (hm : ∀ j < 32, m.getLsbD j = true ↔ j ∈ cols) (hd : d ≠ 10) {lines : List Bytes}
    (h10 : ∀ w ∈ lines, 10 ∉ w) :
    cutChunks m d (lines.map (· ++ [10])) = .ok (lines.flatMap fun w => selectedLine cols d w ++ [10]) ↔
      ∀ w ∈ lines, LineOk cols d w := by
  by_cases hlen : ∀ w ∈ lines, (fields d (firstNul w)).length ≤ 30
  · rw [cutChunks_ok hm hd h10 hlen,Except.ok.injEq]
    refine ⟨fun he w hw => ⟨hlen w hw,?_⟩,fun hall => ?_⟩
    · refine (lineOut_eq_iff cols d w).mp (lines_injective (fun v hv => ?_) (fun v hv => ?_) he w hw)
      · have h0 : 10 ∉ firstNul v := fun h => h10 v hv (List.takeWhile_subset _ h)
        exact lf_notMem_gather hd fun f hf => lf_notMem_selection h0 hf
      · exact lf_notMem_intercalate hd fun f hf => lf_notMem_selection (h10 v hv) hf
    · refine List.flatMap_congr fun w hw => ?_
      rw [(lineOut_eq_iff cols d w).mpr (hall w hw).2]
  · rw [cutChunks_error hm hd h10 hlen]
    exact iff_of_false (fun he => nomatch he) fun hall => hlen fun w hw => (hall w hw).1

/-- The output is what is asked for exactly when every column has a bit and every line is right. -/
theorem cut_selects_iff (h : OneList before list after) (hd : delimiterOf (before ++ list :: after) ≠ 10)
    {fopen : Option CString → Option Bytes} {stdin : Bytes} {lines : List Bytes}
    (hlines : ∀ w ∈ lines, 10 ∉ w ∧ w.length ≤ 998)
    (hin : (fopen (filenameOf (before ++ list :: after))).getD stdin = lines.flatMap (· ++ [10])) :
    cut (before ++ list :: after) fopen stdin = .ok (lines.flatMap fun w =>
        selectedLine (columns (list.bytes.drop 2)) (delimiterOf (before ++ list :: after)) w ++ [10]) ↔
      (∀ x ∈ columns (list.bytes.drop 2), x < 32) ∧
        ∀ w ∈ lines, LineOk (columns (list.bytes.drop 2)) (delimiterOf (before ++ list :: after)) w := by
  by_cases hc : ∀ x ∈ columns (list.bytes.drop 2), x < 32
  · obtain ⟨m,v,hr,hm⟩ := readArgs_ok h hc
    have hread : chunks (BUFSIZE-1) (lines.flatMap (· ++ [10])) = lines.map (· ++ [10]) :=
      chunks_lines fun w hw => ⟨(hlines w hw).1,Nat.lt_succ_of_le (hlines w hw).2⟩
    have hcut : cut (before ++ list :: after) fopen stdin =
        cutChunks m (delimiterOf (before ++ list :: after)) (lines.map (· ++ [10])) := by
      rw [cut,hr]
      show (if m = 0#32 then _ else _) = _
      rw [if_neg (ne_zero_of_columns hc hm),hin,hread]
    rw [hcut,cutChunks_iff hm hd fun w hw => (hlines w hw).1]
    exact (and_iff_right hc).symm
  · rw [cut,readArgs_error h hc]
    exact iff_of_false (fun he => nomatch he) fun hall => hc hall.1

end

/-- Two columns of a line with three, from `stdin`. -/
theorem cut_selects_iff_sample : OneList [lit "-d,"] (lit "-f3 1") [] ∧
    delimiterOf [lit "-d,",lit "-f3 1"] ≠ 10 ∧
    (∀ w ∈ [ascii "a,b,c"], 10 ∉ w ∧ w.length ≤ 998) ∧
    (cut [lit "-d,",lit "-f3 1"] (fun _ => none) (ascii "a,b,c\n") = .ok (ascii "a,c\n") ↔
      (∀ x ∈ [3,1], x < 32) ∧ ∀ w ∈ [ascii "a,b,c"], LineOk [3,1] 44 w) := by
  have h : OneList [lit "-d,"] (lit "-f3 1") [] :=
    ⟨by decide,List.all_iff_forall_prop.mp (by decide),by decide⟩
  have hlines : ∀ w ∈ [ascii "a,b,c"], 10 ∉ w ∧ w.length ≤ 998 := by decide
  have hin : ((fun _ => none : Option CString → Option Bytes) (filenameOf [lit "-d,",lit "-f3 1"])).getD
      (ascii "a,b,c\n") = [ascii "a,b,c"].flatMap (· ++ [10]) := by decide
  exact ⟨h,by decide,hlines,cut_selects_iff h (by decide) hlines hin⟩

/-- An empty first field: the delimiter behind it is lost. -/
theorem cut_first_empty : cut [lit "-f1,2"] (fun _ => none) (ascii "\tb\n") = .ok (ascii "b\n") ∧
    selectedLine (columns (ascii "1,2")) 9 (ascii "\tb") = ascii "\tb" := by decide

end CutTool
end CodingChallenges
