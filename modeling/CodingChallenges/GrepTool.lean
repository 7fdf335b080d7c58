import CodingChallenges.CMemory
import CodingChallenges.CStream

/-! The recursive search of the `grep` tool. A file is read through a buffer, and each piece is
taken for a line. -/
namespace CodingChallenges
namespace GrepTool

open CText CMemory CStream

abbrev MAX_PATH_LENGTH : ℕ := 1000
abbrev MAX_LINE_LENGTH : ℕ := 1000

/-- `d_type`: `DT_DIR` or anything else. -/
inductive EntityType
  | dir | other
  deriving DecidableEq

structure Dirent where
  d_name : CString
  d_type : EntityType
  deriving DecidableEq

/-- What `opendir` with `readdir`, and `fopen`, find at a path. -/
structure FileSystem where
  opendir : CString → Option (List Dirent)
  fopen : CString → Option Bytes

/-- A call of `printf("%s:%s", file_path, buf)`. -/
abbrev Printed := CString × Bytes

/-- `snprintf(path, sizeof(path), "%s/%s", dir_path, d_name)`. -/
def joinPath (dir_path name : CString) : CString :=
  (dir_path ++ lit "/" ++ name).take (MAX_PATH_LENGTH-1)

def isDots (name : CString) : Bool := eqIgnoreCase name (lit ".") || eqIgnoreCase name (lit "..")

def grepFile (pattern file_path : CString) (content : Bytes) : List Printed :=
  (((chunks (MAX_LINE_LENGTH-1) content).map CString.ofBuffer).filter fun buf => strstr buf pattern).map
    fun buf => (file_path,buf.bytes)

/-- The body of the loop over the entries, with the descriptors that are left. The value of the inner
call is not used, and neither is the result of `fopen` looked at nor the stream closed. -/
def visit (fs : FileSystem) (pattern : CString)
    (recurse : ℕ → CString → Except Fault (ℕ × ℕ × List Printed))
    (dir_path : CString) (free : ℕ) (entity : Dirent) : Except Fault (ℕ × List Printed) :=
  if isDots entity.d_name then .ok (free,[])
  else match entity.d_type with
    | .dir => do
      let r ← recurse free (joinPath dir_path entity.d_name)
      .ok r.2
    | .other =>
      if free = 0 then .error .nullPointer
      else match fs.fopen (joinPath dir_path entity.d_name) with
        | none => .error .nullPointer
        | some content => .ok (free-1,grepFile pattern (joinPath dir_path entity.d_name) content)

def visitAll (fs : FileSystem) (pattern : CString)
    (recurse : ℕ → CString → Except Fault (ℕ × ℕ × List Printed))
    (dir_path : CString) : ℕ → List Dirent → Except Fault (ℕ × List Printed)
  | free, [] => .ok (free,[])
  | free, entity :: entities => do
    let r ← visit fs pattern recurse dir_path free entity
    let rest ← visitAll fs pattern recurse dir_path r.1 entities
    .ok (rest.1,r.2 ++ rest.2)

/-- `list_lines_recursively`, down to a depth: its value, the descriptors it leaves and what is
printed. The one of the directory is given back by `closedir`. -/
def listLinesRecursively (fs : FileSystem) (pattern : CString) :
    ℕ → ℕ → CString → Except Fault (ℕ × ℕ × List Printed)
  | 0, _, _ => .error .endless
  | fuel+1, free, dir_path =>
    match if free = 0 then none else fs.opendir dir_path with
    | none => .ok (1,free,[])
    | some entities => do
      let r ← visitAll fs pattern (listLinesRecursively fs pattern fuel) dir_path (free-1) entities
      .ok (0,r.1+1,r.2)

/-- The entries of a directory, in the order they are read. The files are texts without NUL. -/
inductive Directory
  | nil
  | file (name content : CString) (rest : Directory)
  | dir (name : CString) (sub rest : Directory)

namespace Directory

def entities : Directory → List Dirent
  | nil => []
  | file name _ rest => ⟨name,.other⟩ :: rest.entities
  | dir name _ rest => ⟨name,.dir⟩ :: rest.entities

def depth : Directory → ℕ
  | nil => 0
  | file _ _ rest => rest.depth
  | dir _ sub rest => max (sub.depth+1) rest.depth

def under (path name : CString) : CString := path ++ lit "/" ++ name

def files : Directory → CString → List (CString × CString)
  | nil, _ => []
  | file name content rest, path => (under path name,content) :: rest.files path
  | dir name sub rest, path => sub.files (under path name) ++ rest.files path

/-- The path names the directory; `"."` and `".."` may stand among its entries. -/
def Listed (fs : FileSystem) (path : CString) (d : Directory) : Prop :=
  ∃ entities, fs.opendir path = some entities ∧
    (entities.filter fun e => !isDots e.d_name) = d.entities

def Fits (path name : CString) : Prop :=
  isDots name = false ∧ (under path name).length < MAX_PATH_LENGTH

def Below (fs : FileSystem) : Directory → CString → Prop
  | nil, _ => True
  | file name content rest, path =>
    Fits path name ∧ fs.fopen (under path name) = some content.bytes ∧ rest.Below fs path
  | dir name sub rest, path =>
    Fits path name ∧ Listed fs (under path name) sub ∧ sub.Below fs (under path name) ∧ rest.Below fs path

end Directory

def textLines : Bytes → List Bytes
  | [] => []
  | c :: s =>
    if c = 10 then [10] :: textLines s
    else match textLines s with
      | [] => [[c]]
      | line :: lines => (c :: line) :: lines

theorem textLines_lf {w : Bytes} (h10 : 10 ∉ w) (s : Bytes) :
    textLines (w ++ 10 :: s) = (w ++ [10]) :: textLines s := by
  induction w with
  | nil => rfl
  | cons c w ih =>
    have hc : c ≠ 10 := Ne.symm (List.ne_of_not_mem_cons h10)
    rw [List.cons_append,textLines,if_neg hc,ih (List.not_mem_of_not_mem_cons h10)]
    rfl

theorem textLines_last {w : Bytes} (h10 : 10 ∉ w) (hne : w ≠ []) : textLines w = [w] := by
  induction w with
  | nil => exact absurd rfl hne
  | cons c w ih =>
    have hc : c ≠ 10 := Ne.symm (List.ne_of_not_mem_cons h10)
    rw [textLines,if_neg hc]
    by_cases hw : w = []
    · subst hw
      rfl
    · rw [ih (List.not_mem_of_not_mem_cons h10) hw]

theorem line_induction {P : Bytes → Prop} (last : ∀ w, 10 ∉ w → P w)
    (line : ∀ w s, 10 ∉ w → P s → P (w ++ 10 :: s)) (s : Bytes) : P s := by
  induction hn : s.length using Nat.strong_induction_on generalizing s with
  | _ n ih =>
    by_cases h10 : 10 ∈ s
    · obtain ⟨w,t,rfl,hw⟩ := List.eq_append_cons_of_mem h10
      refine line w t hw (ih t.length ?_ t rfl)
      rw [← hn,List.length_append,List.length_cons]
      omega
    · exact last s h10

theorem chunks_textLines {n : ℕ} (hn : 0 < n) (s : Bytes) : chunks n s = (textLines s).flatMap (chunks n) := by
  induction s using line_induction with
  | last w h10 =>
    by_cases hw : w = []
    · subst hw
      rfl
    · rw [textLines_last h10 hw,List.flatMap_singleton]
  | line w s h10 ih =>
    rw [textLines_lf h10,List.flatMap_cons,← ih,← chunks_append hn (settled_lf n w),List.append_assoc]
    rfl

theorem chunks_of_mem_textLines {n : ℕ} {s line : Bytes} (h : line ∈ textLines s) (hl : line.length ≤ n) :
    chunks n line = [line] := by
  induction s using line_induction with
  | last w h10 =>
    by_cases hw : w = []
    · subst hw
      cases h
    · rw [textLines_last h10 hw,List.mem_singleton] at h
      rw [h] at hl ⊢
      exact chunks_last h10 hw hl
  | line w s h10 ih =>
    rw [textLines_lf h10,List.mem_cons] at h
    rcases h with rfl | h
    · rw [List.length_append,List.length_singleton] at hl
      exact chunks_piece h10 (by omega) (Or.inl rfl)
    · exact ih h

def matching (pattern file_path : CString) (content : Bytes) : List Printed :=
  ((textLines content).filter fun line => pattern.bytes <:+: line).map fun line => (file_path,line)

theorem grepFile_eq (pattern file_path content : CString) : grepFile pattern file_path content.bytes =
    ((chunks (MAX_LINE_LENGTH-1) content.bytes).filter fun buf => pattern.bytes <:+: buf).map
      fun buf => (file_path,buf) := by
  have hself : ∀ buf ∈ chunks (MAX_LINE_LENGTH-1) content.bytes, (CString.ofBuffer buf).bytes = buf := by
    intro buf hb
    refine CString.bytes_ofBuffer_of_notMem fun h0 => content.nul_free ?_
    rw [← flatten_chunks (n:=MAX_LINE_LENGTH-1) (by decide) content.bytes]
    exact List.mem_flatten_of_mem hb h0
  have hmatch : (chunks (MAX_LINE_LENGTH-1) content.bytes).filter
        ((fun buf => strstr buf pattern) ∘ CString.ofBuffer) =
      (chunks (MAX_LINE_LENGTH-1) content.bytes).filter fun buf => pattern.bytes <:+: buf :=
    List.filter_congr fun buf hb => by
      rw [Function.comp_apply,strstr,hself buf hb]
  rw [grepFile,List.filter_map,List.map_map,hmatch]
  refine List.map_congr_left fun buf hb => ?_
  rw [Function.comp_apply,hself buf (List.mem_of_mem_filter hb)]

theorem length_of_mem_grepFile {pattern file_path content : CString} {x : Printed}
    (h : x ∈ grepFile pattern file_path content.bytes) : x.2.length ≤ 999 := by
  rw [grepFile_eq,List.mem_map] at h
  obtain ⟨buf,hb,rfl⟩ := h
  exact length_le_of_mem_chunks (List.mem_of_mem_filter hb)

theorem flatMap_eq_filter {α : Type} {f : α → List α} {p : α → Bool} {l : List α}
    (h : ∀ a ∈ l, f a = if p a then [a] else []) : l.flatMap f = l.filter p := by
  induction l with
  | nil => rfl
  | cons a l ih =>
    rw [List.flatMap_cons,h a (by simp),ih fun b hb => h b (by simp [hb]),List.filter_cons]
    split_ifs <;> rfl

theorem grepFile_eq_matching {pattern : CString} (file_path : CString) {content : CString}
    (h : ∀ line ∈ textLines content.bytes, line.length ≤ 999 ∨ ¬ pattern.bytes <:+: line) :
    grepFile pattern file_path content.bytes = matching pattern file_path content.bytes := by
  rw [grepFile_eq,matching,chunks_textLines (by decide),List.filter_flatMap]
  congr 1
  refine flatMap_eq_filter fun line hl => ?_
  rcases h line hl with hfit | hno
  · rw [chunks_of_mem_textLines (n:=MAX_LINE_LENGTH-1) hl hfit,List.filter_singleton,Bool.cond_eq_ite]
  · have hnil : (chunks (MAX_LINE_LENGTH-1) line).filter (fun buf => decide (pattern.bytes <:+: buf)) = [] := by
      rw [List.filter_eq_nil_iff]
      intro buf hb
      have hpart : buf <:+: line := by
        conv_rhs => rw [← flatten_chunks (n:=MAX_LINE_LENGTH-1) (by decide) line]
        exact List.infix_of_mem_flatten hb
      simpa using fun hp => hno (List.IsInfix.trans hp hpart)
    rw [hnil,if_neg (by simpa using hno)]

theorem joinPath_of_fits {path name : CString} (h : Directory.Fits path name) :
    joinPath path name = Directory.under path name :=
  CString.ext (List.take_of_length_le (Nat.le_pred_of_lt h.2))

theorem visitAll_filter (fs : FileSystem) (pattern : CString)
    (recurse : ℕ → CString → Except Fault (ℕ × ℕ × List Printed)) (path : CString) (free : ℕ)
    (entities : List Dirent) :
    visitAll fs pattern recurse path free entities =
      visitAll fs pattern recurse path free (entities.filter fun e => !isDots e.d_name) := by
  induction entities generalizing free with
  | nil => rfl
  | cons e entities ih =>
    by_cases he : isDots e.d_name = true
    · rw [visitAll,visit,if_pos he,List.filter_cons_of_neg (by simp [he]),← ih free]
      show visitAll fs pattern recurse path free entities >>= _ = _
      cases visitAll fs pattern recurse path free entities <;> rfl
    · rw [visitAll,List.filter_cons_of_pos (by simp [he]),visitAll]
      congr 1
      funext r
      rw [ih r.1]

theorem listLinesRecursively_succ {fs : FileSystem} {pattern path : CString} {d : Directory} (hl : d.Listed fs path)
    (fuel free : ℕ) : listLinesRecursively fs pattern (fuel+1) free path =
      if free = 0 then .ok (1,0,[])
      else (visitAll fs pattern (listLinesRecursively fs pattern fuel) path (free-1) d.entities).map
        fun r => (0,r.1+1,r.2) := by
  obtain ⟨entities,hopen,hlist⟩ := hl
  rw [listLinesRecursively]
  by_cases h0 : free = 0
  · rw [if_pos h0,if_pos h0,h0]
  · rw [if_neg h0,if_neg h0,hopen]
    show visitAll _ _ _ _ _ _ >>= _ = _
    rw [visitAll_filter,hlist]
    cases visitAll fs pattern (listLinesRecursively fs pattern fuel) path (free-1) d.entities <;> rfl

namespace Directory

def left : Directory → ℕ → ℕ
  | nil, free => free
  | file _ _ rest, free => rest.left (free-1)
  | dir _ sub rest, free => rest.left (if free = 0 then 0 else sub.left (free-1)+1)

def Opens : Directory → ℕ → Prop
  | nil, _ => True
  | file _ _ rest, free => 0 < free ∧ rest.Opens (free-1)
  | dir _ sub rest, free =>
    (free = 0 ∨ sub.Opens (free-1)) ∧ rest.Opens (if free = 0 then 0 else sub.left (free-1)+1)

instance decidableOpens : (d : Directory) → (free : ℕ) → Decidable (d.Opens free)
  | nil, _ => inferInstanceAs (Decidable True)
  | file _ _ rest, free =>
    have := rest.decidableOpens (free-1)
    inferInstanceAs (Decidable (0 < free ∧ rest.Opens (free-1)))
  | dir _ sub rest, free =>
    have := sub.decidableOpens (free-1)
    have := rest.decidableOpens (if free = 0 then 0 else sub.left (free-1)+1)
    inferInstanceAs (Decidable ((free = 0 ∨ sub.Opens (free-1)) ∧
      rest.Opens (if free = 0 then 0 else sub.left (free-1)+1)))

end Directory

/-- What the calls print for a tree. A directory that cannot be opened is passed over. -/
def pieces (pattern : CString) : Directory → CString → ℕ → List Printed
  | .nil, _, _ => []
  | .file name content rest, path, free =>
    grepFile pattern (Directory.under path name) content.bytes ++ pieces pattern rest path (free-1)
  | .dir name sub rest, path, free =>
    (if free = 0 then [] else pieces pattern sub (Directory.under path name) (free-1)) ++
      pieces pattern rest path (if free = 0 then 0 else sub.left (free-1)+1)

theorem visitAll_entities {fs : FileSystem} (pattern : CString) (d : Directory) {path : CString} {fuel : ℕ}
    (h : d.Below fs path) (hf : d.depth ≤ fuel) (free : ℕ) :
    visitAll fs pattern (listLinesRecursively fs pattern fuel) path free d.entities =
      if d.Opens free then .ok (d.left free,pieces pattern d path free) else .error .nullPointer := by
  induction d generalizing path fuel free with
  | nil => rfl
  | file name content rest ih =>
    obtain ⟨hfit,hopen,hrest⟩ := h
    rw [Directory.entities,visitAll,visit,if_neg (by simp [hfit.1]),joinPath_of_fits hfit,hopen]
    by_cases h0 : free = 0
    · have ho : ¬ Directory.Opens (.file name content rest) free := fun ho => absurd h0 ho.1.ne'
      rw [if_neg ho]
      simp only [if_pos h0]
      rfl
    · have ho : Directory.Opens (.file name content rest) free ↔ rest.Opens (free-1) :=
        and_iff_right (Nat.pos_of_ne_zero h0)
      simp only [if_neg h0,bind,Except.bind,ih hrest hf (free-1),ho]
      split_ifs <;> rfl
  | dir name sub rest ihsub ih =>
    obtain ⟨hfit,hlist,hsub,hrest⟩ := h
    rw [Directory.depth,max_le_iff] at hf
    obtain ⟨fuel,rfl⟩ : ∃ k, fuel = k+1 := ⟨fuel-1,by omega⟩
    have hsub := ihsub hsub (Nat.le_of_succ_le_succ hf.1) (free-1)
    rw [Directory.entities,visitAll,visit,if_neg (by simp [hfit.1]),joinPath_of_fits hfit]
    show (listLinesRecursively fs pattern (fuel+1) free (Directory.under path name) >>= _) >>= _ = _
    rw [listLinesRecursively_succ hlist,hsub]
    by_cases h0 : free = 0
    · have ho : Directory.Opens (.dir name sub rest) free ↔ rest.Opens 0 := by
        simp [Directory.Opens,h0]
      simp only [if_pos h0,bind,Except.bind,ih hrest hf.2 0,ho,Directory.left,pieces]
      split_ifs <;> rfl
    · by_cases hopens : sub.Opens (free-1)
      · have ho : Directory.Opens (.dir name sub rest) free ↔ rest.Opens (sub.left (free-1)+1) := by
          simp [Directory.Opens,h0,hopens]
        simp only [if_neg h0,if_pos hopens,Except.map,bind,Except.bind,ih hrest hf.2 (sub.left (free-1)+1),ho,
          Directory.left,pieces]
        split_ifs <;> rfl
      · have ho : ¬ Directory.Opens (.dir name sub rest) free := by simp [Directory.Opens,h0,hopens]
        rw [if_neg h0,if_neg hopens,if_neg ho]
        rfl

/-- Enough depth for the tree, and every file is searched once. -/
theorem listLinesRecursively_eq {fs : FileSystem} (pattern : CString) {d : Directory} {path : CString}
    {fuel : ℕ} (hl : d.Listed fs path) (h : d.Below fs path) (hf : d.depth < fuel) (free : ℕ) :
    listLinesRecursively fs pattern fuel free path =
      if free = 0 then .ok (1,0,[])
      else if d.Opens (free-1) then .ok (0,d.left (free-1)+1,pieces pattern d path (free-1))
      else .error .nullPointer := by
  obtain ⟨fuel,rfl⟩ : ∃ k, fuel = k+1 := ⟨fuel-1,by omega⟩
  rw [listLinesRecursively_succ hl,visitAll_entities pattern d h (Nat.le_of_lt_succ hf)]
  split_ifs <;> rfl

/-- The lines of all files that hold the pattern, once each. -/
def reports (pattern : CString) (d : Directory) (path : CString) : List Printed :=
  (d.files path).flatMap fun f => matching pattern f.1 f.2.bytes

def Short (pattern : CString) (d : Directory) (path : CString) : Prop :=
  ∀ f ∈ d.files path, ∀ line ∈ textLines f.2.bytes, line.length ≤ 999 ∨ ¬ pattern.bytes <:+: line

/-- A descriptor is left whenever a file is opened, and a directory that holds a line with the pattern. -/
def Served (pattern : CString) : Directory → CString → ℕ → Prop
  | .nil, _, _ => True
  | .file _ _ rest, path, free => 0 < free ∧ Served pattern rest path (free-1)
  | .dir name sub rest, path, free =>
    (if free = 0 then reports pattern sub (Directory.under path name) = []
      else Served pattern sub (Directory.under path name) (free-1)) ∧
    Served pattern rest path (if free = 0 then 0 else sub.left (free-1)+1)

theorem length_of_mem_pieces {pattern : CString} {x : Printed} (d : Directory) {path : CString} {free : ℕ}
    (h : x ∈ pieces pattern d path free) : x.2.length ≤ 999 := by
  induction d generalizing path free with
  | nil => cases h
  | file name content rest ih =>
    rcases List.mem_append.mp h with h | h
    · exact length_of_mem_grepFile h
    · exact ih h
  | dir name sub rest ihsub ih =>
    rcases List.mem_append.mp h with h | h
    · split_ifs at h with h0
      · cases h
      · exact ihsub h
    · exact ih h

theorem short_of_reports {pattern : CString} {d : Directory} {path : CString}
    (h : ∀ x ∈ reports pattern d path, x.2.length ≤ 999) : Short pattern d path := by
  intro f hf line hl
  by_cases hp : pattern.bytes <:+: line
  · refine Or.inl (h (f.1,line) (List.mem_flatMap.mpr ⟨f,hf,List.mem_map.mpr ⟨line,?_,rfl⟩⟩))
    exact List.mem_filter.mpr ⟨hl,decide_eq_true hp⟩
  · exact Or.inr hp

theorem reports_file (pattern name content : CString) (rest : Directory) (path : CString) :
    reports pattern (.file name content rest) path =
      matching pattern (Directory.under path name) content.bytes ++ reports pattern rest path := by
  rw [reports,Directory.files,List.flatMap_cons]
  rfl

theorem reports_dir (pattern name : CString) (sub rest : Directory) (path : CString) :
    reports pattern (.dir name sub rest) path =
      reports pattern sub (Directory.under path name) ++ reports pattern rest path := by
  rw [reports,Directory.files,List.flatMap_append]
  rfl

theorem Short.file {pattern name content : CString} {rest : Directory} {path : CString}
    (h : Short pattern (.file name content rest) path) :
    grepFile pattern (Directory.under path name) content.bytes =
        matching pattern (Directory.under path name) content.bytes ∧ Short pattern rest path :=
  ⟨grepFile_eq_matching _ (h (Directory.under path name,content) List.mem_cons_self),
    fun f hf => h f (List.mem_cons_of_mem _ hf)⟩

theorem Short.dir {pattern name : CString} {sub rest : Directory} {path : CString}
    (h : Short pattern (.dir name sub rest) path) :
    Short pattern sub (Directory.under path name) ∧ Short pattern rest path :=
  ⟨fun f hf => h f (List.mem_append_left _ hf),fun f hf => h f (List.mem_append_right _ hf)⟩

/-- Where lines fit, what is printed falls short of the reports only by directories passed over. -/
theorem length_pieces_le {pattern : CString} {d : Directory} {path : CString} (h : Short pattern d path)
    (free : ℕ) : (pieces pattern d path free).length ≤ (reports pattern d path).length := by
  induction d generalizing path free with
  | nil => exact le_refl _
  | file name content rest ih =>
    rw [pieces,reports_file,h.file.1,List.length_append,List.length_append]
    exact Nat.add_le_add_left (ih h.file.2 _) _
  | dir name sub rest ihsub ih =>
    rw [pieces,reports_dir,List.length_append,List.length_append]
    refine Nat.add_le_add ?_ (ih h.dir.2 _)
    split_ifs with h0
    · exact Nat.zero_le _
    · exact ihsub h.dir.1 _

theorem served_of_opens {pattern : CString} {d : Directory} {path : CString} (h : Short pattern d path)
    {free : ℕ} (ho : d.Opens free)
    (hl : (reports pattern d path).length ≤ (pieces pattern d path free).length) : Served pattern d path free := by
  induction d generalizing path free with
  | nil => trivial
  | file name content rest ih =>
    rw [pieces,reports_file,h.file.1,List.length_append,List.length_append] at hl
    exact ⟨ho.1,ih h.file.2 ho.2 (Nat.le_of_add_le_add_left hl)⟩
  | dir name sub rest ihsub ih =>
    rw [pieces,reports_dir,List.length_append,List.length_append] at hl
    have hrest := length_pieces_le h.dir.2 (if free = 0 then 0 else sub.left (free-1)+1)
    by_cases h0 : free = 0
    · rw [if_pos h0] at hl
      simp only [List.length_nil] at hl
      refine ⟨?_,ih h.dir.2 ho.2 (by omega)⟩
      rw [if_pos h0]
      exact List.length_eq_zero_iff.mp (by omega)
    · have hsub := length_pieces_le h.dir.1 (free-1)
      rw [if_neg h0] at hl
      refine ⟨?_,ih h.dir.2 ho.2 (by omega)⟩
      rw [if_neg h0]
      exact ihsub h.dir.1 (ho.1.resolve_left h0) (by omega)

theorem pieces_of_served {pattern : CString} {d : Directory} {path : CString} (h : Short pattern d path)
    {free : ℕ} (hs : Served pattern d path free) :
    d.Opens free ∧ pieces pattern d path free = reports pattern d path := by
  induction d generalizing path free with
  | nil => exact ⟨trivial,rfl⟩
  | file name content rest ih =>
    obtain ⟨ho,hp⟩ := ih h.file.2 hs.2
    exact ⟨⟨hs.1,ho⟩,by rw [pieces,reports_file,h.file.1,hp]⟩
  | dir name sub rest ihsub ih =>
    obtain ⟨ho,hp⟩ := ih h.dir.2 hs.2
    have hs := hs.1
    rw [pieces,reports_dir,hp]
    split_ifs at hs with h0
    · exact ⟨⟨Or.inl h0,ho⟩,by rw [if_pos h0,hs]⟩
    · obtain ⟨hsub,heq⟩ := ihsub h.dir.1 hs
      exact ⟨⟨Or.inr hsub,ho⟩,by rw [if_neg h0,heq]⟩

def Searched (pattern : CString) (d : Directory) (path : CString) (free : ℕ) : Prop :=
  if free = 0 then reports pattern d path = [] else Served pattern d path (free-1)

/-- Each matching line is printed once, and nothing else, exactly when the matching lines fit the
buffer and the descriptors last. -/
theorem listLinesRecursively_iff {fs : FileSystem} (pattern : CString) {d : Directory} {path : CString}
    {fuel : ℕ} (hl : d.Listed fs path) (h : d.Below fs path) (hf : d.depth < fuel) (free : ℕ) :
    (listLinesRecursively fs pattern fuel free path).map (fun r => r.2.2) = .ok (reports pattern d path) ↔
      Short pattern d path ∧ Searched pattern d path free := by
  rw [listLinesRecursively_eq pattern hl h hf,Searched]
  by_cases h0 : free = 0
  · rw [if_pos h0,if_pos h0]
    constructor
    · intro he
      have hnil : reports pattern d path = [] := (Except.ok.inj he).symm
      exact ⟨short_of_reports (by simp [hnil]),hnil⟩
    · rintro ⟨-,hnil⟩
      rw [hnil]
      rfl
  · rw [if_neg h0,if_neg h0]
    split_ifs with ho
    · constructor
      · intro he
        have hp : pieces pattern d path (free-1) = reports pattern d path := Except.ok.inj he
        have hs : Short pattern d path := short_of_reports fun x hx => length_of_mem_pieces d (by rwa [hp])
        exact ⟨hs,served_of_opens hs ho (by rw [hp])⟩
      · rintro ⟨hs,hserved⟩
        exact congrArg Except.ok (pieces_of_served hs hserved).2
    · constructor
      · intro he
        cases he
      · rintro ⟨hs,hserved⟩
        exact absurd (pieces_of_served hs hserved).1 ho

def sampleTree : Directory :=
  .dir (lit "sub") (.file (lit "a.txt") (lit "one\ntwo") .nil) (.file (lit "b.txt") (lit "two\n") .nil)

def sampleFiles : FileSystem where
  opendir path :=
    if path = lit "data" then
      some [⟨lit ".",.dir⟩,⟨lit "sub",.dir⟩,⟨lit "..",.dir⟩,⟨lit "b.txt",.other⟩]
    else if path = lit "data/sub" then some [⟨lit "a.txt",.other⟩] else none
  fopen path :=
    if path = lit "data/b.txt" then some (ascii "two\n")
    else if path = lit "data/sub/a.txt" then some (ascii "one\ntwo") else none

theorem listed_sampleTree : sampleTree.Listed sampleFiles (lit "data") := ⟨_,rfl,by decide⟩

theorem below_sampleTree : sampleTree.Below sampleFiles (lit "data") :=
  ⟨⟨by decide,by decide⟩,⟨[⟨lit "a.txt",.other⟩],by decide,by decide⟩,
    ⟨⟨by decide,by decide⟩,by decide,trivial⟩,
    ⟨by decide,by decide⟩,by decide,trivial⟩

theorem listLinesRecursively_iff_sample : sampleTree.Listed sampleFiles (lit "data") ∧
    sampleTree.Below sampleFiles (lit "data") ∧ sampleTree.depth < 2 ∧
    ((listLinesRecursively sampleFiles (lit "w") 2 3 (lit "data")).map (fun r => r.2.2) =
        .ok (reports (lit "w") sampleTree (lit "data")) ↔
      Short (lit "w") sampleTree (lit "data") ∧ Searched (lit "w") sampleTree (lit "data") 3) :=
  ⟨listed_sampleTree,below_sampleTree,by decide,
    listLinesRecursively_iff (lit "w") listed_sampleTree below_sampleTree (by decide) 3⟩

theorem served_files (pattern : CString) (files : List (CString × CString)) (path : CString) (free : ℕ) :
    Served pattern (files.foldr (fun f d => .file f.1 f.2 d) .nil) path free ↔ files.length ≤ free := by
  induction files generalizing free with
  | nil => simp [Served]
  | cons f files ih =>
    rw [List.foldr_cons,Served,ih,List.length_cons]
    omega

def longLine (n : ℕ) : CString where
  bytes := List.replicate (n+1) 97 ++ [98]
  nul_free := by simp

theorem longLine_length (n : ℕ) : (longLine n).bytes.length = n+2 := by simp [longLine]

theorem ab_infix_longLine (n : ℕ) : (lit "ab").bytes <:+: (longLine n).bytes :=
  ⟨List.replicate n 97,[],by
    show List.replicate n 97 ++ [97,98] ++ [] = List.replicate (n+1) 97 ++ [98]
    rw [List.replicate_succ',List.append_nil,List.append_assoc]
    rfl⟩

theorem textLines_longLine (n : ℕ) : textLines (longLine n).bytes = [(longLine n).bytes] :=
  textLines_last (by simp [longLine]) (by simp [longLine])

def longTree (n : ℕ) : Directory := .file (lit "a.txt") (longLine n) .nil

theorem not_short_longTree {n : ℕ} (hn : 998 ≤ n) (path : CString) : ¬ Short (lit "ab") (longTree n) path := by
  intro h
  have hline := h (Directory.under path (lit "a.txt"),longLine n) (by simp [longTree,Directory.files])
    (longLine n).bytes (by rw [textLines_longLine]; exact List.mem_singleton_self _)
  rcases hline with hlen | hno
  · rw [longLine_length] at hlen
    omega
  · exact hno (ab_infix_longLine n)

def longFiles (n : ℕ) : FileSystem where
  opendir _ := some [⟨lit "a.txt",.other⟩]
  fopen _ := some (longLine n).bytes

/-- In a line of a thousand bytes the pattern lies across two pieces. -/
theorem listLinesRecursively_long :
    (listLinesRecursively (longFiles 998) (lit "ab") 1 9 (lit "d")).map (fun r => r.2.2) ≠
      .ok (reports (lit "ab") (longTree 998) (lit "d")) := by
  have hfit : Directory.Fits (lit "d") (lit "a.txt") := ⟨by decide,by decide⟩
  have hlist : (longTree 998).Listed (longFiles 998) (lit "d") := ⟨[⟨lit "a.txt",.other⟩],rfl,by decide⟩
  have heq := listLinesRecursively_eq (lit "ab") hlist ⟨hfit,rfl,trivial⟩ (Nat.lt_succ_self 0) 9
  have ho : (longTree 998).Opens 8 := ⟨by decide,trivial⟩
  rw [if_neg (by decide),if_pos ho] at heq
  rw [heq]
  intro h
  have hp : pieces (lit "ab") (longTree 998) (lit "d") 8 = reports (lit "ab") (longTree 998) (lit "d") :=
    Except.ok.inj h
  exact not_short_longTree (le_refl 998) (lit "d")
    (short_of_reports fun x hx => length_of_mem_pieces (longTree 998) (by rwa [hp]))

end GrepTool
end CodingChallenges
