import CodingChallenges.GrepTool

/-! The `ls` command of the shell. The path of a directory below is printed into a block of
`sizeof(100)` bytes, cut to the size of a pointer. -/
namespace CodingChallenges
namespace LsTool

open CText CMemory GrepTool

abbrev INT_SZ : ℕ := 4
abbrev POINTER_SZ : ℕ := 8

/-- `malloc(sizeof(100) * sizeof(char))` and `snprintf(nw_path, sizeof(nw_path), "%s/%s", ..)`. -/
def nwPath (path name : CString) : Except Fault CString :=
  let nw_path := (path ++ lit "/" ++ name).take (POINTER_SZ-1)
  if nw_path.length+1 ≤ INT_SZ then .ok nw_path else .error .outOfBounds

/-- The body of the loop over the entries. The value of the inner call is not used. -/
def visit (recurse : CString → Except Fault (ℕ × Bytes)) (path : CString) (entity : Dirent) :
    Except Fault Bytes :=
  if isDots entity.d_name then .ok []
  else match entity.d_type with
    | .dir => do
      let nw_path ← nwPath path entity.d_name
      let r ← recurse nw_path
      .ok r.2
    | .other => .ok (entity.d_name.bytes ++ [9])

def visitAll (recurse : CString → Except Fault (ℕ × Bytes)) (path : CString) : List Dirent → Except Fault Bytes
  | [] => .ok []
  | entity :: entities => do
    let out ← visit recurse path entity
    let rest ← visitAll recurse path entities
    .ok (out ++ rest)

/-- `ls`: its value and what is printed, down to a depth. -/
def ls (opendir : CString → Option (List Dirent)) : ℕ → CString → Except Fault (ℕ × Bytes)
  | 0, _ => .error .endless
  | fuel+1, path =>
    match opendir path with
    | none => .ok (1,[])
    | some entities => do
      let out ← visitAll (ls opendir fuel) path entities
      .ok (0,out)

def main (opendir : CString → Option (List Dirent)) (fuel : ℕ) : Except Fault Bytes := do
  let r ← ls opendir fuel (lit ".")
  .ok (r.2 ++ [10])

def names : Directory → List CString
  | .nil => []
  | .file name _ rest => name :: names rest
  | .dir _ sub rest => names sub ++ names rest

/-- The directories of a tree are where their names say, which are not empty. -/
def Found (fs : FileSystem) : Directory → CString → Prop
  | .nil, _ => True
  | .file name _ rest, path => isDots name = false ∧ Found fs rest path
  | .dir name sub rest, path => isDots name = false ∧ 0 < name.length ∧
    sub.Listed fs (Directory.under path name) ∧ Found fs sub (Directory.under path name) ∧ Found fs rest path

/-- The path of every directory below has room in the block. -/
def Narrow : Directory → CString → Prop
  | .nil, _ => True
  | .file _ _ rest, path => Narrow rest path
  | .dir name sub rest, path =>
    (Directory.under path name).length < INT_SZ ∧ Narrow sub (Directory.under path name) ∧ Narrow rest path

instance decidableNarrow : (d : Directory) → (path : CString) → Decidable (Narrow d path)
  | .nil, _ => isTrue trivial
  | .file _ _ rest, path => decidableNarrow rest path
  | .dir name sub rest, path =>
    have := decidableNarrow sub (Directory.under path name)
    have := decidableNarrow rest path
    inferInstanceAs (Decidable (_ ∧ _ ∧ _))

def printed (d : Directory) : Bytes := (names d).flatMap fun name => name.bytes ++ [9]

variable {fs : FileSystem} {path name : CString} {fuel : ℕ}

theorem nwPath_short (h : (Directory.under path name).length < INT_SZ) :
    nwPath path name = .ok (Directory.under path name) := by
  have htake : (path ++ lit "/" ++ name).take (POINTER_SZ-1) = Directory.under path name :=
    CString.ext (List.take_of_length_le (le_trans (le_of_lt h) (by decide)))
  rw [nwPath,htake]
  exact if_pos h

theorem nwPath_long (h : ¬ (Directory.under path name).length < INT_SZ) :
    nwPath path name = .error .outOfBounds := by
  refine if_neg fun hle => h ?_
  have hlen : ((path ++ lit "/" ++ name).take (POINTER_SZ-1)).length =
      min (POINTER_SZ-1) (Directory.under path name).length := List.length_take
  rw [hlen] at hle
  simp only [POINTER_SZ,INT_SZ] at hle ⊢
  omega

/-- `"."` and `".."` are passed over. -/
theorem visitAll_filter (recurse : CString → Except Fault (ℕ × Bytes)) (path : CString) (entities : List Dirent) :
    visitAll recurse path entities = visitAll recurse path (entities.filter fun e => !isDots e.d_name) := by
  induction entities with
  | nil => rfl
  | cons e entities ih =>
    by_cases he : isDots e.d_name = true
    · rw [visitAll,visit,if_pos he,ih,List.filter_cons_of_neg (by simp [he])]
      cases visitAll recurse path _ <;> rfl
    · rw [visitAll,ih,List.filter_cons_of_pos (by simp [he]),visitAll]

theorem ls_succ {d : Directory} (h : d.Listed fs path) : ls fs.opendir (fuel+1) path =
    (visitAll (ls fs.opendir fuel) path d.entities).map fun out => (0,out) := by
  obtain ⟨entities,hopen,hlist⟩ := h
  rw [ls,hopen]
  show visitAll _ _ _ >>= _ = _
  rw [visitAll_filter,hlist]
  cases visitAll (ls fs.opendir fuel) path d.entities <;> rfl

theorem visitAll_entities {d : Directory} (h : Found fs d path) (hf : d.depth ≤ fuel) :
    visitAll (ls fs.opendir fuel) path d.entities =
      if Narrow d path then .ok (printed d) else .error .outOfBounds := by
  induction d generalizing path fuel with
  | nil => rfl
  | file name content rest ih =>
    obtain ⟨hname,hrest⟩ := h
    rw [Directory.entities,visitAll,visit,if_neg (by simp [hname]),ih hrest hf]
    show _ = if Narrow rest path then _ else _
    split_ifs
    · simp only [bind,Except.bind,printed,names,List.flatMap_cons]
    · rfl
  | dir name sub rest ihsub ih =>
    obtain ⟨hname,-,hlist,hsub,hrest⟩ := h
    rw [Directory.depth,max_le_iff] at hf
    obtain ⟨fuel,rfl⟩ : ∃ k, fuel = k+1 := ⟨fuel-1,by omega⟩
    rw [Directory.entities,visitAll,visit,if_neg (by simp [hname]),ih hrest hf.2]
    by_cases hshort : (Directory.under path name).length < INT_SZ
    · rw [nwPath_short hshort]
      simp only [bind,Except.bind]
      rw [ls_succ hlist,ihsub hsub (Nat.le_of_succ_le_succ hf.1)]
      by_cases hin : Narrow sub (Directory.under path name)
      · rw [if_pos hin]
        by_cases hnext : Narrow rest path
        · have hall : Narrow (.dir name sub rest) path := ⟨hshort,hin,hnext⟩
          rw [if_pos hnext,if_pos hall]
          simp only [Except.map,printed,names,List.flatMap_append]
        · have hno : ¬ Narrow (.dir name sub rest) path := fun hall => hnext hall.2.2
          rw [if_neg hnext,if_neg hno]
          rfl
      · have hno : ¬ Narrow (.dir name sub rest) path := fun hall => hin hall.2.1
        rw [if_neg hin,if_neg hno]
        rfl
    · have hno : ¬ Narrow (.dir name sub rest) path := fun hall => hshort hall.1
      rw [nwPath_long hshort,if_neg hno]
      rfl

def subdirs : Directory → List (CString × Directory)
  | .nil => []
  | .file _ _ rest => subdirs rest
  | .dir name sub rest => (name,sub) :: subdirs rest

theorem length_under (path name : CString) : (Directory.under path name).length = path.length+1+name.length := by
  show ((path.bytes ++ (lit "/").bytes) ++ name.bytes).length = _
  rw [List.length_append,List.length_append]
  rfl

theorem narrow_iff_subdirs (d : Directory) : Narrow d path ↔
    ∀ x ∈ subdirs d, path.length+x.1.length ≤ 2 ∧ Narrow x.2 (Directory.under path x.1) := by
  induction d with
  | nil => simp [Narrow,subdirs]
  | file name content rest ih => simpa only [Narrow,subdirs] using ih
  | dir name sub rest _ ih =>
    rw [Narrow,subdirs,List.forall_mem_cons,← ih,length_under,and_assoc]
    refine and_congr_left fun _ => ?_
    simp only [INT_SZ]
    omega

theorem length_of_mem_subdirs {d : Directory} (h : Found fs d path) {x : CString × Directory}
    (hx : x ∈ subdirs d) : 0 < x.1.length ∧ Found fs x.2 (Directory.under path x.1) := by
  induction d with
  | nil => cases hx
  | file name content rest ih => exact ih h.2 hx
  | dir name sub rest _ ih =>
    rcases List.mem_cons.mp hx with rfl | hx
    · exact ⟨h.2.1,h.2.2.2.1⟩
    · exact ih h.2.2.2.2 hx

/-- Below a path of two bytes there is room for no directory. -/
theorem narrow_iff_nil {d : Directory} (h : Found fs d path) (hp : 2 ≤ path.length) :
    Narrow d path ↔ subdirs d = [] := by
  rw [narrow_iff_subdirs]
  constructor
  · intro hall
    cases hd : subdirs d with
    | nil => rfl
    | cons x xs =>
      have hx : x ∈ subdirs d := by simp [hd]
      have hpos := (length_of_mem_subdirs h hx).1
      have hlen := (hall x hx).1
      omega
  · intro hd
    simp [hd]

def Flat (d : Directory) : Prop := ∀ x ∈ subdirs d, x.1.length ≤ 1 ∧ subdirs x.2 = []

instance (d : Directory) : Decidable (Flat d) :=
  inferInstanceAs (Decidable (∀ x ∈ subdirs d, x.1.length ≤ 1 ∧ subdirs x.2 = []))

theorem narrow_iff_flat {d : Directory} (h : Found fs d (lit ".")) : Narrow d (lit ".") ↔ Flat d := by
  rw [narrow_iff_subdirs]
  refine forall₂_congr fun x hx => and_congr ?_ ?_
  · show 1+x.1.length ≤ 2 ↔ x.1.length ≤ 1
    omega
  · have hpath : 2 ≤ (Directory.under (lit ".") x.1).length := by
      rw [length_under]
      exact Nat.le_add_right _ _
    exact narrow_iff_nil (length_of_mem_subdirs h hx).2 hpath

/-- What `ls` does in any directory: it prints the name of every file at any depth once, where the
directories have names of one byte and none in them, and writes behind its block otherwise. -/
theorem main_eq {d : Directory} (hl : d.Listed fs (lit ".")) (h : Found fs d (lit ".")) (hf : d.depth < fuel) :
    main fs.opendir fuel = if Flat d then .ok (printed d ++ [10]) else .error .outOfBounds := by
  obtain ⟨fuel,rfl⟩ : ∃ k, fuel = k+1 := ⟨fuel-1,by omega⟩
  have hiff := narrow_iff_flat h
  rw [main,ls_succ hl,visitAll_entities h (Nat.le_of_lt_succ hf)]
  by_cases hflat : Flat d
  · rw [if_pos hflat,if_pos (hiff.mpr hflat)]
    rfl
  · rw [if_neg hflat,if_neg fun hn => hflat (hiff.mp hn)]
    rfl

def twoFiles : Directory := .dir (lit "d") (.file (lit "a.c") (lit "") .nil) (.file (lit "b.c") (lit "") .nil)

def twoFilesAt : FileSystem where
  opendir path :=
    if path = lit "." then some [⟨lit ".",.dir⟩,⟨lit "d",.dir⟩,⟨lit "..",.dir⟩,⟨lit "b.c",.other⟩]
    else if path = lit "./d" then some [⟨lit "a.c",.other⟩]
    else none
  fopen _ := none

theorem main_eq_twoFiles : main twoFilesAt.opendir 2 = .ok (ascii "a.c\tb.c\t\n") := by
  have hlisted : twoFiles.Listed twoFilesAt (lit ".") := ⟨_,rfl,by decide⟩
  have hfound : Found twoFilesAt twoFiles (lit ".") :=
    ⟨by decide,by decide,⟨_,rfl,by decide⟩,⟨by decide,trivial⟩,by decide,trivial⟩
  rw [main_eq hlisted hfound (by decide)]
  decide

end LsTool
end CodingChallenges
