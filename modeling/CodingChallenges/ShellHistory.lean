import CodingChallenges.CStream
import CodingChallenges.ShellWords

/-! The history of the shell (`history_load`, `history_add`). Every command is appended to a
file, and the array of the commands is filled anew from the whole file with `fgets`. The file can
be opened here; `history_load` closes no stream, and the session counts those that stay open. -/
namespace CodingChallenges
namespace ShellHistory

open CText CMemory CStream ShellWords

abbrev MAX_HISTORY : ℕ := 1000

structure History where
  file : Bytes
  history : Pointers
  hc : ℕ

/-- The loop of `history_load` on the lines that `fgets` delivers. -/
def loadLines : List Bytes → Pointers → ℕ → Except Fault (Pointers × ℕ)
  | [], v, hc => .ok (v,hc)
  | l :: ls, v, hc => do
    let v ← assign v hc (some (CString.ofBuffer l))
    loadLines ls v (hc+1)

/-- `line` has 1024 bytes, the last for the terminator. -/
def historyLoad (h : History) : Except Fault History := do
  let r ← loadLines (chunks 1023 h.file) h.history 0
  .ok ⟨h.file,r.1,r.2⟩

def historyAdd (h : History) (cmd : CString) : Except Fault History :=
  historyLoad { h with file := h.file ++ cmd.bytes ++ [10] }

def start : History := ⟨[],List.replicate MAX_HISTORY (some none),0⟩

def addAll (cmds : List CString) : Except Fault History := cmds.foldlM historyAdd start

def newline : CString := lit "\n"

/-- The array holds the commands, each with its line feed. -/
def Records (h : History) (cmds : List CString) : Prop :=
  h.hc = cmds.length ∧ cmds.length ≤ MAX_HISTORY ∧
    ∀ i (hi : i < cmds.length), h.history[i]? = some (some (some (cmds[i] ++ newline)))

def cell (l : Bytes) : Option (Option CString) := some (some (CString.ofBuffer l))

theorem assign_append (a : Pointers) (x : Option (Option CString)) (r : Pointers) (y : Option CString) :
    assign (a ++ x :: r) a.length y = .ok (a ++ some y :: r) := by
  rw [assign,if_pos (by simp),List.set_append_right _ _ (le_refl _)]
  simp

theorem loadLines_eq (done ls : List Bytes) (rest : Pointers) :
    loadLines ls (done.map cell ++ rest) done.length =
      if ls.length ≤ rest.length then
        .ok ((done ++ ls).map cell ++ rest.drop ls.length,(done ++ ls).length)
      else .error .outOfBounds := by
  induction ls generalizing done rest with
  | nil => simp [loadLines]
  | cons l ls ih =>
    cases rest with
    | nil =>
      have hfull : assign (done.map cell ++ []) done.length (some (CString.ofBuffer l)) =
          .error .outOfBounds := if_neg (by simp)
      rw [loadLines,hfull,if_neg (by simp)]
      rfl
    | cons x rest =>
      have hnext := assign_append (done.map cell) x rest (some (CString.ofBuffer l))
      rw [List.length_map] at hnext
      have h := ih (done ++ [l]) rest
      rw [List.map_append,List.length_append,List.append_assoc,List.append_assoc] at h
      rw [loadLines,hnext]
      simpa [cell,bind,Except.bind] using h

theorem historyLoad_eq {h : History} (hs : h.history.length = MAX_HISTORY) :
    historyLoad h =
      if (chunks 1023 h.file).length ≤ MAX_HISTORY then
        .ok ⟨h.file,(chunks 1023 h.file).map cell ++ h.history.drop (chunks 1023 h.file).length,
          (chunks 1023 h.file).length⟩
      else .error .outOfBounds := by
  have hl := loadLines_eq [] (chunks 1023 h.file) h.history
  rw [List.map_nil,List.nil_append,List.nil_append,hs] at hl
  rw [historyLoad,show loadLines (chunks 1023 h.file) h.history 0 = _ from hl]
  split_ifs <;> rfl

def line (cmd : CString) : Bytes := cmd.bytes ++ [10]

def text (cmds : List CString) : Bytes := (cmds.map line).flatten

theorem addAll_snoc (cmds : List CString) (cmd : CString) :
    addAll (cmds ++ [cmd]) = addAll cmds >>= fun h => historyAdd h cmd := by
  rw [addAll,List.foldlM_append]
  exact bind_congr fun h => bind_pure _

theorem text_snoc (cmds : List CString) (cmd : CString) : text (cmds ++ [cmd]) = text cmds ++ line cmd := by
  simp [text]

theorem historyAdd_eq {h : History} (hs : h.history.length = MAX_HISTORY) (cmd : CString) :
    historyAdd h cmd =
      if (chunks 1023 (h.file ++ line cmd)).length ≤ MAX_HISTORY then
        .ok ⟨h.file ++ line cmd,(chunks 1023 (h.file ++ line cmd)).map cell ++
            h.history.drop (chunks 1023 (h.file ++ line cmd)).length,
          (chunks 1023 (h.file ++ line cmd)).length⟩
      else .error .outOfBounds := by
  rw [historyAdd,List.append_assoc]
  exact historyLoad_eq (h:={ h with file := h.file ++ line cmd }) hs

/-- However the lines are read, the file has them all and the array keeps its size. -/
theorem addAll_file {cmds : List CString} {h : History} (hh : addAll cmds = .ok h) :
    h.file = text cmds ∧ h.history.length = MAX_HISTORY := by
  induction cmds using List.reverseRecOn generalizing h with
  | nil =>
    obtain rfl := Except.ok.inj hh
    exact ⟨rfl,List.length_replicate⟩
  | append_singleton cmds cmd ih =>
    rw [addAll_snoc] at hh
    obtain ⟨h₀,h₀h,hadd⟩ := bind_eq_ok.mp hh
    obtain ⟨hfile,hsize⟩ := ih h₀h
    rw [historyAdd_eq hsize] at hadd
    split_ifs at hadd with hle
    obtain rfl := Except.ok.inj hadd
    refine ⟨by rw [text_snoc,← hfile],?_⟩
    simp only [List.length_append,List.length_map,List.length_drop,hsize]
    omega

/-- A file of short lines is read line by line. -/
theorem chunks_text {cmds : List CString} (h10 : ∀ c ∈ cmds, 10 ∉ c.bytes)
    (hshort : ∀ c ∈ cmds, c.length ≤ 1022) : chunks 1023 (text cmds) = cmds.map line := by
  rw [text,chunks_flatten (by decide) _ (fun w hw => by
    obtain ⟨c,_,rfl⟩ := List.mem_map.mp hw
    exact settled_lf 1023 c.bytes)]
  induction cmds with
  | nil => rfl
  | cons c cmds ih =>
    have hc : chunks 1023 (line c) = [line c] :=
      chunks_piece (h10 c (by simp)) (Nat.lt_succ_of_le (hshort c (by simp))) (Or.inl rfl)
    have hrest := ih (fun c hc => h10 c (by simp [hc])) fun c hc => hshort c (by simp [hc])
    rw [List.map_cons,List.flatMap_cons,hc,hrest]
    rfl

theorem cell_line (cmd : CString) : cell (line cmd) = some (some (cmd ++ newline)) :=
  congrArg (fun s => some (some s)) (CString.ofBuffer_self (cmd ++ newline))

theorem addAll_records {cmds : List CString} (h10 : ∀ c ∈ cmds, 10 ∉ c.bytes)
    (hshort : ∀ c ∈ cmds, c.length ≤ 1022) (hmax : cmds.length ≤ MAX_HISTORY) :
    ∃ h, addAll cmds = .ok h ∧ Records h cmds := by
  induction cmds using List.reverseRecOn with
  | nil => exact ⟨start,rfl,rfl,hmax,fun i hi => absurd hi (Nat.not_lt_zero i)⟩
  | append_singleton cmds cmd ih =>
    rw [List.length_append,List.length_singleton] at hmax
    obtain ⟨h₀,hh₀,_⟩ := ih (fun c hc => h10 c (by simp [hc])) (fun c hc => hshort c (by simp [hc]))
      (by omega)
    obtain ⟨hfile,hsize⟩ := addAll_file hh₀
    have hchunks := chunks_text h10 hshort
    rw [text_snoc,← hfile] at hchunks
    have hadd := historyAdd_eq hsize cmd
    rw [hchunks,List.length_map,if_pos (by simpa using hmax)] at hadd
    refine ⟨_,by rw [addAll_snoc,hh₀]; exact hadd,rfl,by simpa using hmax,fun i hi => ?_⟩
    have hi' : i < (((cmds ++ [cmd]).map line).map cell).length := by simpa using hi
    rw [List.getElem?_append_left hi',List.getElem?_eq_getElem hi']
    simp only [List.getElem_map,cell_line]

theorem short_of_records {cmds : List CString} {cmd : CString} (h10 : ∀ c ∈ cmds, 10 ∉ c.bytes)
    (hshort : ∀ c ∈ cmds, c.length ≤ 1022) {h : History} (hh : addAll (cmds ++ [cmd]) = .ok h)
    (hr : Records h (cmds ++ [cmd])) : cmd.length ≤ 1022 := by
  rw [addAll_snoc] at hh
  obtain ⟨h₀,hh₀,hadd⟩ := bind_eq_ok.mp hh
  obtain ⟨hfile,hsize⟩ := addAll_file hh₀
  have hsettled : Settled 1023 (text cmds) := by
    cases cmds using List.reverseRecOn with
    | nil => rfl
    | append_singleton cmds c =>
      rw [text_snoc,line,← List.append_assoc]
      exact settled_lf 1023 _
  have hchunks : chunks 1023 (h₀.file ++ line cmd) = cmds.map line ++ chunks 1023 (line cmd) := by
    rw [hfile,chunks_append (by decide) hsettled,chunks_text h10 hshort]
  rw [historyAdd_eq hsize,hchunks] at hadd
  split_ifs at hadd
  obtain rfl := Except.ok.inj hadd
  have hcount := hr.1
  simp only [List.length_append,List.length_map,List.length_singleton] at hcount
  -- the line of the command is one piece, so it fits into `line`
  obtain ⟨l,hl⟩ := List.length_eq_one_iff.mp (Nat.add_left_cancel hcount)
  have hflat := flatten_chunks (n:=1023) (by decide) (line cmd)
  have hle := length_le_of_mem_chunks (n:=1023) (s:=line cmd) (c:=l) (by simp [hl])
  rw [hl,List.flatten_singleton] at hflat
  rw [hflat,line,List.length_append,List.length_singleton] at hle
  exact Nat.le_of_succ_le_succ hle

/-- After every command of a run the array holds the commands so far exactly when the array has
room for all of them and each fits into `line` with its line feed. -/
theorem records_iff {cmds : List CString} (h10 : ∀ c ∈ cmds, 10 ∉ c.bytes) :
    (∀ p, p <+: cmds → ∃ h, addAll p = .ok h ∧ Records h p) ↔
      cmds.length ≤ MAX_HISTORY ∧ ∀ c ∈ cmds, c.length ≤ 1022 := by
  constructor
  · intro hrun
    obtain ⟨_,_,hr⟩ := hrun cmds List.prefix_rfl
    refine ⟨hr.2.1,?_⟩
    have hprefix (p : List CString) (hp : p <+: cmds) : ∀ c ∈ p, c.length ≤ 1022 := by
      induction p using List.reverseRecOn with
      | nil => simp
      | append_singleton p c ih =>
        have hpre : p <+: cmds := (List.prefix_append p [c]).trans hp
        obtain ⟨h,hh,hr⟩ := hrun _ hp
        have hc := short_of_records (fun c hc => h10 c (hpre.subset hc)) (ih hpre) hh hr
        intro d hd
        rcases List.mem_append.mp hd with hd | hd
        · exact ih hpre d hd
        · rwa [List.mem_singleton.mp hd]
    exact hprefix cmds List.prefix_rfl
  · rintro ⟨hmax,hshort⟩ p hp
    exact addAll_records (fun c hc => h10 c (hp.subset hc)) (fun c hc => hshort c (hp.subset hc))
      (hp.length_le.trans hmax)

theorem records_two :
    (∀ c ∈ [lit "ls",lit "exit"], 10 ∉ c.bytes) ∧
      ((∀ p, p <+: [lit "ls",lit "exit"] → ∃ h, addAll p = .ok h ∧ Records h p) ↔
        [lit "ls",lit "exit"].length ≤ MAX_HISTORY ∧ ∀ c ∈ [lit "ls",lit "exit"], c.length ≤ 1022) :=
  ⟨by decide,records_iff (by decide)⟩

def longCommand : CString where
  bytes := List.replicate 1023 97
  nul_free := fun h => absurd (List.eq_of_mem_replicate h) (by decide)

theorem records_long : ¬ ∀ p, p <+: [longCommand] → ∃ h, addAll p = .ok h ∧ Records h p := by
  intro hrun
  obtain ⟨h,hh,hr⟩ := hrun [longCommand] List.prefix_rfl
  have hnone : ∀ c ∈ ([] : List CString), 10 ∉ c.bytes := by simp
  have hshort := short_of_records hnone (by simp) hh hr
  have hlen : longCommand.length = 1023 := List.length_replicate
  omega

end ShellHistory
end CodingChallenges
