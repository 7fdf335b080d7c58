import CodingChallenges.CText
import CodingChallenges.DescriptorTable
import CodingChallenges.Interleaving

/-! The pipes of a command line (`handle_cmd`).
The shell and its children run side by side, each with a descriptor table of its own; a child
is followed as far as its call of `execute_cmd`. -/
namespace CodingChallenges
namespace ShellPipes

open CText DescriptorTable Interleaving

inductive End
  | read
  | write
  deriving DecidableEq

/-- What descriptors refer to: a file that the shell had open, or an end of the pipe made for
`pipefds[k]`. -/
inductive File (α : Type)
  | file (a : α)
  | pipe (k : ℕ) (e : End)
  deriving DecidableEq

variable {α : Type}

/-- A process inside `handle_cmd`; `cmd` is the argument of `execute_cmd` once it is called. -/
structure State (α : Type) where
  table : Table (File α)
  pipefds : List (Option (ℕ × ℕ))
  cmd : Option CString

/-- `pipefds[k][0]` or `pipefds[k][1]`, once assigned. -/
def State.fd (s : State α) (k : ℕ) (e : End) : Option ℕ :=
  (s.pipefds[k]?.join).map fun p =>
    match e with
    | .read => p.1
    | .write => p.2

inductive Call
  | pipe (k : ℕ)
  | fork (i : ℕ)
  | dup2 (k : ℕ) (e : End) (new : ℕ)
  | close (k : ℕ) (e : End)
  | execute_cmd (i : ℕ)

variable (segments : List CString)

/-- What a call does to the process that makes it; `none` when the call fails. -/
def act (s : State α) : Call → Option (State α)
  | .pipe k =>
    let p := pipe s.table (.pipe k .read) (.pipe k .write)
    some { s with table := p.1, pipefds := s.pipefds.set k (some p.2) }
  | .fork _ => some s
  | .dup2 k e new => do
    let old ← s.fd k e
    let t ← dup2 s.table old new
    some { s with table := t }
  | .close k e => do
    let fd ← s.fd k e
    let t ← close s.table fd
    some { s with table := t }
  | .execute_cmd i => do
    let cmd ← segments[i]?
    some { s with cmd := some cmd }

/-- The loop that closes both ends of every pipe. -/
def closePipes (sc : ℕ) : List Call :=
  (List.range sc).flatMap fun j => [.close j .read,.close j .write]

/-- What child `i` does. -/
def childCalls (sc i : ℕ) : List Call :=
  (if i > 0 then [.dup2 (i-1) .read 0] else []) ++ (if i < sc-1 then [.dup2 i .write 1] else []) ++
    closePipes sc ++ [.execute_cmd i]

def spawn : Call → Option (List Call)
  | .fork i => some (childCalls segments.length i)
  | _ => none

/-- `handle_cmd` up to the calls of `wait`. -/
def handleCmd : List Call :=
  (List.range segments.length).map .pipe ++ (List.range segments.length).map .fork ++
    closePipes segments.length

/-- The shell at the call, with the files that it has open. -/
def start (t : Table α) : State α :=
  ⟨t.map (Option.map .file),List.replicate segments.length none,none⟩

def after (t : Table α) (schedule : List ℕ) : Option (List (Process (State α) Call)) :=
  run (act segments) (spawn segments) [⟨start segments t,handleCmd segments⟩] schedule

/-- The ends in `L` are open on descriptors of their own that `g` leaves free, and all other
descriptors are as in `g`. -/
structure Wiring (g : ℕ → Option (File α)) (L : Set (ℕ × End)) (s : State α) : Prop where
  ends : ∀ k e, (k,e) ∈ L → ∃ fd, s.fd k e = some fd ∧ file s.table fd = some (.pipe k e) ∧ g fd = none
  rest : ∀ fd, (∀ k e, (k,e) ∈ L → s.fd k e ≠ some fd) → file s.table fd = g fd

variable {g : ℕ → Option (File α)} {L : Set (ℕ × End)} {s : State α}

theorem Wiring.free (h : Wiring g L s) {fd : ℕ} (hf : file s.table fd = none) : g fd = none := by
  rw [← h.rest fd fun k e hL he => ?_,hf]
  obtain ⟨fd',hfd,hfile,_⟩ := h.ends k e hL
  rw [he] at hfd
  cases hfd
  rw [hf] at hfile
  cases hfile

theorem fd_set_ne {k m : ℕ} (hk : k ≠ m) (e : End) (p : Option (ℕ × ℕ)) (t : Table (File α)) :
    State.fd { s with table := t, pipefds := s.pipefds.set m p } k e = s.fd k e := by
  simp [State.fd,Ne.symm hk]

theorem Wiring.pipe (h : Wiring g L s) {m : ℕ} (hm : m < s.pipefds.length) (hL : ∀ e, (m,e) ∉ L) :
    ∃ s', act segments s (.pipe m) = some s' ∧ Wiring g (L ∪ {x | x.1 = m}) s' ∧
      s'.pipefds.length = s.pipefds.length := by
  let p := DescriptorTable.pipe s.table (.pipe m .read) (.pipe m .write)
  let s' : State α := { s with table := p.1, pipefds := s.pipefds.set m (some p.2) }
  have hp : NewPipe s.table s'.table p.2.1 p.2.2 (.pipe m .read) (.pipe m .write) := newPipe _ _ _
  have hread : s'.fd m .read = some p.2.1 := by simp [s',State.fd,hm]
  have hwrite : s'.fd m .write = some p.2.2 := by simp [s',State.fd,hm]
  have hold : ∀ k e, (k,e) ∈ L → s'.fd k e = s.fd k e := by
    intro k e hk
    apply fd_set_ne
    rintro rfl
    exact hL e hk
  refine ⟨s',rfl,⟨?_,?_⟩,List.length_set⟩
  · rintro k e (hk | hk)
    · obtain ⟨fd,hs,hf,hg⟩ := h.ends k e hk
      have hused : ∀ x, file s.table x = none → fd ≠ x := by
        rintro x hx rfl
        rw [hf] at hx
        cases hx
      refine ⟨fd,by rw [hold k e hk,hs],?_,hg⟩
      rw [hp.other fd (hused _ hp.free_read) (hused _ hp.free_write),hf]
    · obtain rfl : k = m := hk
      cases e
      · exact ⟨_,hread,hp.read,h.free hp.free_read⟩
      · exact ⟨_,hwrite,hp.write,h.free hp.free_write⟩
  · intro fd hn
    have hr : fd ≠ p.2.1 := by
      rintro rfl
      exact hn m .read (Or.inr rfl) hread
    have hw : fd ≠ p.2.2 := by
      rintro rfl
      exact hn m .write (Or.inr rfl) hwrite
    rw [hp.other fd hr hw]
    refine h.rest fd fun k e hk => ?_
    rw [← hold k e hk]
    exact hn k e (Or.inl hk)

/-- A descriptor that `g` has in use is pointed at an end. -/
theorem Wiring.dup2 (h : Wiring g L s) {k : ℕ} {e : End} (hk : (k,e) ∈ L) {new : ℕ} (hnew : g new ≠ none) :
    ∃ s', act segments s (.dup2 k e new) = some s' ∧
      Wiring (Function.update g new (some (.pipe k e))) L s' ∧ s'.pipefds = s.pipefds := by
  obtain ⟨old,hold,hfile,_⟩ := h.ends k e hk
  have hact : act segments s (.dup2 k e new) =
      some { s with table := assign s.table new (some (.pipe k e)) } := by
    simp [act,hold,dup2_eq hfile]
  refine ⟨_,hact,⟨?_,?_⟩,rfl⟩
  · intro k' e' hk'
    obtain ⟨fd,hs,hf,hg⟩ := h.ends k' e' hk'
    have hne : fd ≠ new := by
      rintro rfl
      exact hnew hg
    exact ⟨fd,hs,by rw [file_assign_ne _ _ hne,hf],by rw [Function.update_of_ne hne,hg]⟩
  · intro fd hn
    by_cases hfd : fd = new
    · subst hfd
      rw [file_assign_self,Function.update_self]
    · rw [file_assign_ne _ _ hfd,Function.update_of_ne hfd]
      exact h.rest fd hn

theorem Wiring.close (h : Wiring g L s) {k : ℕ} {e : End} (hk : (k,e) ∈ L) :
    ∃ s', act segments s (.close k e) = some s' ∧ Wiring g (L \ {(k,e)}) s' ∧ s'.pipefds = s.pipefds := by
  obtain ⟨fd,hs,hf,hg⟩ := h.ends k e hk
  have hact : act segments s (.close k e) = some { s with table := assign s.table fd none } := by
    simp [act,hs,close_eq hf]
  refine ⟨_,hact,⟨?_,?_⟩,rfl⟩
  · rintro k' e' ⟨hk',hne⟩
    obtain ⟨fd',hs',hf',hg'⟩ := h.ends k' e' hk'
    have hfd : fd' ≠ fd := by
      rintro rfl
      rw [hf] at hf'
      cases hf'
      exact hne rfl
    exact ⟨fd',hs',by rw [file_assign_ne _ _ hfd,hf'],hg'⟩
  · intro fd' hn
    by_cases hfd : fd' = fd
    · subst hfd
      rw [file_assign_self,hg]
    · rw [file_assign_ne _ _ hfd]
      refine h.rest fd' fun k' e' hk' he => ?_
      by_cases heq : (k',e') = (k,e)
      · cases heq
        rw [hs] at he
        exact hfd (Option.some.inj he).symm
      · exact hn k' e' ⟨hk',heq⟩ he

theorem pipes_outcome (h : Wiring g ∅ s) (m : ℕ) (hm : m ≤ s.pipefds.length) :
    ∃ s', Outcome (act segments) (spawn segments) s ((List.range m).map .pipe) s' [] ∧
      Wiring g {x | x.1 < m} s' ∧ s'.pipefds.length = s.pipefds.length := by
  induction m with
  | zero =>
    have hL : {x : ℕ × End | x.1 < 0} = ∅ := by simp
    exact ⟨s,.done s,hL ▸ h,rfl⟩
  | succ m ih =>
    obtain ⟨s₁,ho₁,hw₁,hl₁⟩ := ih (by omega)
    obtain ⟨s₂,ha₂,hw₂,hl₂⟩ := hw₁.pipe segments (m:=m) (by omega) (by simp)
    have hL : {x : ℕ × End | x.1 < m} ∪ {x | x.1 = m} = {x | x.1 < m+1} := by
      ext x
      show x.1 < m ∨ x.1 = m ↔ x.1 < m+1
      omega
    rw [List.range_succ,List.map_append]
    exact ⟨s₂,ho₁.append (.one ha₂ rfl),hL ▸ hw₂,hl₂.trans hl₁⟩

theorem closePipes_outcome {sc : ℕ} (h : Wiring g {x | x.1 < sc} s) :
    ∃ s', Outcome (act segments) (spawn segments) s (closePipes sc) s' [] ∧
      ∀ fd, file s'.table fd = g fd := by
  have hloop : ∀ j, j ≤ sc → ∃ s', Outcome (act segments) (spawn segments) s (closePipes j) s' [] ∧
      Wiring g {x | j ≤ x.1 ∧ x.1 < sc} s' := by
    intro j hj
    induction j with
    | zero =>
      have hL : {x : ℕ × End | 0 ≤ x.1 ∧ x.1 < sc} = {x | x.1 < sc} := by simp
      exact ⟨s,.done s,hL ▸ h⟩
    | succ j ih =>
      obtain ⟨s₁,ho₁,hw₁⟩ := ih (by omega)
      obtain ⟨s₂,ha₂,hw₂,_⟩ := hw₁.close segments (k:=j) (e:=.read) ⟨le_refl _,hj⟩
      obtain ⟨s₃,ha₃,hw₃,_⟩ := hw₂.close segments (k:=j) (e:=.write) ⟨⟨le_refl _,hj⟩,by simp⟩
      have hL : ({x : ℕ × End | j ≤ x.1 ∧ x.1 < sc} \ {(j,.read)}) \ {(j,.write)} =
          {x | j+1 ≤ x.1 ∧ x.1 < sc} := by
        ext ⟨k,e⟩
        cases e <;> simp <;> omega
      have hclose : closePipes (j+1) = closePipes j ++ [.close j .read,.close j .write] := by
        simp [closePipes,List.range_succ]
      rw [hclose]
      exact ⟨s₃,ho₁.append (.call ha₂ rfl (.one ha₃ rfl)),hL ▸ hw₃⟩
  obtain ⟨s',ho,hw⟩ := hloop sc (le_refl _)
  refine ⟨s',ho,fun fd => hw.rest fd ?_⟩
  rintro k e ⟨h₁,h₂⟩
  omega

def inputFile (g : ℕ → Option (File α)) (i : ℕ) : ℕ → Option (File α) :=
  if i > 0 then Function.update g 0 (some (.pipe (i-1) .read)) else g

/-- What the descriptors of child `i` refer to in the end. -/
def childFile (g : ℕ → Option (File α)) (sc i : ℕ) : ℕ → Option (File α) :=
  if i < sc-1 then Function.update (inputFile g i) 1 (some (.pipe i .write)) else inputFile g i

theorem child_outcome (h : Wiring g {x | x.1 < segments.length} s) (h0 : g 0 ≠ none) (h1 : g 1 ≠ none)
    {i : ℕ} (hi : i < segments.length) :
    ∃ c, Outcome (act segments) (spawn segments) s (childCalls segments.length i) c [] ∧
      c.cmd = some segments[i] ∧ ∀ fd, file c.table fd = childFile g segments.length i fd := by
  obtain ⟨s₁,ho₁,hw₁⟩ : ∃ s', Outcome (act segments) (spawn segments) s
      (if i > 0 then [.dup2 (i-1) .read 0] else []) s' [] ∧
      Wiring (inputFile g i) {x | x.1 < segments.length} s' := by
    unfold inputFile
    split_ifs with hpos
    · obtain ⟨s',ha,hw,_⟩ := h.dup2 segments (k:=i-1) (e:=.read)
        (by show i-1 < segments.length; omega) h0
      exact ⟨s',.one ha rfl,hw⟩
    · exact ⟨s,.done s,h⟩
  have h1' : inputFile g i 1 ≠ none := by
    unfold inputFile
    split_ifs
    · rwa [Function.update_of_ne (by decide)]
    · exact h1
  obtain ⟨s₂,ho₂,hw₂⟩ : ∃ s', Outcome (act segments) (spawn segments) s₁
      (if i < segments.length-1 then [.dup2 i .write 1] else []) s' [] ∧
      Wiring (childFile g segments.length i) {x | x.1 < segments.length} s' := by
    unfold childFile
    split_ifs with hlt
    · obtain ⟨s',ha,hw,_⟩ := hw₁.dup2 segments (k:=i) (e:=.write) hi h1'
      exact ⟨s',.one ha rfl,hw⟩
    · exact ⟨s₁,.done s₁,hw₁⟩
  obtain ⟨s₃,ho₃,hf₃⟩ := closePipes_outcome segments hw₂
  have ha : act segments s₃ (.execute_cmd i) = some { s₃ with cmd := some segments[i] } := by
    simp [act,hi]
  exact ⟨_,((ho₁.append ho₂).append ho₃).append (.one ha rfl),rfl,hf₃⟩

def IsChild (segments : List CString) (g : ℕ → Option (File α)) (i : ℕ) (c : State α) : Prop :=
  c.cmd = segments[i]? ∧ ∀ fd, file c.table fd = childFile g segments.length i fd

theorem forks_outcome (h : Wiring g {x | x.1 < segments.length} s) (h0 : g 0 ≠ none) (h1 : g 1 ≠ none)
    (m : ℕ) (hm : m ≤ segments.length) :
    ∃ kids, Outcome (act segments) (spawn segments) s ((List.range m).map .fork) s kids ∧
      List.Forall₂ (IsChild segments g) (List.range m) kids := by
  induction m with
  | zero => exact ⟨[],.done s,.nil⟩
  | succ m ih =>
    obtain ⟨kids,ho,hkids⟩ := ih (by omega)
    obtain ⟨c,hc,hcmd,hfile⟩ := child_outcome segments h h0 h1 (by omega : m < segments.length)
    have hchild : IsChild segments g m c := ⟨by rw [hcmd,List.getElem?_eq_getElem],hfile⟩
    rw [List.range_succ,List.map_append]
    exact ⟨kids ++ [c],ho.append (.fork rfl rfl hc (.done s)),List.rel_append hkids (.cons hchild .nil)⟩

def shellFile (t : Table α) (fd : ℕ) : Option (File α) := (file t fd).map .file

theorem wiring_start (t : Table α) : Wiring (shellFile t) ∅ (start segments t) where
  ends _ _ h := h.elim
  rest fd _ := by
    show (t.map (Option.map File.file)).getD fd (Option.map File.file none) = _
    rw [List.getD_map]
    rfl

/-- The sequential execution of the shell and of every child. -/
theorem handleCmd_outcome {t : Table α} (h0 : file t 0 ≠ none) (h1 : file t 1 ≠ none) :
    ∃ f kids, Outcome (act segments) (spawn segments) (start segments t) (handleCmd segments) f kids ∧
      (∀ fd, file f.table fd = shellFile t fd) ∧
      List.Forall₂ (IsChild segments (shellFile t)) (List.range segments.length) kids := by
  have hl : (start segments t).pipefds.length = segments.length := List.length_replicate
  obtain ⟨s,ho₁,hw,_⟩ := pipes_outcome segments (wiring_start segments t) segments.length hl.ge
  obtain ⟨kids,ho₂,hkids⟩ := forks_outcome segments hw (by simpa [shellFile] using h0)
    (by simpa [shellFile] using h1) segments.length (le_refl _)
  obtain ⟨f,ho₃,hf⟩ := closePipes_outcome segments hw
  have ho := (ho₁.append ho₂).append ho₃
  rw [List.nil_append,List.append_nil] at ho
  exact ⟨f,kids,ho,hf,hkids⟩

/-- Descriptor `fd` of process `q` refers to an end of pipe `k`. Process 0 is the shell and
process `i+1` is child `i`. -/
def Refers (ps : List (Process (State α) Call)) (q fd k : ℕ) (e : End) : Prop :=
  ∃ p, ps[q]? = some p ∧ file p.state.table fd = some (.pipe k e)

/-- Who should have an end of pipe `k`, and on which descriptor. -/
def holder (k : ℕ) : End → ℕ × ℕ
  | .read => (k+2,0)
  | .write => (k+1,1)

theorem shellFile_ne (t : Table α) (fd k : ℕ) (e : End) : shellFile t fd ≠ some (.pipe k e) := by
  unfold shellFile
  cases file t fd <;> simp

theorem childFile_zero (g : ℕ → Option (File α)) (sc i : ℕ) :
    childFile g sc i 0 = if i = 0 then g 0 else some (.pipe (i-1) .read) := by
  by_cases hi : i = 0
  · subst hi
    by_cases h : 0 < sc-1 <;> simp [childFile,inputFile,h]
  · by_cases h : i < sc-1 <;> simp [childFile,inputFile,h,hi,Nat.pos_of_ne_zero hi]

theorem childFile_one (g : ℕ → Option (File α)) {sc i : ℕ} (hi : i < sc) :
    childFile g sc i 1 = if i+1 = sc then g 1 else some (.pipe i .write) := by
  have hin : inputFile g i 1 = g 1 := by
    unfold inputFile
    split_ifs <;> simp
  by_cases h : i+1 = sc
  · rw [childFile,if_neg (by omega),if_pos h,hin]
  · rw [childFile,if_pos (by omega),if_neg h,Function.update_self]

theorem childFile_other (g : ℕ → Option (File α)) (sc i : ℕ) {fd : ℕ} (h0 : fd ≠ 0) (h1 : fd ≠ 1) :
    childFile g sc i fd = g fd := by
  have hin : inputFile g i fd = g fd := by
    unfold inputFile
    split_ifs <;> simp [h0]
  unfold childFile
  split_ifs <;> simp [hin,h1]

theorem childFile_pipe (t : Table α) {sc i : ℕ} (hi : i < sc) (fd k : ℕ) (e : End) :
    childFile (shellFile t) sc i fd = some (.pipe k e) ↔ k+1 < sc ∧ (i+1,fd) = holder k e := by
  by_cases h0 : fd = 0
  · subst h0
    rw [childFile_zero]
    cases e <;> simp only [holder,Prod.mk.injEq] <;> split_ifs with h
    · simp only [shellFile_ne,false_iff]
      omega
    · simp only [Option.some.injEq,File.pipe.injEq,and_true]
      omega
    · simp [shellFile_ne]
    · simp
  · by_cases h1 : fd = 1
    · subst h1
      rw [childFile_one _ hi]
      cases e <;> simp only [holder,Prod.mk.injEq] <;> split_ifs with h
      · simp [shellFile_ne]
      · simp
      · simp only [shellFile_ne,false_iff]
        omega
      · simp only [Option.some.injEq,File.pipe.injEq,and_true]
        omega
    · rw [childFile_other _ _ _ h0 h1]
      cases e <;> simp [shellFile_ne,holder,h0,h1]

theorem after_states (segments : List CString) {t : Table α} (h0 : file t 0 ≠ none) (h1 : file t 1 ≠ none)
    (schedule : List ℕ) :
    ∃ ps, after segments t schedule = some ps ∧ ((∀ p ∈ ps, p.todo = []) →
      ∃ f kids, ps.map Process.state = f :: kids ∧ (∀ fd, file f.table fd = shellFile t fd) ∧
        List.Forall₂ (IsChild segments (shellFile t)) (List.range segments.length) kids) := by
  obtain ⟨f,kids,ho,hf,hkids⟩ := handleCmd_outcome segments h0 h1
  obtain ⟨ps,hps,hstates⟩ := ho.run schedule
  exact ⟨ps,hps,fun hdone => ⟨f,kids,hstates hdone,hf,hkids⟩⟩

theorem child_at {segments : List CString} {t : Table α} {ps : List (Process (State α) Call)} {f : State α}
    {kids : List (State α)} (hstates : ps.map Process.state = f :: kids)
    (hkids : List.Forall₂ (IsChild segments (shellFile t)) (List.range segments.length) kids)
    {i : ℕ} (hi : i < segments.length) :
    ∃ c, ps[i+1]? = some c ∧ IsChild segments (shellFile t) i c.state := by
  have hl : kids.length = segments.length := by rw [← hkids.length_eq,List.length_range]
  have hc := hkids.get (i:=i) (by simpa using hi) (by omega)
  have hat : (ps.map Process.state)[i+1]? = some kids[i] := by
    rw [hstates]
    simp [hl,hi]
  rw [List.getElem?_map] at hat
  obtain ⟨c,hps,hstate⟩ := Option.map_eq_some_iff.mp hat
  refine ⟨c,hps,?_⟩
  rw [hstate]
  simpa using hc

/-- In the end nobody but its holder refers to an end of a pipe, and the last pipe has none. -/
theorem refers_iff {segments : List CString} {t : Table α} {ps : List (Process (State α) Call)}
    {f : State α} {kids : List (State α)} (hstates : ps.map Process.state = f :: kids)
    (hf : ∀ fd, file f.table fd = shellFile t fd)
    (hkids : List.Forall₂ (IsChild segments (shellFile t)) (List.range segments.length) kids)
    (q fd k : ℕ) (e : End) :
    Refers ps q fd k e ↔ k+1 < segments.length ∧ (q,fd) = holder k e := by
  cases q with
  | zero =>
    have hno : ¬ Refers ps 0 fd k e := by
      rintro ⟨p,hp,hfile⟩
      have hp' : (ps.map Process.state)[0]? = some p.state := by rw [List.getElem?_map,hp,Option.map_some]
      rw [hstates] at hp'
      rw [← Option.some.inj hp',hf] at hfile
      exact shellFile_ne _ _ _ _ hfile
    cases e <;> simp [hno,holder]
  | succ i =>
    by_cases hi : i < segments.length
    · obtain ⟨c,hc,_,hfile⟩ := child_at hstates hkids hi
      rw [← childFile_pipe t hi,← hfile]
      constructor
      · rintro ⟨p,hp,hpf⟩
        rw [hc] at hp
        cases hp
        exact hpf
      · exact fun h => ⟨c,hc,h⟩
    · have hl : ps.length = segments.length+1 := by
        rw [← List.length_map Process.state,hstates,List.length_cons,← hkids.length_eq,List.length_range]
      have hno : ¬ Refers ps (i+1) fd k e := by
        rintro ⟨p,hp,_⟩
        rw [List.getElem?_eq_none (by omega)] at hp
        cases hp
      cases e <;> simp only [hno,holder,Prod.mk.injEq,false_iff] <;> omega

/-- With 0 and 1 open in the shell, no call fails under any schedule, and once the shell has
closed its ends and every child calls `execute_cmd` the pipeline is wired. The last pipe made
is not used. -/
theorem handleCmd_wired (segments : List CString) (t : Table α) (h0 : file t 0 ≠ none)
    (h1 : file t 1 ≠ none) (schedule : List ℕ) :
    ∃ ps, after segments t schedule = some ps ∧ ((∀ p ∈ ps, p.todo = []) →
      ps.length = segments.length+1 ∧
      (∀ i (hi : i < segments.length), ∃ c, ps[i+1]? = some c ∧ c.state.cmd = some segments[i] ∧
        file c.state.table 0 = (if i = 0 then (file t 0).map .file else some (.pipe (i-1) .read)) ∧
        file c.state.table 1 =
          if i+1 = segments.length then (file t 1).map .file else some (.pipe i .write)) ∧
      (∀ q fd k e, Refers ps q fd k e ↔ k+1 < segments.length ∧ (q,fd) = holder k e) ∧
      (∀ k e, k+1 < segments.length → ∃! h : ℕ × ℕ, Refers ps h.1 h.2 k e) ∧
      ∀ q fd k e, k+1 = segments.length → ¬ Refers ps q fd k e) := by
  obtain ⟨ps,hps,hend⟩ := after_states segments h0 h1 schedule
  refine ⟨ps,hps,fun hdone => ?_⟩
  obtain ⟨f,kids,hstates,hf,hkids⟩ := hend hdone
  have hrefers := refers_iff hstates hf hkids
  refine ⟨?_,?_,hrefers,?_,?_⟩
  · rw [← List.length_map Process.state,hstates,List.length_cons,← hkids.length_eq,List.length_range]
  · intro i hi
    obtain ⟨c,hc,hcmd,hfile⟩ := child_at hstates hkids hi
    refine ⟨c,hc,by rw [hcmd,List.getElem?_eq_getElem],?_,?_⟩
    · rw [hfile,childFile_zero,shellFile]
    · rw [hfile,childFile_one _ hi,shellFile]
  · intro k e hk
    exact ⟨holder k e,(hrefers _ _ k e).mpr ⟨hk,rfl⟩,fun h hh => ((hrefers _ _ k e).mp hh).2⟩
  · intro q fd k e hk h
    have hlt := ((hrefers q fd k e).mp h).1
    omega

/-- `ls | wc`, with the children started while the shell goes on. -/
theorem handleCmd_wired_two :
    ∃ ps : List (Process (State Unit) Call),
      after [⟨[108,115],by decide⟩,⟨[119,99],by decide⟩] [some (),some (),some ()]
        [0,0,0,1,1,0,2,0,1,0,2,2,0,1,1,0,2,1,2,2] = some ps ∧ ps.length = 3 ∧
      ∃! h : ℕ × ℕ, Refers ps h.1 h.2 0 .write := by
  obtain ⟨ps,hps,hend⟩ := handleCmd_wired [⟨[108,115],by decide⟩,⟨[119,99],by decide⟩]
    [some (),some (),some ()] (by decide) (by decide) [0,0,0,1,1,0,2,0,1,0,2,2,0,1,1,0,2,1,2,2]
  have hall : (after [⟨[108,115],by decide⟩,⟨[119,99],by decide⟩] [some (),some (),some ()]
      [0,0,0,1,1,0,2,0,1,0,2,2,0,1,1,0,2,1,2,2]).map (fun ps => ps.all (·.todo.isEmpty)) = some true := by
    rfl
  rw [hps] at hall
  obtain ⟨hlen,_,_,hone,_⟩ := hend (by simpa using hall)
  exact ⟨ps,hps,hlen,hone 0 .write (by decide)⟩

/-- Nobody holds the write end of the only pipe of a single command. -/
theorem unused_pipe :
    ¬ ∀ (segments : List CString) (t : Table Unit),
      1 ≤ segments.length → file t 0 ≠ none → file t 1 ≠ none →
      file t 2 ≠ none → ∀ schedule ps, after segments t schedule = some ps → (∀ p ∈ ps, p.todo = []) →
        ∀ k < segments.length, ∃! h : ℕ × ℕ, Refers ps h.1 h.2 k .write := by
  intro h
  obtain ⟨ps,hps,hend⟩ := after_states [⟨[108,115],by decide⟩] (t:=[some (),some (),some ()])
    (by decide) (by decide) [0,0,0,0,1,1,1]
  have hall : (after [⟨[108,115],by decide⟩] [some (),some (),some ()] [0,0,0,0,1,1,1]).map
      (fun ps => ps.all (·.todo.isEmpty)) = some true := by rfl
  rw [hps] at hall
  have hdone : ∀ p ∈ ps, p.todo = [] := by simpa using hall
  obtain ⟨f,kids,hstates,hf,hkids⟩ := hend hdone
  obtain ⟨x,hx,_⟩ := h [⟨[108,115],by decide⟩] [some (),some (),some ()] (by decide) (by decide) (by decide)
    (by decide) _ ps hps hdone 0 (by decide)
  have hlt := ((refers_iff hstates hf hkids x.1 x.2 0 .write).mp hx).1
  exact absurd hlt (by decide)

end ShellPipes
end CodingChallenges
