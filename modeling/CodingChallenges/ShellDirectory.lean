import Mathlib.Logic.Function.Basic
import CodingChallenges.CMemory

/-! The shell's `cd` and the variables it keeps. What `chdir` and `getcwd` do is a parameter:
from any directory the path of another leads to it, and every path fits the buffer. -/
namespace CodingChallenges
namespace ShellDirectory

open CText CMemory

/-- The directories as `chdir` and `getcwd` show them. -/
structure FileSystem (Dir : Type) where
  chdir : Dir → CString → Option Dir
  path : Dir → CString
  leadsBack : ∀ d e, chdir d (path e) = some e
  short : ∀ d, (path d).length < 1000

variable {Dir : Type}

/-- `getcwd(cwd, size)`: NULL where the path and its terminator do not fit. -/
def FileSystem.getcwd (fs : FileSystem Dir) (d : Dir) (size : ℕ) : Option CString :=
  if (fs.path d).length < size then some (fs.path d) else none

structure Shell (Dir : Type) where
  cwd : Dir
  env : CString → Option CString

def Shell.getenv (s : Shell Dir) (name : CString) : Option CString := s.env name

def Shell.setenv (s : Shell Dir) (name value : CString) : Shell Dir :=
  { s with env := Function.update s.env name (some value) }

def HOME : CString := lit "HOME"
def OLDPWD : CString := lit "OLDPWD"
def PWD : CString := lit "PWD"

variable (fs : FileSystem Dir)

/-- `cd`: the value it returns, and the shell. `chdir(NULL)` fails. -/
def cd (tdir : Option CString) (s : Shell Dir) : Except Fault (ℕ × Shell Dir) :=
  let tdir := if tdir = none ∨ tdir = some (lit "~") then s.getenv HOME else tdir
  match tdir with
  | none => .error .nullPointer
  | some t =>
    let tdir := if t = lit "-" then s.getenv OLDPWD else some t
    match fs.getcwd s.cwd 1000 with
    | none => .ok (1,s)
    | some cwd =>
      match tdir.bind (fs.chdir s.cwd) with
      | none => .ok (1,s)
      | some d =>
        let s := Shell.setenv { s with cwd := d } OLDPWD cwd
        match fs.getcwd s.cwd 1000 with
        | some cwd => .ok (0,s.setenv PWD cwd)
        | none => .ok (0,s)

theorem getcwd_eq (d : Dir) : fs.getcwd d 1000 = some (fs.path d) := if_pos (fs.short d)

def moved (s : Shell Dir) (d : Dir) : Shell Dir :=
  (Shell.setenv { s with cwd := d } OLDPWD (fs.path s.cwd)).setenv PWD (fs.path d)

@[simp] theorem moved_cwd (s : Shell Dir) (d : Dir) : (moved fs s d).cwd = d := rfl

@[simp] theorem moved_pwd (s : Shell Dir) (d : Dir) : (moved fs s d).env PWD = some (fs.path d) := by
  simp [moved,Shell.setenv]

@[simp] theorem moved_oldpwd (s : Shell Dir) (d : Dir) :
    (moved fs s d).env OLDPWD = some (fs.path s.cwd) := by
  have hne : OLDPWD ≠ PWD := by decide
  simp [moved,Shell.setenv,Function.update_of_ne hne]

@[simp] theorem moved_home (s : Shell Dir) (d : Dir) : (moved fs s d).env HOME = s.env HOME := by
  have h₁ : HOME ≠ PWD := by decide
  have h₂ : HOME ≠ OLDPWD := by decide
  simp [moved,Shell.setenv,Function.update_of_ne h₁,Function.update_of_ne h₂]

/-- A call fails and changes nothing, or goes somewhere. -/
theorem cd_cases {s : Shell Dir} (hs : (s.env HOME).isSome = true) (tdir : Option CString) :
    cd fs tdir s = .ok (1,s) ∨ ∃ d, cd fs tdir s = .ok (0,moved fs s d) := by
  obtain ⟨home,hhome⟩ := Option.isSome_iff_exists.mp hs
  obtain ⟨t,ht⟩ : ∃ t, (if tdir = none ∨ tdir = some (lit "~") then s.getenv HOME else tdir) = some t := by
    split_ifs with h
    · exact ⟨home,hhome⟩
    · exact Option.ne_none_iff_exists'.mp fun hn => h (Or.inl hn)
  simp only [cd,ht,getcwd_eq]
  cases (if t = lit "-" then s.getenv OLDPWD else some t).bind (fs.chdir s.cwd) with
  | none => exact Or.inl rfl
  | some d => exact Or.inr ⟨d,rfl⟩

theorem cd_dash {s : Shell Dir} {d : Dir} (h : s.env OLDPWD = some (fs.path d)) :
    cd fs (some (lit "-")) s = .ok (0,moved fs s d) := by
  have hdash : ¬ (some (lit "-") = none ∨ some (lit "-") = some (lit "~")) := by decide
  simp only [cd,if_neg hdash,getcwd_eq]
  simp [Shell.getenv,h,fs.leadsBack,moved,Shell.setenv]

/-- A call, and beside the shell the directory just before the last call that succeeded. -/
def track (q : Shell Dir × Option Dir) (tdir : Option CString) : Except Fault (Shell Dir × Option Dir) := do
  let r ← cd fs tdir q.1
  .ok (r.2,if r.1 = 0 then some q.1.cwd else q.2)

/-- What holds after any calls. -/
structure Kept (q : Shell Dir × Option Dir) : Prop where
  home : (q.1.env HOME).isSome = true
  recorded : ∀ d, q.2 = some d →
    q.1.env PWD = some (fs.path q.1.cwd) ∧ q.1.env OLDPWD = some (fs.path d)
  failure : ∀ tdir code s, cd fs tdir q.1 = .ok (code,s) → code ≠ 0 →
    s.cwd = q.1.cwd ∧ s.env PWD = q.1.env PWD ∧ s.env OLDPWD = q.1.env OLDPWD
  toggle : q.2.isSome = true → ∃ s₁ s₂, cd fs (some (lit "-")) q.1 = .ok (0,s₁) ∧
    cd fs (some (lit "-")) s₁ = .ok (0,s₂) ∧
    s₂.cwd = q.1.cwd ∧ s₂.env PWD = q.1.env PWD ∧ s₂.env OLDPWD = q.1.env OLDPWD

theorem kept_of_recorded {q : Shell Dir × Option Dir} (hs : (q.1.env HOME).isSome = true)
    (hv : ∀ d, q.2 = some d → q.1.env PWD = some (fs.path q.1.cwd) ∧ q.1.env OLDPWD = some (fs.path d)) :
    Kept fs q where
  home := hs
  recorded := hv
  failure := by
    intro tdir code s h hcode
    rcases cd_cases fs hs tdir with hc | ⟨d,hc⟩
    · obtain ⟨_,rfl⟩ := Prod.mk.inj (Except.ok.inj (hc.symm.trans h))
      exact ⟨rfl,rfl,rfl⟩
    · exact (hcode (Prod.mk.inj (Except.ok.inj (hc.symm.trans h))).1.symm).elim
  toggle := by
    intro hsome
    obtain ⟨d,hd⟩ := Option.isSome_iff_exists.mp hsome
    obtain ⟨hpwd,hold⟩ := hv d hd
    refine ⟨_,_,cd_dash fs hold,cd_dash fs (moved_oldpwd fs q.1 d),rfl,?_,?_⟩
    · rw [moved_pwd,hpwd]
    · rw [moved_oldpwd,moved_cwd,hold]

theorem track_kept {q : Shell Dir × Option Dir} (hq : Kept fs q) (tdir : Option CString) :
    ∃ q', track fs q tdir = .ok q' ∧ Kept fs q' := by
  rcases cd_cases fs hq.home tdir with hc | ⟨d,hc⟩
  · have ht : track fs q tdir = .ok q := bind_eq_ok.mpr ⟨_,hc,rfl⟩
    exact ⟨q,ht,hq⟩
  · have ht : track fs q tdir = .ok (moved fs q.1 d,some q.1.cwd) := bind_eq_ok.mpr ⟨_,hc,rfl⟩
    refine ⟨_,ht,kept_of_recorded fs ?_ ?_⟩
    · rw [moved_home]
      exact hq.home
    · intro e he
      obtain rfl := Option.some.inj he
      exact ⟨moved_pwd fs q.1 d,moved_oldpwd fs q.1 d⟩

/-- Any calls in any order keep the current directory and the variables in step. -/
theorem cd_kept {s : Shell Dir} (hs : (s.env HOME).isSome = true) (targets : List (Option CString)) :
    ∃ q, targets.foldlM (track fs) (s,none) = .ok q ∧ Kept fs q := by
  have hrun (q : Shell Dir × Option Dir) (hq : Kept fs q) :
      ∃ q', targets.foldlM (track fs) q = .ok q' ∧ Kept fs q' := by
    induction targets generalizing q with
    | nil => exact ⟨q,rfl,hq⟩
    | cons t ts ih =>
      obtain ⟨q₁,h₁,hq₁⟩ := track_kept fs hq t
      obtain ⟨q₂,h₂,hq₂⟩ := ih q₁ hq₁
      exact ⟨q₂,bind_eq_ok.mpr ⟨q₁,h₁,h₂⟩,hq₂⟩
  exact hrun _ (kept_of_recorded fs hs fun d hd => by cases hd)

def twoDirectories : FileSystem Bool where
  chdir _ t := if t = lit "/" then some true else if t = lit "/tmp" then some false else none
  path d := if d then lit "/" else lit "/tmp"
  leadsBack := by decide
  short := by decide

def atRoot : Shell Bool := ⟨true,fun name => if name = HOME then some (lit "/") else none⟩

theorem cd_kept_tmp :
    (atRoot.env HOME).isSome = true ∧
      ∃ q, [some (lit "/tmp"),none,some (lit "/none")].foldlM (track twoDirectories) (atRoot,none) = .ok q ∧
        Kept twoDirectories q :=
  ⟨by decide,cd_kept twoDirectories (by decide) _⟩

end ShellDirectory
end CodingChallenges
