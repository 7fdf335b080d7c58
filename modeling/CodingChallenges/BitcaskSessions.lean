import CodingChallenges.BitcaskFile
import CodingChallenges.BitcaskLog

/-! Sessions of the Bitcask log: `bitcask_open`, calls of `bitcask_append`, `bitcask_close`.
Opening looks for the numbered file to go on with. The descriptor is open for appending, so
it is modelled by the path it was opened under. -/
namespace CodingChallenges
namespace BitcaskSessions

open CText CMemory BitcaskFile BitcaskLog Runs

/-- `_get_cask_path`: `snprintf` cuts the path to its buffer. -/
def getCaskPath (dir : CString) (caskNum : ℕ) : Option CString :=
  (getPath dir).map fun path => (path ++ lit "/cask." ++ natText caskNum).take 1023

/-- The loop of `bitcask_open` over the numbers below `n`, from the top. -/
def findActive (files : Files) (dir : CString) : ℕ → ℕ
  | 0 => 0
  | n+1 =>
    match getCaskPath dir n with
    | none => findActive files dir n
    | some path => if (files path).isSome then n else findActive files dir n

structure Bitcask where
  dir : CString
  threshold : ℕ
  activeFd : CString
  activeFileId : ℕ

/-- What the system answers to a session: whether `open` and `calloc` succeed, and to each call. -/
structure Session where
  threshold : ℕ
  opened : Bool
  allocated : Bool
  calls : List Call

def create (files : Files) (path : CString) : Files :=
  if (files path).isSome then files else Function.update files path (some [])

def bitcaskOpen (files : Files) (dir : CString) (s : Session) : Files × Option Bitcask :=
  let active_file_id := findActive files dir 101
  match getCaskPath dir active_file_id with
  | none => (files,none)
  | some path =>
    if ¬ s.opened then (files,none)
    else if ¬ s.allocated then (create files path,none)
    else (create files path,some ⟨dir,s.threshold,path,active_file_id⟩)

def append (cask : Bitcask) (files : Files) (c : Call) : Except Fault (Files × Option ℕ) := do
  let r ← bitcaskAppend ((files cask.activeFd).getD []) c
  .ok (Function.update files cask.activeFd (some r.1),r.2)

/-- Open, append, close; what the calls returned, `none` when there was no handle. -/
def session (dir : CString) (files : Files) (s : Session) :
    Except Fault (Files × Option (List (Option ℕ))) :=
  match bitcaskOpen files dir s with
  | (files,none) => .ok (files,none)
  | (files,some cask) => do
    let r ← run (append cask) files s.calls
    .ok (r.1,some r.2)

theorem findActive_above (files : Files) (dir : CString) {n i : ℕ} {path : CString}
    (hi : findActive files dir n < i) (hn : i < n) (hp : getCaskPath dir i = some path) : files path = none := by
  induction n with
  | zero => omega
  | succ n ih =>
    by_cases he : findActive files dir (n+1) = findActive files dir n
    · rw [he] at hi
      by_cases hin : i = n
      · subst hin
        by_contra hf
        have hs : (files path).isSome := Option.isSome_iff_ne_none.mpr hf
        have hnow : findActive files dir (i+1) = i := by simp only [findActive,hp,hs,if_true]
        omega
      · exact ih hi (by omega)
    · have hnow : findActive files dir (n+1) = n := by
        simp only [findActive] at he ⊢
        cases hq : getCaskPath dir n with
        | none => simp [hq] at he
        | some q =>
          simp only [hq] at he ⊢
          split_ifs at he ⊢ with hs
          · rfl
          · contradiction
      omega

theorem findActive_exists (files : Files) (dir : CString) (n : ℕ) :
    findActive files dir n = 0 ∨ findActive files dir n < n ∧
      ∃ path, getCaskPath dir (findActive files dir n) = some path ∧ (files path).isSome := by
  induction n with
  | zero => exact .inl rfl
  | succ n ih =>
    have hkeep (he : findActive files dir (n+1) = findActive files dir n) :
        findActive files dir (n+1) = 0 ∨ findActive files dir (n+1) < n+1 ∧
          ∃ path, getCaskPath dir (findActive files dir (n+1)) = some path ∧ (files path).isSome := by
      rw [he]
      exact ih.imp_right fun h => ⟨by omega,h.2⟩
    cases hp : getCaskPath dir n with
    | none => exact hkeep (by simp only [findActive,hp])
    | some path =>
      by_cases hs : (files path).isSome = true
      · have he : findActive files dir (n+1) = n := by simp only [findActive,hp,hs,if_true]
        rw [he]
        exact .inr ⟨by omega,path,hp,hs⟩
      · exact hkeep (by simp only [findActive,hp,if_neg hs])

/-- The path `bitcask_open` opens. -/
def activePath (files : Files) (dir : CString) : Option CString :=
  getCaskPath dir (findActive files dir 101)

/-- As long as the active file stays and no other file is made, it is the active file again: a
file with a higher number can only be the same one, when the paths are cut at the same byte. -/
theorem activePath_again {files files' : Files} {dir path : CString} (h : activePath files dir = some path)
    (hsame : ∀ q, q ≠ path → files' q = files q) (hkept : (files path).isSome → (files' path).isSome) :
    activePath files' dir = some path := by
  have hold := findActive_exists files dir 101
  have hnew := findActive_exists files' dir 101
  rcases lt_trichotomy (findActive files' dir 101) (findActive files dir 101) with hlt | he | hgt
  · obtain ⟨hbound,q,hq,hs⟩ := hold.resolve_left (by omega)
    obtain rfl := Option.some.inj (h.symm.trans hq)
    have hnone := findActive_above files' dir hlt hbound hq
    rw [hnone] at hkept
    exact absurd (hkept hs) (by simp)
  · rw [activePath,he]
    exact h
  · obtain ⟨hbound,q,hq,hs⟩ := hnew.resolve_left (by omega)
    by_cases hqp : q = path
    · rw [activePath,hq,hqp]
    · have hnone := findActive_above files dir hgt hbound hq
      rw [hsame q hqp,hnone] at hs
      cases hs

/-- The calls that are made in a session. -/
def Session.made (s : Session) : List Call := if s.opened && s.allocated then s.calls else []

theorem run_append (cask : Bitcask) (files : Files) (calls : List Call) :
    ∃ files', run (append cask) files calls = .ok (files',positions ((files cask.activeFd).getD []).length calls) ∧
      (files' cask.activeFd).getD [] = (files cask.activeFd).getD [] ++ calls.flatMap Call.added ∧
      (∀ q, q ≠ cask.activeFd → files' q = files q) ∧
      ((files cask.activeFd).isSome → (files' cask.activeFd).isSome) := by
  induction calls generalizing files with
  | nil => exact ⟨files,rfl,by simp,fun _ _ => rfl,id⟩
  | cons c cs ih =>
    obtain ⟨files',hr,htext,hother,hkept⟩ := ih (Function.update files cask.activeFd
      (some ((files cask.activeFd).getD [] ++ c.added)))
    have hstep : append cask files c = .ok (Function.update files cask.activeFd
        (some ((files cask.activeFd).getD [] ++ c.added)),c.position ((files cask.activeFd).getD []).length) := by
      have hc : bitcaskAppend ((files cask.activeFd).getD []) c =
          .ok ((files cask.activeFd).getD [] ++ c.added,c.position ((files cask.activeFd).getD []).length) :=
        bitcaskAppend_eq _ c
      simp only [append,hc,bind,Except.bind]
    simp only [Function.update_self,Option.getD_some,List.length_append,Option.isSome_some,
      forall_const] at hr htext hkept
    refine ⟨files',?_,?_,fun q hq => ?_,fun _ => hkept⟩
    · rw [run_cons hstep hr,positions]
    · rw [htext,List.flatMap_cons,List.append_assoc]
    · rw [hother q hq,Function.update_of_ne hq]

/-- A session adds what its calls add to the active file, and touches no other. -/
theorem session_eq {files : Files} {dir path : CString} (h : activePath files dir = some path) (s : Session) :
    ∃ files', session dir files s = .ok (files',
        if s.opened && s.allocated then some (positions ((files path).getD []).length s.calls) else none) ∧
      (files' path).getD [] = (files path).getD [] ++ s.made.flatMap Call.added ∧
      (∀ q, q ≠ path → files' q = files q) ∧ activePath files' dir = some path := by
  have hcreate : (create files path path).getD [] = (files path).getD [] ∧
      (create files path path).isSome ∧ ∀ q, q ≠ path → create files path q = files q := by
    unfold create
    split_ifs with hs
    · exact ⟨rfl,hs,fun _ _ => rfl⟩
    · have hn : files path = none := by simpa using hs
      exact ⟨by simp [hn],by simp,fun q hq => Function.update_of_ne hq _ _⟩
  have hagain {files' : Files} (hsame : ∀ q, q ≠ path → files' q = files q)
      (hkept : (files path).isSome → (files' path).isSome) := activePath_again h hsame hkept
  have h' : getCaskPath dir (findActive files dir 101) = some path := h
  cases ho : s.opened with
  | false =>
    refine ⟨files,?_,by simp [Session.made,ho],fun _ _ => rfl,h⟩
    simp [session,bitcaskOpen,h',ho]
  | true =>
    cases ha : s.allocated with
    | false =>
      refine ⟨create files path,?_,by simp [Session.made,ha,hcreate.1],hcreate.2.2,
        hagain hcreate.2.2 fun _ => hcreate.2.1⟩
      simp [session,bitcaskOpen,h',ho,ha]
    | true =>
      obtain ⟨files',hr,htext,hother,hkept⟩ := run_append ⟨dir,s.threshold,path,findActive files dir 101⟩
        (create files path) s.calls
      simp only [hcreate.1] at hr htext
      have hsame : ∀ q, q ≠ path → files' q = files q := fun q hq => (hother q hq).trans (hcreate.2.2 q hq)
      refine ⟨files',?_,?_,hsame,hagain hsame fun _ => hkept hcreate.2.1⟩
      · simp [session,bitcaskOpen,h',ho,ha,hr,bind,Except.bind]
      · simp [Session.made,ho,ha,htext]

def returned (outs : List (Option (List (Option ℕ)))) : List (Option ℕ) := outs.flatMap fun o => o.getD []

theorem positions_append (n : ℕ) (as bs : List Call) :
    positions n (as ++ bs) = positions n as ++ positions (n+(as.flatMap Call.added).length) bs := by
  induction as generalizing n with
  | nil => rfl
  | cons c as ih => simp [positions,ih,Nat.add_assoc]

theorem run_session {files : Files} {dir path : CString} (h : activePath files dir = some path)
    (ss : List Session) :
    ∃ files' outs, run (session dir) files ss = .ok (files',outs) ∧ (∀ q, q ≠ path → files' q = files q) ∧
      (files' path).getD [] = (files path).getD [] ++ (ss.flatMap Session.made).flatMap Call.added ∧
      returned outs = positions ((files path).getD []).length (ss.flatMap Session.made) := by
  induction ss generalizing files with
  | nil => exact ⟨files,[],rfl,fun _ _ => rfl,by simp,rfl⟩
  | cons s ss ih =>
    obtain ⟨files₁,hs,htext,hother,hagain⟩ := session_eq h s
    obtain ⟨files',outs,hr,hother',htext',hout⟩ := ih hagain
    refine ⟨files',_,run_cons hs hr,fun q hq => (hother' q hq).trans (hother q hq),?_,?_⟩
    · simp [htext',htext]
    · have hmade : (if s.opened && s.allocated then some (positions ((files path).getD []).length s.calls)
          else none).getD [] = positions ((files path).getD []).length s.made := by
        unfold Session.made
        split_ifs <;> rfl
      rw [returned,List.flatMap_cons,hmade,← returned,hout,htext,List.flatMap_cons,positions_append,
        List.length_append]

/-- Any sessions on a directory are one run of one writer on one file: the same file is opened
every time, the calls made in all of them add to it and return positions as that run does, no
other file is touched, and in the end the bytes at every position returned are the value. -/
theorem sessions_are_one_run {files : Files} {dir path : CString} (h : activePath files dir = some path)
    (ss : List Session) :
    ∃ files' outs, run (session dir) files ss = .ok (files',outs) ∧ (∀ q, q ≠ path → files' q = files q) ∧
      run bitcaskAppend ((files path).getD []) (ss.flatMap Session.made) =
        .ok ((files' path).getD [],returned outs) ∧
      ∀ (i : ℕ) (c : Call) (p : ℕ), (ss.flatMap Session.made)[i]? = some c →
        (returned outs)[i]? = some (some p) →
        (((files' path).getD []).drop p).take c.value.length = c.value.bytes := by
  obtain ⟨files',outs,hr,hother,htext,hout⟩ := run_session h ss
  refine ⟨files',outs,hr,hother,?_,fun i c p hc hp => ?_⟩
  · rw [htext,hout,run_bitcaskAppend]
  · rw [hout] at hp
    rw [htext]
    exact positions_valid _ _ hc hp

/-- A full session, one that is refused memory, and another one, on a directory that has a file
with a higher number. -/
theorem sessions_are_one_run_numbered : ∃ files' outs,
    run (session (lit "./db")) (Function.update (fun _ => none) (lit "./db/cask.7") (some (ascii "old")))
      [⟨100,true,true,[sampleCall "a" "b" [some 22]]⟩,⟨100,true,false,[]⟩,
        ⟨1,true,true,[sampleCall "c" "d" [some 9,some 100]]⟩] = .ok (files',outs) ∧
      returned outs = [some 24,some 46] ∧ files' (lit "./db/cask.0") = none ∧
      (((files' (lit "./db/cask.7")).getD []).drop 46).take 1 = ascii "d" := by
  obtain ⟨files',outs,hr,hother,hrun,hvalue⟩ := @sessions_are_one_run
    (Function.update (fun _ => none) (lit "./db/cask.7") (some (ascii "old"))) (lit "./db")
    (lit "./db/cask.7") (by decide +kernel)
    [⟨100,true,true,[sampleCall "a" "b" [some 22]]⟩,⟨100,true,false,[]⟩,
      ⟨1,true,true,[sampleCall "c" "d" [some 9,some 100]]⟩]
  have hret : returned outs = [some 24,some 46] := by
    rw [run_bitcaskAppend] at hrun
    rw [← (Prod.mk.inj (Except.ok.inj hrun)).2]
    decide +kernel
  refine ⟨files',outs,hr,hret,(hother _ (by decide)).trans (by decide),?_⟩
  exact hvalue 1 (sampleCall "c" "d" [some 9,some 100]) 46 rfl (by rw [hret]; rfl)

end BitcaskSessions
end CodingChallenges
