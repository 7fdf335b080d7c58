import CodingChallenges.Runs
import Mathlib.Data.Fintype.BigOperators

/-! Threads that take and give back locks, in any interleaving.
A thread is the list of instructions it still has to perform. A discipline says which locks may
be taken under which, and which must be held for work on the shared data. From it follow mutual
exclusion, what a stuck system looks like, and that locks taken in one order leave none stuck. -/
namespace CodingChallenges
namespace LockPrograms

open Runs

variable {ι L A S ω : Type}

inductive Instr (L A : Type)
  | lock (l : L)
  | unlock (l : L)
  | act (a : A)

structure State (ι L A S : Type) where
  rest : ι → List (Instr L A)
  owner : L → Option ι
  shared : S

inductive Halt
  | finished | blocked | notOwner

def start (program : ι → List (Instr L A)) (shared : S) : State ι L A S := ⟨program,fun _ => none,shared⟩

def Finished (s : State ι L A S) : Prop := ∀ i, s.rest i = []

variable [DecidableEq L] (may : L → L → Prop) (needs : A → L → Prop)

/-- With these locks held, the program takes a lock only under locks it may be taken under, gives
back what it holds, works on the data under the locks that needs, and ends with none. -/
def Disciplined : List L → List (Instr L A) → Prop
  | held, [] => held = []
  | held, .lock l :: p => (∀ h ∈ held, may h l) ∧ Disciplined (l :: held) p
  | held, .unlock l :: p => l ∈ held ∧ Disciplined (held.filter (· ≠ l)) p
  | held, .act a :: p => (∀ l, needs a l → l ∈ held) ∧ Disciplined held p

/-- Every thread keeps the discipline, and owns what it holds. -/
structure Orderly (s : State ι L A S) (held : ι → List L) : Prop where
  disciplined : ∀ i, Disciplined may needs (held i) (s.rest i)
  owned : ∀ i l, s.owner l = some i ↔ l ∈ held i

variable {may needs} {s s' : State ι L A S} {i j : ι} {o : Option ω} {held : ι → List L}

theorem orderly_start {program : ι → List (Instr L A)} (h : ∀ i, Disciplined may needs [] (program i))
    (shared : S) : Orderly may needs (start program shared) fun _ => [] := ⟨h,by simp [start]⟩

theorem Orderly.exclusive (h : Orderly may needs s held) {a b : A} {p q : List (Instr L A)}
    (hi : s.rest i = .act a :: p) (hj : s.rest j = .act b :: q) {l : L} (ha : needs a l) (hb : needs b l) :
    i = j := by
  have hdi := h.disciplined i
  have hdj := h.disciplined j
  rw [hi] at hdi
  rw [hj] at hdj
  have howner := (h.owned i l).mpr (hdi.1 l ha)
  rw [(h.owned j l).mpr (hdj.1 l hb)] at howner
  exact (Option.some.inj howner).symm

variable [DecidableEq ι]

section

variable (effect : ι → A → S → S × Option ω)

def step (s : State ι L A S) (i : ι) : Except Halt (State ι L A S × Option ω) :=
  match s.rest i with
  | [] => .error .finished
  | .lock l :: p =>
    match s.owner l with
    | some _ => .error .blocked
    | none => .ok (⟨Function.update s.rest i p,Function.update s.owner l (some i),s.shared⟩,none)
  | .unlock l :: p =>
    if s.owner l = some i then
      .ok (⟨Function.update s.rest i p,Function.update s.owner l none,s.shared⟩,none)
    else .error .notOwner
  | .act a :: p =>
    .ok (⟨Function.update s.rest i p,s.owner,(effect i a s.shared).1⟩,(effect i a s.shared).2)

def Stuck (s : State ι L A S) : Prop := ∀ i, ∃ e, step effect s i = .error e

end

variable {effect : ι → A → S → S × Option ω}

/-- What a step can do. -/
theorem step_cases (h : step effect s i = .ok (s',o)) :
    (∃ l p, s.rest i = .lock l :: p ∧ s.owner l = none ∧ o = none ∧
      s' = ⟨Function.update s.rest i p,Function.update s.owner l (some i),s.shared⟩) ∨
    (∃ l p, s.rest i = .unlock l :: p ∧ s.owner l = some i ∧ o = none ∧
      s' = ⟨Function.update s.rest i p,Function.update s.owner l none,s.shared⟩) ∨
    ∃ a p, s.rest i = .act a :: p ∧ o = (effect i a s.shared).2 ∧
      s' = ⟨Function.update s.rest i p,s.owner,(effect i a s.shared).1⟩ := by
  cases hr : s.rest i with
  | nil => simp [step,hr] at h
  | cons instr p =>
    cases instr with
    | lock l =>
      cases ho : s.owner l with
      | some j => simp [step,hr,ho] at h
      | none =>
        simp only [step,hr,ho,Except.ok.injEq,Prod.mk.injEq] at h
        exact Or.inl ⟨l,p,rfl,ho,h.2.symm,h.1.symm⟩
    | unlock l =>
      simp only [step,hr] at h
      split_ifs at h with ho
      simp only [Except.ok.injEq,Prod.mk.injEq] at h
      exact Or.inr (Or.inl ⟨l,p,rfl,ho,h.2.symm,h.1.symm⟩)
    | act a =>
      simp only [step,hr,Except.ok.injEq,Prod.mk.injEq] at h
      exact Or.inr (Or.inr ⟨a,p,rfl,h.2.symm,h.1.symm⟩)

theorem step_rest (h : step effect s i = .ok (s',o)) :
    ∃ instr p, s.rest i = instr :: p ∧ s'.rest = Function.update s.rest i p := by
  rcases step_cases h with ⟨l,p,hr,-,-,rfl⟩ | ⟨l,p,hr,-,-,rfl⟩ | ⟨a,p,hr,-,rfl⟩
  · exact ⟨_,p,hr,rfl⟩
  · exact ⟨_,p,hr,rfl⟩
  · exact ⟨_,p,hr,rfl⟩

/-- The discipline of the thread that stepped and of the others. -/
theorem disciplined_update (h : ∀ j, Disciplined may needs (held j) (s.rest j)) {ls : List L}
    {p : List (Instr L A)} (hi : Disciplined may needs ls p) (j : ι) :
    Disciplined may needs (Function.update held i ls j) (Function.update s.rest i p j) := by
  by_cases hj : j = i
  · subst hj
    simpa using hi
  · simpa [Function.update_of_ne hj] using h j

theorem Orderly.next (h : Orderly may needs s held) (hs : step effect s i = .ok (s',o)) :
    ∃ held', Orderly may needs s' held' := by
  rcases step_cases hs with ⟨l,p,hr,ho,-,rfl⟩ | ⟨l,p,hr,ho,-,rfl⟩ | ⟨a,p,hr,-,rfl⟩
  · have hd := h.disciplined i
    rw [hr] at hd
    refine ⟨Function.update held i (l :: held i),disciplined_update h.disciplined hd.2,fun j k => ?_⟩
    have hfree : ∀ x, l ∉ held x := fun x hx => by
      rw [(h.owned x l).mpr hx] at ho
      cases ho
    by_cases hk : k = l <;> by_cases hj : j = i
    · subst hk hj
      simp
    · subst hk
      simp [Function.update_of_ne hj,hfree j,Ne.symm hj]
    · subst hj
      simp [hk,h.owned]
    · simp [Function.update_of_ne hj,hk,h.owned]
  · have hd := h.disciplined i
    rw [hr] at hd
    refine ⟨Function.update held i ((held i).filter (· ≠ l)),disciplined_update h.disciplined hd.2,fun j k => ?_⟩
    by_cases hk : k = l <;> by_cases hj : j = i
    · subst hk hj
      simp
    · subst hk
      have hno : k ∉ held j := fun hx => by
        rw [(h.owned j k).mpr hx] at ho
        exact hj (Option.some.inj ho)
      simp [Function.update_of_ne hj,hno]
    · subst hj
      simp [hk,h.owned]
    · simp [Function.update_of_ne hj,hk,h.owned]
  · have hd := h.disciplined i
    rw [hr] at hd
    have hsame := disciplined_update (i:=i) h.disciplined hd.2
    rw [Function.update_eq_self] at hsame
    exact ⟨held,hsame,h.owned⟩

/-- The thread waits for a lock that another thread holds, which is not at its end. -/
def WaitsFor (s : State ι L A S) (held : ι → List L) (i j : ι) (l : L) : Prop :=
  (∃ p, s.rest i = .lock l :: p) ∧ l ∈ held j ∧ s.rest j ≠ []

theorem Orderly.waits (h : Orderly may needs s held) (hs : Stuck effect s) (hi : s.rest i ≠ []) :
    ∃ j l, WaitsFor s held i j l ∧ ∀ k ∈ held i, may k l := by
  obtain ⟨instr,p,hr⟩ := List.exists_cons_of_ne_nil hi
  obtain ⟨e,he⟩ := hs i
  have hd := h.disciplined i
  rw [hr] at hd
  cases instr with
  | lock l =>
    cases ho : s.owner l with
    | none => simp [step,hr,ho] at he
    | some j =>
      have hl := (h.owned j l).mp ho
      refine ⟨j,l,⟨⟨p,hr⟩,hl,fun hj => ?_⟩,hd.1⟩
      have hnone := h.disciplined j
      rw [hj] at hnone
      have hheld : held j = [] := hnone
      simp [hheld] at hl
  | unlock l => simp [step,hr,(h.owned i l).mpr hd.1] at he
  | act a => simp [step,hr] at he

/-- Where locks are only taken upwards, a stuck system is at its end: of the threads that wait, one
waits for the highest lock, and the thread that holds it waits for a higher one. -/
theorem Orderly.finished [Finite ι] (h : Orderly may needs s held) {r : L → ℕ}
    (hrank : ∀ k l, may k l → r k < r l) (hs : Stuck effect s) : Finished s := by
  by_contra hno
  obtain ⟨i₀,hi₀⟩ := not_forall.mp hno
  let waiting : Set (ι × L) := {x | ∃ j, WaitsFor s held x.1 j x.2}
  -- a thread waits for one lock at most
  have hfinite : waiting.Finite := by
    refine Set.Finite.of_injOn (f:=Prod.fst) (t:=Set.univ) (fun _ _ => trivial) ?_ Set.finite_univ
    rintro ⟨i,l⟩ ⟨_,⟨p,hp⟩,_⟩ ⟨i',l'⟩ ⟨_,⟨p',hp'⟩,_⟩ hii
    obtain rfl : i = i' := hii
    rw [show s.rest i = _ from hp] at hp'
    injection hp' with hhead _
    injection hhead with hl
    exact Prod.ext rfl hl
  obtain ⟨j₀,l₀,hw₀,_⟩ := h.waits hs hi₀
  obtain ⟨⟨i,l⟩,⟨j,hw⟩,hmax⟩ :=
    Set.exists_max_image waiting (fun x => r x.2) hfinite ⟨(i₀,l₀),j₀,hw₀⟩
  obtain ⟨k,l',hw',hmay⟩ := h.waits hs hw.2.2
  have hlt := hrank l l' (hmay l hw.2.1)
  have hle := hmax (j,l') ⟨k,hw'⟩
  exact absurd hlt (not_lt.mpr hle)

theorem run_orderly {as : List ι} {os : List (Option ω)} (h : Orderly may needs s held)
    (hr : run (step effect) s as = .ok (s',os)) : ∃ held', Orderly may needs s' held' := by
  induction as generalizing s held os with
  | nil =>
    cases hr
    exact ⟨held,h⟩
  | cons i as ih =>
    obtain ⟨s₁,o,os',hs,hrest,rfl⟩ := run_cons_eq_ok.mp hr
    obtain ⟨held₁,h₁⟩ := h.next hs
    exact ih h₁ hrest

theorem run_suffix {as : List ι} {os : List (Option ω)} (hr : run (step effect) s as = .ok (s',os)) (i : ι) :
    s'.rest i <:+ s.rest i := by
  induction as generalizing s os with
  | nil =>
    cases hr
    exact List.suffix_rfl
  | cons j as ih =>
    obtain ⟨s₁,o,os',hs,hrest,rfl⟩ := run_cons_eq_ok.mp hr
    obtain ⟨instr,p,hp,hup⟩ := step_rest hs
    refine (ih hrest).trans ?_
    rw [hup]
    by_cases hij : i = j
    · subst hij
      rw [Function.update_self,hp]
      exact List.suffix_cons _ _
    · rw [Function.update_of_ne hij]

theorem run_length [Fintype ι] {as : List ι} {os : List (Option ω)}
    (hr : run (step effect) s as = .ok (s',os)) :
    as.length+∑ i, (s'.rest i).length = ∑ i, (s.rest i).length := by
  induction as generalizing s os with
  | nil =>
    cases hr
    simp
  | cons j as ih =>
    obtain ⟨s₁,o,os',hs,hrest,rfl⟩ := run_cons_eq_ok.mp hr
    obtain ⟨instr,p,hp,hup⟩ := step_rest hs
    have ht := ih hrest
    have h₁ : ∑ i, (s.rest i).length = (s.rest j).length+∑ i ∈ Finset.univ.erase j, (s.rest i).length :=
      (Finset.add_sum_erase _ _ (Finset.mem_univ j)).symm
    have h₂ : ∑ i, (s₁.rest i).length =
        (s₁.rest j).length+∑ i ∈ Finset.univ.erase j, (s₁.rest i).length :=
      (Finset.add_sum_erase _ _ (Finset.mem_univ j)).symm
    have hsame : ∑ i ∈ Finset.univ.erase j, (s₁.rest i).length =
        ∑ i ∈ Finset.univ.erase j, (s.rest i).length := by
      refine Finset.sum_congr rfl fun i hi => ?_
      rw [hup,Function.update_of_ne (Finset.ne_of_mem_erase hi)]
    rw [hup,Function.update_self,← hup,hsame] at h₂
    rw [hp,List.length_cons] at h₁
    rw [List.length_cons]
    omega

end LockPrograms
end CodingChallenges
