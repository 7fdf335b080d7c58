import CodingChallenges.LockPrograms

/-! Threads that count behind locks: `mutex.c`, where two threads share one lock, and `deadlock.c`,
where they take two locks the other way round. `count++` loads and stores in two steps. -/
namespace CodingChallenges
namespace CounterThreads

open Runs LockPrograms

variable {ι L : Type}

/-- `load` and `store` are `count++`; `print` is the `printf` of the count. -/
inductive Act
  | load
  | store
  | print (final : Bool)

/-- The count, and the register each thread counts in. -/
structure Counter (ι : Type) where
  count : UInt32
  reg : ι → UInt32

/-- What a thread prints; `final` is its last line. -/
structure Line (ι : Type) where
  thread : ι
  final : Bool
  count : UInt32
  deriving DecidableEq

def effect [DecidableEq ι] (i : ι) (a : Act) (c : Counter ι) : Counter ι × Option (Line ι) :=
  match a with
  | .load => ({ c with reg := Function.update c.reg i c.count },none)
  | .store => ({ c with count := c.reg i+1 },none)
  | .print final => (c,some ⟨i,final,c.count⟩)

abbrev Program (L : Type) := List (Instr L Act)

def counting : Program L := [.act .load,.act .store]

def isStore : Instr L Act → Bool
  | .act .store => true
  | _ => false

def pending (p : Program L) : ℕ := p.countP isStore

def Paired : Program L → Prop
  | [] => True
  | .act .load :: .act .store :: p => Paired p
  | .act .load :: _ => False
  | .act .store :: _ => False
  | .act (.print _) :: p => Paired p
  | .lock _ :: p => Paired p
  | .unlock _ :: p => Paired p

def UpToDate (c : Counter ι) (i : ι) (p : Program L) : Prop :=
  Paired p ∨ ∃ q, p = .act .store :: q ∧ Paired q ∧ c.reg i = c.count

/-- What is counted and what is still to be counted make the total. -/
structure Tallied [Fintype ι] (total : ℕ) (s : State ι L Act (Counter ι)) : Prop where
  upToDate : ∀ i, UpToDate s.shared i (s.rest i)
  tally : ∃ done : ℕ, s.shared.count = UInt32.ofNat done ∧ done+∑ i, pending (s.rest i) = total

section

variable [Fintype ι] {may : L → L → Prop} {needs : Act → L → Prop} {s s' : State ι L Act (Counter ι)}
  {i : ι} {o : Option (Line ι)} {held : ι → List L} {total : ℕ}

theorem tallied_start {program : ι → Program L} (h : ∀ i, Paired (program i))
    (hsum : ∑ i, pending (program i) = total) : Tallied total (start program ⟨0,fun _ => 0⟩) :=
  ⟨fun i => Or.inl (h i),0,rfl,by simpa [start] using hsum⟩

/-- When all threads are at their end, everything is counted. -/
theorem Tallied.count (h : Tallied total s) (hf : Finished s) : s.shared.count = UInt32.ofNat total := by
  obtain ⟨done,hcount,hsum⟩ := h.tally
  have hzero : ∑ i, pending (s.rest i) = 0 := Finset.sum_eq_zero fun i _ => by rw [hf i]; rfl
  rw [hcount,← hsum,hzero,Nat.add_zero]

variable [DecidableEq ι]

theorem sum_pending {p : Program L} {instr : Instr L Act} (hr : s.rest i = instr :: p) :
    ∑ j, pending (s.rest j) =
      ∑ j, pending (Function.update s.rest i p j)+if isStore instr then 1 else 0 := by
  have h₁ : ∑ j, pending (s.rest j) = pending (s.rest i)+∑ j ∈ Finset.univ.erase i, pending (s.rest j) :=
    (Finset.add_sum_erase _ _ (Finset.mem_univ i)).symm
  have h₂ : ∑ j, pending (Function.update s.rest i p j) =
      pending (Function.update s.rest i p i)+∑ j ∈ Finset.univ.erase i, pending (Function.update s.rest i p j) :=
    (Finset.add_sum_erase _ (fun j => pending (Function.update s.rest i p j)) (Finset.mem_univ i)).symm
  have hsame : ∑ j ∈ Finset.univ.erase i, pending (Function.update s.rest i p j) =
      ∑ j ∈ Finset.univ.erase i, pending (s.rest j) := by
    refine Finset.sum_congr rfl fun j hj => ?_
    rw [Function.update_of_ne (Finset.ne_of_mem_erase hj)]
  rw [Function.update_self,hsame] at h₂
  rw [h₁,h₂,hr,pending,pending,List.countP_cons]
  omega

variable [DecidableEq L]

theorem Tallied.next (h : Tallied total s) (ho : Orderly may needs s held) {l : L} (hl : ∀ a, needs a l)
    (hs : step effect s i = .ok (s',o)) : Tallied total s' := by
  obtain ⟨done,hcount,hsum⟩ := h.tally
  have hself := h.upToDate i
  -- a step that moves no data leaves the others where they are
  have hquiet : ∀ {instr : Instr L Act} {p owner}, s.rest i = instr :: p → isStore instr = false →
      Paired p → Tallied total ⟨Function.update s.rest i p,owner,s.shared⟩ := by
    intro instr p owner hr hstore hp
    refine ⟨fun j => ?_,done,hcount,?_⟩
    · by_cases hj : j = i
      · subst hj
        exact Or.inl (by simpa using hp)
      · simpa [Function.update_of_ne hj] using h.upToDate j
    · rw [sum_pending hr,hstore] at hsum
      simpa using hsum
  rcases step_cases hs with ⟨k,p,hr,-,-,rfl⟩ | ⟨k,p,hr,-,-,rfl⟩ | ⟨a,p,hr,-,rfl⟩
  · rw [hr] at hself
    exact hquiet hr rfl (by simpa [UpToDate,Paired] using hself)
  · rw [hr] at hself
    exact hquiet hr rfl (by simpa [UpToDate,Paired] using hself)
  · rw [hr] at hself
    cases a with
    | load =>
      obtain ⟨q,rfl,hq⟩ : ∃ q, p = .act .store :: q ∧ Paired q := by
        rcases hself with hpair | ⟨q,hq,-⟩
        · unfold Paired at hpair
          split at hpair
          all_goals simp_all
        · simp at hq
      refine ⟨fun j => ?_,done,hcount,?_⟩
      · by_cases hj : j = i
        · subst hj
          exact Or.inr ⟨q,by simp,hq,by simp [effect]⟩
        · simpa [UpToDate,Function.update_of_ne hj,effect] using h.upToDate j
      · rw [sum_pending hr] at hsum
        simpa [isStore] using hsum
    | store =>
      obtain ⟨hp,hreg⟩ : Paired p ∧ s.shared.reg i = s.shared.count := by
        rcases hself with hpair | ⟨q,hq,hpq,hreg⟩
        · simp [Paired] at hpair
        · simp only [List.cons.injEq,true_and] at hq
          exact ⟨hq ▸ hpq,hreg⟩
      refine ⟨fun j => ?_,done+1,?_,?_⟩
      · by_cases hj : j = i
        · subst hj
          exact Or.inl (by simpa using hp)
        · rcases h.upToDate j with hpair | ⟨q,hq,-,-⟩
          · exact Or.inl (by simpa [Function.update_of_ne hj] using hpair)
          · exact absurd (ho.exclusive hq hr (hl _) (hl _)) hj
      · show s.shared.reg i+1 = _
        rw [hreg,hcount]
        simp
      · rw [sum_pending hr] at hsum
        simp only [isStore,if_true] at hsum
        show done+1+∑ j, pending (Function.update s.rest i p j) = total
        omega
    | print final =>
      have hp : Paired p := by simpa [UpToDate,Paired] using hself
      exact hquiet hr rfl hp

theorem run_tallied {schedule : List ι} {os : List (Option (Line ι))} (h : Tallied total s)
    (ho : Orderly may needs s held) {l : L} (hl : ∀ a, needs a l)
    (hr : run (step effect) s schedule = .ok (s',os)) : Tallied total s' := by
  induction schedule generalizing s held os with
  | nil =>
    cases hr
    exact h
  | cons i schedule ih =>
    obtain ⟨s₁,o,os',hs,hrest,rfl⟩ := run_cons_eq_ok.mp hr
    obtain ⟨held₁,ho₁⟩ := ho.next hs
    exact ih (h.next ho hl hs) ho₁ hrest

end

abbrev TIMES_TO_COUNT : ℕ := 50000

def critical (body : Program Unit) : Program Unit := .lock () :: (body ++ [.unlock ()])

/-- `thread_routine`, its loop unrolled. -/
def threadRoutine (times : ℕ) : Program Unit :=
  critical [.act (.print false)] ++
    ((List.replicate times (critical counting)).flatten ++ critical [.act (.print true)])

def mutexStart (times : ℕ) : State (Fin 2) Unit Act (Counter (Fin 2)) :=
  start (fun _ => threadRoutine times) ⟨0,fun _ => 0⟩

def alone (_ _ : Unit) : Prop := False

def guarded (_ : Act) (_ : Unit) : Prop := True

/-- Nothing is counted behind a thread's last line. -/
def CountedBefore : Program L → Prop
  | [] => True
  | .act (.print true) :: p => pending p = 0 ∧ CountedBefore p
  | _ :: p => CountedBefore p

variable {times : ℕ}

theorem disciplined_threadRoutine (times : ℕ) : Disciplined alone guarded [] (threadRoutine times) := by
  have hloop : Disciplined alone guarded []
      ((List.replicate times (critical counting)).flatten ++ critical [.act (.print true)]) := by
    induction times with
    | zero => simp [critical,Disciplined,guarded]
    | succ n ih => simpa [List.replicate_succ,critical,counting,Disciplined,guarded] using ih
  simpa [threadRoutine,critical,Disciplined,guarded] using hloop

theorem paired_threadRoutine (times : ℕ) : Paired (threadRoutine times) := by
  have hloop : Paired ((List.replicate times (critical counting)).flatten ++ critical [.act (.print true)]) := by
    induction times with
    | zero => simp [critical,Paired]
    | succ n ih => simpa [List.replicate_succ,critical,counting,Paired] using ih
  simpa [threadRoutine,critical,Paired] using hloop

theorem countedBefore_threadRoutine (times : ℕ) : CountedBefore (threadRoutine times) := by
  have hloop : CountedBefore
      ((List.replicate times (critical counting)).flatten ++ critical [.act (.print true)]) := by
    induction times with
    | zero => simp [critical,CountedBefore,pending,isStore]
    | succ n ih => simpa [List.replicate_succ,critical,counting,CountedBefore] using ih
  simpa [threadRoutine,critical,CountedBefore] using hloop

theorem pending_append (p q : Program L) : pending (p ++ q) = pending p+pending q := List.countP_append

theorem pending_threadRoutine (times : ℕ) : pending (threadRoutine times) = times := by
  have hloop : pending ((List.replicate times (critical counting)).flatten) = times := by
    induction times with
    | zero => rfl
    | succ n ih =>
      have hone : pending (critical counting) = 1 := rfl
      rw [List.replicate_succ,List.flatten_cons,pending_append,ih,hone,Nat.add_comm]
  have hprint (final : Bool) : pending (critical [.act (.print final)]) = 0 := rfl
  rw [threadRoutine,pending_append,pending_append,hloop,hprint,hprint,Nat.zero_add,Nat.add_zero]

theorem length_threadRoutine (times : ℕ) : (threadRoutine times).length = 4*times+6 := by
  simp [threadRoutine,critical,counting]
  omega

theorem orderly_mutexStart (times : ℕ) : Orderly alone guarded (mutexStart times) fun _ => [] :=
  orderly_start (fun _ => disciplined_threadRoutine times) _

theorem tallied_mutexStart (times : ℕ) : Tallied (2*times) (mutexStart times) :=
  tallied_start (fun _ => paired_threadRoutine times) (by simp [pending_threadRoutine])

theorem countedBefore_suffix {p q : Program L} (h : CountedBefore q) (hs : p <:+ q) : CountedBefore p := by
  obtain ⟨front,rfl⟩ := hs
  induction front with
  | nil => exact h
  | cons instr front ih =>
    refine ih ?_
    rw [List.cons_append] at h
    unfold CountedBefore at h
    split at h
    · simp_all
    · next heq =>
      simp only [List.cons.injEq] at heq
      exact heq.2 ▸ h.2
    · next heq =>
      simp only [List.cons.injEq] at heq
      exact heq.2 ▸ h

theorem final_line {schedule : List (Fin 2)} {os : List (Option (Line (Fin 2)))}
    {s s' : State (Fin 2) Unit Act (Counter (Fin 2))} {i : Fin 2} {line : Line (Fin 2)} (ht : 2*times < 2^32)
    (h : run (step effect) (mutexStart times) schedule = .ok (s,os))
    (hs : step effect s i = .ok (s',some line)) (hf : line.final = true) :
    times ≤ line.count.toNat ∧ line.count.toNat ≤ 2*times := by
  rcases step_cases hs with ⟨k,p,-,-,ho,-⟩ | ⟨k,p,-,-,ho,-⟩ | ⟨a,p,hr,ho,-⟩
  · cases ho
  · cases ho
  · cases a with
    | load => cases ho
    | store => cases ho
    | print final =>
      obtain rfl := Option.some.inj ho
      obtain rfl : final = true := hf
      obtain ⟨done,hcount,hsum⟩ :=
        (run_tallied (l:=()) (tallied_mutexStart times) (orderly_mutexStart times) (fun _ => trivial) h).tally
      have hsuffix (j : Fin 2) : s.rest j <:+ threadRoutine times := run_suffix h j
      have hle (j : Fin 2) : pending (s.rest j) ≤ times := by
        have hl := (hsuffix j).sublist.countP_le (p:=isStore)
        rwa [← pending,← pending,pending_threadRoutine] at hl
      have hzero : pending (s.rest i) = 0 := by
        have hc := countedBefore_suffix (countedBefore_threadRoutine times) (hsuffix i)
        rw [hr] at hc
        rw [hr]
        exact hc.1
      have htotal : done = 2*times-∑ j, pending (s.rest j) := by omega
      have hother : ∑ j, pending (s.rest j) ≤ times := by
        rw [Fin.sum_univ_two]
        rcases Fin.exists_fin_two.mp ⟨i,rfl⟩ with rfl | rfl
        · have hle₁ := hle 1
          omega
        · have hle₀ := hle 0
          omega
      show times ≤ s.shared.count.toNat ∧ s.shared.count.toNat ≤ 2*times
      rw [hcount,UInt32.toNat_ofNat_of_lt' (by simp [UInt32.size]; omega)]
      omega

/-- However the two threads take turns, no increment is lost: a thread can go on as long as one is
left to, both are at their end after the same number of steps, the count is then what `main`
expects, and a thread's last line is between its own share and that. -/
theorem mutex_counts {schedule : List (Fin 2)} {os : List (Option (Line (Fin 2)))}
    {s : State (Fin 2) Unit Act (Counter (Fin 2))} (ht : 2*times < 2^32)
    (h : run (step effect) (mutexStart times) schedule = .ok (s,os)) :
    ((∃ i q, step effect s i = .ok q) ∧ schedule.length < 2*(4*times+6) ∨
      Finished s ∧ schedule.length = 2*(4*times+6) ∧ s.shared.count.toNat = 2*times) ∧
    ∀ line, some line ∈ os → line.final = true →
      times ≤ line.count.toNat ∧ line.count.toNat ≤ 2*times := by
  have hlength : schedule.length+∑ i, (s.rest i).length = 2*(4*times+6) := by
    rw [run_length h]
    simp [mutexStart,start,length_threadRoutine]
  obtain ⟨held,ho⟩ := run_orderly (orderly_mutexStart times) h
  constructor
  · by_cases hs : Stuck effect s
    · have hf : Finished s := ho.finished (r:=fun _ => 0) (fun _ _ hno => hno.elim) hs
      have hzero : ∑ i, (s.rest i).length = 0 := Finset.sum_eq_zero fun i _ => by rw [hf i]; rfl
      have htally := run_tallied (l:=()) (tallied_mutexStart times) (orderly_mutexStart times) (fun _ => trivial) h
      refine Or.inr ⟨hf,by omega,?_⟩
      rw [htally.count hf,UInt32.toNat_ofNat_of_lt' (by simpa [UInt32.size] using ht)]
    · obtain ⟨i,hi⟩ := not_forall.mp hs
      cases hstep : step effect s i with
      | error e => exact absurd ⟨e,hstep⟩ hi
      | ok q =>
        obtain ⟨s',o⟩ := q
        obtain ⟨instr,p,hr,-⟩ := step_rest hstep
        have hle : (s.rest i).length ≤ ∑ j, (s.rest j).length :=
          Finset.single_le_sum (f:=fun j => (s.rest j).length) (fun _ _ => Nat.zero_le _) (Finset.mem_univ i)
        rw [hr,List.length_cons] at hle
        exact Or.inl ⟨⟨i,(s',o),hstep⟩,by omega⟩
  · intro line hmem hf
    obtain ⟨front,i,t,os₁,t',hfront,hstep⟩ := exists_step_of_mem h hmem
    exact final_line ht hfront hstep hf

example : 2*TIMES_TO_COUNT < 2^32 := by decide

def turns : List (Fin 2) :=
  let first : Fin 2 := ⟨0,Nat.two_pos⟩
  let second : Fin 2 := ⟨1,Nat.one_lt_two⟩
  List.replicate 3 first ++ List.replicate 7 second ++ List.replicate 4 first ++ List.replicate 3 second ++
    List.replicate 3 first

theorem mutex_counts_turns :
    ∃ s os, run (step effect) (mutexStart 1) turns = .ok (s,os) ∧ Finished s ∧ s.shared.count.toNat = 2 ∧
      some ⟨1,true,2⟩ ∈ os ∧ ∀ line, some line ∈ os → line.final = true →
        1 ≤ line.count.toNat ∧ line.count.toNat ≤ 2 := by
  obtain ⟨s,os,h⟩ : ∃ s os, run (step effect) (mutexStart 1) turns = .ok (s,os) := ⟨_,_,rfl⟩
  have hlast : (run (step effect) (mutexStart 1) turns).toOption.map (fun r => decide (some ⟨1,true,2⟩ ∈ r.2)) =
      some true := by
    decide +kernel
  rw [h] at hlast
  obtain ⟨hgo | hend,hlines⟩ := mutex_counts (show 2*1 < 2^32 by decide) h
  · exact absurd hgo.2 (by decide)
  · exact ⟨s,os,h,hend.1,hend.2.2,of_decide_eq_true (Option.some.inj hlast),hlines⟩

inductive Lock
  | lock_1
  | lock_2
  deriving DecidableEq

def thread1Routine : Program Lock :=
  [.lock .lock_1,.lock .lock_2,.act .load,.act .store,.unlock .lock_2,.unlock .lock_1]

def thread2Routine : Program Lock :=
  [.lock .lock_2,.lock .lock_1,.act .load,.act .store,.unlock .lock_1,.unlock .lock_2]

def routines : Fin 2 → Program Lock := ![thread1Routine,thread2Routine]

def deadlockStart : State (Fin 2) Lock Act (Counter (Fin 2)) := start routines ⟨0,fun _ => 0⟩

def crossed (held wanted : Lock) : Prop := held ≠ wanted

def needsBoth (_ : Act) (_ : Lock) : Prop := True

theorem orderly_deadlockStart : Orderly crossed needsBoth deadlockStart fun _ => [] := by
  refine orderly_start (fun i => ?_) _
  fin_cases i
  · simp [routines,thread1Routine,Disciplined,crossed,needsBoth]
    exact fun l => by cases l <;> simp
  · simp [routines,thread2Routine,Disciplined,crossed,needsBoth]
    exact fun l => by cases l <;> simp

theorem tallied_deadlockStart : Tallied 2 deadlockStart := by
  refine tallied_start (fun i => ?_) rfl
  fin_cases i <;> simp [routines,thread1Routine,thread2Routine,Paired]

/-- A thread that holds a lock and wants another one has taken its first. -/
theorem rest_of_wanting {first second : Lock} {held : List Lock} {p q : Program Lock} {l : Lock}
    (hrest : p <:+ [.lock first,.lock second,.act .load,.act .store,.unlock second,.unlock first])
    (hp : p = .lock l :: q) (hd : Disciplined crossed needsBoth held p) (hne : first ≠ second)
    (hheld : held ≠ []) : p = [.lock second,.act .load,.act .store,.unlock second,.unlock first] := by
  obtain ⟨k,hk⟩ := List.exists_mem_of_ne_nil held hheld
  rcases List.suffix_cons_iff.mp hrest with rfl | hrest
  · have h₁ : k ≠ first := hd.1 k hk
    have h₂ : k ≠ second := hd.2.1 k (List.mem_cons_of_mem _ hk)
    cases first <;> cases second <;> cases k <;> simp_all
  · rcases List.suffix_cons_iff.mp hrest with rfl | hrest
    · rfl
    · have hmem : Instr.lock l ∈ p := by simp [hp]
      have hno := hrest.subset hmem
      simp at hno

/-- The two threads are stuck in one state only: each has taken its first lock and wants the one the
other has. Otherwise one can go on, or both are at their end and the count is 2. -/
theorem stuck_iff_deadlock {schedule : List (Fin 2)} {os : List (Option (Line (Fin 2)))}
    {s : State (Fin 2) Lock Act (Counter (Fin 2))}
    (h : run (step effect) deadlockStart schedule = .ok (s,os)) :
    Stuck effect s ↔ Finished s ∧ s.shared.count = 2 ∨
      s.rest 0 = thread1Routine.tail ∧ s.rest 1 = thread2Routine.tail ∧ s.shared.count = 0 := by
  obtain ⟨held,ho⟩ := run_orderly orderly_deadlockStart h
  have htally := run_tallied (l:=.lock_1) tallied_deadlockStart orderly_deadlockStart (fun _ => trivial) h
  constructor
  · intro hs
    by_cases hf : Finished s
    · exact Or.inl ⟨hf,htally.count hf⟩
    · right
      obtain ⟨i,hi⟩ := not_forall.mp hf
      -- a thread does not wait for itself
      have hself : ∀ {x y : Fin 2} {l : Lock}, WaitsFor s held x y l →
          (∀ k ∈ held x, crossed k l) → y ≠ x := by
        rintro x y l ⟨-,hl,-⟩ hmay rfl
        exact hmay l hl rfl
      obtain ⟨j,l,hw,hmay⟩ := ho.waits hs hi
      obtain ⟨k,l',hw',hmay'⟩ := ho.waits hs hw.2.2
      have hji := hself hw hmay
      have hki : k = i := by
        have hkj := hself hw' hmay'
        omega
      have hholds {x : Fin 2} {l : Lock} (hl : l ∈ held x) : held x ≠ [] := List.ne_nil_of_mem hl
      have hboth : ∀ x : Fin 2, held x ≠ [] ∧ ∃ l p, s.rest x = .lock l :: p := by
        intro x
        by_cases hx : x = i
        · subst hx
          obtain ⟨p,hp⟩ := hw.1
          exact ⟨hki ▸ hholds hw'.2.1,l,p,hp⟩
        · obtain rfl : x = j := by omega
          obtain ⟨p,hp⟩ := hw'.1
          exact ⟨hholds hw.2.1,l',p,hp⟩
      obtain ⟨hheld₀,l₀,p₀,hp₀⟩ := hboth 0
      obtain ⟨hheld₁,l₁,p₁,hp₁⟩ := hboth 1
      have hrest₀ : s.rest 0 = thread1Routine.tail :=
        rest_of_wanting (run_suffix h 0) hp₀ (ho.disciplined 0) (by decide) hheld₀
      have hrest₁ : s.rest 1 = thread2Routine.tail :=
        rest_of_wanting (run_suffix h 1) hp₁ (ho.disciplined 1) (by decide) hheld₁
      obtain ⟨done,hcount,hsum⟩ := htally.tally
      rw [Fin.sum_univ_two,hrest₀,hrest₁] at hsum
      have htwo : pending thread1Routine.tail+pending thread2Routine.tail = 2 := rfl
      obtain rfl : done = 0 := by omega
      exact ⟨hrest₀,hrest₁,hcount⟩
  · rintro (⟨hf,-⟩ | ⟨hrest₀,hrest₁,-⟩)
    · exact fun i => ⟨.finished,by rw [step,hf i]⟩
    · -- each gives back the lock the other one wants
      have hd₀ := ho.disciplined 0
      have hd₁ := ho.disciplined 1
      rw [hrest₀] at hd₀
      rw [hrest₁] at hd₁
      have hheld₀ : Lock.lock_1 ∈ held 0 := by simpa [thread1Routine,Disciplined] using hd₀.2.2.2.2.1
      have hheld₁ : Lock.lock_2 ∈ held 1 := by simpa [thread2Routine,Disciplined] using hd₁.2.2.2.2.1
      have howner₀ := (ho.owned 0 .lock_1).mpr hheld₀
      have howner₁ := (ho.owned 1 .lock_2).mpr hheld₁
      intro i
      refine ⟨.blocked,?_⟩
      rcases Fin.exists_fin_two.mp ⟨i,rfl⟩ with rfl | rfl
      · simp [step,hrest₀,thread1Routine,howner₁]
      · simp [step,hrest₁,thread2Routine,howner₀]

/-- Both threads run into the deadlock. -/
theorem stuck_iff_deadlock_crossed :
    ∃ s os, run (step effect) deadlockStart [0,1] = .ok (s,os) ∧ Stuck effect s := by
  refine ⟨_,_,rfl,?_⟩
  exact (stuck_iff_deadlock (show run (step effect) deadlockStart [0,1] = _ from rfl)).mpr (Or.inr ⟨rfl,rfl,rfl⟩)

end CounterThreads
end CodingChallenges
