import Mathlib.Data.List.Basic
import Mathlib.Tactic

/-! Runs of a step function that may stop.
Each action either stops the run with an error or gives the next state and an
output. Invariants and simulations of single steps are carried to whole runs
here, once for all machines. -/
namespace CodingChallenges
namespace Runs

variable {σ τ α ε ω : Type}

def run (step : σ → α → Except ε (σ × ω)) : σ → List α → Except ε (σ × List ω)
  | s, [] => .ok (s,[])
  | s, a :: as =>
    match step s a with
    | .error e => .error e
    | .ok (s',o) =>
      match run step s' as with
      | .error e => .error e
      | .ok (u,os) => .ok (u,o :: os)

/-- Every step of the run from `s` meets the condition `G` on the state before it. -/
def AllSteps (step : σ → α → Except ε (σ × ω)) (G : σ → α → Prop) : σ → List α → Prop
  | _, [] => True
  | s, a :: as => G s a ∧ ∀ s' o, step s a = .ok (s',o) → AllSteps step G s' as

variable {step : σ → α → Except ε (σ × ω)}

@[simp] theorem run_nil (s : σ) : run step s [] = .ok (s,[]) := rfl

theorem run_cons {s s' u : σ} {a : α} {as : List α} {o : ω} {os : List ω}
    (h : step s a = .ok (s',o)) (hs : run step s' as = .ok (u,os)) :
    run step s (a :: as) = .ok (u,o :: os) := by
  simp only [run,h,hs]

theorem run_cons_eq_ok {s u : σ} {a : α} {as : List α} {os : List ω} :
    run step s (a :: as) = .ok (u,os) ↔
      ∃ s' o os', step s a = .ok (s',o) ∧ run step s' as = .ok (u,os') ∧ os = o :: os' := by
  constructor
  · intro h
    simp only [run] at h
    split at h
    · contradiction
    · rename_i s' o hs
      split at h
      · contradiction
      · rename_i u' os' hr
        simp only [Except.ok.injEq,Prod.mk.injEq] at h
        exact ⟨s',o,os',hs,by rw [hr,h.1],h.2.symm⟩
  · rintro ⟨s',o,os',hs,hr,rfl⟩
    exact run_cons hs hr

theorem allSteps_of_forall {G : σ → α → Prop} (as : List α) (h : ∀ s, ∀ a ∈ as, G s a) (s : σ) :
    AllSteps step G s as := by
  induction as generalizing s with
  | nil => trivial
  | cons a as ih =>
    exact ⟨h s a (by simp),fun s' o hs => ih (fun s a ha => h s a (by simp [ha])) s'⟩

theorem allSteps_cons_ok {G : σ → α → Prop} {s s' : σ} {a : α} {as : List α} {o : ω}
    (h : step s a = .ok (s',o)) :
    AllSteps step G s (a :: as) ↔ G s a ∧ AllSteps step G s' as := by
  constructor
  · exact fun hs => ⟨hs.1,hs.2 s' o h⟩
  · rintro ⟨hG,hs⟩
    refine ⟨hG,fun u p hu => ?_⟩
    rw [h] at hu
    cases hu
    exact hs

theorem allSteps_cons_error {G : σ → α → Prop} {s : σ} {a : α} {as : List α} {e : ε}
    (h : step s a = .error e) : AllSteps step G s (a :: as) ↔ G s a := by
  constructor
  · exact fun hs => hs.1
  · refine fun hG => ⟨hG,fun u p hu => ?_⟩
    rw [h] at hu
    cases hu

instance decidableAllSteps {G : σ → α → Prop} [∀ s a, Decidable (G s a)] :
    (s : σ) → (as : List α) → Decidable (AllSteps step G s as)
  | _, [] => isTrue trivial
  | s, a :: as =>
    match h : step s a with
    | .error _ => decidable_of_iff _ (allSteps_cons_error h).symm
    | .ok (s',_) =>
      have := decidableAllSteps (G:=G) s' as
      decidable_of_iff _ (allSteps_cons_ok h).symm

theorem AllSteps.mono {G G' : σ → α → Prop} {as : List α} {s : σ} (h : AllSteps step G s as)
    (himp : ∀ s a, G s a → G' s a) : AllSteps step G' s as := by
  induction as generalizing s with
  | nil => trivial
  | cons a as ih => exact ⟨himp s a h.1,fun s' o hs => ih (h.2 s' o hs)⟩

theorem AllSteps.and {G G' : σ → α → Prop} {as : List α} {s : σ} (h : AllSteps step G s as)
    (h' : AllSteps step G' s as) : AllSteps step (fun s a => G s a ∧ G' s a) s as := by
  induction as generalizing s with
  | nil => trivial
  | cons a as ih => exact ⟨⟨h.1,h'.1⟩,fun s' o hs => ih (h.2 s' o hs) (h'.2 s' o hs)⟩

theorem AllSteps.left {G : σ → α → Prop} {as bs : List α} {s : σ}
    (h : AllSteps step G s (as ++ bs)) : AllSteps step G s as := by
  induction as generalizing s with
  | nil => trivial
  | cons a as ih => exact ⟨h.1,fun s' o hs => ih (h.2 s' o hs)⟩

theorem AllSteps.right {G : σ → α → Prop} {as bs : List α} {s t : σ} {os : List ω}
    (h : AllSteps step G s (as ++ bs)) (hr : run step s as = .ok (t,os)) : AllSteps step G t bs := by
  induction as generalizing s os with
  | nil =>
    simp only [run_nil,Except.ok.injEq,Prod.mk.injEq] at hr
    exact hr.1 ▸ h
  | cons a as ih =>
    obtain ⟨s',o,os',hs,hr',rfl⟩ := run_cons_eq_ok.mp hr
    exact ih (h.2 s' o hs) hr'

theorem allSteps_iff {G G' : σ → α → Prop} {P : σ → Prop} (hiff : ∀ s a, P s → (G s a ↔ G' s a))
    (hstep : ∀ s a s' o, P s → G' s a → step s a = .ok (s',o) → P s') {s : σ} (hP : P s) (as : List α) :
    AllSteps step G s as ↔ AllSteps step G' s as := by
  induction as generalizing s with
  | nil => exact Iff.rfl
  | cons a as ih =>
    have hrest (hG : G' s a) (s' : σ) (o : ω) (hs : step s a = .ok (s',o)) :=
      ih (hstep s a s' o hP hG hs)
    constructor
    · rintro ⟨hG,hall⟩
      have hG' := (hiff s a hP).mp hG
      exact ⟨hG',fun s' o hs => (hrest hG' s' o hs).mp (hall s' o hs)⟩
    · rintro ⟨hG',hall⟩
      exact ⟨(hiff s a hP).mpr hG',fun s' o hs => (hrest hG' s' o hs).mpr (hall s' o hs)⟩

/-- What each step preserves under the condition, the run preserves. -/
theorem run_invariant {G : σ → α → Prop} {P : σ → Prop}
    (hstep : ∀ s a s' o, P s → G s a → step s a = .ok (s',o) → P s')
    {s u : σ} {as : List α} {os : List ω} (hG : AllSteps step G s as) (hP : P s)
    (h : run step s as = .ok (u,os)) : P u := by
  induction as generalizing s os with
  | nil =>
    simp only [run_nil,Except.ok.injEq,Prod.mk.injEq] at h
    exact h.1 ▸ hP
  | cons a as ih =>
    obtain ⟨s',o,os',hs,hr,rfl⟩ := run_cons_eq_ok.mp h
    exact ih (hG.2 s' o hs) (hstep s a s' o hP hG.1 hs) hr

theorem run_counts {G : σ → α → Prop} {I : ℕ → σ → Prop} (counts : α → Bool) (bound : ℕ)
    (hcount : ∀ n s a s' o, counts a = true → n < bound → I n s → G s a → step s a = .ok (s',o) →
      I (n+1) s')
    (hother : ∀ n s a s' o, counts a = false → I n s → G s a → step s a = .ok (s',o) → I n s')
    {n : ℕ} {s u : σ} {as : List α} {os : List ω} (hG : AllSteps step G s as) (hI : I n s)
    (hb : n+as.countP counts ≤ bound) (h : run step s as = .ok (u,os)) : I (n+as.countP counts) u := by
  induction as generalizing n s os with
  | nil =>
    simp only [run_nil,Except.ok.injEq,Prod.mk.injEq] at h
    exact h.1 ▸ hI
  | cons a as ih =>
    obtain ⟨s',o,os',hs,hr,rfl⟩ := run_cons_eq_ok.mp h
    have hrest := hG.2 s' o hs
    cases hc : counts a with
    | false =>
      rw [List.countP_cons_of_neg (by simp [hc])] at hb ⊢
      exact ih hrest (hother n s a s' o hc hI hG.1 hs) hb hr
    | true =>
      have hcons : n+(a :: as).countP counts = n+1+as.countP counts := by
        rw [List.countP_cons_of_pos hc]
        omega
      rw [hcons] at hb ⊢
      exact ih hrest (hcount n s a s' o hc (by omega) hI hG.1 hs) hb hr

theorem run_map {β : Type} {step' : τ → β → Except ε (τ × ω)} (g : σ → τ) (h : α → β) (as : List α)
    (hstep : ∀ s, ∀ a ∈ as, (step s a).map (fun q => (g q.1,q.2)) = step' (g s) (h a)) (s : σ) :
    (run step s as).map (fun q => (g q.1,q.2)) = run step' (g s) (as.map h) := by
  induction as generalizing s with
  | nil => rfl
  | cons a as ih =>
    have ha := hstep s a (by simp)
    have hrest := ih fun s b hb => hstep s b (by simp [hb])
    rw [List.map_cons,run,run,← ha]
    cases step s a with
    | error e => rfl
    | ok q =>
      have hq := hrest q.1
      simp only [Except.map] at hq ⊢
      rw [← hq]
      cases run step q.1 as <;> rfl

/-- Both stop with the same error, or both go on with related states and matching outputs. -/
def Match {ω' : Type} (R : σ → τ → Prop) (f : ω' → ω) :
    Except ε (σ × ω) → Except ε (τ × ω') → Prop
  | .error e, .error e' => e = e'
  | .ok (s,o), .ok (t,p) => R s t ∧ o = f p
  | _, _ => False

/-- A machine has runs that match those of another one if its steps do wherever the condition of the
run holds. -/
theorem AllSteps.run_match {β ω' : Type} {step' : τ → β → Except ε (τ × ω')} {R : σ → τ → Prop}
    {f : ω' → ω} {G : σ → α → Prop} (h : α → β)
    (hstep : ∀ s t a, R s t → G s a → Match R f (step s a) (step' t (h a))) {as : List α} {s : σ} {t : τ}
    (hG : AllSteps step G s as) (hR : R s t) :
    Match R (List.map f) (run step s as) (run step' t (as.map h)) := by
  induction as generalizing s t with
  | nil => exact ⟨hR,rfl⟩
  | cons a as ih =>
    have ha := hstep s t a hR hG.1
    rw [List.map_cons,run,run]
    rcases hs : step s a with e | ⟨s',o⟩ <;> rcases ht : step' t (h a) with e' | ⟨t',p⟩ <;>
      rw [hs,ht] at ha
    · exact ha
    · exact ha.elim
    · exact ha.elim
    · have hrest := ih (hG.2 s' o hs) ha.1
      dsimp only
      rcases hu : run step s' as with e | ⟨u,os⟩ <;> rcases hv : run step' t' (as.map h) with e' | ⟨v,ps⟩ <;>
        rw [hu,hv] at hrest
      · exact hrest
      · exact hrest.elim
      · exact hrest.elim
      · exact ⟨hrest.1,by rw [ha.2,hrest.2,List.map_cons]⟩

theorem run_match {β ω' : Type} {step' : τ → β → Except ε (τ × ω')} {R : σ → τ → Prop}
    {f : ω' → ω} (h : α → β) (as : List α)
    (hstep : ∀ s t, R s t → ∀ a ∈ as, Match R f (step s a) (step' t (h a)))
    {s : σ} {t : τ} (hR : R s t) : Match R (List.map f) (run step s as) (run step' t (as.map h)) :=
  (allSteps_of_forall as (fun _ _ ha => ha) s).run_match h (fun s t a hR ha => hstep s t hR a ha) hR

section Match

variable {ω' : Type} {R : σ → τ → Prop} {f : ω' → ω}

theorem Match.of_ok {s : σ} {o : ω} {y : Except ε (τ × ω')} (h : Match R f (.ok (s,o)) y) :
    ∃ t p, y = .ok (t,p) ∧ R s t ∧ o = f p := by
  rcases y with e | ⟨t,p⟩
  · exact h.elim
  · exact ⟨t,p,rfl,h.1,h.2⟩

theorem Match.of_error {e : ε} {y : Except ε (τ × ω')} (h : Match R f (.error e) y) : y = .error e := by
  rcases y with e' | q
  · exact congrArg Except.error h.symm
  · exact h.elim

theorem Match.to_ok {x : Except ε (σ × ω)} {t : τ} {p : ω'} (h : Match R f x (.ok (t,p))) :
    ∃ s, x = .ok (s,f p) ∧ R s t := by
  rcases x with e | ⟨s,o⟩
  · exact h.elim
  · exact ⟨s,by rw [h.2],h.1⟩

theorem Match.map_eq {g : σ → τ} {x : Except ε (σ × ω)} {y : Except ε (τ × ω')} (h : Match R f x y)
    (hg : ∀ s t, R s t → g s = t) : x.map (fun q => (g q.1,q.2)) = y.map (fun q => (q.1,f q.2)) := by
  rcases x with e | ⟨s,o⟩ <;> rcases y with e' | ⟨t,p⟩
  · exact congrArg Except.error h
  · exact h.elim
  · exact h.elim
  · rw [Except.map,Except.map,hg s t h.1,h.2]

end Match

/-- A run that returns is a run of a machine that does the same on every step that returns. -/
theorem run_of_ok {β ε' : Type} {step' : σ → β → Except ε' (σ × ω)} (h : α → β)
    (hstep : ∀ s a q, step s a = .ok q → step' s (h a) = .ok q) {s u : σ} {as : List α}
    {os : List ω} (hr : run step s as = .ok (u,os)) : run step' s (as.map h) = .ok (u,os) := by
  induction as generalizing s os with
  | nil =>
    cases hr
    rfl
  | cons a as ih =>
    obtain ⟨s',o,os',hs,hrest,rfl⟩ := run_cons_eq_ok.mp hr
    exact run_cons (hstep s a _ hs) (ih hrest)

theorem exists_step_of_mem {s u : σ} {as : List α} {os : List ω} {o : ω} (hr : run step s as = .ok (u,os))
    (ho : o ∈ os) : ∃ front a t os₁ t', run step s front = .ok (t,os₁) ∧ step t a = .ok (t',o) := by
  induction as generalizing s os with
  | nil =>
    cases hr
    cases ho
  | cons a as ih =>
    obtain ⟨s',o',os',hs,hrest,rfl⟩ := run_cons_eq_ok.mp hr
    rcases List.mem_cons.mp ho with rfl | ho
    · exact ⟨[],a,s,[],s',rfl,hs⟩
    · obtain ⟨front,b,t,os₁,t',hf,ht⟩ := ih hrest ho
      exact ⟨a :: front,b,t,o' :: os₁,t',run_cons hs hf,ht⟩

theorem exists_step_of_error {s : σ} {as : List α} {e : ε} (h : run step s as = .error e) :
    ∃ t a, step t a = .error e := by
  induction as generalizing s with
  | nil => cases h
  | cons a as ih =>
    simp only [run] at h
    split at h
    · rename_i e' hs
      cases h
      exact ⟨s,a,hs⟩
    · rename_i s' o hs
      split at h
      · rename_i e' hr
        cases h
        exact ih hr
      · cases h

def follow (move : σ → α → σ × ω) : σ → List α → σ × List ω
  | s, [] => (s,[])
  | s, a :: as =>
    let r := move s a
    let u := follow move r.1 as
    (u.1,r.2 :: u.2)

theorem run_eq_follow {move : τ → α → τ × ω} {abs : σ → τ} {P : σ → Prop} {G : α → Prop}
    (hstep : ∀ s a, P s → G a → ∃ s' o, step s a = .ok (s',o) ∧ P s' ∧ move (abs s) a = (abs s',o))
    {as : List α} (hG : ∀ a ∈ as, G a) {s : σ} (hP : P s) :
    ∃ s' os, run step s as = .ok (s',os) ∧ follow move (abs s) as = (abs s',os) := by
  induction as generalizing s with
  | nil => exact ⟨s,[],rfl,rfl⟩
  | cons a as ih =>
    obtain ⟨s₁,o,hs,hP₁,hmove⟩ := hstep s a hP (hG a List.mem_cons_self)
    obtain ⟨s',os,hrun,hfollow⟩ := ih (fun b hb => hG b (List.mem_cons_of_mem a hb)) hP₁
    exact ⟨s',o :: os,run_cons hs hrun,by rw [follow,hmove,hfollow]⟩

end Runs
end CodingChallenges
