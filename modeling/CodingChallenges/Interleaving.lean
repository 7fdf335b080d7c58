import Mathlib.Data.List.Forall2
import Mathlib.Tactic

/-! Processes that share nothing.
A call changes the state of the process that makes it and may start a child with a copy of
that state. What a process comes to depends on its own calls alone, so the outcome of the
sequential execution is the outcome under every schedule. -/
namespace CodingChallenges
namespace Interleaving

variable {σ ι : Type}

structure Process (σ ι : Type) where
  state : σ
  todo : List ι

variable (act : σ → ι → Option σ) (spawn : ι → Option (List ι))

def step (ps : List (Process σ ι)) (q : ℕ) : Option (List (Process σ ι)) :=
  match ps[q]? with
  | some ⟨s,c :: todo⟩ =>
    match act s c with
    | none => none
    | some s' => some (ps.set q ⟨s',todo⟩ ++ ((spawn c).map (Process.mk s')).toList)
  | _ => some ps

def run (ps : List (Process σ ι)) (schedule : List ℕ) : Option (List (Process σ ι)) :=
  schedule.foldlM (step act spawn) ps

/-- Alone, the calls lead to the state `f`, and the children that they start, alone as well
and without children of their own, to the states `kids`. -/
inductive Outcome : σ → List ι → σ → List σ → Prop
  | done (s : σ) : Outcome s [] s []
  | call {s s' f : σ} {c : ι} {calls : List ι} {kids : List σ} : act s c = some s' → spawn c = none →
      Outcome s' calls f kids → Outcome s (c :: calls) f kids
  | fork {s s' f k : σ} {c : ι} {prog calls : List ι} {kids : List σ} : act s c = some s' →
      spawn c = some prog → Outcome s' prog k [] → Outcome s' calls f kids →
      Outcome s (c :: calls) f (k :: kids)

variable {act spawn}

theorem Outcome.append {s t f : σ} {as bs : List ι} {ks ls : List σ} (h : Outcome act spawn s as t ks)
    (h' : Outcome act spawn t bs f ls) : Outcome act spawn s (as ++ bs) f (ks ++ ls) := by
  induction h with
  | done => exact h'
  | call ha hs _ ih => exact .call ha hs (ih h')
  | fork ha hs hk _ _ ih => exact .fork ha hs hk (ih h')

theorem Outcome.one {s s' : σ} {c : ι} (ha : act s c = some s') (hs : spawn c = none) :
    Outcome act spawn s [c] s' [] := .call ha hs (.done s')

/-- A process that is on its way to a state, without children. -/
def Heads (act : σ → ι → Option σ) (spawn : ι → Option (List ι)) (p : Process σ ι) (f : σ) : Prop :=
  Outcome act spawn p.state p.todo f []

/-- The first process and the children so far are on their way, and it will start the others. -/
def Underway (act : σ → ι → Option σ) (spawn : ι → Option (List ι)) (f : σ) (kids : List σ)
    (ps : List (Process σ ι)) : Prop :=
  ∃ p qs earlier later, ps = p :: qs ∧ kids = earlier ++ later ∧
    Outcome act spawn p.state p.todo f later ∧ List.Forall₂ (Heads act spawn) qs earlier

theorem forall₂_set {α β : Type} {R : α → β → Prop} {l : List α} {m : List β} (h : List.Forall₂ R l m)
    {i : ℕ} {a x : α} (ha : l[i]? = some a) (hx : ∀ b, R a b → R x b) : List.Forall₂ R (l.set i x) m := by
  induction h generalizing i with
  | nil => simp at ha
  | cons hab hlm ih =>
    cases i with
    | zero =>
      obtain rfl : _ = a := by simpa using ha
      exact .cons (hx _ hab) hlm
    | succ i => exact .cons hab (ih (by simpa using ha))

theorem step_child {p : Process σ ι} {qs : List (Process σ ι)} {earlier : List σ}
    (h : List.Forall₂ (Heads act spawn) qs earlier) (q : ℕ) :
    ∃ qs', step act spawn (p :: qs) (q+1) = some (p :: qs') ∧
      List.Forall₂ (Heads act spawn) qs' earlier := by
  cases hq : qs[q]? with
  | none => exact ⟨qs,by simp [step,hq],h⟩
  | some r =>
    obtain ⟨s,todo⟩ := r
    cases todo with
    | nil => exact ⟨qs,by simp [step,hq],h⟩
    | cons c todo =>
      obtain ⟨k,hk⟩ : ∃ k, Heads act spawn ⟨s,c :: todo⟩ k := by
        obtain ⟨hlt,hget⟩ := List.getElem?_eq_some_iff.mp hq
        rw [← hget]
        exact ⟨_,h.get hlt (h.length_eq ▸ hlt)⟩
      cases hk with
      | @call _ s' _ _ _ _ ha hs hrest =>
        refine ⟨qs.set q ⟨s',todo⟩,by simp [step,hq,ha,hs],forall₂_set h hq fun b hb => ?_⟩
        cases hb with
        | call ha' _ hrest' =>
          rw [ha] at ha'
          cases ha'
          exact hrest'

/-- No choice stops the processes or takes them off their way. -/
theorem step_underway {f : σ} {kids : List σ} {ps : List (Process σ ι)}
    (h : Underway act spawn f kids ps) (q : ℕ) :
    ∃ ps', step act spawn ps q = some ps' ∧ Underway act spawn f kids ps' := by
  obtain ⟨p,qs,earlier,later,rfl,hkids,hp,hqs⟩ := h
  cases q with
  | succ q =>
    obtain ⟨qs',hstep,hqs'⟩ := step_child (p:=p) hqs q
    exact ⟨_,hstep,p,qs',earlier,later,rfl,hkids,hp,hqs'⟩
  | zero =>
    obtain ⟨s,todo⟩ := p
    cases hp with
    | done => exact ⟨_,rfl,_,qs,earlier,[],rfl,hkids,.done _,hqs⟩
    | @call _ s' _ c calls _ ha hs hrest =>
      exact ⟨_,by simp [step,ha,hs],⟨s',calls⟩,qs,earlier,later,rfl,hkids,hrest,hqs⟩
    | @fork _ s' _ k c prog calls ls ha hs hk hrest =>
      refine ⟨_,by simp [step,ha,hs],⟨s',calls⟩,qs ++ [⟨s',prog⟩],earlier ++ [k],ls,rfl,?_,hrest,?_⟩
      · rw [hkids,List.append_assoc]
        rfl
      · exact List.rel_append hqs (.cons hk .nil)

theorem run_underway {f : σ} {kids : List σ} (schedule : List ℕ) {ps : List (Process σ ι)}
    (h : Underway act spawn f kids ps) :
    ∃ ps', run act spawn ps schedule = some ps' ∧ Underway act spawn f kids ps' := by
  induction schedule generalizing ps with
  | nil => exact ⟨ps,rfl,h⟩
  | cons q schedule ih =>
    obtain ⟨ps₁,h₁,hu₁⟩ := step_underway h q
    obtain ⟨ps₂,h₂,hu₂⟩ := ih hu₁
    refine ⟨ps₂,?_,hu₂⟩
    rw [run,List.foldlM_cons,h₁]
    exact h₂

theorem heads_finished {qs : List (Process σ ι)} {ks : List σ} (h : List.Forall₂ (Heads act spawn) qs ks)
    (hdone : ∀ q ∈ qs, q.todo = []) : qs.map Process.state = ks := by
  induction h with
  | nil => rfl
  | @cons q k qs ks hq _ ih =>
    have hq' : Outcome act spawn q.state q.todo k [] := hq
    rw [hdone q (by simp)] at hq'
    cases hq'
    rw [List.map_cons,ih fun r hr => hdone r (by simp [hr])]

theorem Underway.finished {f : σ} {kids : List σ} {ps : List (Process σ ι)}
    (h : Underway act spawn f kids ps) (hdone : ∀ p ∈ ps, p.todo = []) :
    ps.map Process.state = f :: kids := by
  obtain ⟨p,qs,earlier,later,rfl,rfl,hp,hqs⟩ := h
  have hdone' : ∀ q ∈ qs, q.todo = [] := fun q hq => hdone q (by simp [hq])
  rw [hdone p (by simp)] at hp
  cases hp
  rw [List.map_cons,List.append_nil,heads_finished hqs hdone']

/-- Whatever the schedule, no call fails, and when all calls are made the processes are in
the states of the sequential execution. -/
theorem Outcome.run {s f : σ} {calls : List ι} {kids : List σ} (h : Outcome act spawn s calls f kids)
    (schedule : List ℕ) :
    ∃ ps, run act spawn [⟨s,calls⟩] schedule = some ps ∧
      ((∀ p ∈ ps, p.todo = []) → ps.map Process.state = f :: kids) := by
  obtain ⟨ps,hrun,hu⟩ := run_underway schedule
    (⟨_,[],[],kids,rfl,rfl,h,.nil⟩ : Underway act spawn f kids [⟨s,calls⟩])
  exact ⟨ps,hrun,hu.finished⟩

end Interleaving
end CodingChallenges
