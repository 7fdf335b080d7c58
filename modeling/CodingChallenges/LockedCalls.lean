import CodingChallenges.Footprint

/-! Clients that share a state behind one lock.
A client takes a request and prepares it on its own, makes one call under the lock, and gives
the reply back on its own. Every interleaving of such clients is a run of whole requests one
after the other, in the order of their calls. -/
namespace CodingChallenges
namespace LockedCalls

open Runs Footprint

variable {ι σ ρ κ π ω ε : Type} [DecidableEq ι]

/-- The two parts of a request: the work before the lock, and the call under it, at a reading. -/
structure Service (σ ρ κ π ω ε : Type) where
  prepare : ρ → Except ε π
  call : σ → κ → π → Except ε (σ × ω)

/-- Where a client is. -/
inductive Phase (ρ π ω : Type)
  | idle
  | holding (r : ρ) (p : π)
  | answered (o : ω)

structure System (ι σ ρ π ω : Type) where
  shared : σ
  phase : ι → Phase ρ π ω

inductive Action (ι ρ κ : Type)
  | take (c : ι) (r : ρ)
  | call (c : ι) (k : κ)
  | give (c : ι)

inductive Stop (ε : Type)
  | fault (e : ε)
  | disabled

/-- What a step shows: a request taken, a call made for it, a reply given. -/
inductive Event (ι ρ κ ω : Type)
  | taken (c : ι) (r : ρ)
  | called (c : ι) (k : κ) (r : ρ)
  | given (c : ι) (o : ω)

variable (S : Service σ ρ κ π ω ε)

def Service.whole (s : σ) (k : κ) (r : ρ) : Except ε (σ × ω) := do
  S.call s k (← S.prepare r)

def Service.step (s : System ι σ ρ π ω) : Action ι ρ κ →
    Except (Stop ε) (System ι σ ρ π ω × Event ι ρ κ ω)
  | .take c r =>
    match s.phase c with
    | .idle =>
      match S.prepare r with
      | .error e => .error (.fault e)
      | .ok p => .ok (⟨s.shared,Function.update s.phase c (.holding r p)⟩,.taken c r)
    | _ => .error .disabled
  | .call c k =>
    match s.phase c with
    | .holding r p =>
      match S.call s.shared k p with
      | .error e => .error (.fault e)
      | .ok (shared,o) => .ok (⟨shared,Function.update s.phase c (.answered o)⟩,.called c k r)
    | _ => .error .disabled
  | .give c =>
    match s.phase c with
    | .answered o => .ok (⟨s.shared,Function.update s.phase c .idle⟩,.given c o)
    | _ => .error .disabled

def order : List (Event ι ρ κ ω) → List (ι × κ × ρ)
  | [] => []
  | .called c k r :: es => (c,k,r) :: order es
  | .taken _ _ :: es => order es
  | .given _ _ :: es => order es

def taken (c : ι) : List (Event ι ρ κ ω) → List ρ
  | [] => []
  | .taken d r :: es => if d = c then r :: taken c es else taken c es
  | .called _ _ _ :: es => taken c es
  | .given _ _ :: es => taken c es

def given (c : ι) : List (Event ι ρ κ ω) → List ω
  | [] => []
  | .given d o :: es => if d = c then o :: given c es else given c es
  | .taken _ _ :: es => given c es
  | .called _ _ _ :: es => given c es

def Phase.waiting : Phase ρ π ω → List ρ
  | .holding r _ => [r]
  | .idle => []
  | .answered _ => []

def Phase.owed : Phase ρ π ω → List ω
  | .answered o => [o]
  | .idle => []
  | .holding _ _ => []

def Service.serve (s : σ) (q : ι × κ × ρ) : Except ε (σ × ω) := S.whole s q.2.1 q.2.2

/-- Whoever holds a prepared request has prepared it from the request taken. -/
def Service.Prepared (s : System ι σ ρ π ω) : Prop :=
  ∀ c r p, s.phase c = .holding r p → S.prepare r = .ok p

variable {S}

/-- What a step can do. -/
theorem step_cases {s s' : System ι σ ρ π ω} {a : Action ι ρ κ} {e : Event ι ρ κ ω}
    (h : S.step s a = .ok (s',e)) :
    (∃ c r p, s.phase c = .idle ∧ S.prepare r = .ok p ∧ e = .taken c r ∧
      s' = ⟨s.shared,Function.update s.phase c (.holding r p)⟩) ∨
    (∃ c k r p shared o, s.phase c = .holding r p ∧ S.call s.shared k p = .ok (shared,o) ∧
      e = .called c k r ∧ s' = ⟨shared,Function.update s.phase c (.answered o)⟩) ∨
    (∃ c o, s.phase c = .answered o ∧ e = .given c o ∧
      s' = ⟨s.shared,Function.update s.phase c .idle⟩) := by
  cases a with
  | take c r =>
    simp only [Service.step] at h
    split at h
    · rename_i hc
      split at h
      · contradiction
      · rename_i p hp
        cases h
        exact .inl ⟨c,r,p,hc,hp,rfl,rfl⟩
    · contradiction
  | call c k =>
    simp only [Service.step] at h
    split at h
    · rename_i r p hc
      split at h
      · contradiction
      · rename_i shared o hk
        cases h
        exact .inr (.inl ⟨c,k,r,p,shared,o,hc,hk,rfl,rfl⟩)
    · contradiction
  | give c =>
    simp only [Service.step] at h
    split at h
    · rename_i o hc
      cases h
      exact .inr (.inr ⟨c,o,hc,rfl,rfl⟩)
    · contradiction

theorem prepared_step {s s' : System ι σ ρ π ω} {a : Action ι ρ κ} {e : Event ι ρ κ ω}
    (hs : S.Prepared s) (h : S.step s a = .ok (s',e)) : S.Prepared s' := by
  intro c r p hc
  obtain ⟨d,r',p',-,hp,-,rfl⟩ | ⟨d,k,r',p',shared,o,-,-,-,rfl⟩ | ⟨d,o,-,-,rfl⟩ := step_cases h <;>
    by_cases hd : c = d
  · subst hd
    simp only [Function.update_self,Phase.holding.injEq] at hc
    obtain ⟨rfl,rfl⟩ := hc
    exact hp
  · exact hs c r p (by simpa [Function.update_of_ne hd] using hc)
  · subst hd
    simp at hc
  · exact hs c r p (by simpa [Function.update_of_ne hd] using hc)
  · subst hd
    simp at hc
  · exact hs c r p (by simpa [Function.update_of_ne hd] using hc)

/-- In any interleaving the shared state is what the whole requests leave when they are served
in the order of the calls, and each client has been given the replies it gets there, in order,
but for the one it still owes; no request is lost, repeated or reordered. -/
theorem run_linear {s u : System ι σ ρ π ω} (acts : List (Action ι ρ κ)) {es : List (Event ι ρ κ ω)}
    (hs : S.Prepared s) (h : run S.step s acts = .ok (u,es)) :
    ∃ os, run S.serve s.shared (order es) = .ok (u.shared,os) ∧ ∀ c,
      (s.phase c).owed ++ outputsOf c (order es) os = given c es ++ (u.phase c).owed ∧
      (s.phase c).waiting ++ taken c es =
        (actionsOf c (order es)).map Prod.snd ++ (u.phase c).waiting := by
  induction acts generalizing s es with
  | nil =>
    simp only [run_nil,Except.ok.injEq,Prod.mk.injEq] at h
    obtain ⟨rfl,rfl⟩ := h
    exact ⟨[],rfl,fun c => by simp [order,outputsOf,actionsOf,taken,given]⟩
  | cons a acts ih =>
    obtain ⟨s',e,es',hstep,hrest,rfl⟩ := run_cons_eq_ok.mp h
    obtain ⟨os,hrun,hclients⟩ := ih (prepared_step hs hstep) hrest
    obtain ⟨d,r,p,hd,-,rfl,rfl⟩ | ⟨d,k,r,p,shared,o,hd,hcall,rfl,rfl⟩ | ⟨d,o,hd,rfl,rfl⟩ := step_cases hstep
    · refine ⟨os,hrun,fun c => ?_⟩
      obtain ⟨ho,hw⟩ := hclients c
      by_cases hc : c = d
      · subst hc
        simp only [Function.update_self,Phase.owed,Phase.waiting,hd,given,taken,order,if_true,List.nil_append] at *
        exact ⟨ho,hw⟩
      · simp only [Function.update_of_ne hc,given,taken,order,if_neg (Ne.symm hc)] at *
        exact ⟨ho,hw⟩
    · have hwhole : S.serve s.shared (d,k,r) = .ok (shared,o) := by
        simp only [Service.serve,Service.whole,hs d r p hd,bind,Except.bind,hcall]
      refine ⟨o :: os,run_cons hwhole hrun,fun c => ?_⟩
      obtain ⟨ho,hw⟩ := hclients c
      by_cases hc : c = d
      · subst hc
        simp only [Function.update_self,Phase.owed,Phase.waiting,hd,given,taken,order,outputsOf_cons,
          actionsOf_cons,if_true,List.nil_append,List.map_cons,List.cons_append] at *
        exact ⟨ho,by rw [hw]⟩
      · simp only [Function.update_of_ne hc,given,taken,order,outputsOf_cons,actionsOf_cons,
          if_neg (Ne.symm hc)] at *
        exact ⟨ho,hw⟩
    · refine ⟨os,hrun,fun c => ?_⟩
      obtain ⟨ho,hw⟩ := hclients c
      by_cases hc : c = d
      · subst hc
        simp only [Function.update_self,Phase.owed,Phase.waiting,hd,given,taken,order,if_true,List.nil_append,
          List.cons_append] at *
        exact ⟨by rw [ho],hw⟩
      · simp only [Function.update_of_ne hc,given,taken,order,if_neg (Ne.symm hc)] at *
        exact ⟨ho,hw⟩

theorem mem_taken {c : ι} {r : ρ} {es : List (Event ι ρ κ ω)} (h : r ∈ taken c es) : .taken c r ∈ es := by
  induction es with
  | nil => simp [taken] at h
  | cons e es ih =>
    cases e with
    | taken d q =>
      simp only [taken] at h
      split_ifs at h with hd
      · subst hd
        rcases List.mem_cons.mp h with rfl | h
        · exact List.mem_cons_self
        · exact List.mem_cons_of_mem _ (ih h)
      · exact List.mem_cons_of_mem _ (ih h)
    | called d k q => exact List.mem_cons_of_mem _ (ih h)
    | given d o => exact List.mem_cons_of_mem _ (ih h)

theorem take_of_taken {s s' : System ι σ ρ π ω} {a : Action ι ρ κ} {c : ι} {r : ρ}
    (h : S.step s a = .ok (s',.taken c r)) : a = .take c r := by
  cases a <;> simp only [Service.step] at h <;> split at h
  · split at h
    · contradiction
    · cases h
      rfl
  · contradiction
  · split at h
    · contradiction
    · cases h
  · contradiction
  · cases h
  · contradiction

theorem sent_of_mem_order {s u : System ι σ ρ π ω} {acts : List (Action ι ρ κ)} {es : List (Event ι ρ κ ω)}
    (hs : S.Prepared s) (hidle : ∀ c, (s.phase c).waiting = []) (h : run S.step s acts = .ok (u,es))
    {q : ι × κ × ρ} (hq : q ∈ order es) : .take q.1 q.2.2 ∈ acts := by
  obtain ⟨os,-,hclients⟩ := run_linear acts hs h
  have htaken := (hclients q.1).2
  rw [hidle,List.nil_append] at htaken
  have hm : q.2.2 ∈ taken q.1 es := by
    rw [htaken]
    exact List.mem_append_left _ (List.mem_map_of_mem (mem_actionsOf.mpr hq))
  have hsent : ∀ {s : System ι σ ρ π ω} {acts : List (Action ι ρ κ)} {es : List (Event ι ρ κ ω)},
      run S.step s acts = .ok (u,es) → .taken q.1 q.2.2 ∈ es → .take q.1 q.2.2 ∈ acts := by
    intro s acts
    induction acts generalizing s with
    | nil =>
      intro es h he
      cases h
      contradiction
    | cons a acts ih =>
      intro es h he
      obtain ⟨s',e,es',hstep,hrest,rfl⟩ := run_cons_eq_ok.mp h
      rcases List.mem_cons.mp he with rfl | he
      · rw [take_of_taken hstep]
        exact List.mem_cons_self
      · exact List.mem_cons_of_mem _ (ih hrest he)
  exact hsent h (mem_taken hm)

end LockedCalls
end CodingChallenges
