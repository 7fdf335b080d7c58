import CodingChallenges.Runs
import Mathlib.Data.Set.Basic

/-! Machines whose state maps keys to values and whose actions use a part of the keys.
Clients whose parts do not overlap are isolated from each other: what a client sees in
a run is what it sees alone, however the actions of the others come in between. -/
namespace CodingChallenges
namespace Footprint

open Runs

variable {ι K V α ε ω : Type}

/-- Two states hold the same under the keys of `P`. -/
def AgreeOn (P : Set K) (s t : K → V) : Prop := ∀ k ∈ P, s k = t k

/-- An action changes keys of its footprint only, and what it does to them and returns
depends on these keys only. -/
structure Confined (step : (K → V) → α → Except ε ((K → V) × ω)) (foot : α → Set K) : Prop where
  keeps : ∀ s a s' o k, step s a = .ok (s',o) → k ∉ foot a → s' k = s k
  depends : ∀ s t a s' o, AgreeOn (foot a) s t → step s a = .ok (s',o) →
    ∃ t', step t a = .ok (t',o) ∧ AgreeOn (foot a) s' t'

variable {step : (K → V) → α → Except ε ((K → V) × ω)} {foot : α → Set K}

theorem AgreeOn.refl (P : Set K) (s : K → V) : AgreeOn P s s := fun _ _ => rfl

theorem AgreeOn.symm {P : Set K} {s t : K → V} (h : AgreeOn P s t) : AgreeOn P t s :=
  fun k hk => (h k hk).symm

theorem AgreeOn.mono {P Q : Set K} {s t : K → V} (h : AgreeOn P s t) (hs : Q ⊆ P) : AgreeOn Q s t :=
  fun k hk => h k (hs hk)

theorem Confined.inside (hc : Confined step foot) {P : Set K} {a : α} (ha : foot a ⊆ P) {s t s' : K → V}
    {o : ω} (h : AgreeOn P s t) (hs : step s a = .ok (s',o)) :
    ∃ t', step t a = .ok (t',o) ∧ AgreeOn P s' t' := by
  obtain ⟨t',ht,hagree⟩ := hc.depends s t a s' o (h.mono ha) hs
  refine ⟨t',ht,fun k hk => ?_⟩
  by_cases hf : k ∈ foot a
  · exact hagree k hf
  · rw [hc.keeps s a s' o k hs hf,hc.keeps t a t' o k ht hf]
    exact h k hk

theorem Confined.outside (hc : Confined step foot) {P : Set K} {a : α} (ha : ∀ k ∈ P, k ∉ foot a)
    {s s' : K → V} {o : ω} (hs : step s a = .ok (s',o)) : AgreeOn P s' s :=
  fun k hk => hc.keeps s a s' o k hs (ha k hk)

theorem Confined.mono (hc : Confined step foot) {foot' : α → Set K} (h : ∀ a, foot a ⊆ foot' a) :
    Confined step foot' where
  keeps s a s' o k hs hk := hc.keeps s a s' o k hs fun hf => hk (h a hf)
  depends _ _ a _ _ hagree hs := hc.inside (h a) hagree hs

theorem Confined.run_inside (hc : Confined step foot) {P : Set K} (as : List α) (hP : ∀ a ∈ as, foot a ⊆ P)
    {s t u : K → V} {os : List ω} (h : AgreeOn P s t) (hr : run step s as = .ok (u,os)) :
    ∃ v, run step t as = .ok (v,os) ∧ AgreeOn P u v := by
  induction as generalizing s t os with
  | nil =>
    simp only [run_nil,Except.ok.injEq,Prod.mk.injEq] at hr
    obtain ⟨rfl,rfl⟩ := hr
    exact ⟨t,rfl,h⟩
  | cons a as ih =>
    obtain ⟨s',o,os',hs,hrest,rfl⟩ := run_cons_eq_ok.mp hr
    obtain ⟨t',ht,hagree⟩ := hc.inside (hP a (by simp)) h hs
    obtain ⟨v,hv,hfin⟩ := ih (fun b hb => hP b (by simp [hb])) hagree hrest
    exact ⟨v,run_cons ht hv,hfin⟩

section Clients

def clientStep (step : (K → V) → α → Except ε ((K → V) × ω)) (s : K → V) (a : ι × α) :
    Except ε ((K → V) × ω) := step s a.2

/-- Every action stays within the part of its client, and no two parts overlap. -/
structure Separate (foot : α → Set K) (region : ι → Set K) (as : List (ι × α)) : Prop where
  own : ∀ a ∈ as, foot a.2 ⊆ region a.1
  apart : ∀ i j, ∀ k ∈ region i, k ∈ region j → i = j

variable {region : ι → Set K}

theorem Separate.tail {a : ι × α} {as : List (ι × α)} (h : Separate foot region (a :: as)) :
    Separate foot region as := ⟨fun b hb => h.own b (by simp [hb]),h.apart⟩

theorem Separate.other {a : ι × α} {as : List (ι × α)} (h : Separate foot region (a :: as)) {i : ι}
    (hi : a.1 ≠ i) : ∀ k ∈ region i, k ∉ foot a.2 :=
  fun k hk hf => hi (h.apart _ _ k (h.own a (by simp) hf) hk)

theorem Confined.run_rest (hc : Confined step foot) (as : List (ι × α)) (hsep : Separate foot region as)
    {s u : K → V} {os : List ω} (hr : run (clientStep step) s as = .ok (u,os)) {k : K}
    (hk : ∀ i, k ∉ region i) : u k = s k := by
  refine run_invariant (P:=fun w => w k = s k) (G:=fun _ a => foot a.2 ⊆ region a.1) ?_
    (allSteps_of_forall as (fun _ a ha => hsep.own a ha) s) rfl hr
  intro w a w' o hw hG hs
  exact (hc.keeps w a.2 w' o k hs fun hf => hk a.1 (hG hf)).trans hw

variable [DecidableEq ι]

def actionsOf (i : ι) (as : List (ι × α)) : List α := (as.filter fun a => a.1 = i).map Prod.snd

def outputsOf (i : ι) (as : List (ι × α)) (os : List ω) : List ω :=
  ((as.zip os).filter fun p => p.1.1 = i).map Prod.snd

theorem actionsOf_cons (i : ι) (a : ι × α) (as : List (ι × α)) :
    actionsOf i (a :: as) = if a.1 = i then a.2 :: actionsOf i as else actionsOf i as := by
  by_cases h : a.1 = i <;> simp [actionsOf,h]

theorem outputsOf_cons (i : ι) (a : ι × α) (as : List (ι × α)) (o : ω) (os : List ω) :
    outputsOf i (a :: as) (o :: os) = if a.1 = i then o :: outputsOf i as os else outputsOf i as os := by
  by_cases h : a.1 = i <;> simp [outputsOf,h]

theorem mem_actionsOf {i : ι} {a : α} {as : List (ι × α)} : a ∈ actionsOf i as ↔ (i,a) ∈ as := by
  simp [actionsOf]

theorem actionsOf_map {β : Type} (g : α → β) (i : ι) (as : List (ι × α)) :
    actionsOf i (as.map fun a => (a.1,g a.2)) = (actionsOf i as).map g := by
  induction as with
  | nil => rfl
  | cons a as ih =>
    rw [List.map_cons,actionsOf_cons,actionsOf_cons,ih]
    split_ifs <;> rfl

theorem outputsOf_map {β ω' : Type} (g : α → β) (f : ω' → ω) (i : ι) (as : List (ι × α)) (os : List ω') :
    outputsOf i as (os.map f) = (outputsOf i (as.map fun a => (a.1,g a.2)) os).map f := by
  induction as generalizing os with
  | nil => rfl
  | cons a as ih =>
    cases os with
    | nil => rfl
    | cons o os =>
      rw [List.map_cons,List.map_cons,outputsOf_cons,outputsOf_cons,ih]
      split_ifs <;> rfl

theorem outputsOf_congr {β : Type} {as : List (ι × α)} {bs : List (ι × β)}
    (h : as.map Prod.fst = bs.map Prod.fst)
    (i : ι) (os : List ω) : outputsOf i as os = outputsOf i bs os := by
  have has := outputsOf_map (fun _ : α => ()) id i as os
  have hbs := outputsOf_map (fun _ : β => ()) id i bs os
  have hunit {γ : Type} (cs : List (ι × γ)) :
      cs.map (fun a => (a.1,())) = (cs.map Prod.fst).map fun c => (c,()) := by simp
  rw [List.map_id] at has hbs
  rw [has,hbs,hunit,hunit,h]

/-- A client sees in a run what it sees alone, and its part ends as it does alone. -/
theorem Confined.run_project (hc : Confined step foot) (i : ι) (as : List (ι × α))
    (hsep : Separate foot region as) {s t u : K → V} {os : List ω} (h : AgreeOn (region i) s t)
    (hr : run (clientStep step) s as = .ok (u,os)) :
    ∃ v, run step t (actionsOf i as) = .ok (v,outputsOf i as os) ∧ AgreeOn (region i) u v := by
  induction as generalizing s t os with
  | nil =>
    simp only [run_nil,Except.ok.injEq,Prod.mk.injEq] at hr
    obtain ⟨rfl,rfl⟩ := hr
    exact ⟨t,rfl,h⟩
  | cons a as ih =>
    obtain ⟨s',o,os',hs,hrest,rfl⟩ := run_cons_eq_ok.mp hr
    rw [actionsOf_cons,outputsOf_cons]
    by_cases hi : a.1 = i
    · have hown : foot a.2 ⊆ region i := hi ▸ hsep.own a (by simp)
      obtain ⟨t',ht,hagree⟩ := hc.inside hown h hs
      obtain ⟨v,hv,hfin⟩ := ih hsep.tail hagree hrest
      rw [if_pos hi,if_pos hi]
      exact ⟨v,run_cons ht hv,hfin⟩
    · rw [if_neg hi,if_neg hi]
      have hout := hc.outside (hsep.other hi) hs
      exact ih hsep.tail (fun k hk => (hout k hk).trans (h k hk)) hrest

/-- Where every client can run alone, all of them can run together. -/
theorem Confined.run_together (hc : Confined step foot) (as : List (ι × α))
    (hsep : Separate foot region as) {s : K → V}
    (halone : ∀ i, ∃ v os, run step s (actionsOf i as) = .ok (v,os)) :
    ∃ u os, run (clientStep step) s as = .ok (u,os) := by
  induction as generalizing s with
  | nil => exact ⟨s,[],rfl⟩
  | cons a as ih =>
    have hown : ∀ i, ∀ b ∈ actionsOf i as, foot b ⊆ region i := by
      intro i b hb
      obtain ⟨c,hcm,rfl⟩ := List.mem_map.mp hb
      have hci := List.mem_filter.mp hcm
      obtain rfl : c.1 = i := by simpa using hci.2
      exact hsep.tail.own c hci.1
    obtain ⟨v,os,hv⟩ := halone a.1
    rw [actionsOf_cons,if_pos rfl] at hv
    obtain ⟨s',o,os',hs,hrest,-⟩ := run_cons_eq_ok.mp hv
    obtain ⟨u,os₂,hu⟩ := ih hsep.tail (s:=s') fun i => by
      by_cases hi : a.1 = i
      · subst hi
        exact ⟨v,os',hrest⟩
      · obtain ⟨w,ws,hw⟩ := halone i
        rw [actionsOf_cons,if_neg hi] at hw
        obtain ⟨x,hx,-⟩ := hc.run_inside _ (hown i) (hc.outside (hsep.other hi) hs).symm hw
        exact ⟨x,ws,hx⟩
    exact ⟨u,o :: os₂,run_cons hs hu⟩

/-- Two schedules with the same actions for every client, in the client's order, give every
client the same outputs and end in the same state. -/
theorem Confined.run_reschedule (hc : Confined step foot) {as bs : List (ι × α)}
    (hsep : Separate foot region as) (hsep' : Separate foot region bs)
    (hsame : ∀ i, actionsOf i as = actionsOf i bs) {s u : K → V} {os : List ω}
    (hr : run (clientStep step) s as = .ok (u,os)) :
    ∃ os', run (clientStep step) s bs = .ok (u,os') ∧ ∀ i, outputsOf i bs os' = outputsOf i as os := by
  have halone (i : ι) := hc.run_project i as hsep (AgreeOn.refl (region i) s) hr
  obtain ⟨w,os',hw⟩ := hc.run_together bs hsep' (s:=s) fun i => by
    obtain ⟨v,hv,-⟩ := halone i
    exact ⟨v,_,hsame i ▸ hv⟩
  have hboth (i : ι) : AgreeOn (region i) u w ∧ outputsOf i bs os' = outputsOf i as os := by
    obtain ⟨v,hv,hagree⟩ := halone i
    obtain ⟨v',hv',hagree'⟩ := hc.run_project i bs hsep' (AgreeOn.refl (region i) s) hw
    rw [← hsame i,hv] at hv'
    obtain ⟨rfl,hout⟩ := Prod.mk.inj (Except.ok.inj hv')
    exact ⟨fun k hk => (hagree k hk).trans (hagree' k hk).symm,hout.symm⟩
  have hfin : w = u := by
    funext k
    by_cases hk : ∃ i, k ∈ region i
    · obtain ⟨i,hi⟩ := hk
      exact ((hboth i).1 k hi).symm
    · have hnone : ∀ i, k ∉ region i := fun i hi => hk ⟨i,hi⟩
      rw [hc.run_rest bs hsep' hw hnone,hc.run_rest as hsep hr hnone]
  exact ⟨os',hfin ▸ hw,fun i => (hboth i).2⟩

end Clients

end Footprint
end CodingChallenges
