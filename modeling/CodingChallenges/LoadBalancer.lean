import CodingChallenges.CMemory
import CodingChallenges.CyclicScan
import CodingChallenges.Runs

/-! The load balancer's choice of a backend: `pick_healthy` and the updates of the health
thread. Both hold the lock, so a run is a sequence of whole picks and whole updates. -/
namespace CodingChallenges
namespace LoadBalancer

open CMemory CyclicScan Runs

/-- The flags of the `n` backends and the next index to try. -/
structure Balancer (n : ℕ) where
  healthy : Fin n → Bool
  rr : ℕ

inductive Action (n : ℕ)
  | pick
  | update (i : Fin n) (up : Bool)

variable {n : ℕ}

def readHealthy (healthy : Fin n → Bool) (c : ℕ) : Except Fault Bool :=
  if h : c < n then .ok (healthy ⟨c,h⟩) else .error .badIndex

/-- The loop of `pick_healthy`, with `t` tries left: the new `rr`, and `idx` or `none` for -1. -/
def pickLoop (healthy : Fin n → Bool) : ℕ → ℕ → Except Fault (ℕ × Option ℕ)
  | 0, rr => .ok (rr,none)
  | t+1, rr => do
    let c := rr
    let rr := (rr+1) % n
    let up ← readHealthy healthy c
    if up then .ok (rr,some c) else pickLoop healthy t rr

def pickHealthy (b : Balancer n) : Except Fault (Balancer n × Option ℕ) := do
  let r ← pickLoop b.healthy n b.rr
  .ok ({ b with rr := r.1 },r.2)

def step (b : Balancer n) : Action n → Except Fault (Balancer n × Option (Option ℕ))
  | .pick => (pickHealthy b).map fun r => (r.1,some r.2)
  | .update i up => .ok ({ b with healthy := Function.update b.healthy i up },none)

def picks (os : List (Option (Option ℕ))) : List (Option ℕ) := os.filterMap id

def flag (healthy : Fin n → Bool) (c : ℕ) : Bool := if h : c < n then healthy ⟨c,h⟩ else false

@[simp] theorem flag_val (healthy : Fin n → Bool) (x : Fin n) : flag healthy x.val = healthy x := by
  simp [flag]

theorem pickLoop_eq_scan (healthy : Fin n → Bool) (t : ℕ) {rr : ℕ} (hr : rr < n) :
    pickLoop healthy t rr = .ok (scan (flag healthy) n t rr) := by
  induction t generalizing rr with
  | zero => rfl
  | succ t ih =>
    have hread : readHealthy healthy rr = .ok (flag healthy rr) := by simp [readHealthy,flag,hr]
    have ht : pickLoop healthy t ((rr+1) % n) = .ok (scan (flag healthy) n t ((rr+1) % n)) :=
      ih (Nat.mod_lt _ (by omega))
    simp only [pickLoop,hread,ht,scan,bind,Except.bind]
    split_ifs <;> rfl

theorem pickHealthy_eq {b : Balancer n} (hr : b.rr < n) :
    pickHealthy b =
      .ok ({ b with rr := (scan (flag b.healthy) n n b.rr).1 },(scan (flag b.healthy) n n b.rr).2) := by
  simp only [pickHealthy,pickLoop_eq_scan b.healthy n hr,bind,Except.bind]

/-- Without a healthy backend a pick returns -1 and leaves `rr` where it was. -/
theorem pickHealthy_none {b : Balancer n} (hr : b.rr < n) (h : ∀ i, b.healthy i = false) :
    pickHealthy b = .ok (b,none) := by
  have hf : ∀ c < n, flag b.healthy c = false := fun c hc => by simp [flag,hc,h]
  rw [pickHealthy_eq hr,scan_none hf n hr,Nat.add_mod_right,Nat.mod_eq_of_lt hr]

/-- With a healthy backend `x` a pick returns a healthy one no further away than `x`, and
leaves `rr` behind it. -/
theorem pickHealthy_some {b : Balancer n} (hr : b.rr < n) {x : Fin n} (hx : b.healthy x = true) :
    ∃ y : Fin n, pickHealthy b = .ok ({ b with rr := (y.val+1) % n },some y.val) ∧ b.healthy y = true ∧
      dist n y.val x.val ≤ dist n b.rr x.val := by
  have hfx : flag b.healthy x.val = true := by rwa [flag_val]
  obtain ⟨y,hs,hy,hp,hd⟩ := scan_some x.isLt hfx n hr (dist_lt hr x.isLt)
  refine ⟨⟨y,hy⟩,by rw [pickHealthy_eq hr,hs],?_,hd⟩
  rwa [← flag_val b.healthy ⟨y,hy⟩]

theorem step_pick {b b' : Balancer n} {idx : Option ℕ} (h : pickHealthy b = .ok (b',idx)) :
    step b .pick = .ok (b',some idx) := by
  simp only [step,h,Except.map]

/-- A step never faults and keeps `rr` in range. -/
theorem step_ok {b : Balancer n} (hr : b.rr < n) (a : Action n) :
    ∃ b' o, step b a = .ok (b',o) ∧ b'.rr < n := by
  cases a with
  | pick =>
    by_cases h : ∃ x, b.healthy x = true
    · obtain ⟨x,hx⟩ := h
      obtain ⟨y,hy,_⟩ := pickHealthy_some hr hx
      exact ⟨_,_,step_pick hy,Nat.mod_lt _ (Fin.pos y)⟩
    · have hf : ∀ i, b.healthy i = false := by simpa using h
      exact ⟨_,_,step_pick (pickHealthy_none hr hf),hr⟩
  | update i up => exact ⟨_,_,rfl,hr⟩

theorem run_ok {b : Balancer n} (hr : b.rr < n) (as : List (Action n)) :
    ∃ b' os, run step b as = .ok (b',os) ∧ b'.rr < n := by
  induction as generalizing b with
  | nil => exact ⟨b,[],rfl,hr⟩
  | cons a as ih =>
    obtain ⟨c,o,hs,hc⟩ := step_ok hr a
    obtain ⟨d,os,hd,hd'⟩ := ih hc
    exact ⟨d,o :: os,run_cons hs hd,hd'⟩

def Stays (x : Fin n) (b : Balancer n) (as : List (Action n)) : Prop :=
  AllSteps step (fun b _ => b.healthy x = true) b as

/-- While `x` stays healthy the picks are backends that approach it, starting no further
from it than `rr` is. -/
theorem picks_approach {b b' : Balancer n} {as : List (Action n)} {os : List (Option (Option ℕ))}
    (hr : b.rr < n) (h : run step b as = .ok (b',os)) {x : Fin n} (hx : Stays x b as) :
    ∃ l : List ℕ, picks os = l.map some ∧ (∀ y ∈ l, y < n) ∧ Approaches n x.val l ∧
      ∀ y ∈ l.head?, dist n y x.val ≤ dist n b.rr x.val := by
  induction as generalizing b os with
  | nil =>
    obtain ⟨_,rfl⟩ := Prod.mk.inj (Except.ok.inj h)
    exact ⟨[],rfl,by simp,List.isChain_nil,by simp⟩
  | cons a as ih =>
    obtain ⟨c,o,os',hs,hrun,rfl⟩ := run_cons_eq_ok.mp h
    have hcr : c.rr < n := by
      obtain ⟨d,o',hd,hdr⟩ := step_ok hr a
      obtain ⟨rfl,_⟩ := Prod.mk.inj (Except.ok.inj (hd.symm.trans hs))
      exact hdr
    obtain ⟨l,hl,hlt,hchain,hhead⟩ := ih hcr hrun (hx.2 c o hs)
    cases a with
    | update i up =>
      obtain ⟨rfl,rfl⟩ := Prod.mk.inj (Except.ok.inj hs)
      exact ⟨l,hl,hlt,hchain,hhead⟩
    | pick =>
      obtain ⟨y,hp,_,hd⟩ := pickHealthy_some hr hx.1
      obtain ⟨rfl,rfl⟩ := Prod.mk.inj (Except.ok.inj ((step_pick hp).symm.trans hs))
      refine ⟨y.val :: l,congrArg (some y.val :: ·) hl,?_,?_,by simpa using hd⟩
      · simpa using hlt
      · refine List.isChain_cons.mpr ⟨fun z hz hne => ?_,hchain⟩
        -- `rr` stands one step behind the backend picked
        have hstep := dist_succ y.isLt x.isLt hne
        have hz' : dist n z x.val ≤ dist n ((y.val+1) % n) x.val := hhead z hz
        omega

theorem infix_of_map {l : List ℕ} {w : List (Option ℕ)} (h : w <:+: l.map some) :
    ∃ v, w = v.map some ∧ v <:+: l := by
  obtain ⟨p,q,hpq⟩ := h
  obtain ⟨a,c,rfl,ha,hc⟩ := List.map_eq_append_iff.mp hpq.symm
  obtain ⟨p',v,rfl,_,hv⟩ := List.map_eq_append_iff.mp ha
  exact ⟨v,hv.symm,p',c,rfl⟩

/-- From the start on, in every run: `rr` stays in range; a pick returns -1 exactly when no
flag is set, and then changes nothing, and otherwise a backend whose flag is set. In every
stretch in which `x` stays healthy, `n` picks in a row return `x`, and between two picks of
`x` no backend is returned twice. -/
theorem pickHealthy_fair (hn : 0 < n) (healthy : Fin n → Bool) (as : List (Action n)) :
    ∃ b os, run step ⟨healthy,0⟩ as = .ok (b,os) ∧ b.rr < n ∧
      (∃ b' idx, pickHealthy b = .ok (b',idx) ∧ b'.healthy = b.healthy ∧
        (idx = none ↔ ∀ i, b.healthy i = false) ∧ (idx = none → b'.rr = b.rr) ∧
        ∀ y, idx = some y → ∃ i : Fin n, i.val = y ∧ b.healthy i = true) ∧
      ∀ (x : Fin n) (stretch : List (Action n)), Stays x b stretch →
        ∃ b' ps, run step b stretch = .ok (b',ps) ∧
          (∀ w, w <:+: picks ps → w.length = n → some x.val ∈ w) ∧
          ∀ w, [some x.val] ++ w ++ [some x.val] <:+: picks ps → some x.val ∉ w → w.Nodup := by
  obtain ⟨b,os,hrun,hr⟩ := run_ok (b:=⟨healthy,0⟩) hn as
  refine ⟨b,os,hrun,hr,?_,fun x stretch hx => ?_⟩
  · by_cases h : ∃ x, b.healthy x = true
    · obtain ⟨x,hx⟩ := h
      obtain ⟨y,hp,hy,_⟩ := pickHealthy_some hr hx
      refine ⟨_,_,hp,rfl,?_,by simp,fun z hz => ⟨y,by simpa using hz,hy⟩⟩
      simp only [reduceCtorEq,false_iff,not_forall]
      exact ⟨x,by simp [hx]⟩
    · have hf : ∀ i, b.healthy i = false := by simpa using h
      exact ⟨_,_,pickHealthy_none hr hf,rfl,by simpa using hf,fun _ => rfl,by simp⟩
  · obtain ⟨b',ps,hps,_⟩ := run_ok hr stretch
    obtain ⟨l,hl,hlt,hchain,_⟩ := picks_approach hr hps hx
    refine ⟨b',ps,hps,?_,?_⟩
    · intro w hw hlen
      rw [hl] at hw
      obtain ⟨v,rfl,hv⟩ := infix_of_map hw
      by_contra hxw
      have hxv : x.val ∉ v := fun h => hxw (List.mem_map_of_mem h)
      have hlt' := (hchain.of_infix hv).length_lt (fun y hy => hlt y (hv.subset hy)) x.isLt hxv
      rw [List.length_map] at hlen
      omega
    · intro w hw hxw
      have hwl : w <:+: l.map some := by
        rw [← hl]
        exact (List.IsInfix.trans ⟨[some x.val],[some x.val],rfl⟩ hw)
      obtain ⟨v,rfl,hv⟩ := infix_of_map hwl
      have hxv : x.val ∉ v := fun h => hxw (List.mem_map_of_mem h)
      exact ((hchain.of_infix hv).nodup hxv).map (Option.some_injective ℕ)

theorem pickHealthy_fair_three :
    ∃ b os, run step ⟨fun _ => false,0⟩ [.pick,.update (2 : Fin 3) true,.pick,.update 1 true] = .ok (b,os) ∧
      b.rr < 3 ∧
      (∃ b' idx, pickHealthy b = .ok (b',idx) ∧ b'.healthy = b.healthy ∧
        (idx = none ↔ ∀ i, b.healthy i = false) ∧ (idx = none → b'.rr = b.rr) ∧
        ∀ y, idx = some y → ∃ i : Fin 3, i.val = y ∧ b.healthy i = true) ∧
      ∀ (x : Fin 3) (stretch : List (Action 3)), Stays x b stretch →
        ∃ b' ps, run step b stretch = .ok (b',ps) ∧
          (∀ w, w <:+: picks ps → w.length = 3 → some x.val ∈ w) ∧
          ∀ w, [some x.val] ++ w ++ [some x.val] <:+: picks ps → some x.val ∉ w → w.Nodup :=
  pickHealthy_fair (by decide) (fun _ => false) [.pick,.update 2 true,.pick,.update 1 true]

example : (run step ⟨fun _ => false,0⟩ [.pick,.update (2 : Fin 3) true,.pick,.update 1 true,.pick,.pick]).map
    (fun r => (r.1.rr,picks r.2)) = .ok (0,[none,some 2,some 1,some 2]) := by decide

end LoadBalancer
end CodingChallenges
