import Mathlib.Data.List.Chain
import Mathlib.Data.List.Nodup
import Mathlib.Data.List.Infix
import Mathlib.Tactic

/-! Scans around a circle of `n` places.
`dist` counts the steps from one place to another. A scan stops at the first place with
a property and leaves off behind it, so that as long as one place `x` keeps the property,
every scan that stops elsewhere comes nearer to `x`, and no place is met twice before `x`. -/
namespace CodingChallenges
namespace CyclicScan

/-- The steps from `a` forward to `b`. -/
def dist (n a b : ℕ) : ℕ := if a ≤ b then b-a else n+b-a

theorem dist_lt {n a b : ℕ} (ha : a < n) (hb : b < n) : dist n a b < n := by
  unfold dist
  split_ifs <;> omega

theorem succ_mod {n a : ℕ} (ha : a < n) : (a+1) % n = if a+1 = n then 0 else a+1 := by
  split_ifs with h
  · rw [h,Nat.mod_self]
  · exact Nat.mod_eq_of_lt (by omega)

theorem dist_succ {n a b : ℕ} (ha : a < n) (hb : b < n) (h : a ≠ b) :
    dist n ((a+1) % n) b + 1 = dist n a b := by
  rw [succ_mod ha]
  unfold dist
  split_ifs <;> omega

/-- At most `t` places from `a` on, up to the first one with the property: where the scan
leaves off, and the place. -/
def scan (p : ℕ → Bool) (n : ℕ) : ℕ → ℕ → ℕ × Option ℕ
  | 0, a => (a,none)
  | t+1, a => if p a then ((a+1) % n,some a) else scan p n t ((a+1) % n)

theorem scan_none {p : ℕ → Bool} {n : ℕ} (hp : ∀ b < n, p b = false) (t : ℕ) {a : ℕ} (ha : a < n) :
    scan p n t a = ((a+t) % n,none) := by
  induction t generalizing a with
  | zero => simp [scan,Nat.mod_eq_of_lt ha]
  | succ t ih =>
    have hn : (a+1) % n < n := Nat.mod_lt _ (by omega)
    rw [scan,if_neg (by simp [hp a ha]),ih hn,Nat.mod_add_mod]
    congr 2
    omega

/-- A scan that reaches as far as `x` stops no further than `x` at a place with the property. -/
theorem scan_some {p : ℕ → Bool} {n x : ℕ} (hx : x < n) (hp : p x = true) (t : ℕ) {a : ℕ} (ha : a < n)
    (ht : dist n a x < t) :
    ∃ y, scan p n t a = ((y+1) % n,some y) ∧ y < n ∧ p y = true ∧ dist n y x ≤ dist n a x := by
  induction t generalizing a with
  | zero => omega
  | succ t ih =>
    by_cases hpa : p a = true
    · exact ⟨a,by rw [scan,if_pos hpa],ha,hpa,le_refl _⟩
    · have hne : a ≠ x := by
        rintro rfl
        exact hpa hp
      have hd := dist_succ ha hx hne
      obtain ⟨y,hs,hy,hpy,hle⟩ := ih (a:=(a+1) % n) (Nat.mod_lt _ (by omega)) (by omega)
      exact ⟨y,by rw [scan,if_neg hpa,hs],hy,hpy,by omega⟩

/-- Each stop elsewhere than at `x` is followed by one nearer to `x`. -/
def Approaches (n x : ℕ) (l : List ℕ) : Prop :=
  l.IsChain fun y z => y ≠ x → dist n z x < dist n y x

theorem Approaches.of_infix {n x : ℕ} {l w : List ℕ} (h : Approaches n x l) (hw : w <:+: l) :
    Approaches n x w := List.IsChain.infix h hw

/-- Without a stop at `x` the distances fall all along. -/
theorem Approaches.pairwise {n x : ℕ} {w : List ℕ} (h : Approaches n x w) (hx : x ∉ w) :
    w.Pairwise fun y z => dist n z x < dist n y x := by
  have hc : w.IsChain fun y z => dist n z x < dist n y x := by
    induction w with
    | nil => simp
    | cons y w ih =>
      rw [List.mem_cons,not_or] at hx
      have hyw := List.isChain_cons.mp h
      exact List.isChain_cons.mpr ⟨fun z hz => hyw.1 z hz (Ne.symm hx.1),ih hyw.2 hx.2⟩
  exact hc.pairwise

theorem Approaches.nodup {n x : ℕ} {w : List ℕ} (h : Approaches n x w) (hx : x ∉ w) : w.Nodup :=
  (h.pairwise hx).imp fun hlt he => by
    rw [he] at hlt
    exact lt_irrefl _ hlt

theorem Approaches.length_lt {n x : ℕ} {w : List ℕ} (h : Approaches n x w) (hw : ∀ y ∈ w, y < n)
    (hxn : x < n) (hx : x ∉ w) : w.length < n := by
  have hnd : (x :: w).Nodup := List.nodup_cons.mpr ⟨hx,h.nodup hx⟩
  have hsub : x :: w ⊆ List.range n := by
    intro y hy
    rcases List.mem_cons.mp hy with rfl | hy
    · exact List.mem_range.mpr hxn
    · exact List.mem_range.mpr (hw y hy)
  have hl := (hnd.subperm hsub).length_le
  rw [List.length_cons,List.length_range] at hl
  omega

/-- Stops at another place are at most one more than those at `x`. -/
theorem Approaches.count_le {n x y : ℕ} (hxy : y ≠ x) {l : List ℕ} (h : Approaches n x l) :
    l.count y ≤ l.count x+1 := by
  induction hl : l.length using Nat.strong_induction_on generalizing l with
  | _ k ih =>
    by_cases hx : x ∈ l
    · obtain ⟨a,b,rfl,ha⟩ := List.eq_append_cons_of_mem hx
      have hfront := (h.of_infix (List.prefix_append a (x :: b)).isInfix).nodup ha
      have hrest := ih b.length (by rw [← hl]; simp; omega)
        (h.of_infix ((List.suffix_cons x b).isInfix.trans (List.suffix_append a (x :: b)).isInfix)) rfl
      have hone := List.nodup_iff_count_le_one.mp hfront y
      rw [List.count_append,List.count_append,List.count_cons_of_ne hxy.symm,List.count_cons_self]
      omega
    · have hone := List.nodup_iff_count_le_one.mp (h.nodup hx) y
      omega

end CyclicScan
end CodingChallenges
