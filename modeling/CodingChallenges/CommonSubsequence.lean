import Mathlib.Data.List.Basic
import Mathlib.Tactic

/-! Longest common subsequences of two lists.
The greatest length obeys a recurrence on the last elements, so the lengths of all
pairs of initial parts form a table that can be filled row by row. -/
namespace CodingChallenges
namespace CommonSubsequence

variable {β : Type}

structure Common (c x y : List β) : Prop where
  left : c.Sublist x
  right : c.Sublist y

/-- `n` is the greatest length a common subsequence has. -/
structure Longest (x y : List β) (n : ℕ) : Prop where
  reached : ∃ c, Common c x y ∧ c.length = n
  bound : ∀ c, Common c x y → c.length ≤ n

theorem sublist_concat {c x : List β} {b : β} :
    c.Sublist (x ++ [b]) ↔ c.Sublist x ∨ ∃ d, c = d ++ [b] ∧ d.Sublist x := by
  constructor
  · intro h
    obtain ⟨d,e,rfl,hd,he⟩ := List.sublist_append_iff.mp h
    rcases List.sublist_singleton.mp he with rfl | rfl
    · exact Or.inl (by simpa using hd)
    · exact Or.inr ⟨d,rfl,hd⟩
  · rintro (h | ⟨d,rfl,hd⟩)
    · exact h.trans (List.sublist_append_left x [b])
    · exact hd.append (List.Sublist.refl [b])

theorem Common.mono {c x y u v : List β} (h : Common c x y) (hx : x.Sublist u) (hy : y.Sublist v) :
    Common c u v := ⟨h.left.trans hx,h.right.trans hy⟩

theorem Common.concat {c x y : List β} (h : Common c x y) (b : β) :
    Common (c ++ [b]) (x ++ [b]) (y ++ [b]) :=
  ⟨h.left.append (List.Sublist.refl [b]),h.right.append (List.Sublist.refl [b])⟩

theorem longest_nil_left (y : List β) : Longest [] y 0 where
  reached := ⟨[],⟨List.Sublist.refl [],List.nil_sublist y⟩,rfl⟩
  bound c hc := by simp [List.sublist_nil.mp hc.left]

theorem longest_nil_right (x : List β) : Longest x [] 0 where
  reached := ⟨[],⟨List.nil_sublist x,List.Sublist.refl []⟩,rfl⟩
  bound c hc := by simp [List.sublist_nil.mp hc.right]

theorem Longest.concat_eq {x y : List β} {n : ℕ} (h : Longest x y n) (b : β) :
    Longest (x ++ [b]) (y ++ [b]) (n+1) where
  reached := by
    obtain ⟨c,hc,hn⟩ := h.reached
    exact ⟨c ++ [b],hc.concat b,by simp [hn]⟩
  bound c hc := by
    -- without its last element the subsequence is common to the shorter lists
    have hd : Common c.dropLast x y := by
      constructor
      · rcases sublist_concat.mp hc.left with hx | ⟨d,rfl,hx⟩
        · exact (List.dropLast_sublist c).trans hx
        · simpa using hx
      · rcases sublist_concat.mp hc.right with hy | ⟨d,rfl,hy⟩
        · exact (List.dropLast_sublist c).trans hy
        · simpa using hy
    have hl := h.bound _ hd
    rw [List.length_dropLast] at hl
    omega

/-- Different last elements cannot both end a common subsequence. -/
theorem Longest.concat_ne {x y : List β} {b d : β} {m n : ℕ} (hne : b ≠ d)
    (hm : Longest x (y ++ [d]) m) (hn : Longest (x ++ [b]) y n) :
    Longest (x ++ [b]) (y ++ [d]) (max m n) where
  reached := by
    rcases le_total m n with hle | hle
    · obtain ⟨c,hc,hl⟩ := hn.reached
      exact ⟨c,hc.mono (List.Sublist.refl _) (List.sublist_append_left y [d]),by omega⟩
    · obtain ⟨c,hc,hl⟩ := hm.reached
      exact ⟨c,hc.mono (List.sublist_append_left x [b]) (List.Sublist.refl _),by omega⟩
  bound c hc := by
    rcases sublist_concat.mp hc.left with hx | ⟨u,rfl,hu⟩
    · exact (hm.bound c ⟨hx,hc.right⟩).trans (le_max_left m n)
    · rcases sublist_concat.mp hc.right with hy | ⟨v,he,hv⟩
      · exact (hn.bound _ ⟨hc.left,hy⟩).trans (le_max_right m n)
      · have hl := congrArg List.getLast? he
        simp only [List.getLast?_append,List.getLast?_singleton,Option.some_or] at hl
        exact absurd (Option.some.inj hl) hne

variable [DecidableEq β]

/-- The entry for the first `i` elements of `x` and the first `j` of `y`. -/
def table (x y : List β) : ℕ → ℕ → ℕ
  | 0, _ => 0
  | _+1, 0 => 0
  | i+1, j+1 =>
    if x[i]? = y[j]? then table x y i j + 1 else max (table x y i (j+1)) (table x y (i+1) j)

@[simp] theorem table_zero_left (x y : List β) (j : ℕ) : table x y 0 j = 0 := by
  rw [table]

@[simp] theorem table_zero_right (x y : List β) (i : ℕ) : table x y i 0 = 0 := by
  cases i <;> rw [table]

/-- Each entry of the table is the greatest length for its initial parts. -/
theorem longest_table (x y : List β) : ∀ i j, i ≤ x.length → j ≤ y.length →
    Longest (x.take i) (y.take j) (table x y i j)
  | 0, j, _, _ => by simpa using longest_nil_left (y.take j)
  | i+1, 0, _, _ => by simpa using longest_nil_right (x.take (i+1))
  | i+1, j+1, hi, hj => by
    have hx : x.take (i+1) = x.take i ++ [x[i]] := List.take_succ_eq_append_getElem hi
    have hy : y.take (j+1) = y.take j ++ [y[j]] := List.take_succ_eq_append_getElem hj
    have hij := longest_table x y i j (by omega) (by omega)
    have hup := longest_table x y i (j+1) (by omega) hj
    have hleft := longest_table x y (i+1) j hi (by omega)
    rw [table,List.getElem?_eq_getElem hi,List.getElem?_eq_getElem hj,hx,hy]
    rw [hy] at hup
    rw [hx] at hleft
    by_cases he : x[i] = y[j]
    · rw [if_pos (by rw [he]),he]
      exact hij.concat_eq y[j]
    · rw [if_neg (by simpa using he)]
      exact Longest.concat_ne he hup hleft

end CommonSubsequence
end CodingChallenges
