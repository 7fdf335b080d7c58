import Mathlib.Data.List.Infix
import Mathlib.Data.List.TakeWhile
import Mathlib.Tactic

/-! Cutting a list at separators, as a loop does that begins a piece anew behind each of them
and keeps the last piece only where something is in it. -/
namespace CodingChallenges
namespace Pieces

variable {α : Type} (sep : α → Bool)

/-- The pieces of a list behind the beginning `t` of one. -/
def pieces : List α → List α → List (List α)
  | [], [] => []
  | x :: t, [] => [x :: t]
  | t, c :: w => if sep c then t :: pieces [] w else pieces (t ++ [c]) w

def stored (w : List α) : ℕ := w.countP sep+if w.getLast?.any (fun c => !sep c) then 1 else 0

def Clear (u : List α) : Prop := ∀ c ∈ u, sep c = false

variable {sep}

theorem pieces_nil (t : List α) : pieces sep t [] = if t = [] then [] else [t] := by cases t <;> simp [pieces]

theorem pieces_sep {c : α} (hc : sep c = true) (t w : List α) :
    pieces sep t (c :: w) = t :: pieces sep [] w := by
  cases t <;> simp [pieces,hc]

theorem pieces_other {c : α} (hc : ¬ sep c = true) (t w : List α) :
    pieces sep t (c :: w) = pieces sep (t ++ [c]) w := by
  cases t <;> simp [pieces,hc]

theorem clear_nil : Clear sep ([] : List α) := fun _ hc => absurd hc List.not_mem_nil

theorem Clear.snoc {t : List α} (ht : Clear sep t) {c : α} (hc : ¬ sep c = true) : Clear sep (t ++ [c]) := by
  intro d hd
  rcases List.mem_append.mp hd with hd | hd
  · exact ht d hd
  · rw [List.mem_singleton.mp hd]
    simpa using hc

theorem stored_cons_sep {c : α} (hc : sep c = true) (w : List α) : stored sep (c :: w) = stored sep w+1 := by
  cases w with
  | nil => simp [stored,hc]
  | cons d w =>
    simp only [stored,List.countP_cons_of_pos hc,List.getLast?_cons_cons]
    omega

theorem length_pieces (t w : List α) (ht : Clear sep t) : (pieces sep t w).length = stored sep (t ++ w) := by
  induction w generalizing t with
  | nil =>
    rw [pieces_nil,List.append_nil]
    have h0 : t.countP sep = 0 := by
      rw [List.countP_eq_zero]
      intro c hc
      simp [ht c hc]
    cases ht' : t.getLast? with
    | none =>
      obtain rfl := List.getLast?_eq_none_iff.mp ht'
      rfl
    | some c =>
      have hc : sep c = false := ht c (List.mem_of_getLast? ht')
      have hne : t ≠ [] := by
        rintro rfl
        simp at ht'
      simp [stored,h0,ht',hc,hne]
  | cons c w ih =>
    by_cases hc : sep c = true
    · rw [pieces_sep hc,List.length_cons,ih [] clear_nil]
      have h0 : t.countP sep = 0 := by
        rw [List.countP_eq_zero]
        intro d hd
        simp [ht d hd]
      have happ : stored sep (t ++ c :: w) = stored sep (c :: w) := by
        simp only [stored,List.countP_append,h0,Nat.zero_add]
        rw [List.getLast?_append,List.getLast?_cons]
        rfl
      rw [happ,stored_cons_sep hc]
      rfl
    · rw [pieces_other hc,ih (t ++ [c]) (ht.snoc hc)]
      simp

/-- A stretch without the separator `c` lies on one side of it. -/
theorem infix_around {u t w : List α} {c : α} (h : u <:+: t ++ c :: w) (hc : c ∉ u) :
    u <:+: t ∨ u <:+: w := by
  rcases List.infix_append_iff.mp h with h | h | ⟨a,b,rfl,ha,hb⟩
  · exact Or.inl h
  · rcases List.infix_cons_iff.mp h with h | h
    · cases u with
      | nil => exact Or.inr (List.nil_infix)
      | cons d u =>
        obtain ⟨rfl,_⟩ := List.cons_prefix_cons.mp h
        exact (hc (by simp)).elim
    · exact Or.inr h
  · cases b with
    | nil =>
      rw [List.append_nil]
      exact Or.inl ha.isInfix
    | cons d b =>
      obtain ⟨rfl,_⟩ := List.cons_prefix_cons.mp hb
      exact (hc (by simp)).elim

theorem mem_pieces {t w p : List α} (ht : Clear sep t) (hp : p ∈ pieces sep t w) :
    Clear sep p ∧ p <:+: t ++ w := by
  induction w generalizing t with
  | nil =>
    rw [pieces_nil] at hp
    split_ifs at hp with h
    · simp at hp
    · rw [List.mem_singleton.mp hp,List.append_nil]
      exact ⟨ht,List.infix_rfl⟩
  | cons c w ih =>
    by_cases hc : sep c = true
    · rw [pieces_sep hc] at hp
      rcases List.mem_cons.mp hp with rfl | hp
      · exact ⟨ht,List.infix_append_left⟩
      · obtain ⟨hclear,hin⟩ := ih clear_nil hp
        refine ⟨hclear,hin.trans ?_⟩
        exact ((List.suffix_cons c w).trans (List.suffix_append t (c :: w))).isInfix
    · rw [pieces_other hc] at hp
      simpa using ih (ht.snoc hc) hp

theorem exists_pieces {t w u : List α} (hu : Clear sep u) (hne : u ≠ []) (h : u <:+: t ++ w) :
    ∃ p ∈ pieces sep t w, u <:+: p := by
  induction w generalizing t with
  | nil =>
    rw [List.append_nil] at h
    have ht : t ≠ [] := by
      rintro rfl
      exact hne (List.infix_nil.mp h)
    exact ⟨t,by simp [pieces_nil,ht],h⟩
  | cons c w ih =>
    by_cases hc : sep c = true
    · have hcu : c ∉ u := by
        intro hm
        rw [hu c hm] at hc
        cases hc
      rw [pieces_sep hc]
      rcases infix_around h hcu with h | h
      · exact ⟨t,by simp,h⟩
      · obtain ⟨p,hp,hup⟩ := ih (t:=[]) h
        exact ⟨p,by simp [hp],hup⟩
    · rw [pieces_other hc]
      exact ih (by simpa using h)

theorem length_pieces_le_iff {m : ℕ} (w : List α) :
    (∀ p ∈ pieces sep [] w, p.length ≤ m) ↔ ∀ u, u <:+: w → Clear sep u → u.length ≤ m := by
  constructor
  · intro h u hu hclear
    by_cases hne : u = []
    · simp [hne]
    · obtain ⟨p,hp,hup⟩ := exists_pieces (t:=[]) hclear hne hu
      exact hup.length_le.trans (h p hp)
  · intro h p hp
    obtain ⟨hclear,hin⟩ := mem_pieces clear_nil hp
    exact h p hin hclear

/-- A part of a list is cut into no more pieces than the list. -/
theorem stored_mono {u w : List α} (h : u <:+: w) : stored sep u ≤ stored sep w := by
  obtain ⟨a,b,rfl⟩ := h
  have hcount : (a ++ u ++ b).countP sep = a.countP sep+u.countP sep+b.countP sep := by
    rw [List.countP_append,List.countP_append]
  cases hb : b.getLast? with
  | none =>
    obtain rfl := List.getLast?_eq_none_iff.mp hb
    cases hu : u.getLast? with
    | none =>
      obtain rfl := List.getLast?_eq_none_iff.mp hu
      simp [stored]
    | some c =>
      have hlast : (a ++ u ++ []).getLast? = some c := by simp [hu]
      simp only [stored,hcount,hlast,hu]
      omega
  | some d =>
    have hlast : (a ++ u ++ b).getLast? = some d := by simp [List.getLast?_append,hb]
    by_cases hd : sep d = true
    · have hpos : 0 < b.countP sep := List.countP_pos_iff.mpr ⟨d,List.mem_of_getLast? hb,hd⟩
      simp only [stored,hcount,hlast]
      split_ifs <;> omega
    · have hd' : sep d = false := by simpa using hd
      simp only [stored,hcount,hlast,Option.any_some,hd']
      split_ifs <;> simp_all <;> omega

theorem stored_insert {c c' : α} (hc : sep c = true) (hc' : sep c' = true) (a b : List α) :
    stored sep (a ++ c :: c' :: b) = stored sep (a ++ c :: b)+1 := by
  have hcount : (a ++ c :: c' :: b).countP sep = (a ++ c :: b).countP sep+1 := by
    simp only [List.countP_append,List.countP_cons_of_pos hc,List.countP_cons_of_pos hc']
    omega
  have hlast : (a ++ c :: c' :: b).getLast?.any (fun c => !sep c) =
      (a ++ c :: b).getLast?.any fun c => !sep c := by
    rw [List.getLast?_append,List.getLast?_append,List.getLast?_cons_cons,List.getLast?_cons,
      List.getLast?_cons]
    cases b.getLast? <;> simp [hc,hc']
  rw [stored,hcount,hlast,stored]
  omega

/-- Behind the pieces `splitOnP` may have one more, which is empty. -/
theorem splitOnP_eq (t w : List α) (ht : Clear sep t) :
    (t ++ w).splitOnP sep = pieces sep t w ∨ (t ++ w).splitOnP sep = pieces sep t w ++ [[]] := by
  induction w generalizing t with
  | nil =>
    rw [List.append_nil,List.splitOnP_eq_singleton ht,pieces_nil]
    split_ifs with h
    · exact Or.inr (by rw [h]; rfl)
    · exact Or.inl rfl
  | cons c w ih =>
    by_cases hc : sep c = true
    · rw [pieces_sep hc,List.splitOnP_append_cons_of_forall_mem ht c hc]
      have h := ih [] clear_nil
      rw [List.nil_append] at h
      rcases h with h | h <;> simp [h]
    · rw [pieces_other hc]
      have h := ih (t ++ [c]) (ht.snoc hc)
      simpa using h

theorem filter_splitOnP {p : List α → Bool} (hp : p [] = false) (w : List α) :
    (w.splitOnP sep).filter p = (pieces sep [] w).filter p := by
  have h := splitOnP_eq [] w (clear_nil : Clear sep [])
  rw [List.nil_append] at h
  rcases h with h | h <;> simp [h,hp]

theorem pieces_ne_nil_iff {d : α} {t : List α} (hd : sep d = true ↔ t = []) (w : List α) :
    (∀ p ∈ pieces sep t w, p ≠ []) ↔
      (d :: w).IsChain fun c c' => sep c = true → ¬ sep c' = true := by
  induction w generalizing d t with
  | nil =>
    rw [pieces_nil]
    split_ifs with h <;> simp [h]
  | cons c w ih =>
    rw [List.isChain_cons_cons]
    by_cases hc : sep c = true
    · have hbehind : sep c = true ↔ ([] : List α) = [] := iff_of_true hc rfl
      rw [pieces_sep hc,List.forall_mem_cons,ih hbehind]
      refine and_congr_left fun _ => ?_
      exact ⟨fun h hsep => (h (hd.mp hsep)).elim,fun h ht => h (hd.mpr ht) hc⟩
    · have hbehind : sep c = true ↔ t ++ [c] = [] := iff_of_false hc (by simp)
      rw [pieces_other hc,ih hbehind]
      exact ⟨fun h => ⟨fun _ => hc,h⟩,fun h => h.2⟩

theorem takeWhile_eq_filter_iff {p : α → Bool} (l : List α) :
    l.takeWhile p = l.filter p ↔ l.Pairwise fun x y => p y = true → p x = true := by
  induction l with
  | nil => simp
  | cons a l ih =>
    rw [List.pairwise_cons]
    by_cases ha : p a = true
    · rw [List.takeWhile_cons_of_pos ha,List.filter_cons_of_pos ha,List.cons_inj_right,ih]
      exact ⟨fun h => ⟨fun _ _ _ => ha,h⟩,fun h => h.2⟩
    · rw [List.takeWhile_cons_of_neg ha,List.filter_cons_of_neg ha,eq_comm,List.filter_eq_nil_iff]
      constructor
      · intro h
        have hfail : ∀ x ∈ l, ¬ p x = true := h
        refine ⟨fun y hy hpy => (hfail y hy hpy).elim,?_⟩
        exact List.pairwise_of_forall_mem_list fun x hx y hy hpy => (hfail y hy hpy).elim
      · intro h y hy hpy
        exact ha (h.1 y hy hpy)

theorem takeWhile_sublist_filter (p : α → Bool) (l : List α) : (l.takeWhile p).Sublist (l.filter p) := by
  have h := (List.takeWhile_prefix p (l:=l)).sublist.filter p
  rwa [List.filter_eq_self.mpr fun x hx => List.mem_takeWhile_imp hx] at h

theorem takeWhile_snoc {p : α → Bool} {a : α} (ha : p a = false) (l : List α) :
    (l ++ [a]).takeWhile p = l.takeWhile p := by
  induction l with
  | nil => simp [ha]
  | cons b l ih => rw [List.cons_append,List.takeWhile_cons,List.takeWhile_cons,ih]

theorem takeWhile_splitOnP {p : List α → Bool} (hp : p [] = false) (w : List α) :
    (w.splitOnP sep).takeWhile p = (pieces sep [] w).takeWhile p := by
  have h := splitOnP_eq [] w (clear_nil : Clear sep [])
  rw [List.nil_append] at h
  rcases h with h | h
  · rw [h]
  · rw [h,takeWhile_snoc hp]

end Pieces
end CodingChallenges
