import Mathlib.Data.List.Destutter
import Mathlib.Data.List.SplitBy
import Mathlib.Tactic

/-! The runs of a list under a relation of neighbours, found in one pass.
The pass holds the length of the run it is in and the latest element. -/
namespace CodingChallenges
namespace AdjacentRuns

variable {α : Type} {r : α → α → Bool}

def pending (r : α → α → Bool) : α → ℕ → List α → List (ℕ × α)
  | a, n, [] => [(n,a)]
  | a, n, b :: l => if r a b then pending r b (n+1) l else (n,a) :: pending r b 1 l

theorem pending_ne_nil (a : α) (n : ℕ) (l : List α) : pending r a n l ≠ [] := by
  induction l generalizing a n with
  | nil => simp [pending]
  | cons b l ih =>
    rw [pending]
    split_ifs
    · exact ih b (n+1)
    · simp

theorem exists_ge_pending (a : α) (n : ℕ) (l : List α) : ∃ x ∈ pending r a n l, n ≤ x.1 := by
  induction l generalizing a n with
  | nil => exact ⟨(n,a),by simp [pending],le_refl n⟩
  | cons b l ih =>
    rw [pending]
    split_ifs
    · obtain ⟨x,hx,hn⟩ := ih b (n+1)
      exact ⟨x,hx,by omega⟩
    · exact ⟨(n,a),by simp,le_refl n⟩

theorem pending_add (a : α) (n m : ℕ) (l : List α) :
    pending r a (n+m) l = (pending r a n l).modifyHead fun x => (x.1+m,x.2) := by
  induction l generalizing a n with
  | nil => simp [pending]
  | cons b l ih =>
    rw [pending,pending]
    split_ifs
    · rw [← ih b (n+1)]
      congr 1
      omega
    · rfl

theorem splitBy_cons_of_not {a b : α} (h : ¬ r a b = true) (l : List α) :
    (a :: b :: l).splitBy r = [a] :: (b :: l).splitBy r :=
  List.splitBy_append_cons (l:=[a]) l (by simpa using h)

theorem splitBy_cons_of_rel {a b : α} (h : r a b = true) (l : List α) :
    (a :: b :: l).splitBy r = ((b :: l).splitBy r).modifyHead (List.cons a) := by
  obtain ⟨g,gs,hg⟩ := List.exists_cons_of_ne_nil (List.splitBy_ne_nil.mpr (List.cons_ne_nil b l) :
    (b :: l).splitBy r ≠ [])
  obtain ⟨hflat,hnil,hchain,hends⟩ := List.splitBy_eq_iff.mp hg
  obtain ⟨g',rfl⟩ : ∃ g', g = b :: g' := by
    cases g with
    | nil => simp at hnil
    | cons c g' =>
      rw [List.flatten_cons,List.cons_append] at hflat
      exact ⟨g',by rw [(List.cons.inj hflat).1]⟩
  rw [hg,List.modifyHead_cons,List.splitBy_eq_iff]
  refine ⟨by rw [hflat]; rfl,by simpa using hnil,fun m hm => ?_,?_⟩
  · rcases List.mem_cons.mp hm with rfl | hm
    · exact List.isChain_cons_cons.mpr ⟨h,hchain _ (by simp)⟩
    · exact hchain m (by simp [hm])
  · cases gs with
    | nil => exact List.isChain_singleton _
    | cons g₂ gs =>
      rw [List.isChain_cons_cons] at hends ⊢
      simpa using hends

def ends (r : α → α → Bool) : List α → List (ℕ × α)
  | [] => []
  | a :: l => pending r a 1 l

/-- The pass finds the runs. -/
theorem map_splitBy (l : List α) : (l.splitBy r).map (fun g => (g.length,g.getLast?)) =
    (ends r l).map fun x => (x.1,some x.2) := by
  cases l with
  | nil => rfl
  | cons a l =>
    induction l generalizing a with
    | nil => rfl
    | cons b l ih =>
      have ht := ih b
      rw [ends] at ht ⊢
      rw [pending]
      by_cases h : r a b = true
      · obtain ⟨g,gs,hg⟩ := List.exists_cons_of_ne_nil
          (List.splitBy_ne_nil.mpr (List.cons_ne_nil b l) : (b :: l).splitBy r ≠ [])
        have hne : g ≠ [] := List.ne_nil_of_mem_splitBy (r:=r) (l:=b :: l) (by simp [hg])
        obtain ⟨x,xs,hx⟩ := List.exists_cons_of_ne_nil (pending_ne_nil (r:=r) b 1 l)
        rw [hg,hx,List.map_cons,List.map_cons] at ht
        obtain ⟨h₁,h₂⟩ := List.cons.inj ht
        rw [Prod.mk.injEq] at h₁
        rw [splitBy_cons_of_rel h,hg,if_pos h,pending_add,hx]
        simp [h₁.1,h₂,List.getLast?_cons_of_ne_nil hne,h₁.2]
      · rw [splitBy_cons_of_not h,if_neg h,List.map_cons,List.map_cons,ht]
        rfl

theorem pos_of_mem_pending {a : α} {n : ℕ} {l : List α} (hn : 0 < n) {x : ℕ × α} (hx : x ∈ pending r a n l) :
    0 < x.1 := by
  induction l generalizing a n with
  | nil =>
    obtain rfl : x = (n,a) := by simpa [pending] using hx
    exact hn
  | cons b l ih =>
    rw [pending] at hx
    split_ifs at hx
    · exact ih (Nat.succ_pos n) hx
    · rcases List.mem_cons.mp hx with rfl | hx
      · exact hn
      · exact ih Nat.one_pos hx

theorem mem_of_mem_pending {a : α} {n : ℕ} {l : List α} {x : ℕ × α} (hx : x ∈ pending r a n l) :
    x.2 ∈ a :: l := by
  induction l generalizing a n with
  | nil =>
    obtain rfl : x = (n,a) := by simpa [pending] using hx
    simp
  | cons b l ih =>
    rw [pending] at hx
    split_ifs at hx
    · exact List.mem_cons_of_mem a (ih hx)
    · rcases List.mem_cons.mp hx with rfl | hx
      · simp
      · exact List.mem_cons_of_mem a (ih hx)

theorem mem_of_mem_ends {l : List α} {x : ℕ × α} (hx : x ∈ ends r l) : x.2 ∈ l := by
  cases l with
  | nil => simp [ends] at hx
  | cons a l => exact mem_of_mem_pending hx

theorem pending_map {β : Type} {s : β → β → Bool} {f : α → β} (h : ∀ a b, s (f a) (f b) = r a b) (a : α)
    (n : ℕ) (l : List α) : pending s (f a) n (l.map f) = (pending r a n l).map fun x => (x.1,f x.2) := by
  induction l generalizing a n with
  | nil => rfl
  | cons b l ih =>
    rw [List.map_cons,pending,pending,h,ih b (n+1),ih b 1]
    split_ifs <;> rfl

theorem ends_map {β : Type} {s : β → β → Bool} {f : α → β} (h : ∀ a b, s (f a) (f b) = r a b)
    (l : List α) :
    ends s (l.map f) = (ends r l).map fun x => (x.1,f x.2) := by
  cases l with
  | nil => rfl
  | cons a l => exact pending_map h a 1 l

theorem forall_ends_iff {l : List α} {P : ℕ → Prop} :
    (∀ x ∈ ends r l, P x.1) ↔ ∀ g ∈ l.splitBy r, P g.length := by
  have h := congrArg (List.map Prod.fst) (map_splitBy (r:=r) l)
  rw [List.map_map,List.map_map] at h
  have hl : (∀ n ∈ (ends r l).map (·.1), P n) ↔ ∀ n ∈ (l.splitBy r).map (·.length), P n := by
    rw [show (ends r l).map (·.1) = (l.splitBy r).map (·.length) from h.symm]
  simpa using hl

theorem flatMap_splitBy {β : Type} {l : List α} {f : List α → List β} {t : ℕ × α → List β}
    (h : ∀ g ∈ l.splitBy r, ∀ a, g.getLast? = some a → f g = t (g.length,a)) :
    (l.splitBy r).flatMap f = (ends r l).flatMap t := by
  have hf : ∀ g ∈ l.splitBy r, f g = g.getLast?.elim [] fun a => t (g.length,a) := by
    intro g hg
    have hl := List.getLast?_eq_some_getLast (List.ne_nil_of_mem_splitBy hg)
    rw [h g hg _ hl,hl]
    rfl
  calc (l.splitBy r).flatMap f
      = (l.splitBy r).flatMap fun g => g.getLast?.elim [] fun a => t (g.length,a) := List.flatMap_congr hf
    _ = ((l.splitBy r).map fun g => (g.length,g.getLast?)).flatMap
          fun x => x.2.elim [] fun a => t (x.1,a) := by rw [List.flatMap_map]
    _ = (ends r l).flatMap t := by rw [map_splitBy,List.flatMap_map]; rfl

theorem getLast?_splitBy (l : List α) : (l.splitBy r).getLast?.map (fun g => (g.length,g.getLast?)) =
    (ends r l).getLast?.map fun x => (x.1,some x.2) := by
  rw [← List.getLast?_map,← List.getLast?_map,map_splitBy]

theorem getLast?_of_isChain [DecidableEq α] {a : α} {g : List α}
    (h : (a :: g).IsChain fun x y => (x == y) = true) : (a :: g).getLast? = some a := by
  induction g generalizing a with
  | nil => rfl
  | cons b g ih =>
    rw [List.isChain_cons_cons,beq_iff_eq] at h
    obtain ⟨rfl,h⟩ := h
    rw [List.getLast?_cons_cons]
    exact ih h

theorem getLast?_of_mem_splitBy [DecidableEq α] {l g : List α} (h : g ∈ l.splitBy (· == ·)) :
    g.getLast? = g.head? := by
  have hc := List.isChain_of_mem_splitBy h
  cases g with
  | nil => rfl
  | cons a g => exact getLast?_of_isChain hc

theorem pending_replicate {a : α} (h : r a a = true) (n m : ℕ) :
    pending r a n (List.replicate m a) = [(n+m,a)] := by
  induction m generalizing n with
  | zero => rfl
  | succ m ih =>
    rw [List.replicate_succ,pending,if_pos h,ih]
    congr 2
    omega

theorem ends_replicate {a : α} (h : r a a = true) (m : ℕ) : ends r (List.replicate (m+1) a) = [(m+1,a)] := by
  rw [List.replicate_succ,ends,pending_replicate h,Nat.add_comm]

section Equal

variable [DecidableEq α]

/-- The runs of equal elements spell out the list. -/
theorem flatMap_replicate_pending (a : α) (n : ℕ) (l : List α) :
    (pending (· == ·) a n l).flatMap (fun x => List.replicate x.1 x.2) = List.replicate n a ++ l := by
  induction l generalizing a n with
  | nil => simp [pending]
  | cons b l ih =>
    rw [pending]
    split_ifs with h
    · obtain rfl := beq_iff_eq.mp h
      rw [ih,List.replicate_succ',List.append_assoc,List.singleton_append]
    · rw [List.flatMap_cons,ih]
      rfl

theorem flatMap_replicate_ends (l : List α) :
    (ends (· == ·) l).flatMap (fun x => List.replicate x.1 x.2) = l := by
  cases l with
  | nil => rfl
  | cons a l => exact flatMap_replicate_pending a 1 l

theorem map_pending_destutter (a : α) (n : ℕ) (l : List α) :
    (pending (· == ·) a n l).map Prod.snd = l.destutter' (· ≠ ·) a := by
  induction l generalizing a n with
  | nil => rfl
  | cons b l ih =>
    rw [pending]
    split_ifs with h
    · obtain rfl := beq_iff_eq.mp h
      rw [ih,List.destutter'_cons_neg _ (by simp)]
    · rw [List.map_cons,ih,List.destutter'_cons_pos _ (by simpa using h)]

theorem map_ends_destutter (l : List α) : (ends (· == ·) l).map Prod.snd = l.destutter (· ≠ ·) := by
  cases l with
  | nil => rfl
  | cons a l => exact map_pending_destutter a 1 l

theorem ends_of_isChain {l : List α} (h : l.IsChain (· ≠ ·)) : ends (· == ·) l = l.map fun a => (1,a) := by
  cases l with
  | nil => rfl
  | cons a l =>
    rw [ends]
    induction l generalizing a with
    | nil => rfl
    | cons b l ih =>
      rw [List.isChain_cons_cons] at h
      rw [pending,if_neg (by simpa using h.1),ih b h.2]
      rfl

end Equal

end AdjacentRuns
end CodingChallenges
