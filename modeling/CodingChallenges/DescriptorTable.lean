import Mathlib.Data.List.GetD
import Mathlib.Tactic

/-! Descriptor tables: which open file each descriptor of a process refers to. -/
namespace CodingChallenges
namespace DescriptorTable

variable {φ : Type}

/-- The descriptors 0, 1 and so on; a free one refers to no file. -/
abbrev Table (φ : Type) := List (Option φ)

def file (t : Table φ) (fd : ℕ) : Option φ := t.getD fd none

def assign (t : Table φ) (fd : ℕ) (f : Option φ) : Table φ :=
  if fd < t.length then t.set fd f else t ++ List.replicate (fd-t.length) none ++ [f]

def lowest (t : Table φ) : ℕ := t.findIdx Option.isNone

/-- `pipe`: the lowest free descriptor refers to the read end, the next one to the write end. -/
def pipe (t : Table φ) (r w : φ) : Table φ × ℕ × ℕ :=
  let fd₀ := lowest t
  let t := assign t fd₀ (some r)
  let fd₁ := lowest t
  (assign t fd₁ (some w),fd₀,fd₁)

/-- `dup2`; `none` is EBADF. -/
def dup2 (t : Table φ) (old new : ℕ) : Option (Table φ) :=
  match file t old with
  | none => none
  | some f => some (assign t new (some f))

/-- `close`; `none` is EBADF. -/
def close (t : Table φ) (fd : ℕ) : Option (Table φ) :=
  match file t fd with
  | none => none
  | some _ => some (assign t fd none)

theorem file_assign (t : Table φ) (fd j : ℕ) (f : Option φ) :
    file (assign t fd f) j = if j = fd then f else file t j := by
  unfold assign file
  split_ifs with hlt hj hj
  · subst hj
    simp [List.getD,hlt]
  · simp [List.getD,Ne.symm hj]
  · subst hj
    rw [List.getD_append_right _ _ _ _ (by simp; omega)]
    have hz : j-(t ++ List.replicate (j-t.length) none).length = 0 := by
      simp
      omega
    rw [hz]
    rfl
  · simp only [List.getD,List.getElem?_append,List.length_append,List.length_replicate,
      List.getElem?_replicate]
    split_ifs with h₁ h₂ h₃
    · rfl
    · rw [List.getElem?_eq_none (by omega : t.length ≤ j)]
      rfl
    · omega
    · rw [List.getElem?_eq_none (by omega : t.length ≤ j),List.getElem?_eq_none (by simp; omega)]

@[simp] theorem file_assign_self (t : Table φ) (fd : ℕ) (f : Option φ) : file (assign t fd f) fd = f := by
  rw [file_assign,if_pos rfl]

theorem file_assign_ne (t : Table φ) {fd j : ℕ} (f : Option φ) (h : j ≠ fd) :
    file (assign t fd f) j = file t j := by rw [file_assign,if_neg h]

theorem file_lowest (t : Table φ) : file t (lowest t) = none := by
  unfold file lowest
  by_cases h : t.findIdx Option.isNone < t.length
  · have hnone := List.findIdx_getElem (p:=Option.isNone) (w:=h)
    rw [List.getD_eq_getElem _ _ h]
    exact Option.isNone_iff_eq_none.mp hnone
  · exact List.getD_eq_default _ _ (by omega)

/-- What a new pipe does to a table: two descriptors that were free refer to its ends, and
nothing else changes. -/
structure NewPipe (t t' : Table φ) (fd₀ fd₁ : ℕ) (r w : φ) : Prop where
  free_read : file t fd₀ = none
  free_write : file t fd₁ = none
  read : file t' fd₀ = some r
  write : file t' fd₁ = some w
  other : ∀ fd, fd ≠ fd₀ → fd ≠ fd₁ → file t' fd = file t fd

theorem newPipe (t : Table φ) (r w : φ) :
    NewPipe t (pipe t r w).1 (pipe t r w).2.1 (pipe t r w).2.2 r w := by
  have h₀ : file t (lowest t) = none := file_lowest t
  have h₁ : file (assign t (lowest t) (some r)) (lowest (assign t (lowest t) (some r))) = none := file_lowest _
  have hne : lowest (assign t (lowest t) (some r)) ≠ lowest t := by
    intro he
    rw [he,file_assign_self] at h₁
    cases h₁
  constructor
  · exact h₀
  · rwa [file_assign_ne _ _ hne] at h₁
  · exact (file_assign_ne _ _ hne.symm).trans (file_assign_self _ _ _)
  · exact file_assign_self _ _ _
  · exact fun fd h h' => (file_assign_ne _ _ h').trans (file_assign_ne _ _ h)

theorem dup2_eq {t : Table φ} {old : ℕ} {f : φ} (h : file t old = some f) (new : ℕ) :
    dup2 t old new = some (assign t new (some f)) := by simp only [dup2,h]

theorem close_eq {t : Table φ} {fd : ℕ} {f : φ} (h : file t fd = some f) :
    close t fd = some (assign t fd none) := by simp only [close,h]

end DescriptorTable
end CodingChallenges
