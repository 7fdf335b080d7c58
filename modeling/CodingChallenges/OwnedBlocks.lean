import CodingChallenges.CMemory

/-! Blocks of memory with one owner each.
A slot is a place that may own a block, such as a field of a node. Every allocated block is
owned by one slot, so a block is freed at most once and none is lost. -/
set_option linter.unusedSectionVars false
namespace CodingChallenges
namespace OwnedBlocks

open CMemory

variable {S A V : Type} [DecidableEq S] [DecidableEq A]

/-- `free` of a pointer, which may be null. -/
def free (mem : A → Option V) : Option A → Except Fault (A → Option V)
  | none => .ok mem
  | some a =>
    match mem a with
    | none => .error .useAfterFree
    | some _ => .ok (Function.update mem a none)

/-- `*a`. -/
def read (mem : A → Option V) (a : A) : Except Fault V :=
  match mem a with
  | none => .error .useAfterFree
  | some v => .ok v

/-- A slot owns a block and shows what is in it. -/
structure Owned (slot : S → Option (A × V)) (mem : A → Option V) : Prop where
  holds : ∀ i a v, slot i = some (a,v) → mem a = some v
  apart : ∀ i j a v w, slot i = some (a,v) → slot j = some (a,w) → i = j
  owner : ∀ a v, mem a = some v → ∃ i, slot i = some (a,v)

variable {slot slot' : S → Option (A × V)} {mem : A → Option V} {i : S} {a : A} {v : V}

theorem owned_empty : Owned (fun _ : S => (none : Option (A × V))) fun _ => none :=
  ⟨nofun,nofun,nofun⟩

theorem Owned.read (h : Owned slot mem) (hi : slot i = some (a,v)) : read mem a = .ok v := by
  rw [OwnedBlocks.read,h.holds i a v hi]

theorem Owned.fill (h : Owned slot mem) (hi : slot i = none) (ha : mem a = none) :
    Owned (Function.update slot i (some (a,v))) (Function.update mem a (some v)) := by
  have hne : ∀ j b w, slot j = some (b,w) → b ≠ a := by
    rintro j b w hj rfl
    rw [h.holds j b w hj] at ha
    cases ha
  refine ⟨fun j b w hj => ?_,fun j k b w u hj hk => ?_,fun b w hb => ?_⟩
  · by_cases hji : j = i
    · subst hji
      rw [Function.update_self,Option.some.injEq,Prod.mk.injEq] at hj
      obtain ⟨rfl,rfl⟩ := hj
      rw [Function.update_self]
    · rw [Function.update_of_ne hji] at hj
      rw [Function.update_of_ne (hne j b w hj),h.holds j b w hj]
  · by_cases hji : j = i <;> by_cases hki : k = i
    · rw [hji,hki]
    · subst hji
      rw [Function.update_self,Option.some.injEq,Prod.mk.injEq] at hj
      rw [Function.update_of_ne hki] at hk
      exact absurd hj.1.symm (hne k b u hk)
    · subst hki
      rw [Function.update_self,Option.some.injEq,Prod.mk.injEq] at hk
      rw [Function.update_of_ne hji] at hj
      exact absurd hk.1.symm (hne j b w hj)
    · rw [Function.update_of_ne hji] at hj
      rw [Function.update_of_ne hki] at hk
      exact h.apart j k b w u hj hk
  · by_cases hba : b = a
    · subst hba
      rw [Function.update_self] at hb
      exact ⟨i,by rw [Function.update_self,Option.some.inj hb]⟩
    · rw [Function.update_of_ne hba] at hb
      obtain ⟨j,hj⟩ := h.owner b w hb
      refine ⟨j,?_⟩
      rw [Function.update_of_ne,hj]
      rintro rfl
      rw [hi] at hj
      cases hj

theorem Owned.clear (h : Owned slot mem) (hi : slot i = some (a,v)) :
    free mem (some a) = .ok (Function.update mem a none) ∧
      Owned (Function.update slot i none) (Function.update mem a none) := by
  refine ⟨by rw [free,h.holds i a v hi],fun j b w hj => ?_,fun j k b w u hj hk => ?_,fun b w hb => ?_⟩
  · by_cases hji : j = i
    · subst hji
      rw [Function.update_self] at hj
      cases hj
    · rw [Function.update_of_ne hji] at hj
      rw [Function.update_of_ne,h.holds j b w hj]
      rintro rfl
      exact hji (h.apart j i b w v hj hi)
  · by_cases hji : j = i
    · subst hji
      rw [Function.update_self] at hj
      cases hj
    · by_cases hki : k = i
      · subst hki
        rw [Function.update_self] at hk
        cases hk
      · rw [Function.update_of_ne hji] at hj
        rw [Function.update_of_ne hki] at hk
        exact h.apart j k b w u hj hk
  · by_cases hba : b = a
    · subst hba
      rw [Function.update_self] at hb
      cases hb
    · rw [Function.update_of_ne hba] at hb
      obtain ⟨j,hj⟩ := h.owner b w hb
      refine ⟨j,?_⟩
      rw [Function.update_of_ne,hj]
      rintro rfl
      rw [hi,Option.some.injEq,Prod.mk.injEq] at hj
      exact hba hj.1.symm

theorem Owned.release (h : Owned slot mem) (i : S) :
    ∃ mem', free mem ((slot i).map Prod.fst) = .ok mem' ∧ Owned (Function.update slot i none) mem' := by
  cases hi : slot i with
  | none => exact ⟨mem,rfl,by rwa [← hi,Function.update_eq_self]⟩
  | some r => exact ⟨_,h.clear (v:=r.2) hi⟩

/-- A slot gets a new block while it still owns the old one, which is freed then. -/
theorem Owned.replace (h : Owned slot mem) (i : S) (ha : mem a = none) (v : V) :
    ∃ mem', free (Function.update mem a (some v)) ((slot i).map Prod.fst) = .ok mem' ∧
      Owned (Function.update slot i (some (a,v))) mem' := by
  cases hi : slot i with
  | none => exact ⟨_,rfl,h.fill hi ha⟩
  | some r =>
    obtain ⟨b,w⟩ := r
    have hne : b ≠ a := by
      rintro rfl
      rw [h.holds i b w hi] at ha
      cases ha
    have hclear := (h.clear hi).2
    have hfill := hclear.fill (i:=i) (a:=a) (v:=v) (Function.update_self ..) (by rwa [Function.update_of_ne hne.symm])
    rw [Function.update_idem] at hfill
    refine ⟨_,?_,hfill⟩
    rw [Option.map_some,free,Function.update_of_ne hne,h.holds i b w hi,Function.update_comm hne]

/-- A block that is freed, and one that was free before, can be handed out. -/
theorem free_none {mem' : A → Option V} {q : Option A} (h : free mem q = .ok mem')
    (ha : mem a = none ∨ q = some a) : mem' a = none := by
  cases q with
  | none =>
    obtain rfl := Except.ok.inj h
    exact ha.resolve_right (by simp)
  | some b =>
    rw [free] at h
    split at h
    · cases h
    · obtain rfl := Except.ok.inj h
      by_cases hab : a = b
      · rw [hab,Function.update_self]
      · rw [Function.update_of_ne hab]
        exact ha.resolve_right fun hb => hab (Option.some.inj hb).symm

theorem Owned.all_free (h : Owned slot mem) (hnone : ∀ i, slot i = none) (a : A) : mem a = none := by
  cases hm : mem a with
  | none => rfl
  | some v =>
    obtain ⟨i,hi⟩ := h.owner a v hm
    rw [hnone i] at hi
    cases hi

end OwnedBlocks
end CodingChallenges
