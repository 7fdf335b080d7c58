import Mathlib.Data.List.Basic
import Mathlib.Tactic

/-! Streams of records that say themselves where they end.
A reader takes one record off the front of a text; where it undoes the writer whatever
follows, the concatenation of any records is read back as those records and nothing
else, so no two sequences of records are written alike. -/
namespace CodingChallenges
namespace RecordStream

variable {β ρ ε : Type}

/-- Take records until the text is used up; `none` where a record cannot be read. -/
def readUpTo (read : List β → Option (ε × List β)) : ℕ → List β → Option (List ε)
  | _, [] => some []
  | 0, _ :: _ => none
  | n+1, s@(_ :: _) =>
    match read s with
    | none => none
    | some (e,t) => (readUpTo read n t).map (e :: ·)

def readAll (read : List β → Option (ε × List β)) (s : List β) : Option (List ε) :=
  readUpTo read s.length s

/-- The reader undoes the writer on the records `P`, and no record is written as nothing. -/
structure Reads (read : List β → Option (ε × List β)) (write : ρ → List β) (view : ρ → ε)
    (P : ρ → Prop) : Prop where
  nonempty : ∀ r, write r ≠ []
  undoes : ∀ r, P r → ∀ t, read (write r ++ t) = some (view r,t)

variable {read : List β → Option (ε × List β)} {write : ρ → List β} {view : ρ → ε} {P : ρ → Prop}

theorem readUpTo_cons {n : ℕ} {s t : List β} {e : ε} (hs : s ≠ []) (h : read s = some (e,t)) :
    readUpTo read (n+1) s = (readUpTo read n t).map (e :: ·) := by
  cases s with
  | nil => exact (hs rfl).elim
  | cons b s => rw [readUpTo,h]

theorem Reads.readUpTo_flatMap (h : Reads read write view P) (rs : List ρ) (hr : ∀ r ∈ rs, P r) {n : ℕ}
    (hn : (rs.flatMap write).length ≤ n) :
    readUpTo read n (rs.flatMap write) = some (rs.map view) := by
  induction rs generalizing n with
  | nil => cases n <;> rfl
  | cons r rs ih =>
    have hl := List.length_pos_of_ne_nil (h.nonempty r)
    rw [List.flatMap_cons,List.length_append] at hn
    obtain ⟨n,rfl⟩ : ∃ m, n = m+1 := ⟨n-1,by omega⟩
    have ht := ih (fun r hm => hr r (by simp [hm])) (n:=n) (by omega)
    have hne : write r ++ rs.flatMap write ≠ [] := by simp [h.nonempty r]
    rw [List.flatMap_cons,readUpTo_cons hne (h.undoes r (hr r (by simp)) _),ht]
    rfl

/-- What was written is read back, to the end of the text. -/
theorem Reads.readAll_flatMap (h : Reads read write view P) {rs : List ρ} (hr : ∀ r ∈ rs, P r) :
    readAll read (rs.flatMap write) = some (rs.map view) := h.readUpTo_flatMap rs hr (le_refl _)

theorem mem_readUpTo {Q : ε → Prop} (hQ : ∀ s e t, read s = some (e,t) → Q e) {n : ℕ} {s : List β}
    {es : List ε} (h : readUpTo read n s = some es) : ∀ e ∈ es, Q e := by
  induction n generalizing s es with
  | zero =>
    cases s with
    | nil =>
      obtain rfl := Option.some.inj h
      simp
    | cons b s => simp [readUpTo] at h
  | succ n ih =>
    cases s with
    | nil =>
      obtain rfl := Option.some.inj h
      simp
    | cons b s =>
      rw [readUpTo] at h
      split at h
      · contradiction
      · rename_i e t he
        obtain ⟨fs,hf,rfl⟩ := Option.map_eq_some_iff.mp h
        intro d hd
        rcases List.mem_cons.mp hd with rfl | hd
        · exact hQ _ _ _ he
        · exact ih hf d hd

end RecordStream
end CodingChallenges
