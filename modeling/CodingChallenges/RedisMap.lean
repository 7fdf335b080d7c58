import CodingChallenges.RedisDb

/-! The chained table of the store is a finite map.
Its runs from the empty table are compared with the history of the operations:
what a key holds is what was last installed under it. -/
namespace CodingChallenges
namespace RedisMap

open CText ChainedTable RedisDb

/-- The two functions that change `hashtab`. -/
inductive TableOp
  | install (key value : CString) (expires_at_ms : UInt64)
  | undef (key : CString)

def apply (hashtab : HashTab) : TableOp → HashTab
  | .install key value expires_at_ms => (RedisDb.install hashtab key value expires_at_ms).1
  | .undef key => (RedisDb.undef hashtab key).1

def tableAfter (ops : List TableOp) : HashTab := ops.foldl apply emptyTab

def record (key : CString) (held : Option (CString × UInt64)) : TableOp → Option (CString × UInt64)
  | .install k value expires_at_ms => if k = key then some (value,expires_at_ms) else held
  | .undef k => if k = key then none else held

/-- The most recent install of the key that no undef of it follows. -/
def latest (key : CString) (ops : List TableOp) : Option (CString × UInt64) :=
  ops.foldl (record key) none

def entryOf (key : CString) (held : CString × UInt64) : Entry := ⟨key,held.1,held.2⟩

theorem wellFormed_apply {t : HashTab} (hw : layout.WellFormed t) (op : TableOp) :
    layout.WellFormed (apply t op) := by
  cases op with
  | install key value expires_at_ms => exact wellFormed_install hw
  | undef key => exact wellFormed_undef hw

theorem lookup_apply {t : HashTab} (hw : layout.WellFormed t) (op : TableOp) {key : CString}
    {held : Option (CString × UInt64)} (h : lookup t key = held.map (entryOf key)) :
    lookup (apply t op) key = (record key held op).map (entryOf key) := by
  cases op with
  | install k value expires_at_ms =>
    simp only [apply,record]
    split_ifs with hk
    · subst hk
      exact lookup_install_self
    · rw [lookup_install_other (Ne.symm hk),h]
  | undef k =>
    simp only [apply,record]
    split_ifs with hk
    · subst hk
      exact lookup_undef_self hw
    · rw [lookup_undef_other (Ne.symm hk),h]

theorem wellFormed_foldl (ops : List TableOp) {t : HashTab} (hw : layout.WellFormed t) :
    layout.WellFormed (ops.foldl apply t) := by
  induction ops generalizing t with
  | nil => exact hw
  | cons op ops ih => exact ih (wellFormed_apply hw op)

theorem lookup_foldl (ops : List TableOp) {t : HashTab} (hw : layout.WellFormed t) {key : CString}
    {held : Option (CString × UInt64)} (h : lookup t key = held.map (entryOf key)) :
    lookup (ops.foldl apply t) key = (ops.foldl (record key) held).map (entryOf key) := by
  induction ops generalizing t held with
  | nil => exact h
  | cons op ops ih => exact ih (wellFormed_apply hw op) (lookup_apply hw op h)

theorem lookup_tableAfter (ops : List TableOp) (key : CString) :
    lookup (tableAfter ops) key = (latest key ops).map (entryOf key) :=
  lookup_foldl ops wellFormed_emptyTab rfl

theorem hashtab_refines_map (ops : List TableOp) :
    (∀ b, ∀ e ∈ tableAfter ops b, hash e.key = b) ∧
    ((List.finRange HASH_SIZE).flatMap fun b => (tableAfter ops b).map Entry.key).Nodup ∧
    (∀ key, lookup (tableAfter ops) key = (latest key ops).map (entryOf key)) ∧
    (∀ key, (RedisDb.undef (tableAfter ops) key).2 = true ↔ ∃ b, ∃ e ∈ tableAfter ops b, e.key = key) ∧
    (∀ key value exp key', key' ≠ key →
      lookup (RedisDb.install (tableAfter ops) key value exp).1 key' = lookup (tableAfter ops) key') ∧
    (∀ key key', key' ≠ key →
      lookup (RedisDb.undef (tableAfter ops) key).1 key' = lookup (tableAfter ops) key') := by
  have hw : layout.WellFormed (tableAfter ops) := wellFormed_foldl ops wellFormed_emptyTab
  refine ⟨hw.placed,hw.keys_nodup (List.nodup_finRange _),lookup_tableAfter ops,?_,?_,?_⟩
  · intro key
    rw [undef_found,Option.isSome_iff_exists]
    constructor
    · rintro ⟨e,he⟩
      exact ⟨_,e,(search_mem he).1,lookup_key he⟩
    · rintro ⟨b,e,he,rfl⟩
      exact ⟨e,hw.mem_iff_find.mp ⟨b,he⟩⟩
  · exact fun key value exp key' h => lookup_install_other h
  · exact fun key key' h => lookup_undef_other h

end RedisMap
end CodingChallenges
