import CodingChallenges.CMemory
import CodingChallenges.ChainedTable

/-! The key/value store of the Redis clone (`db.c`, `db_dto.h`, `utils.c`).
`hashtab` is an array of chains of entries. Allocations succeed here, so
`install` always returns the entry it stored. -/
namespace CodingChallenges
namespace RedisDb

open CText CMemory ChainedTable

abbrev HASH_SIZE : ℕ := 1000

/-- djb2 over `unsigned long`, folded into the table size. -/
def hash (s : CString) : Fin HASH_SIZE :=
  let h := s.bytes.foldl (fun (h : UInt64) c => ((h <<< 5) + h) + c.toUInt64) 5381
  ⟨(h % 1000).toNat,by
    rw [UInt64.toNat_mod]
    exact Nat.mod_lt _ (by decide)⟩

structure Entry where
  key : CString
  value : CString
  expires_at_ms : UInt64
  deriving DecidableEq

def layout : Layout Entry CString (Fin HASH_SIZE) := ⟨Entry.key,hash⟩

abbrev HashTab := Table Entry (Fin HASH_SIZE)

def emptyTab : HashTab := fun _ => []

/-- `expires_at_ms == 0` means no expiry. -/
def expired (e : Entry) (now : UInt64) : Bool :=
  e.expires_at_ms ≠ 0 && e.expires_at_ms ≤ now

def lookup (hashtab : HashTab) (key : CString) : Option Entry := layout.find hashtab key

/-- Insert in front of the chain, or replace value and expiry in place. -/
def install (hashtab : HashTab) (key value : CString) (expires_at_ms : UInt64) : HashTab × Entry :=
  match lookup hashtab key with
  | none =>
    let p : Entry := ⟨key,value,expires_at_ms⟩
    (layout.insertHead hashtab p,p)
  | some p =>
    (layout.change hashtab key fun p => { p with value := value, expires_at_ms := expires_at_ms },
      { p with value := value, expires_at_ms := expires_at_ms })

/-- Unlink the entry of the key; the flag says whether there was one. -/
def undef (hashtab : HashTab) (key : CString) : HashTab × Bool := layout.remove hashtab key

def dbSet (hashtab : HashTab) (key value : CString) : HashTab := (install hashtab key value 0).1

def dbSetEx (hashtab : HashTab) (key value : CString) (expires_at_ms : UInt64) : HashTab :=
  (install hashtab key value expires_at_ms).1

def dbGet (hashtab : HashTab) (key : CString) (now : UInt64) : HashTab × Option CString :=
  match lookup hashtab key with
  | none => (hashtab,none)
  | some p =>
    if expired p now then ((undef hashtab p.key).1,none)   -- lazy delete on read
    else (hashtab,some p.value)

/-- `db_del` looks at no expiry. -/
def dbDel (hashtab : HashTab) (key : CString) : HashTab × Bool := undef hashtab key

/-- Base-10 text of an `int`, read to its end. -/
def isNumber (s : CString) : Bool :=
  let c := strtol s
  c.used ≠ 0 && c.used == s.length && !c.erange && INT_MIN ≤ c.value && c.value ≤ INT_MAX

/-- `ok` with its value, or not `ok` with its error, never both or neither. -/
inductive DbResult
  | ok (value : CString)
  | failed (error : CString)
  deriving DecidableEq

def notAnInteger : CString := lit "value is not an integer or out of range"

/-- `db_incr` looks at no expiry either; the sum is an `int`. -/
def dbIncr (hashtab : HashTab) (key : CString) : Except Fault (HashTab × DbResult) :=
  match lookup hashtab key with
  | none =>
    let r := install hashtab key (lit "1") 0
    .ok (r.1,.ok r.2.value)
  | some p =>
    if ¬ isNumber p.value then .ok (hashtab,.failed notAnInteger)
    else do
      let n ← addInt (atoi p.value) 1
      let r := install hashtab key (intText n) p.expires_at_ms
      .ok (r.1,.ok r.2.value)

variable {hashtab : HashTab} {key key' value : CString} {exp : UInt64}

theorem lookup_key {e : Entry} (h : lookup hashtab key = some e) : e.key = key := Layout.find_key h

theorem install_entry : (install hashtab key value exp).2 = ⟨key,value,exp⟩ := by
  unfold install
  split
  · rfl
  · rename_i p h
    simp [lookup_key h]

theorem lookup_install_self : lookup (install hashtab key value exp).1 key = some ⟨key,value,exp⟩ := by
  unfold install
  split
  · exact Layout.find_insertHead_self (L:=layout) (⟨key,value,exp⟩ : Entry)
  · rename_i p h
    have hc := Layout.find_change_self (L:=layout) (t:=hashtab) (k:=key)
      (f:=fun p => { p with value := value, expires_at_ms := exp }) (fun _ => rfl)
    simp only [lookup] at h ⊢
    rw [hc,h]
    simp [show p.key = key from lookup_key h]

theorem lookup_install_other (h : key' ≠ key) :
    lookup (install hashtab key value exp).1 key' = lookup hashtab key' := by
  unfold install
  split
  · exact Layout.find_insertHead_other (L:=layout) (e:=⟨key,value,exp⟩) h
  · exact Layout.find_change_other (L:=layout) (fun _ => rfl) h

theorem lookup_undef_other (h : key' ≠ key) :
    lookup (undef hashtab key).1 key' = lookup hashtab key' := Layout.find_remove_other h

theorem lookup_undef_self (hw : layout.WellFormed hashtab) :
    lookup (undef hashtab key).1 key = none := Layout.find_remove_self hw

theorem undef_found : (undef hashtab key).2 = (lookup hashtab key).isSome := Layout.remove_found

theorem wellFormed_emptyTab : layout.WellFormed emptyTab := Layout.wellFormed_empty

theorem wellFormed_install (hw : layout.WellFormed hashtab) :
    layout.WellFormed (install hashtab key value exp).1 := by
  unfold install
  split
  · rename_i h
    exact hw.insertHead (e:=⟨key,value,exp⟩) h
  · exact hw.change (fun _ => rfl)

theorem wellFormed_undef (hw : layout.WellFormed hashtab) :
    layout.WellFormed (undef hashtab key).1 := hw.remove

theorem expired_iff {e : Entry} {now : UInt64} :
    expired e now = true ↔ e.expires_at_ms ≠ 0 ∧ e.expires_at_ms ≤ now := by
  simp [expired]

theorem dbGet_absent (h : lookup hashtab key = none) (now : UInt64) :
    dbGet hashtab key now = (hashtab,none) := by
  simp [dbGet,h]

theorem dbGet_expired {now : UInt64} {e : Entry} (he : lookup hashtab key = some e)
    (hx : expired e now = true) : dbGet hashtab key now = ((undef hashtab key).1,none) := by
  simp [dbGet,he,hx,lookup_key he]

theorem dbGet_live {now : UInt64} {e : Entry} (he : lookup hashtab key = some e)
    (hx : expired e now = false) : dbGet hashtab key now = (hashtab,some e.value) := by
  simp [dbGet,he,hx]

theorem lookup_dbGet_persistent {e : Entry} (he : lookup hashtab key = some e)
    (h0 : e.expires_at_ms = 0) (now : UInt64) :
    lookup (dbGet hashtab key' now).1 key = some e := by
  unfold dbGet
  split
  · exact he
  · rename_i p hp
    split
    · rename_i hx
      have hk : key ≠ p.key := by
        rw [lookup_key hp]
        rintro rfl
        obtain rfl := Option.some.inj (he.symm.trans hp)
        simp [expired,h0] at hx
      rw [lookup_undef_other hk,he]
    · exact he

theorem lookup_dbGet_other (h : key' ≠ key) (now : UInt64) :
    lookup (dbGet hashtab key now).1 key' = lookup hashtab key' := by
  unfold dbGet
  split
  · rfl
  · rename_i p hp
    split
    · rw [lookup_key hp]
      exact lookup_undef_other h
    · rfl

theorem dbIncr_table {t' : HashTab} {res : DbResult} (h : dbIncr hashtab key = .ok (t',res)) :
    t' = hashtab ∨ ∃ value exp, t' = (install hashtab key value exp).1 := by
  unfold dbIncr at h
  split at h
  · cases h
    exact Or.inr ⟨_,_,rfl⟩
  · split at h
    · cases h
      exact Or.inl rfl
    · obtain ⟨n,_,hr⟩ := bind_eq_ok.mp h
      cases hr
      exact Or.inr ⟨_,_,rfl⟩

theorem lookup_dbIncr_other {t' : HashTab} {res : DbResult} (h : dbIncr hashtab key = .ok (t',res))
    (hk : key' ≠ key) : lookup t' key' = lookup hashtab key' := by
  rcases dbIncr_table h with rfl | ⟨value,exp,rfl⟩
  · rfl
  · exact lookup_install_other hk

theorem dbIncr_failed {t' : HashTab} {error : CString}
    (h : dbIncr hashtab key = .ok (t',.failed error)) : t' = hashtab ∧ error = notAnInteger := by
  unfold dbIncr at h
  split at h
  · cases h
  · split at h
    · cases h
      exact ⟨rfl,rfl⟩
    · obtain ⟨n,_,hr⟩ := bind_eq_ok.mp h
      cases hr

/-- The key holds the text of the largest `int`. -/
def AtIntMax (hashtab : HashTab) (key : CString) : Prop :=
  ∃ e, lookup hashtab key = some e ∧ isNumber e.value = true ∧ atoi e.value = INT_MAX

theorem dbIncr_error {fault : Fault} :
    dbIncr hashtab key = .error fault ↔ fault = .intOverflow ∧ AtIntMax hashtab key := by
  unfold dbIncr AtIntMax
  cases he : lookup hashtab key with
  | none => simp
  | some p =>
    by_cases hn : isNumber p.value = true
    · have hlow : INT_MIN ≤ atoi p.value := Int.le_bmod (by norm_num)
      have hhigh : atoi p.value ≤ INT_MAX := Int.le_of_lt_add_one (Int.bmod_lt (by norm_num))
      by_cases hmax : atoi p.value = INT_MAX
      · have ha : addInt INT_MAX 1 = .error .intOverflow := by decide
        simpa [hn,hmax,ha,bind,Except.bind] using eq_comm
      · have ha : addInt (atoi p.value) 1 = .ok (atoi p.value+1) := by
          simp only [INT_MIN,INT_MAX] at hlow hhigh hmax
          exact addInt_of_range (by simp only [INT_MIN]; omega) (by simp only [INT_MAX]; omega)
        simp [hn,hmax,ha,bind,Except.bind]
    · simp [hn]

end RedisDb
end CodingChallenges
