import CodingChallenges.RedisExpiry

/-! The store when memory runs out: `install` with its two `strdup` calls, either of which
may fail, and the functions that run afterwards on the table it leaves. `malloc` succeeds. -/
namespace CodingChallenges
namespace RedisAllocation

open CText CMemory ChainedTable RedisDb Runs
open RedisExpiry (Result)

/-- An entry as it lies in memory: no value where the pointer is NULL or was never assigned,
and no expiry where that was never assigned. -/
structure Cell where
  key : CString
  value : Option CString
  expires_at_ms : Option UInt64
  deriving DecidableEq

def cellLayout : Layout Cell CString (Fin HASH_SIZE) := ⟨Cell.key,hash⟩

abbrev CellTab := Table Cell (Fin HASH_SIZE)

def emptyCells : CellTab := fun _ => []

/-- Which `strdup` calls of `install` succeed. -/
structure Copies where
  key : Bool
  value : Bool

def lookup (t : CellTab) (key : CString) : Option Cell := cellLayout.find t key

/-- `p->value = strdup(value)`, and the expiry unless that is NULL. -/
def assign (copied : Bool) (value : CString) (expires_at_ms : UInt64) (p : Cell) : Cell :=
  if copied then { p with value := some value, expires_at_ms := some expires_at_ms }
  else { p with value := none }

/-- The flag says whether the result is an entry, not NULL. -/
def install (c : Copies) (t : CellTab) (key value : CString) (expires_at_ms : UInt64) : CellTab × Bool :=
  match lookup t key with
  | none =>
    if c.key then
      -- the node is in its chain before it has a value
      let t := cellLayout.insertHead t ⟨key,none,none⟩
      (cellLayout.change t key (assign c.value value expires_at_ms),c.value)
    else (t,false)
  | some _ =>
    -- the old value is freed before there is a new one
    (cellLayout.change t key (assign c.value value expires_at_ms),c.value)

def dbGet (t : CellTab) (key : CString) (now : UInt64) : Except Fault (CellTab × Option CString) :=
  match lookup t key with
  | none => .ok (t,none)
  | some p =>
    match p.expires_at_ms with
    | none => .error .uninitialised
    | some exp =>
      if exp ≠ 0 && exp ≤ now then .ok ((cellLayout.remove t key).1,none)
      else match p.value with
        | none => .error .nullPointer
        | some value => .ok (t,some value)

def failedToSave : CString := lit "failed to save"

/-- `is_number` and `atoi` read the value; the expiry is handed on to `install`. -/
def dbIncr (c : Copies) (t : CellTab) (key : CString) : Except Fault (CellTab × DbResult) :=
  match lookup t key with
  | none =>
    let r := install c t key (lit "1") 0
    .ok (r.1,if r.2 then .ok (lit "1") else .failed failedToSave)
  | some p =>
    match p.value with
    | none => .error .nullPointer
    | some value =>
      if ¬ isNumber value then .ok (t,.failed notAnInteger)
      else do
        let n ← addInt (atoi value) 1
        match p.expires_at_ms with
        | none => .error .uninitialised
        | some exp =>
          let r := install c t key (intText n) exp
          .ok (r.1,if r.2 then .ok (intText n) else .failed failedToSave)

def cellOf (e : Entry) : Cell := ⟨e.key,some e.value,some e.expires_at_ms⟩

def cells (t : HashTab) : CellTab := Layout.image cellOf t

theorem lookup_cells (t : HashTab) (key : CString) :
    lookup (cells t) key = (RedisDb.lookup t key).map cellOf :=
  Layout.find_image (fun _ => rfl) rfl

theorem change_cells (t : HashTab) (key value : CString) (exp : UInt64) :
    cellLayout.change (cells t) key (assign true value exp) =
      cells (RedisDb.layout.change t key fun p => { p with value := value, expires_at_ms := exp }) :=
  Layout.change_image (L:=RedisDb.layout) (g:=cellOf) (fun _ => rfl) rfl fun _ => rfl

theorem remove_cells (t : HashTab) (key : CString) :
    cellLayout.remove (cells t) key = (cells (RedisDb.undef t key).1,(RedisDb.undef t key).2) :=
  Layout.remove_image (fun _ => rfl) rfl

theorem key_assign (copied : Bool) (value : CString) (exp : UInt64) (p : Cell) :
    (assign copied value exp p).key = p.key := by
  cases copied <;> rfl

/-- With the copies it needs, `install` is the one of the store. -/
theorem install_cells {t : HashTab} {c : Copies} {key : CString} (hv : c.value = true)
    (hk : c.key = true ∨ (RedisDb.lookup t key).isSome) (value : CString) (exp : UInt64) :
    install c (cells t) key value exp = (cells (RedisDb.install t key value exp).1,true) := by
  cases hl : RedisDb.lookup t key with
  | none =>
    have hk' : c.key = true := hk.resolve_right (by simp [hl])
    have hc : cellLayout.change (cellLayout.insertHead (cells t) ⟨key,none,none⟩) key (assign true value exp) =
        cellLayout.insertHead (cells t) (cellOf ⟨key,value,exp⟩) :=
      Layout.change_insertHead (L:=cellLayout) (f:=assign true value exp) (key_assign true value exp) (cells t)
        ⟨key,none,none⟩
    have hi : cellLayout.insertHead (cells t) (cellOf ⟨key,value,exp⟩) =
        cells (RedisDb.layout.insertHead t ⟨key,value,exp⟩) :=
      Layout.insertHead_image (L:=RedisDb.layout) (g:=cellOf) (fun _ => rfl) rfl ⟨key,value,exp⟩
    simp only [install,lookup_cells,hl,Option.map_none,hk',hv,if_true,hc,hi,RedisDb.install]
  | some p =>
    simp only [install,lookup_cells,hl,Option.map_some,hv,change_cells,RedisDb.install]

theorem install_noKey {t : CellTab} {c : Copies} {key : CString} (hk : c.key = false)
    (hl : lookup t key = none) (value : CString) (exp : UInt64) :
    install c t key value exp = (t,false) := by
  simp [install,hl,hk]

theorem dbGet_cells (t : HashTab) (key : CString) (now : UInt64) :
    dbGet (cells t) key now =
      .ok (cells (RedisDb.dbGet t key now).1,(RedisDb.dbGet t key now).2) := by
  cases hl : RedisDb.lookup t key with
  | none => simp [dbGet,lookup_cells,hl,RedisDb.dbGet]
  | some p =>
    have hexp : (p.expires_at_ms ≠ 0 && p.expires_at_ms ≤ now : Bool) = expired p now := rfl
    simp only [dbGet,lookup_cells,hl,Option.map_some,cellOf,hexp,RedisDb.dbGet,remove_cells]
    rw [RedisDb.lookup_key hl]
    split <;> rfl

inductive Op
  | install (c : Copies) (key value : CString) (expires_at_ms : UInt64)
  | get (key : CString) (now : UInt64)
  | del (key : CString)
  | incr (c : Copies) (key : CString)

def step (t : CellTab) : Op → Except Fault (CellTab × Result)
  | .install c key value expires_at_ms => .ok ((install c t key value expires_at_ms).1,.done)
  | .get key now => do
    let r ← dbGet t key now
    .ok (r.1,.copy r.2)
  | .del key =>
    let r := cellLayout.remove t key
    .ok (r.1,.removed r.2)
  | .incr c key => do
    let r ← dbIncr c t key
    .ok (r.1,.counted r.2)

def Kept (c : Copies) (t : CellTab) (key : CString) : Prop :=
  c.value = true ∨ c.key = false ∧ lookup t key = none

instance (c : Copies) (t : CellTab) (key : CString) : Decidable (Kept c t key) :=
  inferInstanceAs (Decidable (_ ∨ _))

def Safe (t : CellTab) : Op → Prop
  | .install c key _ _ => Kept c t key
  | .incr c key => Kept c t key
  | _ => True

instance (t : CellTab) : (op : Op) → Decidable (Safe t op)
  | .install c key _ _ => inferInstanceAs (Decidable (Kept c t key))
  | .incr c key => inferInstanceAs (Decidable (Kept c t key))
  | .get .. => isTrue trivial
  | .del .. => isTrue trivial

/-- Every entry has its value and its expiry. -/
def Complete (t : CellTab) : Prop := ∃ store, t = cells store

theorem Complete.install {t : CellTab} (ht : Complete t) {c : Copies} {key : CString} (hs : Kept c t key)
    (value : CString) (exp : UInt64) : Complete (install c t key value exp).1 := by
  obtain ⟨store,rfl⟩ := ht
  by_cases hk : c.key = true ∨ (RedisDb.lookup store key).isSome
  · have hv : c.value = true := by
      refine hs.resolve_right ?_
      rintro ⟨hkey,hl⟩
      rw [lookup_cells] at hl
      simp_all
    exact ⟨_,congrArg Prod.fst (install_cells hv hk value exp)⟩
  · have hn : c.key = false ∧ lookup (cells store) key = none := by
      rw [lookup_cells]
      simpa using hk
    exact ⟨store,congrArg Prod.fst (install_noKey hn.1 hn.2 value exp)⟩

theorem Complete.dbIncr {t t' : CellTab} (ht : Complete t) {c : Copies} {key : CString} (hs : Kept c t key)
    {res : DbResult} (h : dbIncr c t key = .ok (t',res)) : Complete t' := by
  unfold RedisAllocation.dbIncr at h
  split at h
  · cases h
    exact ht.install hs _ _
  · split at h
    · contradiction
    · split at h
      · cases h
        exact ht
      · obtain ⟨n,_,h⟩ := bind_eq_ok.mp h
        split at h
        · contradiction
        · cases h
          exact ht.install hs _ _

theorem Complete.step {t t' : CellTab} (ht : Complete t) {op : Op} (hs : Safe t op) {r : Result}
    (h : step t op = .ok (t',r)) : Complete t' := by
  cases op with
  | install c key value exp =>
    obtain rfl := congrArg Prod.fst (Except.ok.inj h)
    exact ht.install hs value exp
  | get key now =>
    obtain ⟨store,rfl⟩ := ht
    obtain ⟨q,hq,he⟩ := bind_eq_ok.mp h
    cases he
    exact ⟨_,congrArg Prod.fst (Except.ok.inj (hq.symm.trans (dbGet_cells store key now)))⟩
  | del key =>
    obtain ⟨store,rfl⟩ := ht
    obtain rfl := congrArg Prod.fst (Except.ok.inj h)
    exact ⟨_,congrArg Prod.fst (remove_cells store key)⟩
  | incr c key =>
    obtain ⟨q,hq,he⟩ := bind_eq_ok.mp h
    cases he
    exact ht.dbIncr hs hq

/-- No NULL is followed, and nothing is read that was never assigned. -/
def WellDefined {α : Type} (x : Except Fault α) : Prop := x ≠ .error .nullPointer ∧ x ≠ .error .uninitialised

/-- When the call returns NULL, every key holds what it held, no entry lacks its value, and
every read and increment that follows is well defined. -/
def AllOrNothing (c : Copies) (t : CellTab) (key value : CString) (exp : UInt64) : Prop :=
  (install c t key value exp).2 = false →
    (∀ k, lookup (install c t key value exp).1 k = lookup t k) ∧
    (∀ b, ∀ p ∈ (install c t key value exp).1 b, p.value ≠ none) ∧
    ∀ k, (∀ now, WellDefined (dbGet (install c t key value exp).1 k now)) ∧
      ∀ c', WellDefined (dbIncr c' (install c t key value exp).1 k)

theorem wellDefined_dbIncr (c : Copies) (store : HashTab) (key : CString) :
    WellDefined (dbIncr c (cells store) key) := by
  cases hl : RedisDb.lookup store key with
  | none => simp [WellDefined,dbIncr,lookup_cells,hl]
  | some p =>
    simp only [dbIncr,lookup_cells,hl,Option.map_some,cellOf]
    split
    · simp [WellDefined]
    · cases ha : addInt (atoi p.value) 1 with
      | error f =>
        have hf : f = .intOverflow := by
          unfold addInt at ha
          split_ifs at ha
          exact (Except.error.inj ha).symm
        simp [WellDefined,hf,bind,Except.bind]
      | ok n => simp [WellDefined,bind,Except.bind]

theorem allOrNothing_of_kept {c : Copies} {t : CellTab} {key : CString} (ht : Complete t)
    (hs : Kept c t key) (value : CString) (exp : UInt64) : AllOrNothing c t key value exp := by
  obtain ⟨store,rfl⟩ := ht
  intro hnull
  have hsame : install c (cells store) key value exp = (cells store,false) := by
    cases hl : lookup (cells store) key with
    | none =>
      cases hk : c.key with
      | false => exact install_noKey hk hl value exp
      | true =>
        have hv := hs.resolve_right fun h => by simp [hk] at h
        simp [install,hl,hk,hv] at hnull
    | some p =>
      have hv := hs.resolve_right fun h => by simp [hl] at h
      simp [install,hl,hv] at hnull
  rw [hsame]
  refine ⟨fun _ => rfl,?_,fun k => ⟨fun now => ?_,fun c' => wellDefined_dbIncr c' store k⟩⟩
  · intro b p hp
    obtain ⟨e,_,rfl⟩ := List.mem_map.mp hp
    simp [cellOf]
  · simp [WellDefined,dbGet_cells]

/-- A copy of the value that fails leaves an entry without one under the key. -/
theorem lookup_install_noValue {c : Copies} {t : CellTab} {key : CString} (hv : c.value = false)
    (hk : c.key = true ∨ (lookup t key).isSome) (value : CString) (exp : UInt64) :
    (install c t key value exp).2 = false ∧
      ∃ p, lookup (install c t key value exp).1 key = some p ∧ p.value = none := by
  have hchange (u : CellTab) : lookup (cellLayout.change u key (assign false value exp)) key =
      (lookup u key).map (assign false value exp) :=
    Layout.find_change_self (key_assign false value exp)
  cases hl : lookup t key with
  | none =>
    have hk' : c.key = true := hk.resolve_right (by simp [hl])
    have hi : lookup (cellLayout.insertHead t ⟨key,none,none⟩) key = some ⟨key,none,none⟩ :=
      Layout.find_insertHead_self (L:=cellLayout) (⟨key,none,none⟩ : Cell)
    simp only [install,hl,hk',hv,if_true]
    exact ⟨trivial,_,(hchange _).trans (congrArg _ hi),rfl⟩
  | some p =>
    simp only [install,hl,hv]
    exact ⟨trivial,_,(hchange t).trans (congrArg _ hl),rfl⟩

/-- In every table that calls without such a failure have built, `install` is all or nothing
exactly when the copy of the value succeeds or is not reached. -/
theorem allOrNothing_iff (ops : List Op) (t : CellTab) (rs : List Result)
    (hr : run step emptyCells ops = .ok (t,rs)) (hs : AllSteps step Safe emptyCells ops) (c : Copies)
    (key value : CString) (exp : UInt64) : AllOrNothing c t key value exp ↔ Kept c t key := by
  have ht : Complete t := run_invariant (P:=Complete) (fun _ _ _ _ ht hs h => ht.step hs h) hs
    ⟨emptyTab,rfl⟩ hr
  constructor
  · intro h
    by_contra hk
    have hv : c.value = false := by
      by_contra hv
      exact hk (Or.inl (by simpa using hv))
    have hreach : c.key = true ∨ (lookup t key).isSome := by
      by_contra hn
      simp only [not_or] at hn
      exact hk (Or.inr ⟨by simpa using hn.1,by simpa using hn.2⟩)
    obtain ⟨hnull,p,hp,hpv⟩ := lookup_install_noValue hv hreach value exp
    exact (h hnull).2.1 _ p (search_mem hp).1 hpv
  · exact fun hk => allOrNothing_of_kept ht hk value exp

def oneKey : CellTab := (install ⟨true,true⟩ emptyCells (lit "ab") (lit "1") 9).1

theorem allOrNothing_iff_newKey :
    AllOrNothing ⟨false,false⟩ oneKey (lit "bA") (lit "2") 0 ∧
      ¬ AllOrNothing ⟨true,false⟩ oneKey (lit "bA") (lit "2") 0 := by
  have h (c : Copies) := allOrNothing_iff [.install ⟨true,true⟩ (lit "ab") (lit "1") 9] oneKey [.done] rfl
    (by decide) c (lit "bA") (lit "2") 0
  exact ⟨(h ⟨false,false⟩).mpr (by decide),fun ha => absurd ((h ⟨true,false⟩).mp ha) (by decide)⟩

/-- The copy of the value fails: a new key is left in its chain without a value, an old one has
lost the value it had, and the calls that follow run into it. -/
theorem install_half_done :
    ¬ (∀ ops t rs, run step emptyCells ops = .ok (t,rs) → ∀ c key value exp,
      AllOrNothing c t key value exp) ∧
    (run step emptyCells
      [.install ⟨true,false⟩ (lit "k") (lit "1") 0,.incr ⟨true,true⟩ (lit "k")]).map Prod.fst =
      .error .nullPointer ∧
    (run step emptyCells [.install ⟨true,false⟩ (lit "k") (lit "1") 0,.get (lit "k") 5]).map Prod.fst =
      .error .uninitialised ∧
    (run step emptyCells [.install ⟨true,true⟩ (lit "k") (lit "1") 0,
      .install ⟨true,false⟩ (lit "k") (lit "2") 0,.get (lit "k") 5]).map Prod.fst = .error .nullPointer := by
  refine ⟨fun h => ?_,by rfl,by rfl,by rfl⟩
  have hn := h [] emptyCells [] rfl ⟨true,false⟩ (lit "k") (lit "1") 0
  obtain ⟨hnull,p,hp,hpv⟩ := lookup_install_noValue (c:=⟨true,false⟩) rfl
    (Or.inl rfl : true = true ∨ (lookup emptyCells (lit "k")).isSome = true) (lit "1") 0
  exact (hn hnull).2.1 _ p (search_mem hp).1 hpv

end RedisAllocation
end CodingChallenges
