import CodingChallenges.BitcaskSave
import CodingChallenges.Runs

/-! `ht_set` of the Bitcask table where allocations fail. A node goes into its chain before its
value is copied: `ht_get` does not tell a node without a value from none, `db_save` formats it. -/
namespace CodingChallenges
namespace BitcaskAllocation

open CText CMemory ChainedTable BitcaskTable BitcaskFile BitcaskSave Runs

/-- A call of `ht_set` and which of its allocations succeed. -/
structure Call where
  key : CString
  value : CString
  m : Allocations

def step (ht : Hashtable) (c : Call) : Except Fault (Hashtable × Unit) := .ok (htSet ht c.key c.value c.m,())

def stored (ht : Hashtable) (c : Call) : Bool :=
  c.m.value && ((lookup ht c.key).isSome || (c.m.node && c.m.key))

/-- A new node is linked and its value is not copied. -/
def HalfMade (ht : Hashtable) (c : Call) : Prop :=
  lookup ht c.key = none ∧ c.m.node = true ∧ c.m.key = true ∧ c.m.value = false

/-- What `ht_get` and `db_save` see of the call. -/
structure Kept (ht : Hashtable) (c : Call) : Prop where
  get : stored ht c = false → ∀ key, htGet (htSet ht c.key c.value c.m) key = htGet ht key
  save : stored ht c = false → ∀ saving files dir,
    dbSave saving files (htSet ht c.key c.value c.m) dir = dbSave saving files ht dir
  formatted : ∀ saving files dir, dbSave saving files (htSet ht c.key c.value c.m) dir ≠ .error .nullPointer

variable {ht : Hashtable} {c : Call}

theorem htSet_stored (h : stored ht c = true) :
    htSet ht c.key c.value c.m = htSet ht c.key c.value allocated := by
  rw [stored,Bool.and_eq_true,Bool.or_eq_true] at h
  rw [htSet,htSet]
  cases hl : lookup ht c.key with
  | none =>
    have hm : (c.m.node && c.m.key) = true := h.2.resolve_left (by simp [hl])
    simp [hm,setValue,h.1,allocated]
  | some p => simp [setValue,h.1,allocated]

theorem htSet_unchanged (h : stored ht c = false) (hm : ¬ HalfMade ht c) :
    htSet ht c.key c.value c.m = ht := by
  rw [htSet]
  cases hl : lookup ht c.key with
  | none =>
    simp only
    split_ifs with hn
    · rw [Bool.and_eq_true] at hn
      have hv : c.m.value = true := by
        by_contra hv
        exact hm ⟨hl,hn.1,hn.2,by simpa using hv⟩
      simp [stored,hv,hn] at h
    · rfl
  | some p =>
    have hv : c.m.value = false := by simpa [stored,hl] using h
    simp [setValue,hv]

theorem htSet_halfMade (h : HalfMade ht c) :
    htSet ht c.key c.value c.m = layout.insertHead ht ⟨c.key,none⟩ := by
  obtain ⟨hl,hn,hk,hv⟩ := h
  simp [htSet,hl,hn,hk,setValue,hv]

theorem dbSave_ne_nullPointer (h : Valid ht) (saving : Saving) (files : Files) (dir : CString) :
    dbSave saving files ht dir ≠ .error .nullPointer := by
  by_cases hopen : getPath dir ≠ none ∧ saving.opened = true
  · simp [dbSave_opened hopen.1 hopen.2,saveNodes_ok h.value_ne_none,Except.map]
  · simp [dbSave_unopened hopen]

theorem dbSave_halfMade (h : HalfMade ht c) (files : Files) :
    dbSave whole files (htSet ht c.key c.value c.m) (lit "./data") = .error .nullPointer := by
  have hd : getPath (lit "./data") ≠ none := by decide
  have hmem : (⟨c.key,none⟩ : Node) ∈ entries (layout.insertHead ht ⟨c.key,none⟩) :=
    mem_entries.mpr ⟨htHash c.key,(search_mem (Layout.find_insertHead_self (L:=layout) ⟨c.key,none⟩)).1⟩
  rw [htSet_halfMade h,dbSave_opened hd rfl,saveNodes_missing fun hall => hall _ hmem rfl]
  rfl

/-- On a table without missing values the call keeps what is seen exactly when it leaves no half-made node. -/
theorem kept_iff (h : Valid ht) (c : Call) : Kept ht c ↔ ¬ HalfMade ht c := by
  constructor
  · exact fun hk hm => hk.formatted whole (fun _ => none) (lit "./data") (dbSave_halfMade hm _)
  · intro hm
    cases hs : stored ht c with
    | true =>
      have hv := h.htSet c.key c.value
      rw [← htSet_stored hs] at hv
      exact ⟨by simp [hs],by simp [hs],dbSave_ne_nullPointer hv⟩
    | false =>
      have hsame := htSet_unchanged hs hm
      refine ⟨fun _ key => by rw [hsame],fun _ saving files dir => by rw [hsame],?_⟩
      rw [hsame]
      exact dbSave_ne_nullPointer h

theorem valid_step {s' : Hashtable} {o : Unit} (h : Valid ht) (hm : ¬ HalfMade ht c)
    (hs : step ht c = .ok (s',o)) : Valid s' := by
  obtain ⟨rfl,-⟩ := Prod.mk.inj (Except.ok.inj hs)
  cases hst : stored ht c with
  | true =>
    rw [htSet_stored hst]
    exact h.htSet c.key c.value
  | false =>
    rw [htSet_unchanged hst hm]
    exact h

/-- Along a run every call keeps what is seen exactly when none leaves a half-made node. -/
theorem allKept_iff (calls : List Call) :
    AllSteps step Kept htNew calls ↔ AllSteps step (fun ht c => ¬ HalfMade ht c) htNew calls :=
  allSteps_iff (fun _ c h => kept_iff h c) (fun _ _ _ _ h hm hs => valid_step h hm hs) valid_htNew calls

/-- The copy of the value fails for a new key: the value is not stored, and saving has no defined
result any more. -/
theorem save_after_halfMade : stored htNew ⟨lit "k",lit "v",⟨true,true,false⟩⟩ = false ∧
    dbSave whole (fun _ => none) (htSet htNew (lit "k") (lit "v") ⟨true,true,false⟩) (lit "./data") =
      .error .nullPointer ∧
    ¬ AllSteps step Kept htNew [⟨lit "k",lit "v",⟨true,true,false⟩⟩] := by
  have hm : HalfMade htNew ⟨lit "k",lit "v",⟨true,true,false⟩⟩ := ⟨rfl,rfl,rfl,rfl⟩
  exact ⟨rfl,dbSave_halfMade hm _,fun h => (kept_iff valid_htNew _).mp h.1 hm⟩

end BitcaskAllocation
end CodingChallenges
