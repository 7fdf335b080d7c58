import CodingChallenges.CText
import CodingChallenges.ChainedTable

/-! The hash table of the Bitcask store: `ht_new`, `ht_set`, `ht_get`.
A node is linked into its chain before its value is copied, so a node without a value
is left behind when that copy fails. -/
namespace CodingChallenges
namespace BitcaskTable

open CText ChainedTable

abbrev HT_BUCKETS : ℕ := 1024

/-- djb2 over `unsigned long`, folded into the number of buckets. -/
def htHash (key : CString) : Fin HT_BUCKETS :=
  let h := key.bytes.foldl (fun (h : UInt64) c => ((h <<< 5) + h) + c.toUInt64) 5381
  ⟨(h % 1024).toNat,by
    rw [UInt64.toNat_mod]
    exact Nat.mod_lt _ (by decide)⟩

/-- A node; its value is missing until it is set. -/
structure Node where
  key : CString
  value : Option CString
  deriving DecidableEq

def layout : Layout Node CString (Fin HT_BUCKETS) := ⟨Node.key,htHash⟩

abbrev Hashtable := Table Node (Fin HT_BUCKETS)

def htNew : Hashtable := fun _ => []

def lookup (ht : Hashtable) (key : CString) : Option Node := layout.find ht key

/-- Which of the allocations `ht_set` makes succeed. -/
structure Allocations where
  node : Bool
  key : Bool
  value : Bool

def allocated : Allocations := ⟨true,true,true⟩

/-- `p->payload.value = strdup(value)`, where the copy succeeds. -/
def setValue (ht : Hashtable) (key value : CString) (m : Allocations) : Hashtable :=
  if m.value then layout.change ht key fun p => { p with value := some value } else ht

def htSet (ht : Hashtable) (key value : CString) (m : Allocations) : Hashtable :=
  match lookup ht key with
  | none =>
    if m.node && m.key then setValue (layout.insertHead ht ⟨key,none⟩) key value m
    else ht
  | some _ => setValue ht key value m

def htGet (ht : Hashtable) (key : CString) : Option CString := (lookup ht key).bind Node.value

def setAll (ht : Hashtable) (pairs : List (CString × CString)) : Hashtable :=
  pairs.foldl (fun ht p => htSet ht p.1 p.2 allocated) ht

variable {ht : Hashtable} {key key' value : CString}

def linked (ht : Hashtable) (key : CString) : Hashtable :=
  match lookup ht key with
  | none => layout.insertHead ht ⟨key,none⟩
  | some _ => ht

def withValue (value : CString) (p : Node) : Node := { p with value := some value }

theorem key_withValue (value : CString) (p : Node) : layout.key (withValue value p) = layout.key p := rfl

theorem htSet_allocated :
    htSet ht key value allocated = layout.change (linked ht key) key (withValue value) := by
  unfold htSet linked
  cases lookup ht key <;> rfl

theorem lookup_linked_self : ∃ p, lookup (linked ht key) key = some p := by
  unfold linked
  cases h : lookup ht key with
  | none => exact ⟨_,Layout.find_insertHead_self (L:=layout) ⟨key,none⟩⟩
  | some p => exact ⟨p,h⟩

theorem lookup_linked_other (h : key' ≠ key) : lookup (linked ht key) key' = lookup ht key' := by
  unfold linked
  cases lookup ht key with
  | none =>
    have hi : layout.find (layout.insertHead ht ⟨key,none⟩) key' = layout.find ht key' :=
      Layout.find_insertHead_other h
    exact hi
  | some p => rfl

theorem lookup_htSet_other (h : key' ≠ key) :
    lookup (htSet ht key value allocated) key' = lookup ht key' := by
  rw [htSet_allocated,lookup,Layout.find_change_other (key_withValue value) h]
  exact lookup_linked_other h

theorem htGet_htSet_self : htGet (htSet ht key value allocated) key = some value := by
  obtain ⟨p,hp⟩ : ∃ p, lookup (linked ht key) key = some p := lookup_linked_self
  rw [htSet_allocated,htGet,lookup,Layout.find_change_self (key_withValue value)]
  rw [lookup] at hp
  rw [hp]
  rfl

theorem htGet_htSet_other (h : key' ≠ key) : htGet (htSet ht key value allocated) key' = htGet ht key' := by
  rw [htGet,lookup_htSet_other h,htGet]

theorem htGet_htNew (key value : CString) : htGet htNew key ≠ some value := nofun

theorem htGet_setAll (pairs : List (CString × CString)) (ht : Hashtable) (key : CString) :
    htGet (setAll ht pairs) key =
      (pairs.filter fun p => p.1 = key).foldl (fun _ p => some p.2) (htGet ht key) := by
  induction pairs generalizing ht with
  | nil => rfl
  | cons p pairs ih =>
    have h := ih (htSet ht p.1 p.2 allocated)
    simp only [setAll,List.foldl_cons] at h ⊢
    rw [h]
    by_cases hk : p.1 = key
    · subst hk
      simp [htGet_htSet_self]
    · simp [hk,htGet_htSet_other (Ne.symm hk)]

theorem mem_of_htGet_setAll {pairs : List (CString × CString)} {ht : Hashtable}
    (h : htGet (setAll ht pairs) key = some value) : (key,value) ∈ pairs ∨ htGet ht key = some value := by
  induction pairs generalizing ht with
  | nil => exact Or.inr h
  | cons p pairs ih =>
    have h' : htGet (setAll (htSet ht p.1 p.2 allocated) pairs) key = some value := h
    rcases ih h' with hm | hg
    · exact Or.inl (by simp [hm])
    · by_cases hk : key = p.1
      · subst hk
        rw [htGet_htSet_self] at hg
        exact Or.inl (by simp [← Option.some.inj hg])
      · rw [htGet_htSet_other hk] at hg
        exact Or.inr hg

theorem htGet_setAll_of_mem {pairs : List (CString × CString)} (hd : (pairs.map Prod.fst).Nodup)
    (hm : (key,value) ∈ pairs) (ht : Hashtable) : htGet (setAll ht pairs) key = some value := by
  induction pairs generalizing ht with
  | nil => simp at hm
  | cons p pairs ih =>
    rw [List.map_cons,List.nodup_cons] at hd
    rcases List.mem_cons.mp hm with rfl | hm
    · have hn : (pairs.filter fun p => p.1 = key) = [] := by
        rw [List.filter_eq_nil_iff]
        intro q hq
        have hne : q.1 ≠ key := by
          rintro rfl
          exact hd.1 (List.mem_map.mpr ⟨q,hq,rfl⟩)
        simpa using hne
      rw [htGet_setAll]
      simp [hn]
    · exact ih hd.2 hm _

/-- Entries lie where their keys belong, no chain repeats a key, and no value is missing. -/
structure Valid (ht : Hashtable) : Prop where
  wellFormed : layout.WellFormed ht
  full : ∀ b, ∀ p ∈ ht b, p.value ≠ none

theorem valid_htNew : Valid htNew := ⟨Layout.wellFormed_empty,by simp [htNew]⟩

theorem wellFormed_linked (h : layout.WellFormed ht) (key : CString) :
    layout.WellFormed (linked ht key) := by
  unfold linked
  cases hl : lookup ht key with
  | none => exact h.insertHead hl
  | some p => exact h

theorem Valid.htSet (h : Valid ht) (key value : CString) : Valid (htSet ht key value allocated) := by
  have hw : layout.WellFormed (BitcaskTable.htSet ht key value allocated) := by
    rw [htSet_allocated]
    exact (wellFormed_linked h.wellFormed key).change (key_withValue value)
  refine ⟨hw,fun b p hp => ?_⟩
  have hf : lookup (BitcaskTable.htSet ht key value allocated) p.key = some p := hw.mem_iff_find.mp ⟨b,hp⟩
  by_cases hk : p.key = key
  · have hg : htGet (BitcaskTable.htSet ht key value allocated) key = some value := htGet_htSet_self
    rw [hk] at hf
    rw [htGet,hf] at hg
    intro hn
    simp [hn] at hg
  · rw [lookup_htSet_other hk] at hf
    obtain ⟨b',hb⟩ := h.wellFormed.mem_iff_find.mpr hf
    exact h.full b' p hb

theorem Valid.setAll (h : Valid ht) (pairs : List (CString × CString)) : Valid (setAll ht pairs) := by
  induction pairs generalizing ht with
  | nil => exact h
  | cons p pairs ih => exact ih (h.htSet p.1 p.2)

def entries (ht : Hashtable) : List Node := (List.finRange HT_BUCKETS).flatMap ht

theorem mem_entries {p : Node} : p ∈ entries ht ↔ ∃ b, p ∈ ht b := by
  simp [entries]

theorem Valid.value_ne_none (h : Valid ht) : ∀ p ∈ entries ht, p.value ≠ none := fun p hp => by
  obtain ⟨b,hb⟩ := mem_entries.mp hp
  exact h.full b p hb

def pairs (ht : Hashtable) : List (CString × CString) :=
  (entries ht).filterMap fun p => p.value.map fun v => (p.key,v)

theorem Valid.mem_pairs (h : Valid ht) : (key,value) ∈ pairs ht ↔ htGet ht key = some value := by
  simp only [pairs,List.mem_filterMap,mem_entries]
  constructor
  · rintro ⟨p,hp,he⟩
    obtain ⟨v,hv,hpv⟩ := Option.map_eq_some_iff.mp he
    obtain ⟨rfl,rfl⟩ := Prod.mk.inj hpv
    have hf : lookup ht p.key = some p := h.wellFormed.mem_iff_find.mp hp
    rw [htGet,hf]
    exact hv
  · intro hg
    obtain ⟨p,hp,hv⟩ := Option.bind_eq_some_iff.mp hg
    obtain rfl : p.key = key := Layout.find_key hp
    exact ⟨p,h.wellFormed.mem_iff_find.mpr hp,by simp [hv]⟩

theorem map_fst_pairs (ps : List Node) (h : ∀ p ∈ ps, p.value ≠ none) :
    (ps.filterMap fun p => p.value.map fun v => (p.key,v)).map Prod.fst = ps.map Node.key := by
  induction ps with
  | nil => rfl
  | cons p ps ih =>
    obtain ⟨v,hv⟩ := Option.ne_none_iff_exists'.mp (h p (by simp))
    have ht := ih fun q hq => h q (by simp [hq])
    simp [hv,ht]

theorem Valid.keys_nodup (h : Valid ht) : ((pairs ht).map Prod.fst).Nodup := by
  have hk := h.wellFormed.keys_nodup (List.nodup_finRange HT_BUCKETS)
  have hm : (pairs ht).map Prod.fst = (entries ht).map Node.key := map_fst_pairs _ h.value_ne_none
  rw [hm,entries,List.map_flatMap]
  exact hk

/-- The walk meets of a key the entry with its value, where it has one. -/
theorem Valid.filter_entries (h : Valid ht) (key : CString) :
    (entries ht).filter (fun p => p.key = key) = (htGet ht key).toList.map fun v => ⟨key,some v⟩ := by
  have hw := h.wellFormed.filter_walk (List.nodup_finRange HT_BUCKETS) List.mem_finRange key
  refine hw.trans ?_
  show (lookup ht key).toList = _
  rw [htGet]
  cases hl : lookup ht key with
  | none => rfl
  | some p =>
    obtain ⟨b,hb⟩ := h.wellFormed.mem_iff_find.mpr ((Layout.find_key hl).symm ▸ hl)
    obtain ⟨v,hv⟩ := Option.ne_none_iff_exists'.mp (h.full b p hb)
    obtain rfl : p.key = key := Layout.find_key hl
    have hp : p = ⟨p.key,some v⟩ := by rw [← hv]
    rw [Option.bind_some,hv]
    exact congrArg (fun q => [q]) hp

def lastSet (sets : List (CString × CString)) (key : CString) : Option CString :=
  (sets.filter fun p => p.1 = key).getLast?.map Prod.snd

theorem foldl_last (ps : List (CString × CString)) (v : Option CString) :
    ps.foldl (fun _ p => some p.2) v = (ps.getLast?.map Prod.snd).or v := by
  induction ps generalizing v with
  | nil => rfl
  | cons p ps ih =>
    rw [List.foldl_cons,ih,List.getLast?_cons]
    cases ps.getLast? <;> rfl

theorem htGet_setAll_htNew (sets : List (CString × CString)) (key : CString) :
    htGet (setAll htNew sets) key = lastSet sets key := by
  rw [htGet_setAll,foldl_last]
  exact Option.or_none

/-- Every entry lies where its key belongs, a key has the value set last, and the walk meets every
key that was set once, with that value. -/
theorem setAll_map (sets : List (CString × CString)) :
    (∀ b, ∀ p ∈ setAll htNew sets b, htHash p.key = b) ∧
      (∀ key, htGet (setAll htNew sets) key = lastSet sets key) ∧
      ∀ key, (entries (setAll htNew sets)).filter (fun p => p.key = key) =
        (lastSet sets key).toList.map fun v => ⟨key,some v⟩ := by
  have hv : Valid (setAll htNew sets) := valid_htNew.setAll sets
  refine ⟨hv.wellFormed.placed,htGet_setAll_htNew sets,fun key => ?_⟩
  rw [hv.filter_entries,htGet_setAll_htNew]

end BitcaskTable
end CodingChallenges
