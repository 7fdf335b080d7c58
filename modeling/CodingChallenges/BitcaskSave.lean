import CodingChallenges.BitcaskFile

/-! Saving the Bitcask table where writes fail or are cut short. The file is emptied first and
the results of the writes are not looked at, so the old contents are gone before the new ones
are known to be there. -/
namespace CodingChallenges
namespace BitcaskSave

open CText CMemory ChainedTable BitcaskTable BitcaskFile

def fullText (p : CString × CString) : Bytes := p.1.bytes ++ (58 :: (p.2.bytes ++ [13,10]))

def serialise (ht : Hashtable) : Bytes := (pairs ht).flatMap fullText

/-- The file holds everything and the value is 0, or it holds what it held and the value is not. -/
def SaveKept (c : Saving) (files : Files) (ht : Hashtable) (dir : CString) : Prop :=
  ∃ files' ret, dbSave c files ht dir = .ok (files',ret) ∧
    ((ret = 0 ∧ files' dir = some (serialise ht)) ∨ (ret ≠ 0 ∧ files' dir = files dir))

/-- What the writes from the `i`th on leave in the file. -/
def written (taken : ℕ → ℕ) : ℕ → List (CString × CString) → Bytes
  | _, [] => []
  | i, p :: ps => (itemText p).take (taken i) ++ written taken (i+1) ps

variable {taken : ℕ → ℕ} {i : ℕ}

theorem saveNodes_ok {ps : List Node} (h : ∀ p ∈ ps, p.value ≠ none) :
    saveNodes taken i ps = .ok (written taken i (ps.filterMap fun p => p.value.map fun v => (p.key,v))) := by
  induction ps generalizing i with
  | nil => rfl
  | cons p ps ih =>
    obtain ⟨v,hv⟩ := Option.ne_none_iff_exists'.mp (h p (by simp))
    have ht := ih (i:=i+1) fun q hq => h q (by simp [hq])
    simp [saveNodes,hv,ht,written,bind,Except.bind]

theorem saveNodes_missing {ps : List Node} (h : ¬ ∀ p ∈ ps, p.value ≠ none) :
    saveNodes taken i ps = .error .nullPointer := by
  induction ps generalizing i with
  | nil => exact absurd (by simp) h
  | cons p ps ih =>
    rw [saveNodes]
    cases hv : p.value with
    | none => rfl
    | some v =>
      have ht := ih (i:=i+1) fun hall => h fun q hq => by
        rcases List.mem_cons.mp hq with rfl | hq
        · simp [hv]
        · exact hall q hq
      simp only [ht]
      rfl

theorem length_itemText_le (p : CString × CString) : (itemText p).length ≤ (fullText p).length := by
  rw [itemText,List.length_take]
  exact Nat.min_le_right _ _

theorem length_written_le (taken : ℕ → ℕ) (i : ℕ) (ps : List (CString × CString)) :
    (written taken i ps).length ≤ (ps.flatMap fullText).length := by
  induction ps generalizing i with
  | nil => exact le_refl _
  | cons p ps ih =>
    have ht := ih (i+1)
    have hp := length_itemText_le p
    have hk := List.length_take_le' (taken i) (itemText p)
    rw [written,List.flatMap_cons,List.length_append,List.length_append]
    omega

theorem take_itemText_eq_iff (p : CString × CString) :
    ((itemText p).take (taken i)).length = (fullText p).length ↔
      (fullText p).length ≤ ITEM_SZ-1 ∧ (fullText p).length ≤ taken i := by
  have hl : (itemText p).length = min (ITEM_SZ-1) (fullText p).length := List.length_take
  rw [List.length_take,hl]
  omega

theorem take_itemText {p : CString × CString}
    (h : (fullText p).length ≤ ITEM_SZ-1 ∧ (fullText p).length ≤ taken i) :
    (itemText p).take (taken i) = fullText p := by
  have hi : itemText p = fullText p := List.take_of_length_le h.1
  rw [hi,List.take_of_length_le h.2]

/-- Everything is written exactly when every write leaves all of its pair. -/
theorem written_eq_iff (taken : ℕ → ℕ) (i : ℕ) (ps : List (CString × CString)) :
    written taken i ps = ps.flatMap fullText ↔ ∀ k p, ps[k]? = some p →
      (fullText p).length ≤ ITEM_SZ-1 ∧ (fullText p).length ≤ taken (i+k) := by
  induction ps generalizing i with
  | nil => simp [written]
  | cons p ps ih =>
    rw [written,List.flatMap_cons]
    constructor
    · intro h
      have hp := length_itemText_le p
      have hk := List.length_take_le' (taken i) (itemText p)
      have hrest := length_written_le taken (i+1) ps
      have hlen := congrArg List.length h
      rw [List.length_append,List.length_append] at hlen
      obtain ⟨hfirst,htail⟩ := List.append_inj h (by omega)
      intro k q hq
      cases k with
      | zero =>
        obtain rfl := Option.some.inj hq
        exact (take_itemText_eq_iff p).mp (congrArg List.length hfirst)
      | succ k =>
        have ht := (ih (i+1)).mp htail k q hq
        rw [Nat.add_right_comm] at ht
        exact ht
    · intro h
      rw [take_itemText (i:=i) (h 0 p rfl),(ih (i+1)).mpr fun k q hq => ?_]
      have ht := h (k+1) q hq
      rw [Nat.add_right_comm]
      exact ht

theorem getPath_eq_some {dir path : CString} (hd : getPath dir = some path) : path = dir := by
  unfold getPath at hd
  split_ifs at hd
  exact (Option.some.inj hd).symm

/-- Where the path is refused or cannot be opened nothing is done, and the value is 0. -/
theorem dbSave_unopened {c : Saving} {dir : CString} (h : ¬ (getPath dir ≠ none ∧ c.opened = true))
    (files : Files) (ht : Hashtable) : dbSave c files ht dir = .ok (files,0) := by
  rw [dbSave]
  cases hd : getPath dir with
  | none => rfl
  | some path =>
    have ho : ¬ c.opened = true := fun ho => h ⟨by simp [hd],ho⟩
    exact if_pos ho

theorem dbSave_opened {c : Saving} {dir : CString} (hd : getPath dir ≠ none) (ho : c.opened = true)
    (files : Files) (ht : Hashtable) : dbSave c files ht dir =
      (saveNodes c.taken 0 (entries ht)).map fun text => (Function.update files dir (some text),0) := by
  obtain ⟨path,hp⟩ := Option.ne_none_iff_exists'.mp hd
  obtain rfl := getPath_eq_some hp
  simp only [dbSave,hp,ho,not_true_eq_false,if_false]
  cases saveNodes c.taken 0 (entries ht) <;> rfl

/-- A save keeps the data exactly when the path is accepted and opens, no value is missing, every item
fits its buffer and every write takes all of its item, or when nothing is done and the file holds
everything already. -/
theorem saveKept_iff (c : Saving) (files : Files) (ht : Hashtable) (dir : CString) :
    SaveKept c files ht dir ↔ if getPath dir ≠ none ∧ c.opened = true then
      (∀ p ∈ entries ht, p.value ≠ none) ∧
        ∀ i p, (pairs ht)[i]? = some p → (fullText p).length ≤ ITEM_SZ-1 ∧ (fullText p).length ≤ c.taken i
      else files dir = some (serialise ht) := by
  by_cases hopen : getPath dir ≠ none ∧ c.opened = true
  · rw [if_pos hopen]
    have hsave := dbSave_opened hopen.1 hopen.2 files ht
    by_cases hv : ∀ p ∈ entries ht, p.value ≠ none
    · rw [saveNodes_ok hv] at hsave
      have hw := written_eq_iff c.taken 0 (pairs ht)
      simp only [Nat.zero_add] at hw
      rw [SaveKept,hsave,and_iff_right hv,← hw]
      constructor
      · rintro ⟨files',ret,hok,hkept⟩
        obtain ⟨rfl,rfl⟩ := Prod.mk.inj (Except.ok.inj hok)
        rcases hkept with ⟨_,hfile⟩ | ⟨hret,_⟩
        · rw [Function.update_self] at hfile
          exact Option.some.inj hfile
        · exact absurd rfl hret
      · intro hall
        refine ⟨_,_,rfl,Or.inl ⟨rfl,?_⟩⟩
        rw [Function.update_self]
        exact congrArg some hall
    · rw [saveNodes_missing hv] at hsave
      rw [SaveKept,hsave]
      refine iff_of_false ?_ fun h => hv h.1
      rintro ⟨files',ret,hok,-⟩
      cases hok
  · rw [if_neg hopen,SaveKept,dbSave_unopened hopen]
    constructor
    · rintro ⟨files',ret,hok,hkept⟩
      obtain ⟨rfl,rfl⟩ := Prod.mk.inj (Except.ok.inj hok)
      exact (hkept.resolve_right fun h => h.1 rfl).2
    · exact fun h => ⟨_,_,rfl,Or.inl ⟨rfl,h⟩⟩

def oneEntry : Hashtable := htSet htNew (lit "k") (lit "v") allocated

theorem dbSave_failing {ht : Hashtable} (h : Valid ht) {dir : CString} (hd : getPath dir ≠ none)
    (files : Files) : dbSave ⟨true,fun _ => 0⟩ files ht dir = .ok (Function.update files dir (some []),0) := by
  have hnil (i : ℕ) (ps : List (CString × CString)) : written (fun _ => 0) i ps = [] := by
    induction ps generalizing i with
    | nil => rfl
    | cons p ps ih => rw [written,ih,List.take_zero,List.append_nil]
  rw [dbSave_opened hd rfl,saveNodes_ok h.value_ne_none,hnil]
  rfl

/-- One entry, a file with contents, and a disk that is full; or a file that cannot be opened, where
the contents stay but the value is that of a save. -/
theorem save_loses : (∃ files', dbSave ⟨true,fun _ => 0⟩ (fun _ => some (ascii "a:1\r\n"))
      oneEntry (lit "./data") = .ok (files',0) ∧
    files' (lit "./data") ≠ some (serialise oneEntry) ∧
    files' (lit "./data") ≠ some (ascii "a:1\r\n")) ∧
    dbSave ⟨false,fun _ => 0⟩ (fun _ => some (ascii "a:1\r\n")) oneEntry (lit "./data") =
      .ok (fun _ => some (ascii "a:1\r\n"),0) := by
  have hv : Valid oneEntry := valid_htNew.htSet (lit "k") (lit "v")
  have hd : getPath (lit "./data") ≠ none := by decide
  refine ⟨⟨_,dbSave_failing hv hd _,?_,?_⟩,dbSave_unopened (by simp) _ _⟩
  · have hmem : (lit "k",lit "v") ∈ pairs oneEntry :=
      hv.mem_pairs.mpr htGet_htSet_self
    rw [Function.update_self]
    intro h
    have hnil : serialise oneEntry = [] := (Option.some.inj h).symm
    have hp := List.flatMap_eq_nil_iff.mp hnil _ hmem
    exact absurd hp (by decide)
  · rw [Function.update_self]
    decide

end BitcaskSave
end CodingChallenges
