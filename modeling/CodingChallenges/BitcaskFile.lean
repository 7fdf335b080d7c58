import CodingChallenges.BitcaskTable
import CodingChallenges.CStream
import CodingChallenges.CMemory

/-! The file of the Bitcask store: `db_save` and `db_load`.
An item is the text of one node in a buffer of fixed size, so a long one is cut; the
loader reads pieces that fit the same buffer, cuts them at the first CR or LF and splits
them at the first colon. -/
namespace CodingChallenges
namespace BitcaskFile

open CText CMemory CStream ChainedTable BitcaskTable

abbrev ITEM_SZ : ℕ := 1024

/-- What can be read under each path, `none` where nothing can. No two of the paths that are used
name one file. -/
abbrev Files := CString → Option Bytes

/-- `_get_path`: a path that does not start with "./" or does not fit its buffer is refused. -/
def getPath (dir : CString) : Option CString :=
  if eqIgnoreCase (dir.take 2) (lit "./") then
    if dir.length ≥ 1024 then none else some dir
  else none

/-- `snprintf(item, sizeof(item), "%s:%s\r\n", …)`. -/
def itemText (p : CString × CString) : Bytes :=
  (p.1.bytes ++ (58 :: (p.2.bytes ++ [13,10]))).take (ITEM_SZ-1)

/-- The walk along the nodes; the `i`-th `write` takes at most `taken i` bytes, and its
result is not looked at. -/
def saveNodes (taken : ℕ → ℕ) : ℕ → List Node → Except Fault Bytes
  | _, [] => .ok []
  | i, p :: ps =>
    match p.value with
    | none => .error .nullPointer
    | some value => do
      let rest ← saveNodes taken (i+1) ps
      .ok ((itemText (p.key,value)).take (taken i) ++ rest)

/-- What the system answers to a save: whether `open` succeeds, and how much the `i`-th `write` takes. -/
structure Saving where
  opened : Bool
  taken : ℕ → ℕ

/-- `db_save` and what it returns; `open` empties the file. -/
def dbSave (c : Saving) (files : Files) (ht : Hashtable) (dir : CString) : Except Fault (Files × ℤ) :=
  match getPath dir with
  | none => .ok (files,0)
  | some path =>
    if ¬ c.opened then .ok (files,0)
    else do
      let text ← saveNodes c.taken 0 (entries ht)
      .ok (Function.update files path (some text),0)

/-- An open that succeeds, and writes that take all they are offered. -/
def whole : Saving := ⟨true,fun _ => ITEM_SZ⟩

def lineLength (item : CString) : ℕ := (item.bytes.takeWhile fun c => c ≠ 13 ∧ c ≠ 10).length

/-- The key and the value of a piece, `none` when it has no colon. -/
def splitItem (piece : Bytes) : Option (CString × CString) :=
  let item := CString.ofBuffer piece
  let item := item.take (lineLength item)
  if 58 ∈ item.bytes then
    let n := (item.bytes.takeWhile (· ≠ 58)).length
    some (item.take n,item.drop (n+1))
  else none

def loadItem (ht : Hashtable) (piece : Bytes) : Hashtable :=
  match splitItem piece with
  | none => ht
  | some (key,value) => htSet ht key value allocated

/-- `db_load` and what it returns. -/
def dbLoad (files : Files) (ht : Hashtable) (dir : CString) : Hashtable × ℤ :=
  match getPath dir with
  | none => (ht,0)
  | some path =>
    match files path with
    | none => (ht,-1)
    | some text => ((chunks (ITEM_SZ-1) text).foldl loadItem ht,0)

def loadedPairs (text : Bytes) : List (CString × CString) :=
  (chunks (ITEM_SZ-1) text).filterMap splitItem

theorem foldl_loadItem (ht : Hashtable) (pieces : List Bytes) :
    pieces.foldl loadItem ht = setAll ht (pieces.filterMap splitItem) := by
  induction pieces generalizing ht with
  | nil => rfl
  | cons c pieces ih =>
    rw [List.foldl_cons,ih,loadItem]
    cases hs : splitItem c with
    | none => simp [hs]
    | some p => simp [hs,setAll]

theorem length_itemText (p : CString × CString) : (itemText p).length ≤ ITEM_SZ-1 := by
  simp [itemText]

theorem saveNodes_whole (i : ℕ) (ps : List Node) (h : ∀ p ∈ ps, p.value ≠ none) :
    saveNodes whole.taken i ps =
      .ok ((ps.filterMap fun p => p.value.map fun v => (p.key,v)).flatMap itemText) := by
  induction ps generalizing i with
  | nil => rfl
  | cons p ps ih =>
    obtain ⟨v,hv⟩ := Option.ne_none_iff_exists'.mp (h p (by simp))
    have ht := ih (i+1) fun q hq => h q (by simp [hq])
    simp only [whole] at ht
    have hw : (itemText (p.key,v)).take ITEM_SZ = itemText (p.key,v) :=
      List.take_of_length_le ((length_itemText _).trans (by decide))
    simp [saveNodes,hv,ht,whole,hw,bind,Except.bind]

theorem saveNodes_entries {ht : Hashtable} (h : Valid ht) :
    saveNodes whole.taken 0 (entries ht) = .ok ((pairs ht).flatMap itemText) :=
  saveNodes_whole 0 _ h.value_ne_none

/-- Saving a valid table and loading it into a fresh one sets the pairs that can be read
from the items. -/
theorem dbLoad_dbSave {ht : Hashtable} (h : Valid ht) {dir path : CString} (hd : getPath dir = some path)
    (files : Files) :
    ∃ files', dbSave whole files ht dir = .ok (files',0) ∧
      (dbLoad files' htNew dir).1 = setAll htNew (loadedPairs ((pairs ht).flatMap itemText)) := by
  refine ⟨Function.update files path (some ((pairs ht).flatMap itemText)),?_,?_⟩
  · have ho : whole.opened = true := rfl
    simp only [dbSave,hd,ho,not_true_eq_false,if_false,saveNodes_entries h,bind,Except.bind]
  · simp only [dbLoad,hd,Function.update_self,foldl_loadItem]
    rfl

/-- What the file format can hold. -/
structure Storable (key value : CString) : Prop where
  no_colon : 58 ∉ key.bytes
  no_cr : 13 ∉ key.bytes
  no_lf : 10 ∉ key.bytes
  value_cr : 13 ∉ value.bytes
  value_lf : 10 ∉ value.bytes
  fits : key.length+value.length ≤ 1022

theorem item_piece {p : CString × CString} (hk : 10 ∉ p.1.bytes) (hv : 10 ∉ p.2.bytes) :
    ∃ u c, itemText p = u ++ [c] ∧ 10 ∉ u ∧ u.length < ITEM_SZ-1 ∧ (c = 10 ∨ u.length+1 = ITEM_SZ-1) := by
  let line := p.1.bytes ++ (58 :: (p.2.bytes ++ [13]))
  have h10 : 10 ∉ line := by simp [line,hk,hv]
  have ht : itemText p = (line ++ [10]).take (ITEM_SZ-1) := by simp [itemText,line]
  by_cases hl : line.length < ITEM_SZ-1
  · refine ⟨line,10,?_,h10,hl,Or.inl rfl⟩
    rw [ht,List.take_of_length_le]
    rw [List.length_append]
    exact hl
  · have hle : ITEM_SZ-1 ≤ line.length := Nat.le_of_not_lt hl
    have h10' : 10 ∉ line.take (ITEM_SZ-1) := fun h => h10 (List.mem_of_mem_take h)
    obtain ⟨u,c,hu,hu10,hlt,hc⟩ := exists_piece (by decide) h10' (List.length_take_of_le hle)
    exact ⟨u,c,by rw [ht,List.take_append_of_le_length hle,hu],hu10,hlt,Or.inr hc⟩

theorem chunks_item {p : CString × CString} (hk : 10 ∉ p.1.bytes) (hv : 10 ∉ p.2.bytes) :
    chunks (ITEM_SZ-1) (itemText p) = [itemText p] := by
  obtain ⟨u,c,hu,h10,hl,hc⟩ := item_piece hk hv
  rw [hu]
  exact chunks_piece h10 hl hc

theorem settled_item {p : CString × CString} (hk : 10 ∉ p.1.bytes) (hv : 10 ∉ p.2.bytes) :
    Settled (ITEM_SZ-1) (itemText p) := by
  obtain ⟨u,c,hu,h10,hl,hc⟩ := item_piece hk hv
  rw [hu]
  exact settled_piece h10 hl hc

theorem settled_short {p : CString × CString} (h : p.1.length+p.2.length ≤ 1020) :
    Settled (ITEM_SZ-1) (itemText p) := by
  have ht : itemText p = (p.1.bytes ++ (58 :: (p.2.bytes ++ [13]))) ++ [10] := by
    rw [itemText,List.take_of_length_le]
    · simp
    · simp only [CString.length] at h
      simp only [List.length_append,List.length_cons,List.length_nil,ITEM_SZ]
      omega
  rw [ht]
  exact settled_lf _ _

def cutLine (piece : Bytes) : Bytes := (CString.ofBuffer piece).bytes.takeWhile fun c => c ≠ 13 ∧ c ≠ 10

theorem take_takeWhile (q : UInt8 → Bool) (w : Bytes) : w.take (w.takeWhile q).length = w.takeWhile q :=
  (List.prefix_iff_eq_take.mp (List.takeWhile_prefix q)).symm

theorem splitItem_eq_some {piece : Bytes} {key value : CString} :
    splitItem piece = some (key,value) ↔
      cutLine piece = key.bytes ++ 58 :: value.bytes ∧ 58 ∉ key.bytes := by
  let line := (CString.ofBuffer piece).take (lineLength (CString.ofBuffer piece))
  let n := (line.bytes.takeWhile (· ≠ 58)).length
  have hline : line.bytes = cutLine piece := take_takeWhile _ _
  have hs : splitItem piece = if 58 ∈ line.bytes then some (line.take n,line.drop (n+1)) else none := rfl
  rw [hs,← hline]
  constructor
  · intro h
    split_ifs at h with hc
    obtain ⟨u,v,huv,hu⟩ := List.eq_append_cons_of_mem hc
    obtain ⟨rfl,rfl⟩ := Prod.mk.inj (Option.some.inj h)
    have hn : n = u.length := by simp only [n,huv,takeWhile_ne hu]
    have hk : (line.take n).bytes = u := by rw [CString.take_bytes,huv,hn,List.take_left]
    have hv : (line.drop (n+1)).bytes = v := by
      rw [CString.drop_bytes,huv,hn,← List.drop_drop,List.drop_left]
      rfl
    rw [hk,hv]
    exact ⟨huv,hu⟩
  · rintro ⟨huv,hu⟩
    have hn : n = key.bytes.length := by simp only [n,huv,takeWhile_ne hu]
    have hk : line.take n = key := CString.ext (by rw [CString.take_bytes,huv,hn,List.take_left])
    have hv : line.drop (n+1) = value := CString.ext (by
      rw [CString.drop_bytes,huv,hn,← List.drop_drop,List.drop_left]
      rfl)
    rw [if_pos (by simp [huv]),hk,hv]

/-- Every pair the loader finds is one the format can hold. -/
theorem splitItem_storable {piece : Bytes} {key value : CString} (h : splitItem piece = some (key,value))
    (hl : piece.length ≤ ITEM_SZ-1) : Storable key value := by
  obtain ⟨hcut,hk⟩ := splitItem_eq_some.mp h
  have hclean : ∀ c ∈ key.bytes ++ 58 :: value.bytes, c ≠ 13 ∧ c ≠ 10 := fun c hm => by
    rw [← hcut] at hm
    simpa using List.mem_takeWhile_imp hm
  have hlen : (key.bytes ++ 58 :: value.bytes).length ≤ ITEM_SZ-1 := by
    rw [← hcut]
    refine ((List.takeWhile_sublist _).length_le.trans ?_).trans hl
    exact (List.takeWhile_sublist _).length_le
  have hfit : key.length+value.length ≤ 1022 := by
    simp only [List.length_append,List.length_cons,ITEM_SZ] at hlen
    simp only [CString.length]
    omega
  exact ⟨hk,fun h => (hclean 13 (by simp [h])).1 rfl,fun h => (hclean 10 (by simp [h])).2 rfl,
    fun h => (hclean 13 (by simp [h])).1 rfl,fun h => (hclean 10 (by simp [h])).2 rfl,hfit⟩

theorem splitItem_item {p : CString × CString} (h : Storable p.1 p.2) : splitItem (itemText p) = some p := by
  let line := p.1.bytes ++ 58 :: p.2.bytes
  have hline : line.length ≤ ITEM_SZ-1 := by
    have hf := h.fits
    simp only [CString.length] at hf
    simp only [line,List.length_append,List.length_cons,ITEM_SZ]
    omega
  have ht : itemText p = line ++ [13,10].take (ITEM_SZ-1-line.length) := by
    have hi : itemText p = (line ++ [13,10]).take (ITEM_SZ-1) := by simp [itemText,line]
    rw [hi,List.take_append,List.take_of_length_le hline]
  have h0 : 0 ∉ itemText p := fun h0 => by
    have hm := List.mem_of_mem_take h0
    simp [p.1.nul_free,p.2.nul_free] at hm
  have hb : (CString.ofBuffer (itemText p)).bytes = itemText p := CString.bytes_ofBuffer_of_notMem h0
  refine splitItem_eq_some.mpr ⟨?_,h.no_colon⟩
  have hclean : ∀ c ∈ line, (decide (c ≠ 13 ∧ c ≠ 10)) = true := fun c hc => by
    have hne : c ≠ 13 ∧ c ≠ 10 := by
      constructor
      · rintro rfl
        simp [line,h.no_cr,h.value_cr] at hc
      · rintro rfl
        simp [line,h.no_lf,h.value_lf] at hc
    simpa using hne
  -- what is left of the separator starts with CR, or is nothing
  have htail (m : ℕ) : (([13,10] : Bytes).take m).takeWhile (fun c => decide (c ≠ 13 ∧ c ≠ 10)) = [] := by
    cases m <;> simp
  have hcut : cutLine (itemText p) = line := by
    rw [cutLine,hb,ht,List.takeWhile_append_of_pos hclean]
    exact (congrArg (line ++ ·) (htail _)).trans (List.append_nil line)
  exact hcut

theorem loadedPairs_items {ps : List (CString × CString)} (h : ∀ p ∈ ps, Storable p.1 p.2) :
    loadedPairs (ps.flatMap itemText) = ps := by
  rw [loadedPairs,List.flatMap_def,chunks_flatten (by decide)]
  · induction ps with
    | nil => rfl
    | cons p ps ih =>
      have hp := h p (by simp)
      have ht := ih fun q hq => h q (by simp [hq])
      simp only [List.map_cons,List.flatMap_cons,chunks_item hp.no_lf hp.value_lf,List.filterMap_append,ht]
      simp [splitItem_item hp]
  · intro w hw
    obtain ⟨p,hp,rfl⟩ := List.mem_map.mp hw
    exact settled_item (h p hp).no_lf (h p hp).value_lf

theorem storable_of_loaded {text : Bytes} {key value : CString}
    (h : htGet (setAll htNew (loadedPairs text)) key = some value) : Storable key value := by
  rcases mem_of_htGet_setAll h with hm | hn
  · obtain ⟨piece,hp,hs⟩ := List.mem_filterMap.mp hm
    exact splitItem_storable hs (length_le_of_mem_chunks hp)
  · exact (htGet_htNew key value hn).elim

/-- Loading sets every pair of a table whose pairs are all storable, and nothing else. -/
theorem load_storable {ht : Hashtable} (h : Valid ht) (hs : ∀ key value, htGet ht key = some value →
    Storable key value) (key : CString) :
    htGet (setAll htNew (loadedPairs ((pairs ht).flatMap itemText))) key = htGet ht key := by
  rw [loadedPairs_items fun p hp => hs p.1 p.2 (h.mem_pairs.mp hp)]
  cases hg : htGet ht key with
  | some value => exact htGet_setAll_of_mem h.keys_nodup (h.mem_pairs.mpr hg) htNew
  | none =>
    cases hl : htGet (setAll htNew (pairs ht)) key with
    | none => rfl
    | some value =>
      rcases mem_of_htGet_setAll hl with hm | hn
      · exact (Option.some_ne_none value ((h.mem_pairs.mp hm).symm.trans hg)).elim
      · exact (htGet_htNew key value hn).elim

theorem getPath_of_short {dir : CString} (h : dir.bytes.take 2 = ascii "./") (hl : dir.length < 1024) :
    getPath dir = some dir := by
  have ht : dir.take 2 = lit "./" := CString.ext h
  have he : eqIgnoreCase (lit "./") (lit "./") = true := by decide
  rw [getPath,ht,if_pos he,if_neg (by omega)]

/-- What is saved under one path is loaded from it. -/
def RoundTripRange (dir : CString) : Prop :=
  ∀ (files : Files) (sets : List (CString × CString)),
    ∃ files', dbSave whole files (setAll htNew sets) dir = .ok (files',0) ∧
      ((∀ key, htGet (dbLoad files' htNew dir).1 key = htGet (setAll htNew sets) key) ↔
        ∀ key value, htGet (setAll htNew sets) key = some value → Storable key value)

/-- With a path that is accepted, a table survives being saved and loaded if and only if
all its entries are storable. -/
theorem load_save_iff (dir : CString) (hd : dir.bytes.take 2 = ascii "./") (hl : dir.length < 1024) :
    RoundTripRange dir := by
  intro files sets
  have hv : Valid (setAll htNew sets) := valid_htNew.setAll sets
  obtain ⟨files',hs,hload⟩ := dbLoad_dbSave hv (getPath_of_short hd hl) files
  refine ⟨files',hs,?_⟩
  rw [hload]
  constructor
  · intro h key value hg
    rw [← h] at hg
    exact storable_of_loaded hg
  · exact fun h key => load_storable hv h key

theorem load_save_iff_data : RoundTripRange (lit "./data") :=
  load_save_iff (lit "./data") (by decide) (by decide)

theorem getPath_of_long {dir : CString} (h : 1024 ≤ dir.length) : getPath dir = none := by
  unfold getPath
  split_ifs <;> rfl

theorem not_roundTripRange_of_long {dir : CString} (h : 1024 ≤ dir.length) : ¬ RoundTripRange dir := by
  intro hr
  obtain ⟨files',_,hiff⟩ := hr (fun _ => none) [(lit "k",lit "v")]
  have hg : htGet (setAll htNew [(lit "k",lit "v")]) (lit "k") = some (lit "v") :=
    htGet_setAll_of_mem (by simp) (by simp) htNew
  have hs : ∀ key value, htGet (setAll htNew [(lit "k",lit "v")]) key = some value → Storable key value := by
    intro key value hk
    rcases mem_of_htGet_setAll hk with hm | hn
    · obtain ⟨rfl,rfl⟩ := Prod.mk.inj (List.mem_singleton.mp hm)
      exact ⟨by decide,by decide,by decide,by decide,by decide,by decide⟩
    · exact (htGet_htNew key value hn).elim
  have hall := (hiff.mpr hs (lit "k")).trans hg
  simp only [dbLoad,getPath_of_long h] at hall
  exact htGet_htNew _ _ hall

def deepPath (n : ℕ) : CString where
  bytes := 46 :: 47 :: List.replicate n 97
  nul_free := by simp

theorem length_deepPath (n : ℕ) : (deepPath n).length = n+2 := by
  simp [deepPath,CString.length]

theorem load_save_long_path :
    (deepPath 1022).bytes.take 2 = ascii "./" ∧ ¬ RoundTripRange (deepPath 1022) :=
  ⟨rfl,not_roundTripRange_of_long (by rw [length_deepPath])⟩

end BitcaskFile
end CodingChallenges
