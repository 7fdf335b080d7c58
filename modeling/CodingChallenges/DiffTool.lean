import CodingChallenges.CMemory
import CodingChallenges.CommonSubsequence

/-! The diff tool: `lcs_lines`, the lines two texts share.
A line is a pointer of any kind and `text` is the string it points to; lines are
compared as strings and the result holds pointers of the first list. The table has
`LEN` rows and columns, and the result one slot more than it needs. -/
namespace CodingChallenges
namespace DiffTool

open CText CMemory CommonSubsequence

abbrev LEN : ℕ := 1001

/-- A `str_list` as it is returned: the allocated slots, `none` where nothing was
stored, and the count. -/
structure StrList (ι : Type) where
  items : List (Option ι)
  count : ℕ
  deriving DecidableEq

/-- `int dp[LEN][LEN]`. -/
abbrev Table := ℕ → ℕ → ℕ

def readCell (dp : Table) (i j : ℕ) : Except Fault ℕ :=
  if i < LEN ∧ j < LEN then .ok (dp i j) else .error .badIndex

def storeCell (dp : Table) (i j v : ℕ) : Except Fault Table :=
  if i < LEN ∧ j < LEN then .ok fun k l => if k = i ∧ l = j then v else dp k l
  else .error .badIndex

variable {ι : Type}

def readItem (xs : List ι) (i : ℕ) : Except Fault ι :=
  match xs[i]? with
  | some x => .ok x
  | none => .error .badIndex

/-- `items[--idx] = x`, with the new `idx`. -/
def storeBefore (items : List (Option ι)) (idx : ℕ) (x : ι) : Except Fault (List (Option ι) × ℕ) :=
  match idx with
  | 0 => .error .badIndex
  | k+1 => if k < items.length then .ok (items.set k (some x),k) else .error .badIndex

variable (text : ι → CString)

def fillCell (a b : List ι) (dp : Table) (i j : ℕ) : Except Fault Table := do
  let x ← readItem a (i-1)
  let y ← readItem b (j-1)
  if text x = text y then
    let d ← readCell dp (i-1) (j-1)
    storeCell dp i j (d+1)
  else
    let up ← readCell dp (i-1) j
    let left ← readCell dp i (j-1)
    if up ≥ left then storeCell dp i j up else storeCell dp i j left

def fillRow (a b : List ι) (dp : Table) (i : ℕ) : ℕ → Except Fault Table
  | 0 => .ok dp
  | j+1 => do
    let dp ← fillRow a b dp i j
    fillCell text a b dp i (j+1)

/-- The outer loop up to row `i`. -/
def fill (a b : List ι) (m : ℕ) : ℕ → Except Fault Table
  | 0 => .ok fun _ _ => 0
  | i+1 => do
    let dp ← fill a b m i
    fillRow text a b dp (i+1) m

/-- The walk back through the table, with the final `idx`; `fuel` bounds its rounds. -/
def traceback (a b : List ι) (dp : Table) :
    ℕ → ℕ → ℕ → ℕ → List (Option ι) → Except Fault (List (Option ι) × ℕ)
  | 0, i, j, idx, items => if i > 0 ∧ j > 0 then .error .endless else .ok (items,idx)
  | fuel+1, i, j, idx, items =>
    if i > 0 ∧ j > 0 then do
      let x ← readItem a (i-1)
      let y ← readItem b (j-1)
      if text x = text y then
        let r ← storeBefore items idx x
        traceback a b dp fuel (i-1) (j-1) r.2 r.1
      else
        let up ← readCell dp (i-1) j
        let left ← readCell dp i (j-1)
        if up > left then traceback a b dp fuel (i-1) j idx items
        else traceback a b dp fuel i (j-1) idx items
    else .ok (items,idx)

def lcsLines (a b : List ι) : Except Fault (StrList ι) := do
  let n := a.length
  let m := b.length
  let dp ← fill text a b m n
  let count ← readCell dp n m
  let r ← traceback text a b dp (n+m) n m count (List.replicate (count+1) none)
  .ok ⟨r.1,count⟩

def texts (a : List ι) : List CString := a.map text

@[simp] theorem length_texts (a : List ι) : (texts text a).length = a.length := List.length_map text

theorem texts_concat (a : List ι) (x : ι) : texts text (a ++ [x]) = texts text a ++ [text x] := by
  simp [texts]

/-- The first `i - 1` rows and `j` entries of row `i` hold their values, and the first
column is zero all the way down. -/
structure Filled (a b : List ι) (i j : ℕ) (dp : Table) : Prop where
  column : ∀ k, dp k 0 = 0
  done : ∀ k l, l ≤ b.length → k < i ∨ (k = i ∧ l ≤ j) → dp k l = table (texts text a) (texts text b) k l

variable {a b : List ι}

theorem readItem_of_lt {xs : List ι} {i : ℕ} (h : i < xs.length) : readItem xs i = .ok xs[i] := by
  simp [readItem,List.getElem?_eq_getElem h]

theorem readCell_of_lt {i j : ℕ} (hi : i < LEN) (hj : j < LEN) (dp : Table) :
    readCell dp i j = .ok (dp i j) := if_pos ⟨hi,hj⟩

theorem table_succ {i j : ℕ} (hi : i < a.length) (hj : j < b.length) :
    table (texts text a) (texts text b) (i+1) (j+1) =
      if text a[i] = text b[j] then table (texts text a) (texts text b) i j + 1
      else max (table (texts text a) (texts text b) i (j+1)) (table (texts text a) (texts text b) (i+1) j) := by
  rw [table]
  simp [texts,hi,hj]

variable {text}

/-- The body of the loops computes one more entry. -/
theorem fillCell_filled (ha : a.length < LEN) (hb : b.length < LEN) {dp : Table} {i j : ℕ}
    (hi : i < a.length) (hj : j < b.length) (h : Filled text a b (i+1) j dp) :
    ∃ dp', fillCell text a b dp (i+1) (j+1) = .ok dp' ∧ Filled text a b (i+1) (j+1) dp' := by
  let v := table (texts text a) (texts text b) (i+1) (j+1)
  have hstep : fillCell text a b dp (i+1) (j+1) = storeCell dp (i+1) (j+1) v := by
    have hd := h.done i j (by omega) (by omega)
    have hup := h.done i (j+1) (by omega) (by omega)
    have hleft := h.done (i+1) j (by omega) (by omega)
    have hv := table_succ text hi hj
    simp only [fillCell,Nat.add_sub_cancel,readItem_of_lt hi,readItem_of_lt hj,bind,Except.bind]
    rw [readCell_of_lt (by omega) (by omega),readCell_of_lt (by omega) (by omega),
      readCell_of_lt (by omega) (by omega),hd,hup,hleft]
    by_cases he : text a[i] = text b[j]
    · rw [if_pos he]
      rw [if_pos he] at hv
      simp only [v,hv]
    · rw [if_neg he]
      rw [if_neg he] at hv
      simp only [v,hv]
      split_ifs with hle
      · rw [max_eq_left hle]
      · rw [max_eq_right (by omega)]
  refine ⟨_,hstep.trans (if_pos ⟨by omega,by omega⟩),?_,?_⟩
  · intro k
    simpa using h.column k
  · intro k l hl hk
    by_cases he : k = i+1 ∧ l = j+1
    · rw [if_pos he,he.1,he.2]
    · rw [if_neg he]
      exact h.done k l hl (by omega)

theorem fillRow_filled (ha : a.length < LEN) (hb : b.length < LEN) {dp : Table} {i : ℕ}
    (hi : i < a.length) (h : Filled text a b (i+1) 0 dp) (j : ℕ) (hj : j ≤ b.length) :
    ∃ dp', fillRow text a b dp (i+1) j = .ok dp' ∧ Filled text a b (i+1) j dp' := by
  induction j with
  | zero => exact ⟨dp,rfl,h⟩
  | succ j ih =>
    obtain ⟨dp',hr,hf⟩ := ih (by omega)
    obtain ⟨dp'',hc,hf'⟩ := fillCell_filled ha hb hi hj hf
    exact ⟨dp'',bind_eq_ok.mpr ⟨dp',hr,hc⟩,hf'⟩

theorem fill_filled (ha : a.length < LEN) (hb : b.length < LEN) (i : ℕ) (hi : i ≤ a.length) :
    ∃ dp, fill text a b b.length i = .ok dp ∧ Filled text a b i b.length dp := by
  induction i with
  | zero =>
    refine ⟨_,rfl,fun _ => rfl,fun k l _ hk => ?_⟩
    obtain rfl : k = 0 := by omega
    rw [table_zero_left]
  | succ i ih =>
    obtain ⟨dp,hr,hf⟩ := ih (by omega)
    have h0 : Filled text a b (i+1) 0 dp := by
      refine ⟨hf.column,fun k l hl hk => ?_⟩
      rcases hk with hk | ⟨rfl,hl0⟩
      · exact hf.done k l hl (by omega)
      · rw [Nat.le_zero.mp hl0,hf.column,table_zero_right]
    obtain ⟨dp',hr',hf'⟩ := fillRow_filled ha hb hi h0 b.length (le_refl _)
    exact ⟨dp',bind_eq_ok.mpr ⟨dp,hr,hr'⟩,hf'⟩

/-- The entries the walk reads are those of the recurrence. -/
def Complete (text : ι → CString) (a b : List ι) (dp : Table) : Prop :=
  ∀ k l, k ≤ a.length → l ≤ b.length → dp k l = table (texts text a) (texts text b) k l

theorem storeBefore_succ {items : List (Option ι)} {k : ℕ} (h : k < items.length) (x : ι) :
    storeBefore items (k+1) x = .ok (items.set k (some x),k) := by
  simp [storeBefore,h]

theorem drop_set {items : List (Option ι)} {k : ℕ} (h : k < items.length) (x : ι) :
    (items.set k (some x)).drop k = some x :: items.drop (k+1) := by
  have hl : k < (items.set k (some x)).length := by simpa using h
  rw [List.drop_eq_getElem_cons hl,List.getElem_set_self,List.drop_set_of_lt (Nat.lt_succ_self k)]

theorem traceback_equal {i j k fuel : ℕ} {dp : Table} {items : List (Option ι)} (hi : i < a.length)
    (hj : j < b.length) (he : text a[i] = text b[j]) (hk : k < items.length) :
    traceback text a b dp (fuel+1) (i+1) (j+1) (k+1) items =
      traceback text a b dp fuel i j k (items.set k (some a[i])) := by
  simp only [traceback,Nat.add_sub_cancel,readItem_of_lt hi,readItem_of_lt hj,bind,Except.bind]
  rw [if_pos ⟨Nat.succ_pos i,Nat.succ_pos j⟩,if_pos he,storeBefore_succ hk]

theorem traceback_differ (ha : a.length < LEN) (hb : b.length < LEN) {i j fuel idx : ℕ} {dp : Table}
    {items : List (Option ι)} (hi : i < a.length) (hj : j < b.length) (he : text a[i] ≠ text b[j]) :
    traceback text a b dp (fuel+1) (i+1) (j+1) idx items =
      if dp i (j+1) > dp (i+1) j then traceback text a b dp fuel i (j+1) idx items
      else traceback text a b dp fuel (i+1) j idx items := by
  have hup : readCell dp i (j+1) = .ok (dp i (j+1)) := readCell_of_lt (by omega) (by omega) dp
  have hleft : readCell dp (i+1) j = .ok (dp (i+1) j) := readCell_of_lt (by omega) (by omega) dp
  simp only [traceback,Nat.add_sub_cancel,readItem_of_lt hi,readItem_of_lt hj,hup,hleft,bind,Except.bind]
  rw [if_pos ⟨Nat.succ_pos i,Nat.succ_pos j⟩,if_neg he]

theorem traceback_edge {dp : Table} (hdp : Complete text a b dp) {i j : ℕ} (hi : i ≤ a.length)
    (hj : j ≤ b.length) (h : i = 0 ∨ j = 0) (fuel : ℕ) (items : List (Option ι)) :
    dp i j = 0 ∧ traceback text a b dp fuel i j (dp i j) items = .ok (items,0) := by
  have h0 : dp i j = 0 := by
    rw [hdp i j hi hj]
    rcases h with rfl | rfl
    · rw [table_zero_left]
    · rw [table_zero_right]
  rw [h0]
  refine ⟨rfl,?_⟩
  cases fuel <;> rcases h with rfl | rfl <;> simp [traceback]

/-- From an entry of the table the walk fills exactly as many slots as the entry says, down
to the first one, with lines that are common to the two initial parts. -/
theorem traceback_spec (ha : a.length < LEN) (hb : b.length < LEN) {dp : Table}
    (hdp : Complete text a b dp) (fuel : ℕ) {i j : ℕ} (hf : i+j ≤ fuel) (hi : i ≤ a.length)
    (hj : j ≤ b.length) {items : List (Option ι)} (hs : dp i j ≤ items.length) :
    ∃ c : List ι, traceback text a b dp fuel i j (dp i j) items =
        .ok (c.map some ++ items.drop (dp i j),0) ∧
      c.length = dp i j ∧ c.Sublist (a.take i) ∧ (texts text c).Sublist (texts text (b.take j)) := by
  induction fuel generalizing i j items with
  | zero =>
    obtain ⟨h0,ht⟩ := traceback_edge hdp hi hj (Or.inl (by omega)) 0 items
    exact ⟨[],by rw [ht,h0]; rfl,by simp [h0],by simp,by simp [texts]⟩
  | succ fuel ih =>
    by_cases hedge : i = 0 ∨ j = 0
    · obtain ⟨h0,ht⟩ := traceback_edge hdp hi hj hedge (fuel+1) items
      exact ⟨[],by rw [ht,h0]; rfl,by simp [h0],by simp,by simp [texts]⟩
    have hi0 : 0 < i := Nat.pos_of_ne_zero fun h => hedge (Or.inl h)
    have hj0 : 0 < j := Nat.pos_of_ne_zero fun h => hedge (Or.inr h)
    obtain ⟨i,rfl⟩ := Nat.exists_eq_add_of_lt hi0
    obtain ⟨j,rfl⟩ := Nat.exists_eq_add_of_lt hj0
    simp only [Nat.zero_add] at *
    have hta : a.take (i+1) = a.take i ++ [a[i]] := List.take_succ_eq_append_getElem hi
    have htb : b.take (j+1) = b.take j ++ [b[j]] := List.take_succ_eq_append_getElem hj
    have ht := table_succ text hi hj
    rw [← hdp _ _ hi hj,← hdp i j (by omega) (by omega),← hdp i (j+1) (by omega) hj,
      ← hdp (i+1) j hi (by omega)] at ht
    by_cases he : text a[i] = text b[j]
    · -- the line goes in front of what the shorter parts give
      rw [if_pos he] at ht
      have hk : dp i j < items.length := by omega
      have hset : dp i j ≤ (items.set (dp i j) (some a[i])).length := by simpa using hk.le
      obtain ⟨c,hc,hl,hca,hcb⟩ := ih (by omega) (by omega) (by omega) hset
      refine ⟨c ++ [a[i]],?_,by simp [hl,ht],?_,?_⟩
      · rw [ht,traceback_equal hi hj he hk]
        simpa [drop_set hk] using hc
      · rw [hta]
        exact hca.append (List.Sublist.refl _)
      · rw [htb,texts_concat,texts_concat,he]
        exact hcb.append (List.Sublist.refl _)
    · rw [if_neg he] at ht
      rw [traceback_differ ha hb hi hj he]
      split_ifs with hgt
      · have hd : dp (i+1) (j+1) = dp i (j+1) := by omega
        have hs' : dp i (j+1) ≤ items.length := by omega
        obtain ⟨c,hc,hl,hca,hcb⟩ := ih (by omega) (by omega) hj hs'
        rw [hd]
        refine ⟨c,hc,hl,?_,hcb⟩
        rw [hta]
        exact hca.trans (List.sublist_append_left _ _)
      · -- an equal entry above is passed over for the one to the left
        have hd : dp (i+1) (j+1) = dp (i+1) j := by omega
        have hs' : dp (i+1) j ≤ items.length := by omega
        obtain ⟨c,hc,hl,hca,hcb⟩ := ih (by omega) hi (by omega) hs'
        rw [hd]
        refine ⟨c,hc,hl,hca,?_⟩
        rw [htb,texts_concat]
        exact hcb.trans (List.sublist_append_left _ _)

/-- The result holds, behind no gap, a subsequence of the first list that is one of the
second list as strings, and no common subsequence of strings is longer. -/
theorem lcsLines_longest (text : ι → CString) (a b : List ι) (ha : a.length ≤ 1000)
    (hb : b.length ≤ 1000) :
    ∃ c : List ι, lcsLines text a b = .ok ⟨c.map some ++ [none],c.length⟩ ∧
      c.Sublist a ∧ (texts text c).Sublist (texts text b) ∧
      ∀ d : List CString, d.Sublist (texts text a) → d.Sublist (texts text b) → d.length ≤ c.length := by
  have hn : a.length < LEN := Nat.lt_succ_of_le ha
  have hm : b.length < LEN := Nat.lt_succ_of_le hb
  obtain ⟨dp,hr,hf⟩ : ∃ dp, fill text a b b.length a.length = .ok dp ∧
      Filled text a b a.length b.length dp := fill_filled hn hm a.length (le_refl _)
  have hdp : Complete text a b dp := fun k l hk hl => hf.done k l hl (by omega)
  have hcell : readCell dp a.length b.length = .ok (dp a.length b.length) := readCell_of_lt hn hm dp
  obtain ⟨c,hc,hl,hca,hcb⟩ := traceback_spec hn hm hdp _ (le_refl _) (le_refl _) (le_refl _)
    (by simp : dp a.length b.length ≤ (List.replicate (dp a.length b.length+1) (none : Option ι)).length)
  have hlong := longest_table (texts text a) (texts text b) a.length b.length (by simp) (by simp)
  rw [← hdp _ _ (le_refl _) (le_refl _),← hl,List.take_of_length_le (by simp),
    List.take_of_length_le (by simp)] at hlong
  refine ⟨c,?_,by simpa using hca,by simpa using hcb,fun d hda hdb => hlong.bound d ⟨hda,hdb⟩⟩
  refine bind_eq_ok.mpr ⟨dp,hr,bind_eq_ok.mpr ⟨_,hcell,bind_eq_ok.mpr ⟨_,hc,?_⟩⟩⟩
  simp [hl]

theorem lcsLines_longest_pair :
    ∃ c : List CString,
      lcsLines id [lit "contains:",lit "this is the lcs"] [lit "this is the lcs",lit "we're testing"] =
        .ok ⟨c.map some ++ [none],c.length⟩ ∧
      c.Sublist [lit "contains:",lit "this is the lcs"] ∧
      (texts id c).Sublist (texts id [lit "this is the lcs",lit "we're testing"]) ∧
      ∀ d : List CString, d.Sublist (texts id [lit "contains:",lit "this is the lcs"]) →
        d.Sublist (texts id [lit "this is the lcs",lit "we're testing"]) → d.length ≤ c.length :=
  lcsLines_longest id [lit "contains:",lit "this is the lcs"] [lit "this is the lcs",lit "we're testing"]
    (by decide) (by decide)

example : lcsLines id [lit "contains:",lit "this is the lcs"] [lit "this is the lcs",lit "we're testing"] =
    .ok ⟨[some (lit "this is the lcs"),none],1⟩ := by decide +kernel

end DiffTool
end CodingChallenges
