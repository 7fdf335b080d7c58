import CodingChallenges.ShellEditor

/-! The stores of the line editor at the end of its buffers. The loop takes a byte while the
line is shorter than the buffer, so the line can fill it; the terminator is then stored behind
it, by the next byte that is read. -/
namespace CodingChallenges
namespace EditorBounds

open CText CMemory CBuffer ShellEditor

variable {history : List CString} {e : Editor} {r : Reference}

/-- From the state `r` on, some keys fill the line and one more byte is read. -/
def OverlongFrom (history : List CString) (r : Reference) (input : Bytes) : Prop :=
  ∃ (keys : List Key) (c : UInt8) (rest : Bytes), input = keys.flatMap Key.bytes ++ c :: rest ∧
    (∀ k ∈ keys, k.Plain) ∧ LINE_SZ ≤ (keys.foldl (Reference.press history) r).text.length

/-- Before Enter a byte is read while the line has the size of the buffer. -/
def Overlong (history : List CString) (input : Bytes) : Prop :=
  OverlongFrom history ⟨[],history.length,[]⟩ input

/-- What `_fgets` does when the loop is left. -/
def finish (r : Option Editor × Bytes) : Except Fault (Option Buffer × Bytes) :=
  match r.1 with
  | none => .ok (none,r.2)
  | some e => do
    let buf ← store e.buf e.len [0]
    .ok (some buf,r.2)

theorem fgets_eq (buf : Buffer) (sz : ℕ) (input : Bytes) :
    fgets history buf sz input =
      editLoop history sz input.length input ⟨buf,0,fresh LINE_SZ,0,history.length⟩ >>= finish := rfl

theorem bytes_inj {k k' : Key} (hk : k.Plain) (hk' : k'.Plain) {a b : Bytes}
    (h : k.bytes ++ a = k'.bytes ++ b) : k = k' ∧ a = b := by
  cases k with
  | byte c =>
    cases k' with
    | byte c' =>
      obtain ⟨rfl,rfl⟩ := List.cons.inj h
      exact ⟨rfl,rfl⟩
    | escape s' t' => exact (hk.2 (List.cons.inj h).1).elim
  | escape s t =>
    cases k' with
    | byte c' => exact (hk'.2 (List.cons.inj h).1.symm).elim
    | escape s' t' =>
      simp only [Key.bytes,List.cons_append,List.nil_append,List.cons.injEq] at h
      obtain ⟨_,rfl,rfl,rfl⟩ := h
      exact ⟨rfl,rfl⟩

theorem overlong_full (h : LINE_SZ ≤ r.text.length) (c : UInt8) (input : Bytes) :
    OverlongFrom history r (c :: input) := ⟨[],c,input,rfl,by simp,h⟩

theorem overlong_key (hlt : r.text.length < LINE_SZ) {k : Key} (hk : k.Plain) (input : Bytes) :
    OverlongFrom history r (k.bytes ++ input) ↔ OverlongFrom history (r.press history k) input := by
  constructor
  · rintro ⟨keys,c,rest,hinput,hplain,hlen⟩
    cases keys with
    | nil => exact absurd hlen (Nat.not_le.mpr hlt)
    | cons k' keys =>
      rw [List.flatMap_cons,List.append_assoc] at hinput
      obtain ⟨rfl,rfl⟩ := bytes_inj hk (hplain k' (by simp)) hinput
      exact ⟨keys,c,rest,rfl,fun k h => hplain k (by simp [h]),hlen⟩
  · rintro ⟨keys,c,rest,rfl,hplain,hlen⟩
    refine ⟨k :: keys,c,rest,by simp,fun k' h => ?_,hlen⟩
    rcases List.mem_cons.mp h with rfl | h
    · exact hk
    · exact hplain k' h

theorem not_overlong (hlt : r.text.length < LINE_SZ) {c : UInt8} {input : Bytes}
    (h : ∀ (k : Key) (rest : Bytes), k.Plain → c :: input ≠ k.bytes ++ rest) :
    ¬ OverlongFrom history r (c :: input) := by
  rintro ⟨keys,d,rest,hinput,hplain,hlen⟩
  cases keys with
  | nil => exact absurd hlen (Nat.not_le.mpr hlt)
  | cons k keys =>
    rw [List.flatMap_cons,List.append_assoc] at hinput
    exact h k _ (hplain k (by simp)) hinput

theorem length_histLine (item : CString) : (histLine item).length ≤ item.length := by
  unfold histLine
  split_ifs
  · rw [List.length_dropLast]
    exact Nat.sub_le _ _
  · exact le_refl _

theorem press_short (hh : ∀ item ∈ history, item.length ≤ 1023) (hlt : r.text.length < LINE_SZ)
    (hsaved : r.saved.length < LINE_SZ) (k : Key) :
    k.Types ∨ (r.press history k).text.length < LINE_SZ := by
  have hline (i : ℕ) : (Reference.line history i).length < LINE_SZ := by
    unfold Reference.line
    cases hi : history[i]? with
    | none => exact Nat.succ_pos _
    | some item =>
      have hitem := hh item (List.mem_of_getElem? hi)
      exact Nat.lt_succ_of_le ((length_histLine item).trans hitem)
  unfold Reference.press
  split_ifs with h127 h3 hup hdraft hdown hback
  · refine Or.inr (lt_of_le_of_lt ?_ hlt)
    rw [List.length_dropLast]
    exact Nat.sub_le _ _
  · exact Or.inr (Nat.succ_pos _)
  · exact Or.inr (hline _)
  · exact Or.inr (hline _)
  · exact Or.inr hsaved
  · exact Or.inr (hline _)
  · cases k with
    | escape second third => exact Or.inr hlt
    | byte c => exact Or.inl ⟨fun h => h127 (by rw [h]),fun h => h3 (by rw [h])⟩

theorem finish_short (h : Tracks history e r) (hlt : r.text.length < LINE_SZ) (input : Bytes) :
    finish (some e,input) ≠ .error .outOfBounds := by
  obtain ⟨b,hs,_⟩ := h.text.store [0] (by rw [h.buf_size]; exact hlt)
  rw [← h.len] at hs
  simp only [finish,hs,bind,Except.bind]
  exact fun h => by cases h

theorem finish_full (h : Tracks history e r) (hfull : LINE_SZ ≤ r.text.length) (input : Bytes) :
    finish (some e,input) = .error .outOfBounds := by
  have hs : store e.buf e.len [0] = .error .outOfBounds := by
    rw [store,if_neg]
    rw [h.len,h.buf_size,List.length_singleton]
    omega
  simp only [finish,hs,bind,Except.bind]

theorem not_overlong_nil : ¬ OverlongFrom history r [] := by
  rintro ⟨keys,c,rest,hinput,_⟩
  simp at hinput

theorem full_inside_iff (h : Tracks history e r) (hfull : LINE_SZ ≤ r.text.length) (fuel : ℕ) (c : UInt8)
    (input : Bytes) :
    (editLoop history LINE_SZ (fuel+1) (c :: input) e >>= finish) = .error .outOfBounds ↔
      OverlongFrom history r (c :: input) := by
  have hstop : editLoop history LINE_SZ (fuel+1) (c :: input) e = .ok (some e,input) :=
    if_pos (Or.inr (by rw [h.len]; exact hfull))
  rw [hstop]
  exact iff_of_true (finish_full h hfull input) (overlong_full hfull c input)

theorem enter_inside_iff (h : Tracks history e r) (hlt : r.text.length < LINE_SZ) (fuel : ℕ) (input : Bytes) :
    (editLoop history LINE_SZ (fuel+1) (10 :: input) e >>= finish) = .error .outOfBounds ↔
      OverlongFrom history r (10 :: input) := by
  have hstop : editLoop history LINE_SZ (fuel+1) (10 :: input) e = .ok (some e,input) := if_pos (Or.inl rfl)
  rw [hstop]
  refine iff_of_false (finish_short h hlt input) (not_overlong hlt ?_)
  intro k rest hk he
  cases k with
  | byte d => exact hk.1 (List.cons.inj he).1.symm
  | escape s t => exact absurd (List.cons.inj he).1 (by decide)

theorem readKey_broken {input : Bytes} (hl : input.length < 2) :
    readKey 27 input = .error .uninitialised ∨
      ∃ second, second ≠ 91 ∧ readKey 27 input = .ok (.escape second 0,[]) := by
  rcases input with _ | ⟨second,_ | ⟨third,input⟩⟩
  · exact Or.inl rfl
  · by_cases h : second = 91
    · exact Or.inl (if_pos h)
    · exact Or.inr ⟨second,h,if_neg h⟩
  · simp only [List.length_cons] at hl
    omega

theorem broken_inside_iff (h : Tracks history e r) (hlt : r.text.length < LINE_SZ) (fuel : ℕ) {input : Bytes}
    (hl : input.length < 2) :
    (editLoop history LINE_SZ (fuel+1) (27 :: input) e >>= finish) = .error .outOfBounds ↔
      OverlongFrom history r (27 :: input) := by
  have hgo : ¬ ((27 : UInt8) = 10 ∨ e.len ≥ LINE_SZ) := by
    rw [h.len]
    exact fun h => h.elim (by decide) (Nat.not_le.mpr hlt)
  have hstores : (editLoop history LINE_SZ (fuel+1) (27 :: input) e >>= finish) ≠ .error .outOfBounds := by
    rw [editLoop,if_neg hgo]
    rcases readKey_broken hl with hread | ⟨second,hne,hread⟩
    · rw [hread]
      exact fun h => by cases h
    · have hp : press history e (.escape second 0) = .ok e := if_neg hne
      rw [hread]
      show (press history e (.escape second 0) >>= fun e => editLoop history LINE_SZ fuel [] e) >>= finish ≠ _
      rw [hp]
      cases fuel <;> exact fun h => by cases h
  refine iff_of_false hstores (not_overlong hlt ?_)
  intro k rest hk he
  cases k with
  | byte d => exact hk.2 (List.cons.inj he).1.symm
  | escape s t =>
    have hlen := congrArg List.length he
    simp only [Key.bytes,List.length_cons,List.length_append,List.length_nil] at hlen
    omega

/-- The loop and the terminator stay inside the buffers exactly when the line does not fill
before the input ends. -/
theorem editLoop_inside_iff (hh : ∀ item ∈ history, item.length ≤ 1023) {fuel : ℕ} {input : Bytes}
    (hf : input.length ≤ fuel) (h : Tracks history e r) :
    (editLoop history LINE_SZ fuel input e >>= finish) = .error .outOfBounds ↔
      OverlongFrom history r input := by
  induction fuel generalizing input e r with
  | zero =>
    obtain rfl := List.length_eq_zero_iff.mp (Nat.le_zero.mp hf)
    exact iff_of_false (fun h => by cases h) not_overlong_nil
  | succ fuel ih =>
    cases input with
    | nil => exact iff_of_false (fun h => by cases h) not_overlong_nil
    | cons c input =>
      have hinput : input.length ≤ fuel := Nat.le_of_succ_le_succ hf
      by_cases hfull : LINE_SZ ≤ r.text.length
      · exact full_inside_iff h hfull fuel c input
      · have hlt : r.text.length < LINE_SZ := Nat.lt_of_not_le hfull
        have hkey {k : Key} (hk : k.Plain) {rest : Bytes} (hrest : rest.length ≤ fuel) :
            (editLoop history LINE_SZ (fuel+1) (k.bytes ++ rest) e >>= finish) = .error .outOfBounds ↔
              OverlongFrom history r (k.bytes ++ rest) := by
          obtain ⟨e',he,ht⟩ := press_tracks h hlt (press_short hh hlt h.saved_lt k)
          rw [editLoop_key hk (by rw [h.len]; exact hlt) he,overlong_key hlt hk]
          exact ih hrest ht
        by_cases h10 : c = 10
        · subst h10
          exact enter_inside_iff h hlt fuel input
        · by_cases h27 : c = 27
          · subst h27
            rcases input with _ | ⟨second,_ | ⟨third,input⟩⟩
            · exact broken_inside_iff h hlt fuel (by simp)
            · exact broken_inside_iff h hlt fuel (by simp)
            · exact hkey (k:=.escape second third) trivial (by simp only [List.length_cons] at hinput; omega)
          · exact hkey (k:=.byte c) ⟨h10,h27⟩ hinput

/-- On a history of items that fit, `_fgets` stores inside its buffers exactly when no byte is
read while the line fills the buffer. -/
theorem fgets_inside_iff (hh : ∀ item ∈ history, item.length ≤ 1023) {buf : Buffer}
    (hb : buf.length = LINE_SZ) (input : Bytes) :
    fgets history buf LINE_SZ input ≠ .error .outOfBounds ↔ ¬ Overlong history input := by
  rw [fgets_eq]
  exact not_congr (editLoop_inside_iff hh (le_refl _) (shows_start hb).tracks)

theorem fgets_inside_recall :
    (∀ item ∈ [lit "ls\n"], item.length ≤ 1023) ∧ (fresh LINE_SZ).length = LINE_SZ ∧
      (fgets [lit "ls\n"] (fresh LINE_SZ) LINE_SZ [27,91,65,10] ≠ .error .outOfBounds ↔
        ¬ Overlong [lit "ls\n"] [27,91,65,10]) :=
  ⟨by decide,length_fresh _,fgets_inside_iff (by decide) (length_fresh _) _⟩

theorem typed_length (n : ℕ) (r : Reference) :
    ((List.replicate n (Key.byte 97)).foldl (Reference.press []) r).text.length = r.text.length+n := by
  induction n generalizing r with
  | zero => rfl
  | succ n ih =>
    have hp : (r.press [] (.byte 97)).text = r.text ++ [97] := rfl
    rw [List.replicate_succ,List.foldl_cons,ih,hp,List.length_append,List.length_singleton]
    omega

theorem fgets_full_line :
    fgets [] (fresh LINE_SZ) LINE_SZ (List.replicate LINE_SZ 97 ++ [10]) = .error .outOfBounds := by
  rw [fgets_eq]
  refine (editLoop_inside_iff (by simp) (le_refl _) (shows_start (length_fresh _)).tracks).mpr ?_
  refine ⟨List.replicate LINE_SZ (.byte 97),10,[],?_,fun k hk => ?_,?_⟩
  · rw [List.flatMap_replicate]
    simp [Key.bytes]
  · rw [List.eq_of_mem_replicate hk]
    exact ⟨by decide,by decide⟩
  · rw [typed_length]
    exact Nat.le_add_left _ _

end EditorBounds
end CodingChallenges
