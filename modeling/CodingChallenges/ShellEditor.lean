import CodingChallenges.CBuffer

/-! The line editor of the shell (`_fgets`, `load_hist_into`).
The line and the saved draft are buffers with a length each, and `hpos` walks over the
history, `hc` standing for the draft. What the terminal shows is left out. -/
namespace CodingChallenges
namespace ShellEditor

open CText CMemory CBuffer

/-- `sizeof(draft)`, and of the caller's buffer too. -/
abbrev LINE_SZ : ℕ := 1024

structure Editor where
  buf : Buffer
  len : ℕ
  draft : Buffer
  draftLen : ℕ
  hpos : ℕ

def histLine (item : CString) : Bytes :=
  if item.bytes.getLast? = some 10 then item.bytes.dropLast else item.bytes

/-- `load_hist_into`: the new contents of the buffer and the length. -/
def loadHistInto (buf : Buffer) (item : CString) : Except Fault (Buffer × ℕ) := do
  let n := (histLine item).length
  let buf ← store buf 0 (histLine item)
  let buf ← store buf n [0]
  .ok (buf,n)

def readHistory (history : List CString) (i : ℕ) : Except Fault CString :=
  match history[i]? with
  | some item => .ok item
  | none => .error .badIndex

inductive Key
  | byte (c : UInt8)
  | escape (second third : UInt8)
  deriving DecidableEq

def up : Key := .escape 91 65
def down : Key := .escape 91 66

variable (history : List CString)

def saveDraft (e : Editor) : Except Fault Editor :=
  if e.hpos = history.length then do
    let text ← load e.buf 0 e.len
    let draft ← store e.draft 0 text
    .ok { e with draft := draft, draftLen := e.len }
  else .ok e

def pressUp (e : Editor) : Except Fault Editor :=
  if e.hpos > 0 then do
    let e ← saveDraft history e
    let item ← readHistory history (e.hpos-1)
    let r ← loadHistInto e.buf item
    .ok { e with buf := r.1, len := r.2, hpos := e.hpos-1 }
  else .ok e

def pressDown (e : Editor) : Except Fault Editor :=
  if e.hpos < history.length then
    if e.hpos+1 = history.length then do
      let text ← load e.draft 0 e.draftLen
      let buf ← store e.buf 0 text
      let buf ← store buf e.draftLen [0]
      .ok { e with buf := buf, len := e.draftLen, hpos := e.hpos+1 }
    else do
      let item ← readHistory history (e.hpos+1)
      let r ← loadHistInto e.buf item
      .ok { e with buf := r.1, len := r.2, hpos := e.hpos+1 }
  else .ok e

def press (e : Editor) : Key → Except Fault Editor
  | .byte c =>
    if c = 127 then .ok (if e.len > 0 then { e with len := e.len-1 } else e)
    else if c = 3 then .ok { e with len := 0, draftLen := 0, hpos := history.length }
    else do
      let buf ← store e.buf e.len [c]
      .ok { e with buf := buf, len := e.len+1 }
  | .escape second third =>
    if second = 91 then
      if third = 65 then pressUp history e
      else if third = 66 then pressDown history e
      else .ok e
    else .ok e

/-- The rest of a key whose first byte was read. A byte that the input does not have stays unset; the
third one is looked at only behind '['. -/
def readKey (c : UInt8) (input : Bytes) : Except Fault (Key × Bytes) :=
  if c = 27 then
    match input with
    | second :: third :: input => .ok (.escape second third,input)
    | [second] => if second = 91 then .error .uninitialised else .ok (.escape second 0,[])
    | [] => .error .uninitialised
  else .ok (.byte c,input)

/-- The loop; `none` at the end of the input. Each round takes a byte of it. -/
def editLoop (sz : ℕ) : ℕ → Bytes → Editor → Except Fault (Option Editor × Bytes)
  | _, [], _ => .ok (none,[])
  | 0, _ :: _, _ => .error .endless
  | fuel+1, c :: input, e =>
    if c = 10 ∨ e.len ≥ sz then .ok (some e,input)
    else do
      let k ← readKey c input
      let e ← press history e k.1
      editLoop sz fuel k.2 e

/-- `_fgets`: the buffer, or `none` for NULL, and the input that is left. -/
def fgets (buf : Buffer) (sz : ℕ) (input : Bytes) : Except Fault (Option Buffer × Bytes) := do
  let r ← editLoop history sz input.length input ⟨buf,0,fresh LINE_SZ,0,history.length⟩
  match r.1 with
  | none => .ok (none,r.2)
  | some e => do
    let buf ← store e.buf e.len [0]
    .ok (some buf,r.2)

/-- The current text, the slot it belongs to and the draft that was left. -/
structure Reference where
  text : Bytes
  slot : ℕ
  saved : Bytes

namespace Reference

def line (i : ℕ) : Bytes := (history[i]?.map histLine).getD []

def press (r : Reference) (k : Key) : Reference :=
  if k = .byte 127 then { r with text := r.text.dropLast }
  else if k = .byte 3 then ⟨[],history.length,[]⟩
  else if k = up ∧ 0 < r.slot then
    ⟨line history (r.slot-1),r.slot-1,if r.slot = history.length then r.text else r.saved⟩
  else if k = down ∧ r.slot < history.length then
    { r with
      text := if r.slot+1 = history.length then r.saved else line history (r.slot+1)
      slot := r.slot+1 }
  else match k with
    | .byte c => { r with text := r.text ++ [c] }
    | .escape _ _ => r

def after (keys : List Key) : Reference := keys.foldl (press history) ⟨[],history.length,[]⟩

end Reference

structure Shows (e : Editor) (r : Reference) : Prop where
  buf_size : e.buf.length = LINE_SZ
  draft_size : e.draft.length = LINE_SZ
  len : e.len = r.text.length
  text : Holds e.buf r.text
  draftLen : e.draftLen = r.saved.length
  saved : Holds e.draft r.saved
  hpos : e.hpos = r.slot
  slot_le : r.slot ≤ history.length
  text_lt : r.text.length < LINE_SZ
  saved_lt : r.saved.length < LINE_SZ
  text_nul : 0 ∉ r.text
  saved_nul : 0 ∉ r.saved

/-- The same for lines of any bytes, the current one up to the whole buffer. -/
structure Tracks (e : Editor) (r : Reference) : Prop where
  buf_size : e.buf.length = LINE_SZ
  draft_size : e.draft.length = LINE_SZ
  len : e.len = r.text.length
  text : Holds e.buf r.text
  draftLen : e.draftLen = r.saved.length
  saved : Holds e.draft r.saved
  hpos : e.hpos = r.slot
  slot_le : r.slot ≤ history.length
  text_le : r.text.length ≤ LINE_SZ
  saved_lt : r.saved.length < LINE_SZ

variable {history} {e : Editor} {r : Reference}

theorem Shows.tracks (h : Shows history e r) : Tracks history e r :=
  ⟨h.buf_size,h.draft_size,h.len,h.text,h.draftLen,h.saved,h.hpos,h.slot_le,h.text_lt.le,h.saved_lt⟩

theorem Tracks.shows (h : Tracks history e r) (hl : r.text.length < LINE_SZ) (ht : 0 ∉ r.text)
    (hs : 0 ∉ r.saved) : Shows history e r :=
  ⟨h.buf_size,h.draft_size,h.len,h.text,h.draftLen,h.saved,h.hpos,h.slot_le,hl,h.saved_lt,ht,hs⟩

theorem histLine_nul (item : CString) : 0 ∉ histLine item := by
  unfold histLine
  split_ifs
  · exact fun h => item.nul_free (List.mem_of_mem_dropLast h)
  · exact item.nul_free

theorem line_eq {i : ℕ} (h : i < history.length) : Reference.line history i = histLine history[i] := by
  simp [Reference.line,h]

theorem loadHistInto_ok {buf : Buffer} {item : CString} (hb : buf.length = LINE_SZ)
    (hl : (histLine item).length < LINE_SZ) :
    ∃ b, loadHistInto buf item = .ok (b,(histLine item).length) ∧ b.length = LINE_SZ ∧
      Holds b (histLine item) := by
  obtain ⟨b₁,hs₁,hl₁,hh₁⟩ := store_start (histLine item) (hl.le.trans hb.ge)
  obtain ⟨b₂,hs₂,hl₂,hh₂⟩ := hh₁.store [0] (by rw [hl₁,hb]; exact hl)
  exact ⟨b₂,bind_eq_ok.mpr ⟨b₁,hs₁,bind_eq_ok.mpr ⟨b₂,hs₂,rfl⟩⟩,by rw [hl₂,hl₁,hb],hh₂.left⟩

theorem saveDraft_tracks (h : Tracks history e r) (hlt : r.text.length < LINE_SZ) :
    ∃ e', saveDraft history e = .ok e' ∧
      Tracks history e' { r with saved := if r.slot = history.length then r.text else r.saved } := by
  by_cases hs : r.slot = history.length
  · obtain ⟨d,hd,hl,hh⟩ := store_start (m:=e.draft) r.text (hlt.le.trans h.draft_size.ge)
    have ht : load e.buf 0 e.len = .ok r.text := by
      rw [h.len]
      exact h.text.load
    rw [saveDraft,if_pos (h.hpos.trans hs)]
    refine ⟨{ e with draft := d, draftLen := e.len },bind_eq_ok.mpr ⟨_,ht,bind_eq_ok.mpr ⟨d,hd,rfl⟩⟩,?_⟩
    simp only [if_pos hs]
    exact { h with
      draft_size := by rw [hl,h.draft_size]
      draftLen := h.len
      saved := hh
      saved_lt := hlt }
  · rw [saveDraft,if_neg (fun he => hs (h.hpos.symm.trans he))]
    simp only [if_neg hs]
    exact ⟨e,rfl,h⟩

theorem load_tracks (h : Tracks history e r) {i : ℕ} (hi : i < history.length)
    (hl : (Reference.line history i).length < LINE_SZ) :
    ∃ b, (readHistory history i >>= fun item => loadHistInto e.buf item) =
        .ok (b,(Reference.line history i).length) ∧
      Tracks history { e with buf := b, len := (Reference.line history i).length, hpos := i }
        { r with text := Reference.line history i, slot := i } := by
  rw [line_eq hi] at hl ⊢
  obtain ⟨b,hb,hbl,hh⟩ := loadHistInto_ok h.buf_size hl
  have hr : readHistory history i = .ok history[i] := by simp [readHistory,hi]
  refine ⟨b,bind_eq_ok.mpr ⟨_,hr,hb⟩,?_⟩
  exact { h with
    buf_size := hbl
    len := rfl
    text := hh
    hpos := rfl
    slot_le := hi.le
    text_le := hl.le }

theorem pressUp_tracks (h : Tracks history e r) (hlt : r.text.length < LINE_SZ)
    (hf : (r.press history up).text.length < LINE_SZ) :
    ∃ e', pressUp history e = .ok e' ∧ Tracks history e' (r.press history up) := by
  by_cases h0 : 0 < r.slot
  · have hr : r.press history up =
        ⟨Reference.line history (r.slot-1),r.slot-1,if r.slot = history.length then r.text else r.saved⟩ := by
      simp [Reference.press,up,h0]
    rw [hr] at hf ⊢
    have hi : r.slot-1 < history.length := by
      have hle := h.slot_le
      omega
    obtain ⟨e',he',hs'⟩ := saveDraft_tracks h hlt
    obtain ⟨b,hb,hsb⟩ := load_tracks hs' hi hf
    obtain ⟨item,hitem,hload⟩ := bind_eq_ok.mp hb
    have hp : e'.hpos = r.slot := hs'.hpos
    refine ⟨_,?_,hsb⟩
    rw [pressUp,if_pos (by rw [h.hpos]; exact h0)]
    refine bind_eq_ok.mpr ⟨e',he',?_⟩
    rw [hp]
    exact bind_eq_ok.mpr ⟨item,hitem,bind_eq_ok.mpr ⟨_,hload,rfl⟩⟩
  · have hr : r.press history up = r := by simp [Reference.press,up,down,h0]
    rw [hr,pressUp,if_neg (by rw [h.hpos]; exact h0)]
    exact ⟨e,rfl,h⟩

theorem pressDown_tracks (h : Tracks history e r) (hf : (r.press history down).text.length < LINE_SZ) :
    ∃ e', pressDown history e = .ok e' ∧ Tracks history e' (r.press history down) := by
  by_cases hlt : r.slot < history.length
  · have hr : r.press history down =
        { r with
          text := if r.slot+1 = history.length then r.saved else Reference.line history (r.slot+1)
          slot := r.slot+1 } := by
      simp [Reference.press,up,down,hlt]
    rw [hr] at hf ⊢
    rw [pressDown,h.hpos,if_pos hlt]
    by_cases hd : r.slot+1 = history.length
    · -- back to the draft slot
      simp only [if_pos hd] at hf ⊢
      obtain ⟨b₁,hs₁,hl₁,hh₁⟩ := store_start (m:=e.buf) r.saved (h.saved_lt.le.trans h.buf_size.ge)
      obtain ⟨b₂,hs₂,hl₂,hh₂⟩ := hh₁.store [0] (by rw [hl₁,h.buf_size]; exact h.saved_lt)
      have ht : load e.draft 0 e.draftLen = .ok r.saved := by
        rw [h.draftLen]
        exact h.saved.load
      rw [← h.draftLen] at hs₂
      refine ⟨_,bind_eq_ok.mpr ⟨_,ht,bind_eq_ok.mpr ⟨b₁,hs₁,bind_eq_ok.mpr ⟨b₂,hs₂,rfl⟩⟩⟩,?_⟩
      exact { h with
        buf_size := by rw [hl₂,hl₁,h.buf_size]
        len := h.draftLen
        text := hh₂.left
        hpos := rfl
        slot_le := hd.le
        text_le := h.saved_lt.le }
    · simp only [if_neg hd] at hf ⊢
      obtain ⟨b,hb,hsb⟩ := load_tracks h (by omega) hf
      obtain ⟨item,hitem,hload⟩ := bind_eq_ok.mp hb
      exact ⟨_,bind_eq_ok.mpr ⟨item,hitem,bind_eq_ok.mpr ⟨_,hload,rfl⟩⟩,hsb⟩
  · have hr : r.press history down = r := by simp [Reference.press,up,down,hlt]
    rw [hr,pressDown,h.hpos,if_neg hlt]
    exact ⟨e,rfl,h⟩

def Key.Valid : Key → Prop
  | .byte c => c ≠ 0 ∧ c ≠ 10 ∧ c ≠ 27
  | .escape _ _ => True

theorem backspace_tracks (h : Tracks history e r) :
    Tracks history { e with len := e.len-1 } { r with text := r.text.dropLast } := by
  have hsplit : r.text.dropLast ++ r.text.getLast?.toList = r.text := by
    cases r.text using List.reverseRecOn <;> simp
  have ht := h.text
  rw [← hsplit] at ht
  exact { h with
    len := by rw [List.length_dropLast,h.len]
    text := ht.left
    text_le := le_trans (by simp) h.text_le }

theorem reset_tracks (h : Tracks history e r) :
    Tracks history { e with len := 0, draftLen := 0, hpos := history.length } ⟨[],history.length,[]⟩ :=
  { h with
    len := rfl
    text := holds_nil _
    draftLen := rfl
    saved := holds_nil _
    hpos := rfl
    slot_le := le_refl _
    text_le := Nat.zero_le _
    saved_lt := Nat.succ_pos _ }

theorem type_tracks (h : Tracks history e r) (hlt : r.text.length < LINE_SZ) (c : UInt8) :
    ∃ b, store e.buf e.len [c] = .ok b ∧
      Tracks history { e with buf := b, len := e.len+1 } { r with text := r.text ++ [c] } := by
  obtain ⟨b,hs,hb,hh⟩ := h.text.store [c] (by rw [h.buf_size]; exact hlt)
  rw [← h.len] at hs
  refine ⟨b,hs,?_⟩
  exact { h with
    buf_size := by rw [hb,h.buf_size]
    len := by simp [h.len]
    text := hh
    text_le := by simpa using hlt }

def Key.Types : Key → Prop
  | .byte c => c ≠ 127 ∧ c ≠ 3
  | .escape _ _ => False

/-- Every key keeps the buffers in step with the reference editor, the last byte of the buffer
being for what is typed. -/
theorem press_tracks (h : Tracks history e r) (hlt : r.text.length < LINE_SZ) {k : Key}
    (hf : k.Types ∨ (r.press history k).text.length < LINE_SZ) :
    ∃ e', press history e k = .ok e' ∧ Tracks history e' (r.press history k) := by
  cases k with
  | escape second third =>
    have hf := hf.resolve_left fun hn => hn
    by_cases hup : Key.escape second third = up
    · obtain ⟨rfl,rfl⟩ := Key.escape.inj hup
      exact pressUp_tracks h hlt hf
    · by_cases hdown : Key.escape second third = down
      · obtain ⟨rfl,rfl⟩ := Key.escape.inj hdown
        exact pressDown_tracks h hf
      · have hr : r.press history (.escape second third) = r := by simp [Reference.press,hup,hdown]
        rw [hr]
        refine ⟨e,?_,h⟩
        simp only [press]
        split_ifs with h₁ h₂ h₃
        · exact (hup (by rw [h₁,h₂,up])).elim
        · exact (hdown (by rw [h₁,h₃,down])).elim
        · rfl
        · rfl
  | byte c =>
    by_cases h127 : c = 127
    · have hr : r.press history (.byte c) = { r with text := r.text.dropLast } := by
        simp [Reference.press,h127]
      have he : (if e.len > 0 then { e with len := e.len-1 } else e) = { e with len := e.len-1 } := by
        split_ifs with h0
        · rfl
        · rw [show e.len-1 = e.len by omega]
      rw [hr,press,if_pos h127,he]
      exact ⟨_,rfl,backspace_tracks h⟩
    · by_cases h3 : c = 3
      · have hr : r.press history (.byte c) = ⟨[],history.length,[]⟩ := by simp [Reference.press,h3]
        rw [hr,press,if_neg h127,if_pos h3]
        exact ⟨_,rfl,reset_tracks h⟩
      · have hr : r.press history (.byte c) = { r with text := r.text ++ [c] } := by
          simp [Reference.press,h127,h3,up,down]
        obtain ⟨b,hs,hb⟩ := type_tracks h hlt c
        rw [hr,press,if_neg h127,if_neg h3]
        exact ⟨_,bind_eq_ok.mpr ⟨b,hs,rfl⟩,hb⟩

theorem line_nul (i : ℕ) : 0 ∉ Reference.line history i := by
  unfold Reference.line
  cases history[i]? with
  | none => exact List.not_mem_nil
  | some item => exact histLine_nul item

theorem press_nul {k : Key} (hk : k.Valid) (ht : 0 ∉ r.text) (hs : 0 ∉ r.saved) :
    0 ∉ (r.press history k).text ∧ 0 ∉ (r.press history k).saved := by
  unfold Reference.press
  split_ifs with h127 h3 hup hdraft hdown hback
  · exact ⟨fun hm => ht (List.mem_of_mem_dropLast hm),hs⟩
  · exact ⟨List.not_mem_nil,List.not_mem_nil⟩
  · exact ⟨line_nul _,ht⟩
  · exact ⟨line_nul _,hs⟩
  · exact ⟨hs,hs⟩
  · exact ⟨line_nul _,hs⟩
  · cases k with
    | escape second third => exact ⟨ht,hs⟩
    | byte c => exact ⟨by simp [ht,Ne.symm hk.1],hs⟩

theorem press_shows (h : Shows history e r) {k : Key} (hk : k.Valid)
    (hf : (r.press history k).text.length < LINE_SZ) :
    ∃ e', press history e k = .ok e' ∧ Shows history e' (r.press history k) := by
  obtain ⟨e',he,ht⟩ := press_tracks h.tracks h.text_lt (Or.inr hf)
  obtain ⟨hn,hs⟩ := press_nul hk h.text_nul h.saved_nul
  exact ⟨e',he,ht.shows hf hn hs⟩

def after (history : List CString) (buf : Buffer) (keys : List Key) : Except Fault Editor :=
  keys.foldlM (press history) ⟨buf,0,fresh LINE_SZ,0,history.length⟩

def StaysShort (history : List CString) (keys : List Key) : Prop :=
  ∀ p, p <+: keys → (Reference.after history p).text.length < LINE_SZ

theorem StaysShort.left {keys p : List Key} (h : StaysShort history keys) (hp : p <+: keys) :
    StaysShort history p := fun q hq => h q (hq.trans hp)

theorem shows_start {buf : Buffer} (hb : buf.length = LINE_SZ) :
    Shows history ⟨buf,0,fresh LINE_SZ,0,history.length⟩ ⟨[],history.length,[]⟩ :=
  ⟨hb,length_fresh _,rfl,holds_nil _,rfl,holds_nil _,rfl,le_refl _,Nat.succ_pos _,Nat.succ_pos _,
    List.not_mem_nil,List.not_mem_nil⟩

theorem after_concat {buf : Buffer} {keys : List Key} {e : Editor} (h : after history buf keys = .ok e)
    (k : Key) : after history buf (keys ++ [k]) = press history e k := by
  rw [after,List.foldlM_append]
  rw [after] at h
  rw [h]
  simp only [List.foldlM_cons,List.foldlM_nil,bind,Except.bind]
  cases press history e k <;> rfl

theorem after_shows {buf : Buffer} (hb : buf.length = LINE_SZ) (keys : List Key) (hk : ∀ k ∈ keys, k.Valid)
    (hs : StaysShort history keys) :
    ∃ e, after history buf keys = .ok e ∧ Shows history e (Reference.after history keys) := by
  induction keys using List.reverseRecOn with
  | nil => exact ⟨_,rfl,shows_start hb⟩
  | append_singleton keys k ih =>
    obtain ⟨e,he,hr⟩ := ih (fun k hm => hk k (by simp [hm])) (hs.left (List.prefix_append _ _))
    have hf := hs _ List.prefix_rfl
    rw [Reference.after,List.foldl_append] at hf ⊢
    rw [after_concat he]
    exact press_shows hr (hk k (by simp)) hf

def Key.bytes : Key → Bytes
  | .byte c => [c]
  | .escape second third => [27,second,third]

def Key.Plain : Key → Prop
  | .byte c => c ≠ 10 ∧ c ≠ 27
  | .escape _ _ => True

theorem Key.Valid.plain {k : Key} (hk : k.Valid) : k.Plain := by
  cases k with
  | byte c => exact hk.2
  | escape second third => trivial

theorem editLoop_key {k : Key} (hk : k.Plain) {e e' : Editor} (hl : e.len < LINE_SZ)
    (hp : press history e k = .ok e') (fuel : ℕ) (input : Bytes) :
    editLoop history LINE_SZ (fuel+1) (k.bytes ++ input) e = editLoop history LINE_SZ fuel input e' := by
  cases k with
  | byte c =>
    have hb : ¬ (c = 10 ∨ e.len ≥ LINE_SZ) := by
      rintro (h | h)
      · exact hk.1 h
      · omega
    have hr : readKey c input = .ok (.byte c,input) := if_neg hk.2
    simp only [Key.bytes,List.singleton_append,editLoop,if_neg hb,hr,hp,bind,Except.bind]
  | escape second third =>
    have hb : ¬ ((27 : UInt8) = 10 ∨ e.len ≥ LINE_SZ) := by
      rintro (h | h)
      · exact absurd h (by decide)
      · omega
    have hr : readKey 27 (second :: third :: input) = .ok (.escape second third,input) := if_pos rfl
    simp only [Key.bytes,List.cons_append,List.nil_append,editLoop,if_neg hb,hr,hp,bind,Except.bind]

/-- After some keys the loop goes on from the state they lead to. -/
theorem editLoop_after {buf : Buffer} (hb : buf.length = LINE_SZ) (keys : List Key)
    (hk : ∀ k ∈ keys, k.Valid) (hs : StaysShort history keys) {e : Editor}
    (he : after history buf keys = .ok e) (fuel : ℕ) (input : Bytes) :
    editLoop history LINE_SZ (fuel+keys.length) (keys.flatMap Key.bytes ++ input)
        ⟨buf,0,fresh LINE_SZ,0,history.length⟩ = editLoop history LINE_SZ fuel input e := by
  induction keys using List.reverseRecOn generalizing fuel input e with
  | nil =>
    cases he
    rfl
  | append_singleton keys k ih =>
    have hk' : ∀ k ∈ keys, k.Valid := fun k hm => hk k (by simp [hm])
    have hs' : StaysShort history keys := hs.left (List.prefix_append _ _)
    obtain ⟨e₀,he₀,hr⟩ := after_shows hb keys hk' hs'
    rw [after_concat he₀] at he
    have hfuel : fuel+(keys ++ [k]).length = (fuel+1)+keys.length := by
      rw [List.length_append,List.length_singleton]
      omega
    have hbytes : (keys ++ [k]).flatMap Key.bytes ++ input = keys.flatMap Key.bytes ++ (k.bytes ++ input) := by
      simp
    rw [hfuel,hbytes,ih hk' hs' he₀]
    exact editLoop_key (hk k (by simp)).plain (by rw [hr.len]; exact hr.text_lt) he fuel input

theorem length_le_bytes (keys : List Key) : keys.length ≤ (keys.flatMap Key.bytes).length := by
  induction keys with
  | nil => exact le_refl _
  | cons k keys ih =>
    have hk : 1 ≤ k.bytes.length := by cases k <;> simp [Key.bytes]
    rw [List.flatMap_cons,List.length_append,List.length_cons]
    omega

/-- `_fgets` returns the text of the reference editor and leaves what follows Enter. -/
theorem fgets_keys {buf : Buffer} (hb : buf.length = LINE_SZ) (keys : List Key) (hk : ∀ k ∈ keys, k.Valid)
    (hs : StaysShort history keys) (input : Bytes) :
    ∃ b s, fgets history buf LINE_SZ (keys.flatMap Key.bytes ++ 10 :: input) = .ok (some b,input) ∧
      stringOf b = .ok s ∧ s.bytes = (Reference.after history keys).text := by
  obtain ⟨e,he,hr⟩ := after_shows hb keys hk hs
  have hfuel : (keys.flatMap Key.bytes ++ 10 :: input).length =
      ((keys.flatMap Key.bytes).length-keys.length+input.length)+1+keys.length := by
    have hle := length_le_bytes keys
    rw [List.length_append,List.length_cons]
    omega
  have hloop : editLoop history LINE_SZ (keys.flatMap Key.bytes ++ 10 :: input).length
      (keys.flatMap Key.bytes ++ 10 :: input) ⟨buf,0,fresh LINE_SZ,0,history.length⟩ = .ok (some e,input) := by
    rw [hfuel,editLoop_after hb keys hk hs he]
    exact if_pos (Or.inl rfl)
  obtain ⟨b,hst,_,hh⟩ := hr.text.store [0] (by rw [hr.buf_size]; exact hr.text_lt)
  rw [← hr.len] at hst
  exact ⟨b,_,bind_eq_ok.mpr ⟨_,hloop,bind_eq_ok.mpr ⟨b,hst,rfl⟩⟩,hh.stringOf hr.text_nul,rfl⟩

namespace Reference

variable {r : Reference}

theorem press_slot_le (h : r.slot ≤ history.length) (k : Key) : (r.press history k).slot ≤ history.length := by
  simp only [press]
  split
  · exact h
  split
  · exact le_refl _
  split
  · exact (Nat.sub_le _ _).trans h
  split
  · next hd => exact hd.2
  · cases k <;> exact h

theorem after_concat (keys : List Key) (k : Key) :
    after history (keys ++ [k]) = (after history keys).press history k := by
  rw [after,List.foldl_append]
  rfl

theorem slot_le (keys : List Key) : (after history keys).slot ≤ history.length := by
  induction keys using List.reverseRecOn with
  | nil => exact le_refl _
  | append_singleton keys k ih =>
    rw [after_concat]
    exact press_slot_le ih k

theorem press_landing {k : Key} (hk : k = up ∨ k = down) (hne : (r.press history k).slot ≠ r.slot)
    (hlt : (r.press history k).slot < history.length) :
    (r.press history k).text = line history (r.press history k).slot := by
  rcases hk with rfl | rfl
  · by_cases h0 : 0 < r.slot
    · simp [press,up,h0]
    · simp [press,up,down,h0] at hne
  · by_cases h : r.slot < history.length
    · have hs : (r.press history down).slot = r.slot+1 := by simp [press,up,down,h]
      rw [hs] at hlt ⊢
      simp [press,up,down,h,hlt.ne]
    · simp [press,up,down,h] at hne

theorem press_return (h : r.slot < history.length) (hs : (r.press history down).slot = history.length) :
    (r.press history down).text = r.saved := by
  have hslot : (r.press history down).slot = r.slot+1 := by simp [press,up,down,h]
  rw [hslot] at hs
  simp [press,up,down,h,hs]

/-- Only UP leaves the draft slot. -/
theorem press_leaves {k : Key} (h : r.slot = history.length) (hlt : (r.press history k).slot < history.length) :
    k = up ∧ (r.press history k).saved = r.text := by
  by_cases hk : k = up ∧ 0 < r.slot
  · obtain ⟨rfl,h0⟩ := hk
    rw [h] at h0
    refine ⟨rfl,?_⟩
    simp [press,up,h0,h]
  · exfalso
    simp only [press,if_neg hk,if_neg (fun hd : k = down ∧ r.slot < history.length => hd.2.ne h)] at hlt
    split at hlt
    · exact hlt.ne h
    split at hlt
    · exact lt_irrefl _ hlt
    · cases k <;> exact hlt.ne h

theorem press_keeps {k : Key} (h : r.slot < history.length)
    (hlt : (r.press history k).slot < history.length) : (r.press history k).saved = r.saved := by
  by_cases h3 : k = .byte 3
  · subst h3
    exact absurd hlt (lt_irrefl _)
  · simp only [press,if_neg h3]
    split
    · rfl
    split
    · exact if_neg h.ne
    split
    · rfl
    · cases k <;> rfl

end Reference

/-- The UP after `before` left the draft slot, and none of `since` did. -/
def LastLeft (slot : List Key → ℕ) (hc : ℕ) (before since : List Key) : Prop :=
  slot before = hc ∧ ∀ p, p ++ [up] <+: since → slot (before ++ up :: p) ≠ hc

theorem Reference.saved_eq (keys : List Key) (h : (Reference.after history keys).slot < history.length) :
    ∃ before since, keys = before ++ up :: since ∧
      LastLeft (fun p => (Reference.after history p).slot) history.length before since ∧
      (Reference.after history keys).saved = (Reference.after history before).text := by
  induction keys using List.reverseRecOn with
  | nil => exact absurd h (lt_irrefl _)
  | append_singleton keys k ih =>
    rw [Reference.after_concat] at h ⊢
    have hle : (Reference.after history keys).slot ≤ history.length := Reference.slot_le keys
    rcases hle.lt_or_eq with hlt | heq
    · obtain ⟨before,since,hkeys,⟨hb,hsince⟩,hsaved⟩ := ih hlt
      refine ⟨before,since ++ [k],by simp [hkeys],⟨hb,fun p hp => ?_⟩,?_⟩
      · rcases List.prefix_concat_iff.mp hp with hp | hp
        · rw [List.append_inj_left' hp rfl,← hkeys]
          exact hlt.ne
        · exact hsince p hp
      · rw [Reference.press_keeps hlt h,hsaved]
    · obtain ⟨rfl,hsaved⟩ := Reference.press_leaves heq h
      refine ⟨keys,[],rfl,⟨heq,fun p hp => ?_⟩,hsaved⟩
      have hnil := List.prefix_nil.mp hp
      simp at hnil

def Editor.line (e : Editor) : Option Bytes := values (e.buf.take e.len)

theorem Shows.line_eq (h : Shows history e r) : e.line = some r.text := by
  rw [Editor.line,h.len]
  exact h.text.values_take

theorem LastLeft.congr {slot slot' : List Key → ℕ} {hc : ℕ} {before since : List Key}
    (h : LastLeft slot hc before since) (heq : ∀ p, p <+: before ++ up :: since → slot' p = slot p) :
    LastLeft slot' hc before since := by
  refine ⟨(heq before (List.prefix_append _ _)).trans h.1,fun p hp => ?_⟩
  have hps : p <+: since := (List.prefix_append _ _).trans hp
  rw [heq _ ((List.prefix_append_right_inj _).mpr (List.prefix_cons_inj up |>.mpr hps))]
  exact h.2 p hp

theorem exists_states {buf : Buffer} (hb : buf.length = LINE_SZ) (keys : List Key)
    (hk : ∀ k ∈ keys, k.Valid) (hs : StaysShort history keys) :
    ∃ state : List Key → Editor, ∀ p, p <+: keys →
      after history buf p = .ok (state p) ∧ Shows history (state p) (Reference.after history p) := by
  have hrun : ∀ p, ∃ e, p <+: keys →
      after history buf p = .ok e ∧ Shows history e (Reference.after history p) := by
    intro p
    by_cases hp : p <+: keys
    · obtain ⟨e,he⟩ := after_shows hb p (fun k hm => hk k (hp.subset hm)) (hs.left hp)
      exact ⟨e,fun _ => he⟩
    · exact ⟨⟨buf,0,buf,0,0⟩,fun h => absurd h hp⟩
  choose state hstate using hrun
  exact ⟨state,hstate⟩

/-- The editor refines the reference editor. `state` is the editor after the first keys. -/
theorem fgets_refines {history : List CString} {buf : Buffer} (hb : buf.length = LINE_SZ) (keys : List Key)
    (hk : ∀ k ∈ keys, k.Valid) (hs : StaysShort history keys) (input : Bytes) :
    (∃ b s, fgets history buf LINE_SZ (keys.flatMap Key.bytes ++ 10 :: input) = .ok (some b,input) ∧
      stringOf b = .ok s ∧ s.bytes = (Reference.after history keys).text) ∧
    ∃ state : List Key → Editor,
      (∀ p, p <+: keys → after history buf p = .ok (state p) ∧ (state p).hpos ≤ history.length ∧
        (state p).line = some (Reference.after history p).text) ∧
      (∀ p k, p ++ [k] <+: keys → k = up ∨ k = down → (state (p ++ [k])).hpos ≠ (state p).hpos →
        ∀ h : (state (p ++ [k])).hpos < history.length,
          (state (p ++ [k])).line = some (histLine history[(state (p ++ [k])).hpos])) ∧
      (∀ p, p ++ [down] <+: keys → (state p).hpos < history.length →
        (state (p ++ [down])).hpos = history.length →
        ∃ before since, p = before ++ up :: since ∧
          LastLeft (fun q => (state q).hpos) history.length before since ∧
          (state (p ++ [down])).line = (state before).line) := by
  obtain ⟨state,hstate⟩ := exists_states hb keys hk hs
  have hpos : ∀ p, p <+: keys → (state p).hpos = (Reference.after history p).slot :=
    fun p hp => (hstate p hp).2.hpos
  have hline : ∀ p, p <+: keys → (state p).line = some (Reference.after history p).text :=
    fun p hp => (hstate p hp).2.line_eq
  refine ⟨fgets_keys hb keys hk hs input,state,fun p hp => ⟨(hstate p hp).1,?_,hline p hp⟩,?_,?_⟩
  · rw [hpos p hp]
    exact Reference.slot_le p
  · intro p k hp hkk hne hlt
    have hp' : p <+: keys := (List.prefix_append _ _).trans hp
    have hslot := hpos _ hp
    rw [Reference.after_concat] at hslot
    have hne' : ((Reference.after history p).press history k).slot ≠ (Reference.after history p).slot := by
      rw [← hslot,← hpos p hp']
      exact hne
    have hland := Reference.press_landing hkk hne' (by rw [← hslot]; exact hlt)
    rw [hline _ hp,Reference.after_concat,hland,← hslot,line_eq hlt]
  · intro p hp hlt hret
    have hp' : p <+: keys := (List.prefix_append _ _).trans hp
    rw [hpos p hp'] at hlt
    rw [hpos _ hp,Reference.after_concat] at hret
    obtain ⟨before,since,rfl,hleft,hsaved⟩ := Reference.saved_eq p hlt
    have hbefore : before <+: keys := (List.prefix_append _ _).trans hp'
    refine ⟨before,since,rfl,hleft.congr fun q hq => hpos q (hq.trans hp'),?_⟩
    rw [hline _ hp,hline _ hbefore,Reference.after_concat,Reference.press_return hlt hret,hsaved]

/-- `a`, UP to the line `ls`, `x` and DOWN. -/
theorem fgets_refines_draft :
    ∃ b s, fgets [⟨[108,115,10],by decide⟩] (List.replicate LINE_SZ (some 0)) LINE_SZ
        [97,27,91,65,120,27,91,66,10] = .ok (some b,[]) ∧ stringOf b = .ok s ∧ s.bytes = [97] := by
  have hs : StaysShort [⟨[108,115,10],by decide⟩] [.byte 97,up,.byte 120,down] := by
    have hall : ∀ p ∈ [Key.byte 97,up,.byte 120,down].inits,
        (Reference.after [⟨[108,115,10],by decide⟩] p).text.length < LINE_SZ := by decide
    exact fun p hp => hall p (List.mem_inits _ _ |>.mpr hp)
  exact (fgets_refines (List.length_replicate) [.byte 97,up,.byte 120,down]
    (by simp [Key.Valid,up,down]) hs []).1

end ShellEditor
end CodingChallenges
