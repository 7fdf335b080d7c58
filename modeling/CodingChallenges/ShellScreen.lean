import CodingChallenges.ShellEditor
import CodingChallenges.Terminal

/-! What the line editor of the shell writes (`_fgets`, `redraw_line`), and what a terminal makes of
it whose edge the lines do not reach. The terminal itself echoes nothing while a line is read. -/
namespace CodingChallenges
namespace ShellScreen

open CText CMemory CBuffer ShellEditor Terminal

variable (history : List CString)

def prompt : Bytes := ascii "ccsh>"

/-- `redraw_line`: column 0, the prompt, "\033[K", the text. -/
def redrawLine (buf : Buffer) (len : ℕ) : Except Fault Bytes := do
  let text ← if len > 0 then load buf 0 len else .ok []
  .ok (13 :: (prompt ++ [27,91,75]) ++ text)

/-- What a round of the loop writes that leads from `e` to `e'`. -/
def echo (e e' : Editor) : Key → Except Fault Bytes
  | .byte c =>
    if c = 127 then .ok (if e.len > 0 then [8,32,8] else [])
    else if c = 3 then .ok (ascii "^C" ++ ascii "\nccsh>")
    else .ok [c]
  | .escape second third =>
    if second = 91 then
      if third = 65 then if e.hpos > 0 then redrawLine e'.buf e'.len else .ok []
      else if third = 66 then if e.hpos < history.length then redrawLine e'.buf e'.len else .ok []
      else .ok []
    else .ok []

def editLoop (sz : ℕ) : ℕ → Bytes → Editor → Except Fault ((Option Editor × Bytes) × Bytes)
  | _, [], _ => .ok ((none,[]),[])
  | 0, _ :: _, _ => .error .endless
  | fuel+1, c :: input, e =>
    if c = 10 ∨ e.len ≥ sz then .ok ((some e,input),[])
    else do
      let k ← readKey c input
      let e' ← press history e k.1
      let w ← echo history e e' k.1
      let r ← editLoop sz fuel k.2 e'
      .ok (r.1,w ++ r.2)

/-- `_fgets`, and what it writes. -/
def fgets (buf : Buffer) (sz : ℕ) (input : Bytes) : Except Fault ((Option Buffer × Bytes) × Bytes) := do
  let r ← editLoop history sz input.length input ⟨buf,0,fresh LINE_SZ,0,history.length⟩
  match r.1.1 with
  | none => .ok ((none,r.1.2),r.2)
  | some e => do
    let buf ← store e.buf e.len [0]
    .ok ((some buf,r.1.2),r.2 ++ [10])

variable {history} {e e' : Editor}

theorem holds_of_store {m m' : Buffer} {v w : Bytes} (hv : Holds m v) (h : store m v.length w = .ok m') :
    Holds m' (v ++ w) := by
  have hle : v.length+w.length ≤ m.length := by
    unfold store at h
    split_ifs at h with hle
    exact hle
  obtain ⟨m₁,h₁,_,hh⟩ := hv.store w hle
  rw [h₁] at h
  cases h
  exact hh

theorem load_of_store {m m₁ m₂ : Buffer} {w : Bytes} (h₁ : store m 0 w = .ok m₁)
    (h₂ : store m₁ w.length [0] = .ok m₂) : load m₂ 0 w.length = .ok w :=
  (holds_of_store (holds_of_store (holds_nil m) h₁) h₂).left.load

theorem load_loadHistInto {buf b : Buffer} {item : CString} {n : ℕ} (h : loadHistInto buf item = .ok (b,n)) :
    load b 0 n = .ok (histLine item) := by
  obtain ⟨m₁,h₁,h⟩ := bind_eq_ok.mp h
  obtain ⟨m₂,h₂,h⟩ := bind_eq_ok.mp h
  cases h
  exact load_of_store h₁ h₂

theorem redrawLine_eq {buf : Buffer} {len : ℕ} {text : Bytes} (h : load buf 0 len = .ok text) :
    redrawLine buf len = .ok (13 :: (prompt ++ [27,91,75]) ++ text) := by
  unfold redrawLine
  split_ifs with h0
  · rw [h]
    rfl
  · have hlen : len = 0 := by omega
    subst hlen
    cases h
    rfl

theorem load_pressUp (hpos : e.hpos > 0) (h : pressUp history e = .ok e') :
    ∃ text, load e'.buf 0 e'.len = .ok text := by
  rw [pressUp,if_pos hpos] at h
  obtain ⟨e₁,_,h⟩ := bind_eq_ok.mp h
  obtain ⟨item,_,h⟩ := bind_eq_ok.mp h
  obtain ⟨r,hr,h⟩ := bind_eq_ok.mp h
  cases h
  exact ⟨_,load_loadHistInto hr⟩

theorem load_pressDown (hpos : e.hpos < history.length) (h : pressDown history e = .ok e') :
    ∃ text, load e'.buf 0 e'.len = .ok text := by
  rw [pressDown,if_pos hpos] at h
  split_ifs at h with hd
  · obtain ⟨text,ht,h⟩ := bind_eq_ok.mp h
    obtain ⟨m₁,h₁,h⟩ := bind_eq_ok.mp h
    obtain ⟨m₂,h₂,h⟩ := bind_eq_ok.mp h
    cases h
    have hl : text.length = e.draftLen := length_of_load ht
    rw [← hl] at h₂ ⊢
    exact ⟨text,load_of_store h₁ h₂⟩
  · obtain ⟨item,_,h⟩ := bind_eq_ok.mp h
    obtain ⟨r,hr,h⟩ := bind_eq_ok.mp h
    cases h
    exact ⟨_,load_loadHistInto hr⟩

theorem echo_ok {k : Key} (h : press history e k = .ok e') : ∃ w, echo history e e' k = .ok w := by
  cases k with
  | byte c =>
    simp only [echo]
    split_ifs <;> exact ⟨_,rfl⟩
  | escape second third =>
    simp only [press] at h
    simp only [echo]
    split_ifs at h ⊢ with hbracket hup hpos hdown hpos
    · obtain ⟨text,ht⟩ := load_pressUp hpos h
      exact ⟨_,redrawLine_eq ht⟩
    · exact ⟨_,rfl⟩
    · obtain ⟨text,ht⟩ := load_pressDown hpos h
      exact ⟨_,redrawLine_eq ht⟩
    · exact ⟨_,rfl⟩
    · exact ⟨_,rfl⟩
    · exact ⟨_,rfl⟩

theorem editLoop_fst (sz fuel : ℕ) (input : Bytes) (e : Editor) :
    (editLoop history sz fuel input e).map Prod.fst = ShellEditor.editLoop history sz fuel input e := by
  induction fuel generalizing input e with
  | zero => cases input <;> rfl
  | succ fuel ih =>
    cases input with
    | nil => rfl
    | cons c input =>
      unfold editLoop ShellEditor.editLoop
      split_ifs with hend
      · rfl
      cases hk : readKey c input with
      | error f => rfl
      | ok k =>
        cases hp : press history e k.1 with
        | error f => simp [bind,Except.bind,hp,Except.map]
        | ok e' =>
          obtain ⟨w,hw⟩ := echo_ok hp
          have hrest := ih k.2 e'
          simp only [bind,Except.bind,hp,hw]
          rw [← hrest]
          cases editLoop history sz fuel k.2 e' <;> rfl

theorem fgets_fst (buf : Buffer) (sz : ℕ) (input : Bytes) :
    (fgets history buf sz input).map Prod.fst = ShellEditor.fgets history buf sz input := by
  unfold fgets ShellEditor.fgets
  rw [← editLoop_fst]
  cases editLoop history sz input.length input ⟨buf,0,fresh LINE_SZ,0,history.length⟩ with
  | error f => rfl
  | ok r =>
    obtain ⟨⟨e | e,rest⟩,w⟩ := r
    · rfl
    · simp only [bind,Except.bind,Except.map]
      cases store e.buf e.len [0] <;> rfl

/-- A character, one of the two bytes that delete, or an escape. -/
def Shown : Key → Prop
  | .byte c => isPrintable c = true ∨ c = 127 ∨ c = 3
  | .escape _ _ => True

instance : DecidablePred Shown
  | .byte c => inferInstanceAs (Decidable (isPrintable c = true ∨ c = 127 ∨ c = 3))
  | .escape _ _ => inferInstanceAs (Decidable True)

theorem Shown.valid {k : Key} (hk : Shown k) : k.Valid := by
  cases k with
  | escape second third => trivial
  | byte c =>
    rcases hk with hc | rfl | rfl
    · refine ⟨?_,?_,?_⟩ <;> rintro rfl <;> exact absurd hc (by decide)
    · exact ⟨by decide,by decide,by decide⟩
    · exact ⟨by decide,by decide,by decide⟩

variable (history) in
def Readable : Prop := ∀ i, ∀ c ∈ Reference.line history i, isPrintable c = true

variable {r : Reference} {k : Key}

theorem printable_press (hh : Readable history) (hk : Shown k) (ht : ∀ c ∈ r.text, isPrintable c = true)
    (hs : ∀ c ∈ r.saved, isPrintable c = true) :
    (∀ c ∈ (r.press history k).text, isPrintable c = true) ∧
      ∀ c ∈ (r.press history k).saved, isPrintable c = true := by
  unfold Reference.press
  split_ifs with h127 h3 hup hdraft hdown hback
  · exact ⟨fun c hc => ht c (List.mem_of_mem_dropLast hc),hs⟩
  · exact ⟨by simp,by simp⟩
  · exact ⟨hh _,ht⟩
  · exact ⟨hh _,hs⟩
  · exact ⟨hs,hs⟩
  · exact ⟨hh _,hs⟩
  · cases k with
    | escape second third => exact ⟨ht,hs⟩
    | byte c =>
      have hc : isPrintable c = true :=
        hk.resolve_right fun h => h.elim (fun h => h127 (by rw [h])) fun h => h3 (by rw [h])
      refine ⟨fun b hb => ?_,hs⟩
      rcases List.mem_append.mp hb with hb | hb
      · exact ht b hb
      · rw [List.mem_singleton.mp hb]
        exact hc

def left (r : Reference) (k : Key) : List Bytes :=
  if k = .byte 3 then [prompt ++ r.text ++ ascii "^C"] else []

theorem ascii_prompt : ascii "\nccsh>" = [10] ++ prompt := by decide

theorem prompt_printable : ∀ c ∈ prompt, isPrintable c = true := by decide +kernel

variable {σ : Type} {width : ℕ} {T : Terminal σ width} {s : σ} {above : List Bytes} {w : Bytes}

/-- Drawing the line anew shows it, whatever stood there. -/
theorem redrawLine_displays (h : Shows history e r) (ht : ∀ c ∈ r.text, isPrintable c = true)
    (hn : (prompt ++ r.text).length < width) (hw : redrawLine e.buf e.len = .ok w) {v : Bytes}
    (hd : Displays T s above v) : Displays T (T.display s w) above (prompt ++ r.text) := by
  have hload : load e.buf 0 e.len = .ok r.text := by
    rw [h.len]
    exact h.text.load
  rw [redrawLine_eq hload] at hw
  cases hw
  have hprompt : prompt.length < width := (List.prefix_append prompt r.text).length_le.trans_lt hn
  rw [display_append]
  exact (hd.rewrite prompt_printable hprompt).text ht hn

theorem echo_escape (h : Shows history e r) {second third : UInt8}
    (hw : echo history e e' (.escape second third) = .ok w) :
    redrawLine e'.buf e'.len = .ok w ∨ w = [] ∧ r.press history (.escape second third) = r := by
  have hpos := h.hpos
  simp only [echo] at hw
  split_ifs at hw with hbracket hup h0 hdown h0
  · exact .inl hw
  · cases hw
    refine .inr ⟨rfl,?_⟩
    have hslot : ¬ 0 < r.slot := by omega
    simp [Reference.press,up,down,hup,hslot]
  · exact .inl hw
  · cases hw
    refine .inr ⟨rfl,?_⟩
    have hslot : ¬ r.slot < history.length := by omega
    simp [Reference.press,up,down,hdown,hslot]
  · cases hw
    exact .inr ⟨rfl,by simp [Reference.press,up,down,hup,hdown]⟩
  · cases hw
    exact .inr ⟨rfl,by simp [Reference.press,up,down,hbracket]⟩

/-- The prompt, the line and `^C` stay in front of the edge. -/
def Clear (width : ℕ) (r : Reference) : Prop := (prompt ++ r.text ++ ascii "^C").length < width

theorem Clear.start (h : Clear width r) : prompt.length < width :=
  ((List.prefix_append _ _).trans (List.prefix_append _ _)).length_le.trans_lt h

theorem Clear.line (h : Clear width r) : (prompt ++ r.text).length < width :=
  (List.prefix_append (prompt ++ r.text) _).length_le.trans_lt h

/-- The screen follows the line, key by key. -/
theorem echo_displays (h : Shows history e r) (h' : Shows history e' (r.press history k)) (hk : Shown k)
    (ht : ∀ c ∈ (r.press history k).text, isPrintable c = true) (hn : Clear width r)
    (hn' : Clear width (r.press history k)) (hw : echo history e e' k = .ok w)
    (hd : Displays T s above (prompt ++ r.text)) :
    Displays T (T.display s w) (above ++ left r k) (prompt ++ (r.press history k).text) := by
  cases k with
  | escape second third =>
    have hleft : left r (.escape second third) = [] := if_neg (by simp)
    rw [hleft,List.append_nil]
    rcases echo_escape h hw with hw | ⟨rfl,hr⟩
    · exact redrawLine_displays h' ht hn'.line hw hd
    · rw [hr]
      exact hd
  | byte c =>
    by_cases h127 : c = 127
    · subst h127
      have hr : r.press history (.byte 127) = { r with text := r.text.dropLast } := by simp [Reference.press]
      have hleft : left r (.byte 127) = [] := if_neg (by simp)
      rw [hr,hleft,List.append_nil]
      simp only [echo,if_true] at hw
      cases hw
      rcases List.eq_nil_or_concat r.text with h0 | ⟨v,b,hv⟩
      · have hlen : ¬ e.len > 0 := by rw [h.len,h0]; simp
        rw [if_neg hlen,h0]
        rw [h0] at hd
        exact hd
      · have hlen : e.len > 0 := by rw [h.len,hv]; simp
        rw [if_pos hlen,hv]
        have hlt := hn.line
        rw [hv,List.concat_eq_append,← List.append_assoc] at hd hlt
        simpa using hd.erase hlt
    by_cases h3 : c = 3
    · subst h3
      have hr : r.press history (.byte 3) = ⟨[],history.length,[]⟩ := by simp [Reference.press]
      have hleft : left r (.byte 3) = [prompt ++ r.text ++ ascii "^C"] := if_pos rfl
      rw [hr,hleft,List.append_nil]
      cases hw
      rw [ascii_prompt,display_append,display_append]
      exact ((hd.text (by decide +kernel) hn).newLine).text prompt_printable hn'.start
    · have hr : r.press history (.byte c) = { r with text := r.text ++ [c] } := by
        simp [Reference.press,up,down,h127,h3]
      have hleft : left r (.byte c) = [] := if_neg (by simp [h3])
      simp only [echo,if_neg h127,if_neg h3] at hw
      cases hw
      rw [hr] at ht
      rw [hr,hleft,List.append_nil,← List.append_assoc]
      have hlt := hn'.line
      rw [hr,← List.append_assoc] at hlt
      exact hd.text (fun b hb => ht b (by simp [List.mem_singleton.mp hb])) hlt

variable (history)

def written (buf : Buffer) (keys : List Key) : Except Fault (Editor × Bytes) :=
  keys.foldlM (fun q k => do
    let e ← press history q.1 k
    let w ← echo history q.1 e k
    .ok (e,q.2 ++ w)) (⟨buf,0,fresh LINE_SZ,0,history.length⟩,[])

def abandonedFrom (r : Reference) : List Key → List Bytes
  | [] => []
  | k :: keys => left r k ++ abandonedFrom (r.press history k) keys

def abandoned (keys : List Key) : List Bytes := abandonedFrom history ⟨[],history.length,[]⟩ keys

variable {history}

theorem abandoned_concat (keys : List Key) (k : Key) :
    abandoned history (keys ++ [k]) = abandoned history keys ++ left (Reference.after history keys) k := by
  unfold abandoned Reference.after
  generalize (⟨[],history.length,[]⟩ : Reference) = r
  induction keys generalizing r with
  | nil => simp [abandonedFrom]
  | cons k' keys ih =>
    rw [List.cons_append,abandonedFrom,abandonedFrom,ih,List.append_assoc]
    rfl

theorem written_concat {buf : Buffer} {keys : List Key} {k : Key} {e : Editor} {w : Bytes} :
    written history buf (keys ++ [k]) = .ok (e,w) ↔
      ∃ e₀ w₀ v, written history buf keys = .ok (e₀,w₀) ∧ press history e₀ k = .ok e ∧
        echo history e₀ e k = .ok v ∧ w = w₀ ++ v := by
  rw [written,List.foldlM_append,bind_eq_ok]
  constructor
  · rintro ⟨⟨e₀,w₀⟩,h₀,h⟩
    simp only [List.foldlM_cons,List.foldlM_nil] at h
    obtain ⟨q,h,hq⟩ := bind_eq_ok.mp h
    obtain ⟨e₁,hp,h⟩ := bind_eq_ok.mp h
    obtain ⟨v,hv,h⟩ := bind_eq_ok.mp h
    cases h
    cases hq
    exact ⟨e₀,w₀,v,h₀,hp,hv,rfl⟩
  · rintro ⟨e₀,w₀,v,h₀,hp,hv,rfl⟩
    refine ⟨_,h₀,?_⟩
    simp only [List.foldlM_cons,List.foldlM_nil]
    exact bind_eq_ok.mpr ⟨_,bind_eq_ok.mpr ⟨e,hp,bind_eq_ok.mpr ⟨v,hv,rfl⟩⟩,rfl⟩

theorem written_prefix {buf : Buffer} {keys p : List Key} (hp : p <+: keys) {e : Editor} {w : Bytes}
    (h : written history buf keys = .ok (e,w)) :
    ∃ e' v, written history buf p = .ok (e',v) ∧ v <+: w := by
  obtain ⟨q,rfl⟩ := hp
  induction q using List.reverseRecOn generalizing e w with
  | nil =>
    rw [List.append_nil] at h
    exact ⟨e,w,h,List.prefix_rfl⟩
  | append_singleton q k ih =>
    rw [← List.append_assoc,written_concat] at h
    obtain ⟨e₀,w₀,v,h₀,_,_,rfl⟩ := h
    obtain ⟨e',v',hv,hpre⟩ := ih h₀
    exact ⟨e',v',hv,hpre.trans (List.prefix_append _ _)⟩

theorem after_of_written {buf : Buffer} {keys : List Key} {e : Editor} {w : Bytes}
    (h : written history buf keys = .ok (e,w)) : after history buf keys = .ok e := by
  induction keys using List.reverseRecOn generalizing e w with
  | nil =>
    cases h
    rfl
  | append_singleton keys k ih =>
    obtain ⟨e₀,w₀,v,h₀,hp,_,_⟩ := written_concat.mp h
    rw [after_concat (ih h₀),hp]

theorem written_displays (hh : Readable history) {buf : Buffer} (hb : buf.length = LINE_SZ)
    {keys : List Key} (hk : ∀ k ∈ keys, Shown k) (hs : StaysShort history keys)
    (hn : ∀ p, p <+: keys → Clear width (Reference.after history p)) (hd : Displays T s above prompt) :
    ∃ e w, written history buf keys = .ok (e,w) ∧ Shows history e (Reference.after history keys) ∧
      (∀ c ∈ (Reference.after history keys).text, isPrintable c = true) ∧
      (∀ c ∈ (Reference.after history keys).saved, isPrintable c = true) ∧
      Displays T (T.display s w) (above ++ abandoned history keys)
        (prompt ++ (Reference.after history keys).text) := by
  induction keys using List.reverseRecOn with
  | nil =>
    refine ⟨_,_,rfl,shows_start hb,by simp [Reference.after],by simp [Reference.after],?_⟩
    simpa [abandoned,abandonedFrom,Reference.after] using hd
  | append_singleton keys k ih =>
    obtain ⟨e,w,hw,hr,ht,hv,hd⟩ := ih (fun k hm => hk k (by simp [hm])) (hs.left (List.prefix_append _ _))
      fun p hp => hn p (hp.trans (List.prefix_append _ _))
    have hedge := hn keys (List.prefix_append _ _)
    have hedge' := hn _ List.prefix_rfl
    have hlast : Shown k := hk k (by simp)
    have hf := hs _ List.prefix_rfl
    rw [Reference.after_concat] at hf hedge' ⊢
    obtain ⟨e',he,hr'⟩ := press_shows hr hlast.valid hf
    obtain ⟨v,hecho⟩ := echo_ok he
    obtain ⟨ht',hv'⟩ := printable_press hh hlast ht hv
    refine ⟨e',w ++ v,written_concat.mpr ⟨e,w,v,hw,he,hecho,rfl⟩,hr',ht',hv',?_⟩
    rw [display_append,abandoned_concat,← List.append_assoc]
    exact echo_displays hr hr' hlast ht' hedge hedge' hecho hd

theorem editLoop_key (hk : k.Plain) (hl : e.len < LINE_SZ) (hp : press history e k = .ok e')
    (hw : echo history e e' k = .ok w) (fuel : ℕ) (input : Bytes) :
    editLoop history LINE_SZ (fuel+1) (k.bytes ++ input) e =
      (editLoop history LINE_SZ fuel input e').map fun q => (q.1,w ++ q.2) := by
  cases k with
  | byte c =>
    have hb : ¬ (c = 10 ∨ e.len ≥ LINE_SZ) := by
      rintro (h | h)
      · exact hk.1 h
      · omega
    have hr : readKey c input = .ok (.byte c,input) := if_neg hk.2
    simp only [Key.bytes,List.singleton_append,editLoop,if_neg hb,hr,hp,hw,bind,Except.bind]
    cases editLoop history LINE_SZ fuel input e' <;> rfl
  | escape second third =>
    have hb : ¬ ((27 : UInt8) = 10 ∨ e.len ≥ LINE_SZ) := by
      rintro (h | h)
      · exact absurd h (by decide)
      · omega
    have hr : readKey 27 (second :: third :: input) = .ok (.escape second third,input) := if_pos rfl
    simp only [Key.bytes,List.cons_append,List.nil_append,editLoop,if_neg hb,hr,hp,hw,bind,Except.bind]
    cases editLoop history LINE_SZ fuel input e' <;> rfl

theorem editLoop_written {buf : Buffer} (hb : buf.length = LINE_SZ) {keys : List Key}
    (hk : ∀ k ∈ keys, k.Valid) (hs : StaysShort history keys) {e : Editor} {w : Bytes}
    (h : written history buf keys = .ok (e,w)) (fuel : ℕ) (input : Bytes) :
    editLoop history LINE_SZ (fuel+keys.length) (keys.flatMap Key.bytes ++ input)
        ⟨buf,0,fresh LINE_SZ,0,history.length⟩ =
      (editLoop history LINE_SZ fuel input e).map fun q => (q.1,w ++ q.2) := by
  induction keys using List.reverseRecOn generalizing fuel input e w with
  | nil =>
    cases h
    simp only [List.length_nil,Nat.add_zero,List.flatMap_nil,List.nil_append]
    cases editLoop history LINE_SZ fuel input ⟨buf,0,fresh LINE_SZ,0,history.length⟩ <;> rfl
  | append_singleton keys k ih =>
    have hk' : ∀ k ∈ keys, k.Valid := fun k hm => hk k (by simp [hm])
    have hs' : StaysShort history keys := hs.left (List.prefix_append _ _)
    obtain ⟨e₀,w₀,v,h₀,hp,hv,rfl⟩ := written_concat.mp h
    have hlt : e₀.len < LINE_SZ := by
      obtain ⟨e₁,he₁,hr⟩ := after_shows hb keys hk' hs'
      have heq : e₁ = e₀ := Except.ok.inj (he₁.symm.trans (after_of_written h₀))
      rw [← heq,hr.len]
      exact hr.text_lt
    have hfuel : fuel+(keys ++ [k]).length = (fuel+1)+keys.length := by
      rw [List.length_append,List.length_singleton]
      omega
    have hbytes : (keys ++ [k]).flatMap Key.bytes ++ input = keys.flatMap Key.bytes ++ (k.bytes ++ input) := by
      simp
    rw [hfuel,hbytes,ih hk' hs' h₀,editLoop_key (hk k (by simp)).plain hlt hp hv]
    cases editLoop history LINE_SZ fuel input e <;> simp [Except.map]

theorem displays_prompt (hm : T.Ready s) (hw : prompt.length < width) :
    Displays T (T.display s (ascii "\nccsh>")) ((T.screen s).above ++ [(T.screen s).line]) prompt := by
  rw [ascii_prompt,display_append]
  exact (displays_newLine hm).text prompt_printable hw

theorem fgets_written {buf : Buffer} (hb : buf.length = LINE_SZ) {keys : List Key}
    (hk : ∀ k ∈ keys, k.Valid) (hs : StaysShort history keys) (h : written history buf keys = .ok (e,w))
    (hr : Shows history e (Reference.after history keys)) (input : Bytes) :
    ∃ b line, fgets history buf LINE_SZ (keys.flatMap Key.bytes ++ 10 :: input) = .ok ((some b,input),w ++ [10]) ∧
      stringOf b = .ok line ∧ line.bytes = (Reference.after history keys).text := by
  have hfuel : (keys.flatMap Key.bytes ++ 10 :: input).length =
      ((keys.flatMap Key.bytes).length-keys.length+input.length)+1+keys.length := by
    have hle := length_le_bytes keys
    rw [List.length_append,List.length_cons]
    omega
  have hend (fuel : ℕ) : editLoop history LINE_SZ (fuel+1) (10 :: input) e = .ok ((some e,input),[]) :=
    if_pos (Or.inl rfl)
  have hloop := editLoop_written hb hk hs h
    ((keys.flatMap Key.bytes).length-keys.length+input.length+1) (10 :: input)
  rw [← hfuel,hend] at hloop
  simp only [Except.map,List.append_nil] at hloop
  obtain ⟨b,hst,_,hh⟩ := hr.text.store [0] (by rw [hr.buf_size]; exact hr.text_lt)
  rw [← hr.len] at hst
  exact ⟨b,_,bind_eq_ok.mpr ⟨_,hloop,bind_eq_ok.mpr ⟨b,hst,rfl⟩⟩,hh.stringOf hr.text_nul,rfl⟩

variable (history) in
/-- Nothing that is shown reaches the edge. -/
def Narrow (width : ℕ) (keys : List Key) : Prop := ∀ p, p <+: keys → Clear width (Reference.after history p)

/-- At every moment the screen shows the prompt and the line as it is, and above them the lines
that were given up; at Enter it is the line that is returned. -/
theorem screen_in_step (T : Terminal σ width) (hh : Readable history) {buf : Buffer} (hb : buf.length = LINE_SZ)
    {keys : List Key} (hk : ∀ k ∈ keys, Shown k) (hs : StaysShort history keys) (hn : Narrow history width keys)
    (input : Bytes) (hr : T.Ready s) :
    ∃ b line w, fgets history buf LINE_SZ (keys.flatMap Key.bytes ++ 10 :: input) = .ok ((some b,input),w) ∧
      stringOf b = .ok line ∧
      Displays T (T.display s (ascii "\nccsh>" ++ w))
        ((T.screen s).above ++ (T.screen s).line :: (abandoned history keys ++ [prompt ++ line.bytes])) [] ∧
      ∀ p, p <+: keys → ∃ v, v <+: w ∧
        Displays T (T.display s (ascii "\nccsh>" ++ v))
          ((T.screen s).above ++ (T.screen s).line :: abandoned history p)
          (prompt ++ (Reference.after history p).text) := by
  have hstart := displays_prompt hr (hn [] List.nil_prefix).start
  obtain ⟨e,w,hw,hshows,_,_,hd⟩ := written_displays hh hb hk hs hn hstart
  obtain ⟨b,line,hf,hline,htext⟩ := fgets_written hb (fun k hm => (hk k hm).valid) hs hw hshows input
  refine ⟨b,line,_,hf,hline,?_,fun p hp => ?_⟩
  · rw [← List.append_assoc,display_append,display_append,htext]
    simpa using hd.newLine
  · obtain ⟨e',v,hv,hpre⟩ := written_prefix hp hw
    obtain ⟨_,_,hv',_,_,_,hd'⟩ := written_displays hh hb (fun k hm => hk k (hp.subset hm)) (hs.left hp)
      (fun q hq => hn q (hq.trans hp)) hstart
    cases hv.symm.trans hv'
    refine ⟨v,hpre.trans (List.prefix_append _ _),?_⟩
    rw [display_append]
    simpa using hd'

def sampleKeys : List Key := [up,.byte 3,.byte 112,.byte 120,.byte 127,.byte 115]

theorem readable_sample : Readable [lit "ls\n"] := fun i => by
  cases i with
  | zero => decide +kernel
  | succ i => simp [Reference.line]

theorem staysShort_sample : StaysShort [lit "ls\n"] sampleKeys := fun p hp => by
  have h : ∀ q ∈ sampleKeys.inits, (Reference.after [lit "ls\n"] q).text.length < LINE_SZ := by decide
  exact h p ((List.mem_inits p sampleKeys).mpr hp)

theorem narrow_sample : Narrow [lit "ls\n"] 80 sampleKeys := fun p hp => by
  have h : ∀ q ∈ sampleKeys.inits, (prompt ++ (Reference.after [lit "ls\n"] q).text ++ ascii "^C").length < 80 := by
    decide
  exact h p ((List.mem_inits p sampleKeys).mpr hp)

theorem shown_sample : ∀ k ∈ sampleKeys, Shown k := by decide +kernel

def blankScreen : Screen × Mode := (⟨[],[],0⟩,.ground)

theorem screen_in_step_sample :
    abandoned [lit "ls\n"] sampleKeys = [ascii "ccsh>ls^C"] ∧
    ∃ b line w, fgets [lit "ls\n"] (fresh LINE_SZ) LINE_SZ (sampleKeys.flatMap Key.bytes ++ 10 :: []) =
        .ok ((some b,[]),w) ∧
      stringOf b = .ok line ∧
      Displays (plain 80) ((plain 80).display blankScreen (ascii "\nccsh>" ++ w))
        ([] ++ [] :: (abandoned [lit "ls\n"] sampleKeys ++ [prompt ++ line.bytes])) [] ∧
      ∀ p, p <+: sampleKeys → ∃ v, v <+: w ∧
        Displays (plain 80) ((plain 80).display blankScreen (ascii "\nccsh>" ++ v))
          ([] ++ [] :: abandoned [lit "ls\n"] p) (prompt ++ (Reference.after [lit "ls\n"] p).text) :=
  ⟨by decide,screen_in_step (s:=blankScreen) (plain 80) readable_sample (length_fresh _) shown_sample
    staysShort_sample narrow_sample [] rfl⟩

end ShellScreen
end CodingChallenges
