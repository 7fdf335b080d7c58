import CodingChallenges.CText

/-! A terminal of a width, by what it makes of the bytes that line editors write: characters, backspace,
line feed, carriage return and the sequence that clears the line from the cursor on. Its driver makes a
carriage return of a line feed too. What it does at its right edge is left open. -/
namespace CodingChallenges

open CText

/-- The lines above, the line of the cursor, and its column. -/
structure Screen where
  above : List Bytes
  line : Bytes
  col : ℕ

def isPrintable (c : UInt8) : Bool := 32 ≤ c && c ≤ 126

def Screen.put (s : Screen) (c : UInt8) : Screen where
  above := s.above
  line := s.line.take s.col ++ List.replicate (s.col-s.line.length) 32 ++ c :: s.line.drop (s.col+1)
  col := s.col+1

/-- `Ready`: no escape sequence is under way, and nothing stands below the line of the cursor. -/
structure Terminal (σ : Type) (width : ℕ) where
  next : σ → UInt8 → σ
  screen : σ → Screen
  Ready : σ → Prop
  put : ∀ {s c}, Ready s → isPrintable c = true → (screen s).col+1 < width →
    Ready (next s c) ∧ screen (next s c) = (screen s).put c
  backspace : ∀ {s}, Ready s → 0 < (screen s).col →
    Ready (next s 8) ∧ screen (next s 8) = { screen s with col := (screen s).col-1 }
  lineFeed : ∀ {s}, Ready s →
    Ready (next s 10) ∧ screen (next s 10) = ⟨(screen s).above ++ [(screen s).line],[],0⟩
  carriageReturn : ∀ {s}, Ready s → Ready (next s 13) ∧ screen (next s 13) = { screen s with col := 0 }
  clear : ∀ {s}, Ready s → Ready (next (next (next s 27) 91) 75) ∧
    screen (next (next (next s 27) 91) 75) = { screen s with line := (screen s).line.take (screen s).col }

namespace Terminal

variable {σ : Type} {width : ℕ} (T : Terminal σ width)

def display (s : σ) (w : Bytes) : σ := w.foldl T.next s

@[simp] theorem display_nil (s : σ) : T.display s [] = s := rfl

@[simp] theorem display_cons (s : σ) (c : UInt8) (w : Bytes) : T.display s (c :: w) = T.display (T.next s c) w := rfl

theorem display_append (s : σ) (v w : Bytes) : T.display s (v ++ w) = T.display (T.display s v) w :=
  List.foldl_append

theorem display_text {v : Bytes} (hv : ∀ c ∈ v, isPrintable c = true) {s : σ} (hr : T.Ready s)
    {above : List Bytes} {line : Bytes} {col : ℕ} (hs : T.screen s = ⟨above,line,col⟩) (hc : col ≤ line.length)
    (hw : col+v.length < width) :
    T.Ready (T.display s v) ∧ T.screen (T.display s v) =
      ⟨above,line.take col ++ v ++ line.drop (col+v.length),col+v.length⟩ := by
  induction v generalizing s line col with
  | nil => exact ⟨hr,by simpa using hs⟩
  | cons c v ih =>
    rw [List.length_cons] at hw
    obtain ⟨hr',hs'⟩ := T.put hr (hv c (by simp)) (by rw [hs]; show col+1 < width; omega)
    have hput : T.screen (T.next s c) = ⟨above,line.take col ++ c :: line.drop (col+1),col+1⟩ := by
      rw [hs',hs]
      simp [Screen.put,Nat.sub_eq_zero_of_le hc]
    have hl : (line.take col).length = col := List.length_take_of_le hc
    have htake : (line.take col ++ c :: line.drop (col+1)).take (col+1) = line.take col ++ [c] := by
      rw [List.take_append,hl,List.take_of_length_le (by omega)]
      simp
    have hdrop : (line.take col ++ c :: line.drop (col+1)).drop (col+1+v.length) =
        line.drop (col+1+v.length) := by
      rw [List.drop_append,hl,List.drop_eq_nil_of_le (by omega),show col+1+v.length-col = v.length+1 by omega]
      simp
    have hle : col+1 ≤ (line.take col ++ c :: line.drop (col+1)).length := by
      rw [List.length_append,hl,List.length_cons]
      omega
    obtain ⟨hready,hscreen⟩ := ih (fun c hm => hv c (by simp [hm])) hr' hput hle (by omega)
    refine ⟨hready,hscreen.trans ?_⟩
    rw [htake,hdrop,List.length_cons,show col+1+v.length = col+(v.length+1) by omega,List.append_assoc,
      List.append_assoc,List.append_assoc]
    rfl

/-- The same but for blanks at the end. -/
def Padded (line w : Bytes) : Prop := ∃ k, line = w ++ List.replicate k 32

theorem Padded.refl (w : Bytes) : Padded w w := ⟨0,by simp⟩

/-- The lines that are read, with the cursor behind the last one. -/
structure Displays (s : σ) (above : List Bytes) (w : Bytes) : Prop where
  ready : T.Ready s
  above : List.Forall₂ Padded (T.screen s).above above
  line : Padded (T.screen s).line w
  col : (T.screen s).col = w.length

variable {T} {s : σ} {above : List Bytes} {v w : Bytes}

theorem Displays.eq (h : Displays T s above w) :
    ∃ k, T.screen s = ⟨(T.screen s).above,w ++ List.replicate k 32,w.length⟩ := by
  obtain ⟨k,hk⟩ := h.line
  exact ⟨k,by rw [← hk,← h.col]⟩

/-- Text that is written stands behind the text that is there. -/
theorem Displays.text (h : Displays T s above w) (hv : ∀ c ∈ v, isPrintable c = true)
    (hw : (w ++ v).length < width) : Displays T (T.display s v) above (w ++ v) := by
  obtain ⟨k,hs⟩ := h.eq
  rw [List.length_append] at hw
  obtain ⟨hready,hscreen⟩ := T.display_text hv h.ready hs (by simp) hw
  refine ⟨hready,by rw [hscreen]; exact h.above,⟨k-v.length,?_⟩,by rw [hscreen]; exact List.length_append.symm⟩
  rw [hscreen]
  simp [List.drop_append]

theorem Displays.erase {c : UInt8} (h : Displays T s above (w ++ [c])) (hw : (w ++ [c]).length < width) :
    Displays T (T.display s [8,32,8]) above w := by
  obtain ⟨k,hs⟩ := h.eq
  have hcol : (T.screen s).col = w.length+1 := by simpa using h.col
  obtain ⟨hr₁,hs₁⟩ := T.backspace h.ready (by omega)
  have hback : T.screen (T.next s 8) = ⟨(T.screen s).above,w ++ [c] ++ List.replicate k 32,w.length⟩ := by
    rw [hs₁,hs]
    simp
  obtain ⟨hr₂,hs₂⟩ := T.display_text (v:=[32]) (by simp [isPrintable]) hr₁ hback (by simp) (by simpa using hw)
  obtain ⟨hr₃,hs₃⟩ := T.backspace hr₂ (by rw [hs₂]; exact Nat.succ_pos _)
  have hline : T.screen (T.display s [8,32,8]) =
      ⟨(T.screen s).above,w ++ List.replicate (k+1) 32,w.length⟩ := by
    refine hs₃.trans ?_
    rw [hs₂]
    simp [List.drop_append,List.replicate_succ]
  exact ⟨hr₃,by rw [hline]; exact h.above,⟨k+1,by rw [hline]⟩,by rw [hline]⟩

theorem Displays.newLine (h : Displays T s above w) : Displays T (T.next s 10) (above ++ [w]) [] := by
  obtain ⟨hready,hscreen⟩ := T.lineFeed h.ready
  refine ⟨hready,?_,⟨0,by rw [hscreen]; rfl⟩,by rw [hscreen]; rfl⟩
  rw [hscreen]
  exact List.rel_append h.above (.cons h.line .nil)

/-- A line that is written from its start and cleared behind its end holds nothing else. -/
theorem Displays.rewrite (h : Displays T s above w) (hv : ∀ c ∈ v, isPrintable c = true)
    (hw : v.length < width) : Displays T (T.display s (13 :: (v ++ [27,91,75]))) above v := by
  obtain ⟨hr₁,hs₁⟩ := T.carriageReturn h.ready
  obtain ⟨hr₂,hs₂⟩ := T.display_text hv hr₁ hs₁ (Nat.zero_le _) (by omega)
  obtain ⟨hr₃,hs₃⟩ := T.clear hr₂
  have hline : T.screen (T.display s (13 :: (v ++ [27,91,75]))) = ⟨(T.screen s).above,v,v.length⟩ := by
    rw [display_cons,display_append]
    refine hs₃.trans ?_
    rw [hs₂]
    simp
  refine ⟨?_,by rw [hline]; exact h.above,⟨0,by rw [hline]; simp⟩,by rw [hline]⟩
  rw [display_cons,display_append]
  exact hr₃

theorem displays_newLine (hr : T.Ready s) :
    Displays T (T.next s 10) ((T.screen s).above ++ [(T.screen s).line]) [] := by
  obtain ⟨hready,hscreen⟩ := T.lineFeed hr
  refine ⟨hready,?_,⟨0,by rw [hscreen]; rfl⟩,by rw [hscreen]; rfl⟩
  rw [hscreen]
  exact List.forall₂_same.mpr fun w _ => Padded.refl w

inductive Mode
  | ground
  | escape
  | bracket
  deriving DecidableEq

def plainNext (s : Screen × Mode) (c : UInt8) : Screen × Mode :=
  match s.2 with
  | .ground =>
    if isPrintable c then (s.1.put c,.ground)
    else if c = 8 then ({ s.1 with col := s.1.col-1 },.ground)
    else if c = 10 then (⟨s.1.above ++ [s.1.line],[],0⟩,.ground)
    else if c = 13 then ({ s.1 with col := 0 },.ground)
    else if c = 27 then (s.1,.escape)
    else s
  | .escape => (s.1,if c = 91 then .bracket else .ground)
  | .bracket => (if c = 75 then { s.1 with line := s.1.line.take s.1.col } else s.1,.ground)

/-- A terminal that knows nothing else. -/
def plain (width : ℕ) : Terminal (Screen × Mode) width where
  next := plainNext
  screen := Prod.fst
  Ready s := s.2 = .ground
  put hr hc _ := by simp [plainNext,hr,hc]
  backspace hr _ := by simp [plainNext,hr,isPrintable]
  lineFeed hr := by simp [plainNext,hr,isPrintable]
  carriageReturn hr := by simp [plainNext,hr,isPrintable]
  clear hr := by simp [plainNext,hr,isPrintable]

end Terminal
end CodingChallenges
