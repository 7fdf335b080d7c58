import CodingChallenges.CText

/-! Reading a text stream in pieces with `fgets`.
Each call takes bytes up to a line feed or until the buffer is full. What the calls
deliver is what an automaton delivers that holds the unfinished piece, so a text that
leaves the automaton with nothing unfinished is read as if it stood alone. -/
namespace CodingChallenges
namespace CStream

open CText

/-- `fgets` with room for `n` bytes before the terminator: the bytes it stores and the
rest of the stream. -/
def fgets : ℕ → Bytes → Bytes × Bytes
  | 0, s => ([],s)
  | _+1, [] => ([],[])
  | n+1, c :: s =>
    if c = 10 then ([10],s)
    else ((c :: (fgets n s).1),(fgets n s).2)

/-- The pieces that calls of `fgets` deliver until the end of the stream, which comes
after as many calls as there are bytes. -/
def chunksUpTo (n : ℕ) : ℕ → Bytes → List Bytes
  | _, [] => []
  | 0, _ :: _ => []
  | k+1, s@(_ :: _) => (fgets n s).1 :: chunksUpTo n k (fgets n s).2

def chunks (n : ℕ) (s : Bytes) : List Bytes := chunksUpTo n s.length s

def push (n : ℕ) (cur : Bytes) (c : UInt8) : Bytes × List Bytes :=
  if c = 10 ∨ cur.length+1 = n then ([],[cur ++ [c]]) else (cur ++ [c],[])

/-- The piece that is unfinished after the bytes, and the pieces they finish. -/
def feed (n : ℕ) (cur : Bytes) : Bytes → Bytes × List Bytes
  | [] => (cur,[])
  | c :: s => ((feed n (push n cur c).1 s).1,(push n cur c).2 ++ (feed n (push n cur c).1 s).2)

def flush (r : Bytes × List Bytes) : List Bytes := if r.1 = [] then r.2 else r.2 ++ [r.1]

theorem feed_append (n : ℕ) (cur s t : Bytes) :
    feed n cur (s ++ t) =
      ((feed n (feed n cur s).1 t).1,(feed n cur s).2 ++ (feed n (feed n cur s).1 t).2) := by
  induction s generalizing cur with
  | nil => rfl
  | cons c s ih => simp [feed,ih]

theorem flush_feed (n : ℕ) (cur s : Bytes) (hc : cur.length < n) (hne : cur ++ s ≠ []) :
    flush (feed n cur s) =
      (cur ++ (fgets (n-cur.length) s).1) :: flush (feed n [] (fgets (n-cur.length) s).2) := by
  induction s generalizing cur with
  | nil =>
    obtain ⟨m,hm⟩ : ∃ m, n-cur.length = m+1 := ⟨n-cur.length-1,by omega⟩
    have hcur : cur ≠ [] := by simpa using hne
    simp [feed,hm,fgets,flush,hcur]
  | cons c s ih =>
    obtain ⟨m,hm⟩ : ∃ m, n-cur.length = m+1 := ⟨n-cur.length-1,by omega⟩
    rw [hm,fgets]
    by_cases h10 : c = 10
    · simp [feed,push,h10,flush]
      split_ifs <;> rfl
    · rw [if_neg h10]
      by_cases hfull : cur.length+1 = n
      · obtain rfl : m = 0 := by omega
        simp only [feed,push,if_pos (Or.inr hfull),fgets]
        simp [flush]
        split_ifs <;> rfl
      · have ht := ih (cur ++ [c]) (by rw [List.length_append,List.length_singleton]; omega) (by simp)
        have hlen : n-(cur ++ [c]).length = m := by
          rw [List.length_append,List.length_singleton]
          omega
        rw [hlen] at ht
        have hp : push n cur c = (cur ++ [c],[]) := if_neg (by simp [h10,hfull])
        simp only [feed,hp,List.nil_append]
        simpa using ht

theorem length_fgets (n : ℕ) (s : Bytes) : (fgets n s).1.length ≤ n ∧
    (fgets n s).1.length+(fgets n s).2.length = s.length := by
  induction s generalizing n with
  | nil => cases n <;> simp [fgets]
  | cons c s ih =>
    cases n with
    | zero => simp [fgets]
    | succ n =>
      have h := ih n
      rw [fgets]
      split_ifs
      · simp; omega
      · simp only [List.length_cons]
        omega

theorem chunksUpTo_eq {n : ℕ} (hn : 0 < n) (k : ℕ) (s : Bytes) (hk : s.length ≤ k) :
    chunksUpTo n k s = flush (feed n [] s) := by
  induction k generalizing s with
  | zero =>
    obtain rfl := List.length_eq_zero_iff.mp (Nat.le_zero.mp hk)
    rfl
  | succ k ih =>
    cases s with
    | nil => rfl
    | cons c s =>
      have hf := flush_feed n [] (c :: s) hn (by simp)
      have hl := (length_fgets n (c :: s)).2
      have hp : 0 < (fgets n (c :: s)).1.length := by
        obtain ⟨m,rfl⟩ : ∃ m, n = m+1 := ⟨n-1,by omega⟩
        rw [fgets]
        split_ifs <;> simp
      rw [hf,chunksUpTo,ih _ (by simp only [List.length_cons] at hk hl; omega)]
      simp

/-- The calls deliver what the automaton delivers. -/
theorem chunks_eq {n : ℕ} (hn : 0 < n) (s : Bytes) : chunks n s = flush (feed n [] s) :=
  chunksUpTo_eq hn s.length s (le_refl _)

theorem flatten_feed (n : ℕ) (cur s : Bytes) : (feed n cur s).2.flatten ++ (feed n cur s).1 = cur ++ s := by
  induction s generalizing cur with
  | nil => simp [feed]
  | cons c s ih =>
    have h := ih (push n cur c).1
    rw [feed,List.flatten_append,List.append_assoc,h,push]
    split_ifs <;> simp

/-- The pieces are the stream. -/
theorem flatten_chunks {n : ℕ} (hn : 0 < n) (s : Bytes) : (chunks n s).flatten = s := by
  have h := flatten_feed n [] s
  rw [List.nil_append] at h
  rw [chunks_eq hn,flush]
  split_ifs with h0
  · simpa [h0] using h
  · simpa using h

theorem length_le_of_mem_chunks {n : ℕ} {s c : Bytes} (h : c ∈ chunks n s) : c.length ≤ n := by
  have hup (k : ℕ) (s : Bytes) (h : c ∈ chunksUpTo n k s) : c.length ≤ n := by
    induction k generalizing s with
    | zero => cases s <;> simp [chunksUpTo] at h
    | succ k ih =>
      cases s with
      | nil => simp [chunksUpTo] at h
      | cons d s =>
        rw [chunksUpTo,List.mem_cons] at h
        rcases h with rfl | h
        · exact (length_fgets n (d :: s)).1
        · exact ih _ h
  exact hup _ s h

/-- The automaton has nothing unfinished after the text. -/
def Settled (n : ℕ) (w : Bytes) : Prop := (feed n [] w).1 = []

/-- What follows a settled text is read as if it stood alone. -/
theorem chunks_append {n : ℕ} (hn : 0 < n) {w : Bytes} (hw : Settled n w) (s : Bytes) :
    chunks n (w ++ s) = chunks n w ++ chunks n s := by
  have h0 : (feed n [] w).1 = [] := hw
  rw [chunks_eq hn,chunks_eq hn,chunks_eq hn,feed_append]
  simp only [flush,h0]
  split_ifs <;> simp

theorem chunks_flatten {n : ℕ} (hn : 0 < n) (ws : List Bytes) (h : ∀ w ∈ ws, Settled n w) :
    chunks n ws.flatten = ws.flatMap (chunks n) := by
  induction ws with
  | nil => rfl
  | cons w ws ih =>
    rw [List.flatten_cons,chunks_append hn (h w (by simp)),ih fun v hv => h v (by simp [hv])]
    rfl

theorem settled_lf (n : ℕ) (w : Bytes) : Settled n (w ++ [10]) := by
  rw [Settled,feed_append]
  simp [feed,push]

theorem feed_short {n : ℕ} {cur w : Bytes} (h10 : 10 ∉ w) (hl : cur.length+w.length < n) :
    feed n cur w = (cur ++ w,[]) := by
  induction w generalizing cur with
  | nil => simp [feed]
  | cons c w ih =>
    rw [List.mem_cons,not_or] at h10
    rw [List.length_cons] at hl
    have hp : push n cur c = (cur ++ [c],[]) := if_neg (by
      rintro (rfl | h)
      · exact h10.1 rfl
      · omega)
    have ht : feed n (cur ++ [c]) w = (cur ++ [c] ++ w,[]) :=
      ih h10.2 (by rw [List.length_append,List.length_singleton]; omega)
    simp [feed,hp,ht]

theorem feed_piece {n : ℕ} {w : Bytes} {c : UInt8} (h10 : 10 ∉ w) (hl : w.length < n)
    (hc : c = 10 ∨ w.length+1 = n) : feed n [] (w ++ [c]) = ([],[w ++ [c]]) := by
  rw [feed_append,feed_short h10 (by simpa using hl)]
  simp [feed,push,hc]

theorem chunks_piece {n : ℕ} {w : Bytes} {c : UInt8} (h10 : 10 ∉ w) (hl : w.length < n)
    (hc : c = 10 ∨ w.length+1 = n) : chunks n (w ++ [c]) = [w ++ [c]] := by
  rw [chunks_eq (by omega),feed_piece h10 hl hc]
  rfl

theorem chunks_lines {n : ℕ} {lines : List Bytes} (h : ∀ w ∈ lines, 10 ∉ w ∧ w.length < n) :
    chunks n (lines.flatMap (· ++ [10])) = lines.map (· ++ [10]) := by
  induction lines with
  | nil => rfl
  | cons w lines ih =>
    obtain ⟨h10,hl⟩ := h w (by simp)
    rw [List.flatMap_cons,chunks_append (by omega) (settled_lf n w),chunks_piece h10 hl (Or.inl rfl),
      ih fun v hv => h v (by simp [hv])]
    rfl

theorem settled_piece {n : ℕ} {w : Bytes} {c : UInt8} (h10 : 10 ∉ w) (hl : w.length < n)
    (hc : c = 10 ∨ w.length+1 = n) : Settled n (w ++ [c]) := by
  rw [Settled,feed_piece h10 hl hc]

theorem exists_piece {n : ℕ} (hn : 0 < n) {w : Bytes} (h10 : 10 ∉ w) (hl : w.length = n) :
    ∃ u c, w = u ++ [c] ∧ 10 ∉ u ∧ u.length < n ∧ u.length+1 = n := by
  have hne : w ≠ [] := List.ne_nil_of_length_pos (by omega)
  refine ⟨w.dropLast,w.getLast hne,(List.dropLast_append_getLast hne).symm,?_,?_,?_⟩
  · exact fun h => h10 (List.mem_of_mem_dropLast h)
  · rw [List.length_dropLast]
    omega
  · rw [List.length_dropLast]
    omega

theorem chunks_last {n : ℕ} {w : Bytes} (h10 : 10 ∉ w) (hne : w ≠ []) (hl : w.length ≤ n) :
    chunks n w = [w] := by
  have hpos := List.length_pos_of_ne_nil hne
  rcases Nat.lt_or_eq_of_le hl with hlt | heq
  · rw [chunks_eq (by omega),feed_short h10 (by simpa using hlt)]
    simp [flush,hne]
  · obtain ⟨u,c,rfl,hu,hlu,hn⟩ := exists_piece (by omega) h10 heq
    exact chunks_piece hu hlu (Or.inr hn)

end CStream
end CodingChallenges
