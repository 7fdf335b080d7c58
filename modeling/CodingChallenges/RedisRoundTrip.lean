import CodingChallenges.NumberText
import CodingChallenges.RedisReplies

/-! The reply encoders of `server.c` against the parser of `resp.c`: what `snprintf` leaves in
the buffers the encoders allocate, and what `parse` makes of it. -/
namespace CodingChallenges
namespace RedisRoundTrip

open CText CMemory RedisResp RedisParser RedisServer NumberText

inductive Reply
  | simple (s : CString)
  | error (s : CString)
  | integer (i_val : ℤ)
  | bulk (s : CString)

namespace Reply

def text : Reply → CString
  | simple s => respSimple (some s)
  | error s => respError (some s)
  | integer i_val => respInteger i_val
  | bulk s => respBulk (some s)

/-- The size of the buffer the encoder allocates. -/
def size : Reply → ℕ
  | simple s => s.length+4
  | error s => s.length+4
  | integer i_val => (respInteger i_val).length+1
  | bulk s => s.length+32

/-- What `snprintf` leaves in the buffer: as much of the text as fits with a terminator. -/
def written (r : Reply) : CString := r.text.take (r.size-1)

def value : Reply → RespValue
  | simple s => .simpleString s
  | error s => .errors s
  | integer i_val => .integers i_val
  | bulk s => .bulkStrings s

end Reply

def OneLine (s : CString) : Prop := ∀ before after, s.bytes ≠ before ++ 13 :: 10 :: after

/-- A line without CR LF, and a number that an `int` holds. -/
def Reply.Valid : Reply → Prop
  | .simple s => OneLine s
  | .error s => OneLine s
  | .integer i_val => INT_MIN ≤ i_val ∧ i_val ≤ INT_MAX
  | .bulk _ => True

theorem length_text_le {r : Reply} (h : ∀ s, r = .bulk s → s.length < 2^64) :
    r.text.length ≤ r.size-1 := by
  cases r with
  | simple s => simp [Reply.text,Reply.size,respSimple,CString.length,lit,ascii]
  | error s => simp [Reply.text,Reply.size,respError,CString.length,lit,ascii]
  | integer i_val => simp [Reply.text,Reply.size]
  | bulk s =>
    have hdigits : (decimalNat s.length).length ≤ 20 := by
      rw [decimalNat,List.length_map,Nat.length_toDigits_le_iff (by norm_num) (by norm_num)]
      exact (h s rfl).trans (by norm_num)
    have hlen : (respBulk (some s)).length = s.length+(decimalNat s.length).length+5 := by
      simp only [CString.length,RedisReplies.respBulk_bytes,encodeBulk,List.length_cons,List.length_append,crlf,
        List.length_nil]
      omega
    simp only [Reply.text,Reply.size]
    omega

/-- No reply is cut; the length of a string is a `size_t`. -/
theorem written_eq_text {r : Reply} (h : ∀ s, r = .bulk s → s.length < 2^64) : r.written = r.text :=
  CString.ext (List.take_of_length_le (length_text_le h))

theorem simpleText_line {line : Bytes} (h : ∀ before after, line ≠ before ++ 13 :: 10 :: after) :
    simpleText (line ++ crlf) = line := by
  induction line with
  | nil => rfl
  | cons b line ih =>
    have hrest : ∀ before after, line ≠ before ++ 13 :: 10 :: after := by
      intro before after he
      exact h (b :: before) after (by rw [he,List.cons_append])
    have hb : ¬ (b = 13 ∧ (line ++ crlf).head? = some 10) := by
      rintro ⟨rfl,hh⟩
      cases line with
      | nil => cases hh
      | cons c line =>
        obtain rfl : c = 10 := Option.some.inj hh
        exact h [] line rfl
    rw [List.cons_append,simpleText,if_neg hb,ih hrest]

theorem lineText_line {s t : CString} (ht : t.bytes = s.bytes ++ crlf) (hs : OneLine s) : lineText t = s := by
  rw [lineText,ht,simpleText_line hs,cut_bytes]

def line (s : CString) : CString where
  bytes := s.bytes ++ crlf
  nul_free := by simp [s.nul_free,crlf]

theorem parse_simple {s : CString} (hs : OneLine s) :
    parse (Reply.simple s).text.object = .ok (some (.simpleString s)) := by
  have hb : (Reply.simple s).text.bytes = 43 :: (line s).bytes := rfl
  have hp := parse_first hb []
  rwa [if_pos rfl,lineText_line rfl hs] at hp

theorem parse_error {s : CString} (hs : OneLine s) :
    parse (Reply.error s).text.object = .ok (some (.errors s)) := by
  have hb : (Reply.error s).text.bytes = 45 :: (line s).bytes := rfl
  have hp := parse_first hb []
  rwa [if_neg (by decide),if_pos rfl,lineText_line rfl hs] at hp

theorem oneLine_intText (z : ℤ) : OneLine (intText z) := by
  intro before after he
  have hmem : 13 ∈ decimal z := by
    rw [show decimal z = _ from he]
    simp
  obtain ⟨sign,_,ds,hs,hd,_,hz,_⟩ := decimal_spelling z
  rw [hz] at hmem
  rcases List.mem_append.mp hmem with h | h
  · cases hs <;> simp at h
  · exact absurd (hd 13 h) (by decide)

theorem parse_integer {z : ℤ} (h₁ : INT_MIN ≤ z) (h₂ : z ≤ INT_MAX) :
    parse (Reply.integer z).text.object = .ok (some (.integers z)) := by
  have hb : (Reply.integer z).text.bytes = 58 :: (line (intText z)).bytes := rfl
  have hp := parse_first hb []
  have hz : strtol (intText z) = ⟨saturate z,_,_⟩ := strtol_denotes (denotes_decimal z)
  have hs : saturate z = z := saturate_of_range (le_trans (by decide) h₁) (le_trans h₂ (by decide))
  rwa [if_neg (by decide),if_neg (by decide),if_pos rfl,lineText_line rfl (oneLine_intText z),hz,hs] at hp

theorem parse_bulk (s : CString) : parse (Reply.bulk s).written.object = .error (.exit 1) := by
  have hsize : (Reply.bulk s).size-1 = s.length+30+1 := rfl
  have hbytes : (Reply.bulk s).text.bytes = 36 :: ((Reply.bulk s).text.drop 1).bytes := rfl
  have hb : (Reply.bulk s).written.bytes =
      36 :: (((Reply.bulk s).text.drop 1).take (s.length+30)).bytes := by
    rw [Reply.written,hsize,CString.take_bytes,hbytes,List.take_succ_cons]
    rfl
  exact (parse_first hb []).trans rfl

/-- `parse` gives back the type and the content of a reply exactly when it is no bulk string. -/
theorem parse_written_iff (r : Reply) (hr : r.Valid) :
    parse r.written.object = .ok (some r.value) ↔ ∀ s, r ≠ .bulk s := by
  cases r with
  | simple s =>
    rw [written_eq_text (by simp)]
    exact iff_of_true (parse_simple hr) (by simp)
  | error s =>
    rw [written_eq_text (by simp)]
    exact iff_of_true (parse_error hr) (by simp)
  | integer z =>
    rw [written_eq_text (by simp)]
    exact iff_of_true (parse_integer hr.1 hr.2) (by simp)
  | bulk s =>
    rw [parse_bulk]
    exact iff_of_false (by simp) fun h => h s rfl

/-- A lone CR, also at the end, is part of the text. -/
theorem parse_written_iff_cr :
    parse (Reply.error (lit "a\rb\r")).written.object = .ok (some (.errors (lit "a\rb\r"))) := by
  refine (parse_written_iff (.error (lit "a\rb\r")) ?_).mpr (by simp)
  intro before after he
  have hmem : 10 ∈ (lit "a\rb\r").bytes := by
    rw [he]
    simp
  exact absurd hmem (by decide)

/-- The decoder recognises the `$` and then has no case for it. -/
theorem parse_bulk_exits :
    ¬ (∀ r : Reply, r.Valid → parse r.written.object = .ok (some r.value)) ∧
    getIdentifyType (Reply.bulk (lit "a")).written.object = .ok .bulkStrings ∧
    parse (Reply.bulk (lit "a")).written.object = .error (.exit 1) := by
  have hexit := parse_bulk (lit "a")
  refine ⟨fun h => ?_,rfl,hexit⟩
  rw [h (.bulk (lit "a")) trivial] at hexit
  contradiction

end RedisRoundTrip
end CodingChallenges
