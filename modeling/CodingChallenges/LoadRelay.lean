import CodingChallenges.LoadForwarding

/-! `pipe_until_eof` where sends may fail. Each chunk goes out in as many calls as it takes, and
the first call that fails ends the relay. -/
namespace CodingChallenges
namespace LoadRelay

open CText CMemory

/-- What one `read` may put into `buf`. -/
abbrev Chunk := {c : Bytes // c ≠ [] ∧ c.length ≤ 4096}

/-- `dst` with what it has been given, the calls of `send`, the chunks read, and whether a `send`
has failed. -/
structure Relay where
  dst : Bytes
  sends : ℕ
  reads : ℕ
  failed : Bool
  deriving DecidableEq

def start : Relay := ⟨[],0,0,false⟩

/-- What the `k`th `send` returns for the bytes it is offered: none of them, or at least one. -/
def accepted (send : ℕ → Option ℕ) (k : ℕ) (offered : Bytes) : ℤ :=
  match send k with
  | none => -1
  | some m => min (m+1) offered.length

variable (send : ℕ → Option ℕ)

/-- The loop over one chunk, from `off` on. -/
def sendChunk (chunk : Bytes) : ℕ → ℕ → Relay → Except Fault Relay
  | fuel, off, s =>
    if off < chunk.length then
      match fuel with
      | 0 => .error .endless
      | fuel+1 =>
        let w := accepted send s.sends (chunk.drop off)
        if w ≤ 0 then .ok { s with sends := s.sends+1, failed := true }
        else sendChunk chunk fuel (off+w.toNat)
          { s with dst := s.dst ++ (chunk.drop off).take w.toNat, sends := s.sends+1 }
    else .ok s

/-- `read` gives the chunks, and then 0 or -1: either ends the loop. -/
def pipeUntilEof : List Chunk → Relay → Except Fault Relay
  | [], s => .ok s
  | c :: cs, s => do
    let s ← sendChunk send c.val c.val.length 0 { s with reads := s.reads+1 }
    if s.failed then .ok s else pipeUntilEof cs s

def bytes (cs : List Chunk) : Bytes := cs.flatMap Subtype.val

/-- The relay against the bytes it was given so far. -/
structure Sound (given : Bytes) (s : Relay) : Prop where
  front : s.dst <+: given
  whole : s.failed = false → s.dst = given
  cause : s.failed = true → ∃ k < s.sends, send k = none

variable {send}

theorem sound_of_eq {given : Bytes} {s : Relay} (h : s.dst = given) (hs : s.failed = false) :
    Sound send given s := ⟨by rw [h],fun _ => h,by simp [hs]⟩

section
variable {chunk : Bytes} {fuel off m : ℕ} {s : Relay}

theorem sendChunk_done (h : ¬ off < chunk.length) : sendChunk send chunk fuel off s = .ok s := by
  rw [sendChunk.eq_def]
  exact if_neg h

theorem sendChunk_failed (h : off < chunk.length) (hk : send s.sends = none) :
    sendChunk send chunk (fuel+1) off s = .ok { s with sends := s.sends+1, failed := true } := by
  rw [sendChunk,if_pos h]
  simp [accepted,hk]

theorem sendChunk_next (h : off < chunk.length) (hk : send s.sends = some m) :
    sendChunk send chunk (fuel+1) off s = sendChunk send chunk fuel (off+min (m+1) (chunk.length-off))
      { s with dst := s.dst ++ (chunk.drop off).take (min (m+1) (chunk.length-off)), sends := s.sends+1 } := by
  have hw : accepted send s.sends (chunk.drop off) = (min (m+1) (chunk.length-off) : ℕ) := by
    rw [accepted,hk,List.length_drop]
    push_cast
    rfl
  rw [sendChunk,if_pos h]
  simp only [hw,Int.toNat_natCast]
  rw [if_neg (by omega)]

/-- A chunk of which `off` bytes are out is sent to its end, or to a call that fails. -/
theorem sendChunk_sound {given : Bytes} (hoff : off ≤ chunk.length) (hf : chunk.length-off ≤ fuel)
    (hdst : s.dst = given ++ chunk.take off) (hs : s.failed = false) :
    ∃ s', sendChunk send chunk fuel off s = .ok s' ∧ Sound send (given ++ chunk) s' ∧ s'.reads = s.reads := by
  induction fuel generalizing off s with
  | zero =>
    have heq : off = chunk.length := by omega
    rw [heq,List.take_length] at hdst
    exact ⟨s,sendChunk_done (by omega),sound_of_eq hdst hs,rfl⟩
  | succ fuel ih =>
    by_cases hlt : off < chunk.length
    · cases hk : send s.sends with
      | none =>
        refine ⟨_,sendChunk_failed hlt hk,⟨?_,by simp,fun _ => ⟨s.sends,Nat.lt_succ_self _,hk⟩⟩,rfl⟩
        rw [hdst]
        exact (List.prefix_append_right_inj given).mpr (List.take_prefix off chunk)
      | some m =>
        let w := min (m+1) (chunk.length-off)
        have hnext : s.dst ++ (chunk.drop off).take w = given ++ chunk.take (off+w) := by
          rw [hdst,List.append_assoc,List.take_add]
        rw [sendChunk_next hlt hk]
        exact @ih (off+w) { s with dst := s.dst ++ (chunk.drop off).take w, sends := s.sends+1 }
          (by omega) (by omega) hnext hs
    · have heq : off = chunk.length := by omega
      rw [heq,List.take_length] at hdst
      exact ⟨s,sendChunk_done hlt,sound_of_eq hdst hs,rfl⟩

end

/-- The relay goes on from what it has been given, over as many chunks as it reads. -/
theorem pipeUntilEof_sound (send : ℕ → Option ℕ) (cs : List Chunk) {given : Bytes} {s : Relay}
    (hdst : s.dst = given) (hs : s.failed = false) :
    ∃ s' n, pipeUntilEof send cs s = .ok s' ∧ s'.reads = s.reads+n ∧
      Sound send (given ++ bytes (cs.take n)) s' ∧ (s'.failed = false → n = cs.length) := by
  induction cs generalizing given s with
  | nil => exact ⟨s,0,rfl,rfl,sound_of_eq (hdst.trans (List.append_nil given).symm) hs,fun _ => rfl⟩
  | cons c cs ih =>
    obtain ⟨s₁,hok,hsound,hreads⟩ := @sendChunk_sound send c.val c.val.length 0
      { s with reads := s.reads+1 } given (Nat.zero_le _) (Nat.sub_le _ _)
      (hdst.trans (List.append_nil given).symm) hs
    cases hf : s₁.failed with
    | true =>
      refine ⟨s₁,1,?_,hreads,?_,by simp [hf]⟩
      · simp only [pipeUntilEof,hok,hf,bind,Except.bind,if_true]
      · simpa [bytes] using hsound
    | false =>
      obtain ⟨s',n,hrest,hn,hsound',hall⟩ := ih (hsound.whole hf) hf
      refine ⟨s',n+1,?_,?_,?_,fun h => by rw [hall h,List.length_cons]⟩
      · simp only [pipeUntilEof,hok,hf,bind,Except.bind]
        exact hrest
      · rw [hn,hreads]
        show s.reads+1+n = s.reads+(n+1)
        omega
      · rw [List.append_assoc] at hsound'
        exact hsound'

theorem whole_of_sends {cs : List Chunk} {n : ℕ} {s : Relay} (hsound : Sound send (bytes (cs.take n)) s)
    (hall : s.failed = false → n = cs.length) (hgood : ∀ k < s.sends, send k ≠ none) : s.dst = bytes cs := by
  have hf : s.failed = false := by
    by_contra hf
    obtain ⟨k,hk,hnone⟩ := hsound.cause (by simpa using hf)
    exact hgood k hk hnone
  rw [hsound.whole hf,hall hf,List.take_length]

/-- What is delivered is a prefix of the chunks read, and all chunks where no `send` fails. -/
theorem pipeUntilEof_delivers (send : ℕ → Option ℕ) (cs : List Chunk) :
    ∃ s, pipeUntilEof send cs start = .ok s ∧ s.dst <+: bytes (cs.take s.reads) ∧
      ((∀ k < s.sends, send k ≠ none) → s.dst = bytes cs) := by
  have hstart : start.dst = [] := rfl
  obtain ⟨s,n,hok,hn,hsound,hall⟩ := pipeUntilEof_sound send cs hstart rfl
  rw [List.nil_append] at hsound
  have hreads : s.reads = n := hn.trans (Nat.zero_add n)
  exact ⟨s,hok,hreads ▸ hsound.front,whole_of_sends hsound hall⟩

/-- Two segments, sends of two bytes, and one that fails in the second segment. -/
example : pipeUntilEof (fun k => if k = 2 then none else some 1)
    [⟨ascii "abc",by decide,by decide⟩,⟨ascii "de",by decide,by decide⟩] start =
      .ok ⟨ascii "abc",3,2,true⟩ := by decide

theorem pipeUntilEof_forwarding (moves : ℕ → ℕ) (cs : List Chunk) {fuel : ℕ} (hf : (bytes cs).length < fuel)
    (k : ℕ) : ∃ s, pipeUntilEof (fun k => some (moves k)) cs start = .ok s ∧
      LoadForwarding.pipeUntilEof moves fuel k (cs.map Subtype.val) [] = .ok s.dst := by
  have hstart : start.dst = [] := rfl
  obtain ⟨s,n,hok,_,hsound,hall⟩ := pipeUntilEof_sound (fun k => some (moves k)) cs hstart rfl
  rw [List.nil_append] at hsound
  have hflat : bytes cs = (cs.map Subtype.val).flatten := List.flatMap_def ..
  have hseg : LoadForwarding.Segments (cs.map Subtype.val) := by
    intro b hb
    obtain ⟨c,_,rfl⟩ := List.mem_map.mp hb
    exact c.property.1
  refine ⟨s,hok,?_⟩
  rw [LoadForwarding.pipeUntilEof_eq moves hseg (hflat ▸ hf) k [],List.nil_append,← hflat,
    whole_of_sends hsound hall fun k _ => nofun]

end LoadRelay
end CodingChallenges
