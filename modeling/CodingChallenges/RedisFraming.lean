import CodingChallenges.RedisSession

/-! The loop of one connection (`per_client`). Each round runs `exec_command` on what
one `read` delivered; the buffer keeps older bytes behind the terminator, and nothing
else is kept between rounds. -/
namespace CodingChallenges
namespace RedisFraming

open CText CMemory RedisDb RedisResp RedisParser RedisServer RedisCommands RedisReplies RedisSession Runs

abbrev BUFFER_SIZE : ℕ := 1024

/-- What a `read` of at most `sizeof(buffer) - 1` bytes delivers. -/
structure Chunk where
  bytes : Bytes
  fits : bytes.length < BUFFER_SIZE

structure Buffer where
  bytes : Bytes
  size : bytes.length = BUFFER_SIZE

/-- The bytes read and `buffer[n] = '\0'`; the rest stays. -/
def Buffer.fill (buffer : Buffer) (chunk : Chunk) : Buffer where
  bytes := chunk.bytes ++ 0 :: buffer.bytes.drop (chunk.bytes.length+1)
  size := by
    have h := chunk.fits
    simp only [List.length_append,List.length_cons,List.length_drop,buffer.size]
    omega

/-- One round of the loop, at the reading of the clock its call makes. -/
def perClient (c : HashTab × Buffer) (r : UInt64 × Chunk) : Except Fault ((HashTab × Buffer) × CString) := do
  let buffer := c.2.fill r.2
  let q ← execCommand c.1 r.1 buffer.bytes
  .ok ((q.1,buffer),q.2)

def execWhole (db : HashTab) (r : UInt64 × Chunk) : Except Fault (HashTab × CString) :=
  execCommand db r.1 (r.2.bytes ++ [0])

/-- An array of bulk strings, or a simple string in one line. -/
inductive WellFormedRequest : Bytes → Prop
  | array (args : List Bytes) : WellFormedRequest (encode args)
  | line {word : CString} (cr : 13 ∉ word.bytes) (lf : 10 ∉ word.bytes) :
      WellFormedRequest (43 :: (word.bytes ++ crlf))

theorem length_flatMap_encodeBulk (args : List Bytes) :
    args.length ≤ (args.flatMap encodeBulk).length ∧
      ∀ a ∈ args, a.length ≤ (args.flatMap encodeBulk).length := by
  induction args with
  | nil => simp
  | cons a args ih =>
    have hl : (encodeBulk a).length = a.length+(decimalNat a.length).length+5 := by
      simp only [encodeBulk,crlf,List.length_cons,List.length_append,List.length_nil]
      omega
    simp only [List.flatMap_cons,List.length_append,List.length_cons,hl]
    refine ⟨by omega,fun b hb => ?_⟩
    rcases List.mem_cons.mp hb with rfl | hb
    · omega
    · have hb' := ih.2 b hb
      omega

theorem fits_of_size {args : List Bytes} (h : (encode args).length < BUFFER_SIZE) :
    CountFits args ∧ LengthsFit args := by
  have hl := length_flatMap_encodeBulk args
  have he : (args.flatMap encodeBulk).length < 1024 := by
    simp only [encode,BUFFER_SIZE,List.length_cons,List.length_append] at h
    omega
  constructor
  · simp only [CountFits,INT_MAX]
    omega
  · intro a ha
    have hb := hl.2 a ha
    simp only [INT_MAX]
    omega

/-- What lies behind the terminator makes no difference to a well-formed request. -/
theorem parse_wellFormed {m : Bytes} (hm : WellFormedRequest m) (hl : m.length < BUFFER_SIZE)
    (rest : Bytes) : parse (m ++ 0 :: rest) = parse (m ++ [0]) := by
  cases hm with
  | array args =>
    obtain ⟨hc,ha⟩ := fits_of_size hl
    rw [parse_encode_cut args hc ha (by simp),parse_encode_cut args hc ha (by simp)]
  | @line word cr lf =>
    have hn : 0 ∉ word.bytes ++ crlf := by simp [crlf,word.nul_free]
    have hs : (⟨43 :: (word.bytes ++ crlf),by simpa using hn⟩ : CString).bytes =
      43 :: (⟨word.bytes ++ crlf,hn⟩ : CString).bytes := rfl
    exact (parse_first hs rest).trans (parse_first hs []).symm

/-- A round on a whole request does what `exec_command` does on the request alone. -/
theorem perClient_step {r : UInt64 × Chunk} (hr : WellFormedRequest r.2.bytes) (c : HashTab × Buffer) :
    (perClient c r).map (fun q => (q.1.1,q.2)) = execWhole c.1 r := by
  have hp := parse_wellFormed hr r.2.fits (c.2.bytes.drop (r.2.bytes.length+1))
  have he : execCommand c.1 r.1 (c.2.fill r.2).bytes = execWhole c.1 r := by
    simp only [execWhole,execCommand,Buffer.fill,hp]
  rw [← he]
  simp only [perClient,bind,Except.bind]
  cases execCommand c.1 r.1 (c.2.fill r.2).bytes <;> rfl

/-- The replies do not depend on how the stream of requests is cut into reads. -/
def SplitsFreely : Prop :=
  ∀ (clock : UInt64) (db : HashTab) (buffer : Buffer) (requests chunks : List Chunk),
    (∀ m ∈ requests, WellFormedRequest m.bytes) → (∀ c ∈ chunks, c.bytes ≠ []) →
    (chunks.map Chunk.bytes).flatten = (requests.map Chunk.bytes).flatten →
    (run perClient (db,buffer) (chunks.map fun c => (clock,c))).map Prod.snd =
      (run execWhole db (requests.map fun m => (clock,m))).map Prod.snd

/-- When each read delivers one whole request, every request is executed once and in
order, with the store and the replies it has on its own. -/
theorem perClient_whole (db : HashTab) (buffer : Buffer) (requests : List (UInt64 × Chunk))
    (hr : ∀ r ∈ requests, WellFormedRequest r.2.bytes) :
    (run perClient (db,buffer) requests).map (fun q => (q.1.1,q.2)) = run execWhole db requests := by
  have hstep : ∀ c : HashTab × Buffer, ∀ r ∈ requests,
      (perClient c r).map (fun q => (q.1.1,q.2)) = execWhole c.1 (id r) :=
    fun c r hmem => perClient_step (hr r hmem) c
  simpa using run_map Prod.fst id requests hstep (db,buffer)

def emptyBuffer : Buffer := ⟨List.replicate 1024 0,List.length_replicate⟩

def pingRequest : Chunk := ⟨encode [ascii "PING"],by decide⟩

def pingLine : Chunk := ⟨ascii "+ping\r\n",by decide⟩

theorem perClient_whole_ping :
    (run perClient (emptyTab,emptyBuffer) [(0,pingRequest),(1,pingLine)]).map (fun q => (q.1.1,q.2)) =
      .ok (emptyTab,[respSimple (some (lit "PONG")),respSimple (some (lit "PONG"))]) :=
  (perClient_whole emptyTab emptyBuffer [(0,pingRequest),(1,pingLine)] (by
    have hline : WellFormedRequest (43 :: ((lit "ping").bytes ++ crlf)) := .line (by decide) (by decide)
    intro r hr
    simp only [List.mem_cons,List.not_mem_nil,or_false] at hr
    rcases hr with rfl | rfl
    · exact .array [ascii "PING"]
    · exact hline)).trans rfl

/-- Two requests in one read get one reply; one request in two reads gets an error reply
for its first half, and its second half ends the process. -/
theorem segmentation_matters :
    ¬ SplitsFreely ∧
    (run perClient (emptyTab,emptyBuffer)
        [(0,⟨encode [ascii "PING"] ++ encode [ascii "PING"],by decide⟩)]).map Prod.snd =
      .ok [respSimple (some (lit "PONG"))] ∧
    (run perClient (emptyTab,emptyBuffer) [(0,⟨ascii "*1\r\n$4\r\nPI",by decide⟩)]).map Prod.snd =
      .ok [respError (some unknownCommand)] ∧
    (run perClient (emptyTab,emptyBuffer) [(0,⟨ascii "*1\r\n$4\r\nPI",by decide⟩),
        (0,⟨ascii "NG\r\n",by decide⟩)]).map Prod.snd = .error (.exit 1) := by
  have hone : (run perClient (emptyTab,emptyBuffer)
      [(0,⟨encode [ascii "PING"] ++ encode [ascii "PING"],by decide⟩)]).map Prod.snd =
        .ok [respSimple (some (lit "PONG"))] := by decide +kernel
  refine ⟨?_,hone,by decide +kernel,by decide +kernel⟩
  intro h
  have hs := h 0 emptyTab emptyBuffer [pingRequest,pingRequest]
    [⟨encode [ascii "PING"] ++ encode [ascii "PING"],by decide⟩] ?_ ?_ rfl
  · have htwo : (run execWhole emptyTab [(0,pingRequest),(0,pingRequest)]).map Prod.snd =
        .ok [respSimple (some (lit "PONG")),respSimple (some (lit "PONG"))] := rfl
    have he := hone.symm.trans (hs.trans htwo)
    simp at he
  · intro m hm
    simp only [List.mem_cons,List.not_mem_nil,or_false,or_self] at hm
    subst hm
    exact .array [ascii "PING"]
  · intro c hc
    simp only [List.mem_cons,List.not_mem_nil,or_false] at hc
    subst hc
    decide

end RedisFraming
end CodingChallenges
