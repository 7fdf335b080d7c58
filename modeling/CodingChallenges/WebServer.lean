import CodingChallenges.CMemory
import CodingChallenges.CStream
import CodingChallenges.FieldScan

/-! The web server. A connection is the bytes its client sends until it stops; of these the lines
up to the first empty one are read, and the first one is taken apart. A request without one leaves
`path` as it was declared, and one that cannot be taken apart ends the server. -/
namespace CodingChallenges
namespace WebServer

open CText CMemory CStream FieldScan

/-- `sscanf(line, "%15s %255s %15s", ..)`, where it stores all three. -/
def sscanf (line : CString) : Option (Bytes × Bytes × Bytes) :=
  match scanFields isSpace [15,255,15] line.bytes with
  | [method,path,version] => some (method,path,version)
  | _ => none

/-- The loop over the lines, with `path` and `first_line`. -/
def readLines : List CString → Option Bytes → Bool → Except Fault (Option Bytes)
  | [], path, _ => .ok path
  | line :: lines, path, first_line =>
    if line = lit "\r\n" then .ok path
    else if first_line then
      match sscanf line with
      | none => .error (.exit 1)
      | some r => readLines lines (some r.2.1) false
    else readLines lines path false

def snprintf (size : ℕ) (text : Bytes) : Bytes := text.take (size-1)

def response (path : Bytes) : Bytes :=
  let body := snprintf 1024 (ascii "Requested path: " ++ path)
  snprintf 2048 (ascii "HTTP/1.1 200 OK\r\nContent-Type: text/plain\r\nContent-Length: " ++
    decimalNat body.length ++ ascii "\r\n\r\n" ++ body)

/-- One connection: what its client is sent. -/
def serve (input : Bytes) : Except Fault Bytes := do
  let path ← readLines ((chunks 1023 input).map CString.ofBuffer) none true
  match path with
  | none => .error .uninitialised
  | some path => .ok (response path)

/-- A connection that `accept` or `fdopen` does not deliver, or one with the bytes of its client and those
that `write` takes of the response. Where the client is gone by then, `write` raises SIGPIPE. -/
inductive Connection
  | unread
  | opened (input : Bytes) (write : Option ℕ)

/-- What ends the server. -/
inductive Ending
  | fault (f : Fault)
  | sigpipe

def handle : Connection → Except Ending Bytes
  | .unread => .ok []
  | .opened input write =>
    match serve input with
    | .error f => .error (.fault f)
    | .ok response =>
      match write with
      | none => .error .sigpipe
      | some k => .ok (response.take k)

/-- The connections in order: what is sent, up to the one that ends the server. -/
def server : List Connection → List Bytes × Option Ending
  | [] => ([],none)
  | c :: cs =>
    match handle c with
    | .error e => ([],some e)
    | .ok sent => (sent :: (server cs).1,(server cs).2)

def firstLine (input : Bytes) : Option CString := (chunks 1023 input).head?.map CString.ofBuffer

def Blank (input : Bytes) : Prop := firstLine input = none ∨ firstLine input = some (lit "\r\n")

/-- The fields of the first line: a word that is too long for one goes on in the next. -/
def requestFields (input : Bytes) : List Bytes :=
  fields [15,255,15] (words isSpace ((firstLine input).map CString.bytes |>.getD []))

def Answered (input : Bytes) : Prop := ¬ Blank input ∧ (requestFields input).length = 3

instance (input : Bytes) : Decidable (Blank input) := inferInstanceAs (Decidable (_ ∨ _))
instance (input : Bytes) : Decidable (Answered input) := inferInstanceAs (Decidable (_ ∧ _))

def answer (path : Bytes) : Bytes :=
  ascii "HTTP/1.1 200 OK\r\nContent-Type: text/plain\r\nContent-Length: " ++ decimalNat (16+path.length) ++
    ascii "\r\n\r\nRequested path: " ++ path

theorem readLines_rest (lines : List CString) (path : Option Bytes) : readLines lines path false = .ok path := by
  induction lines with
  | nil => rfl
  | cons line lines ih =>
    rw [readLines]
    by_cases hl : line = lit "\r\n"
    · rw [if_pos hl]
    · rw [if_neg hl]
      exact ih

theorem sscanf_eq (line : CString) {m p v : Bytes} (h : fields [15,255,15] (words isSpace line.bytes) = [m,p,v]) :
    sscanf line = some (m,p,v) := by
  rw [sscanf,scanFields_eq,h]

theorem sscanf_none (line : CString) (h : (fields [15,255,15] (words isSpace line.bytes)).length ≠ 3) :
    sscanf line = none := by
  rw [sscanf,scanFields_eq]
  split
  · rename_i hf
    rw [hf] at h
    exact absurd rfl h
  · rfl

theorem length_decimal (n : ℕ) (h : n < 272) : (decimalNat n).length ≤ 3 := by
  have hall : ∀ n < 272, (decimalNat n).length ≤ 3 := by decide +kernel
  exact hall n h

theorem response_eq {path : Bytes} (h : path.length ≤ 255) : response path = answer path := by
  have hbody : snprintf 1024 (ascii "Requested path: " ++ path) = ascii "Requested path: " ++ path := by
    refine List.take_of_length_le ?_
    rw [List.length_append,show (ascii "Requested path: ").length = 16 from rfl]
    omega
  have hlen : (ascii "Requested path: " ++ path).length = 16+path.length := by
    rw [List.length_append]
    rfl
  have hdec := length_decimal (16+path.length) (by omega)
  rw [response]
  simp only [hbody,hlen]
  refine (List.take_of_length_le ?_).trans ?_
  · simp only [List.length_append,hlen]
    rw [show (ascii "HTTP/1.1 200 OK\r\nContent-Type: text/plain\r\nContent-Length: ").length = 59 from rfl,
      show (ascii "\r\n\r\n").length = 4 from rfl]
    omega
  · rw [answer,show ascii "\r\n\r\nRequested path: " = ascii "\r\n\r\n" ++ ascii "Requested path: " from rfl]
    simp only [List.append_assoc]

/-- What becomes of a connection is said by its first line. -/
theorem serve_eq (c : Bytes) :
    serve c = if Answered c then .ok (answer ((requestFields c).getD 1 []))
      else .error (if Blank c then .uninitialised else .exit 1) := by
  cases hc : chunks 1023 c with
  | nil =>
    have hblank : Blank c := Or.inl (by rw [firstLine,hc]; rfl)
    rw [if_neg fun h => h.1 hblank,if_pos hblank,serve,hc]
    rfl
  | cons l ls =>
    have hfirst : firstLine c = some (CString.ofBuffer l) := by rw [firstLine,hc]; rfl
    have hfields : requestFields c = fields [15,255,15] (words isSpace (CString.ofBuffer l).bytes) := by
      rw [requestFields,hfirst]
      rfl
    rw [serve,hc,List.map_cons,readLines]
    by_cases hl : CString.ofBuffer l = lit "\r\n"
    · have hblank : Blank c := Or.inr (by rw [hfirst,hl])
      rw [if_pos hl,if_neg fun h => h.1 hblank,if_pos hblank]
      rfl
    · have hblank : ¬ Blank c := by
        rintro (h | h)
        · rw [hfirst] at h
          cases h
        · exact hl (Option.some.inj (hfirst.symm.trans h))
      rw [if_neg hl,if_pos rfl,if_neg hblank]
      by_cases hthree : (requestFields c).length = 3
      · obtain ⟨m,p,v,hmpv⟩ := List.length_eq_three.mp hthree
        have hp : p.length ≤ 255 := length_field (i:=1) rfl (by rw [← hfields,hmpv]; rfl)
        rw [if_pos ⟨hblank,hthree⟩,sscanf_eq _ (hfields.symm.trans hmpv),hmpv]
        dsimp only
        rw [readLines_rest]
        exact congrArg Except.ok (response_eq hp)
      · rw [if_neg fun h => hthree h.2,sscanf_none _ (hfields ▸ hthree)]
        rfl

def ending : Connection → Option Ending
  | .unread => none
  | .opened input write =>
    if Answered input then (if write = none then some .sigpipe else none)
    else some (.fault (if Blank input then .uninitialised else .exit 1))

def sent : Connection → Bytes
  | .unread => []
  | .opened input write => (answer ((requestFields input).getD 1 [])).take (write.getD 0)

theorem handle_eq (c : Connection) :
    handle c = match ending c with
      | none => .ok (sent c)
      | some e => .error e := by
  cases c with
  | unread => rfl
  | opened input write =>
    simp only [handle,serve_eq,ending]
    by_cases ha : Answered input
    · cases write <;> simp [ha,sent]
    · simp [ha]

/-- The server answers one connection after the other, each with the path field of its own request line,
up to the first that ends it. -/
theorem server_run (cs : List Connection) :
    server cs = ((cs.takeWhile fun c => (ending c).isNone).map sent,cs.findSome? ending) := by
  induction cs with
  | nil => rfl
  | cons c cs ih =>
    rw [server,handle_eq,List.takeWhile_cons,List.findSome?_cons]
    cases hc : ending c with
    | none => simp [ih]
    | some e => simp

structure Token (k : ℕ) (w : Bytes) : Prop where
  ne : w ≠ []
  short : w.length ≤ k
  space : ∀ c ∈ w, isSpace c = false
  nul : 0 ∉ w

def requestLine (method path version : Bytes) : Bytes := method ++ 32 :: (path ++ 32 :: (version ++ [13,10]))

variable {method path version : Bytes}

theorem words_requestLine (hm : Token 15 method) (hp : Token 255 path) (hv : Token 15 version) :
    words isSpace (requestLine method path version) = [method,path,version] := by
  have hend : words isSpace [13,10] = [] := by decide
  have h32 (s : Bytes) : words isSpace (32 :: s) = words isSpace s := words_sep (by decide) s
  rw [requestLine,words_append hm.space hm.ne (by simp [isSpace]),h32,
    words_append hp.space hp.ne (by simp [isSpace]),h32,words_append hv.space hv.ne (by simp [isSpace]),hend]

theorem firstLine_request (hm : Token 15 method) (hp : Token 255 path) (hv : Token 15 version) (rest : Bytes) :
    (firstLine (requestLine method path version ++ rest)).map CString.bytes =
      some (requestLine method path version) := by
  let front := method ++ 32 :: (path ++ 32 :: (version ++ [13]))
  have hfront : requestLine method path version = front ++ [10] := by simp [requestLine,front]
  have hlf : ∀ {k : ℕ} {w : Bytes}, Token k w → 10 ∉ w := by
    intro k w hw hmem
    exact absurd (hw.space 10 hmem) (by decide)
  have h10 : 10 ∉ front := by simp [front,hlf hm,hlf hp,hlf hv]
  have h0 : 0 ∉ front ++ [10] := by simp [front,hm.nul,hp.nul,hv.nul]
  have hshort : front.length ≤ 1022 := by
    have h₁ := hm.short
    have h₂ := hp.short
    have h₃ := hv.short
    simp only [front,List.length_append,List.length_cons,List.length_nil]
    omega
  have hchunk : chunks 1023 (front ++ [10]) = [front ++ [10]] :=
    chunks_piece h10 (Nat.lt_succ_of_le hshort) (Or.inl rfl)
  rw [hfront,firstLine,chunks_append (by decide) (settled_lf 1023 front),hchunk]
  exact congrArg some (CString.bytes_ofBuffer_of_notMem h0)

/-- A request whose line is three words that fit their buffers is sent its path, whatever follows
the line. -/
theorem path_echoed (hm : Token 15 method) (hp : Token 255 path) (hv : Token 15 version) (rest : Bytes) :
    serve (requestLine method path version ++ rest) = .ok (answer path) := by
  have hfirst := firstLine_request hm hp hv rest
  have hfields : requestFields (requestLine method path version ++ rest) = [method,path,version] := by
    rw [requestFields,hfirst,Option.getD_some,words_requestLine hm hp hv]
    exact fields_of_short (.cons hm.short (.cons hp.short (.cons hv.short .nil))) []
  have hblank : ¬ Blank (requestLine method path version ++ rest) := by
    rintro (h | h)
    · rw [h] at hfirst
      cases hfirst
    · rw [h] at hfirst
      have hlen := congrArg List.length (Option.some.inj hfirst)
      have hpos := List.length_pos_of_ne_nil hm.ne
      simp [lit,ascii,requestLine] at hlen
      omega
  rw [serve_eq,if_pos ⟨hblank,by rw [hfields]; rfl⟩,hfields]
  rfl

theorem path_echoed_index :
    Token 255 (ascii "/index.html") ∧
      serve (requestLine (ascii "GET") (ascii "/index.html") (ascii "HTTP/1.1") ++ ascii "Host: x\r\n\r\n") =
        .ok (answer (ascii "/index.html")) := by
  have hp : Token 255 (ascii "/index.html") := ⟨by decide,by decide,by decide +kernel,by decide⟩
  have hm : Token 15 (ascii "GET") := ⟨by decide,by decide,by decide +kernel,by decide⟩
  have hv : Token 15 (ascii "HTTP/1.1") := ⟨by decide,by decide,by decide +kernel,by decide⟩
  exact ⟨hp,path_echoed hm hp hv _⟩

end WebServer
end CodingChallenges
