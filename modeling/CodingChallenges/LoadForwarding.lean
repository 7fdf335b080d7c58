import CodingChallenges.CText
import CodingChallenges.LoadBalancer

/-! One client of the load balancer (`handle`, `pipe_until_eof`). A connection is the segments
in which its bytes arrive: `read` takes what is there, up to its buffer, and `send` moves some
bytes of what it is given. Sends do not fail; `moves` says how far each of them gets. -/
namespace CodingChallenges
namespace LoadForwarding

open CText CMemory LoadBalancer

/-- The bytes of a `read` into `size` bytes, none at the end, and what is left to arrive. -/
def readBytes (size : ℕ) : List Bytes → Bytes × List Bytes
  | [] => ([],[])
  | s :: rest => if s.length ≤ size then (s,rest) else (s.take size,s.drop size :: rest)

variable (moves : ℕ → ℕ)

/-- The loop around `send`, whose call number `k` moves a byte at least: the bytes that `dst` has
got, and the number of the next call. -/
def sendLoop : ℕ → ℕ → Bytes → Bytes → Except Fault (Bytes × ℕ)
  | _, k, [], dst => .ok (dst,k)
  | 0, _, _ :: _, _ => .error .endless
  | fuel+1, k, c :: rest, dst =>
    let w := min (moves k+1) (c :: rest).length
    sendLoop fuel (k+1) ((c :: rest).drop w) (dst ++ (c :: rest).take w)

def pipeUntilEof : ℕ → ℕ → List Bytes → Bytes → Except Fault Bytes
  | 0, _, _, _ => .error .endless
  | fuel+1, k, src, dst => do
    let r := readBytes 4096 src
    if r.1 = [] then .ok dst
    else
      let s ← sendLoop moves r.1.length k r.1 dst
      pipeUntilEof fuel s.2 r.2 s.1

def badGateway : Bytes :=
  ascii "HTTP/1.1 502 Bad Gateway\r\nContent-Length: 16\r\nConnection: close\r\n\r\n502 Bad Gateway\n"

/-- The backend that was dialled, with what it was sent, and what the client was sent. -/
structure Served where
  backend : Option (ℕ × Bytes)
  client : Bytes
  deriving DecidableEq

variable {n : ℕ}

/-- `handle`: the method and path are read for the log only. -/
def handle (b : Balancer n) (dial : ℕ → Bool) (request reply : List Bytes) :
    Except Fault (Balancer n × Served) :=
  let r := readBytes 8191 request
  if r.1 = [] then .ok (b,⟨none,[]⟩)
  else do
    let p ← pickHealthy b
    match p.2 with
    | none => .ok (p.1,⟨none,badGateway.take (moves 0+1)⟩)
    | some idx =>
      if dial idx then do
        let s ← sendLoop moves r.1.length 0 r.1 []
        let client ← pipeUntilEof moves (reply.flatten.length+1) s.2 reply []
        .ok (p.1,⟨some (idx,s.1),client⟩)
      else .ok (p.1,⟨none,badGateway.take (moves 0+1)⟩)

theorem sendLoop_eq {fuel : ℕ} {rest : Bytes} (hf : rest.length ≤ fuel) (k : ℕ) (dst : Bytes) :
    ∃ k', sendLoop moves fuel k rest dst = .ok (dst ++ rest,k') := by
  induction fuel generalizing k rest dst with
  | zero =>
    obtain rfl := List.length_eq_zero_iff.mp (Nat.le_zero.mp hf)
    exact ⟨k,by rw [List.append_nil]; rfl⟩
  | succ fuel ih =>
    cases rest with
    | nil => exact ⟨k,by rw [List.append_nil]; rfl⟩
    | cons c rest =>
      have hd : ((c :: rest).drop (min (moves k+1) (c :: rest).length)).length ≤ fuel := by
        rw [List.length_drop]
        simp only [List.length_cons] at hf ⊢
        omega
      obtain ⟨k',hk⟩ := ih hd (k+1) (dst ++ (c :: rest).take (min (moves k+1) (c :: rest).length))
      rw [List.append_assoc,List.take_append_drop] at hk
      exact ⟨k',hk⟩

/-- No segment is empty: an empty `read` would be the end. -/
def Segments (src : List Bytes) : Prop := ∀ s ∈ src, s ≠ []

theorem readBytes_spec {size : ℕ} (hs : 0 < size) {src : List Bytes} (h : Segments src) :
    (readBytes size src).1 ++ (readBytes size src).2.flatten = src.flatten ∧
      Segments (readBytes size src).2 ∧ ((readBytes size src).1 = [] → src = []) := by
  cases src with
  | nil => exact ⟨rfl,h,fun _ => rfl⟩
  | cons s rest =>
    have hrest : Segments rest := fun x hx => h x (by simp [hx])
    have hne : s ≠ [] := h s (by simp)
    rw [readBytes]
    split_ifs with hl
    · exact ⟨rfl,hrest,fun h0 => (hne h0).elim⟩
    · have hdrop : s.drop size ≠ [] := by
        rw [Ne,List.drop_eq_nil_iff]
        exact hl
      refine ⟨?_,?_,fun h0 => ?_⟩
      · rw [List.flatten_cons,← List.append_assoc,List.take_append_drop,List.flatten_cons]
      · intro x hx
        rcases List.mem_cons.mp hx with rfl | hx
        · exact hdrop
        · exact hrest x hx
      · rcases List.take_eq_nil_iff.mp h0 with h0 | h0
        · omega
        · exact (hne h0).elim

/-- Until the end of the stream everything is copied, in whatever segments it arrives. -/
theorem pipeUntilEof_eq {fuel : ℕ} {src : List Bytes} (h : Segments src) (hf : src.flatten.length < fuel)
    (k : ℕ) (dst : Bytes) : pipeUntilEof moves fuel k src dst = .ok (dst ++ src.flatten) := by
  induction fuel generalizing k src dst with
  | zero => exact absurd hf (Nat.not_lt_zero _)
  | succ fuel ih =>
    obtain ⟨happ,hrest,hend⟩ := readBytes_spec (by decide : 0 < 4096) h
    rw [pipeUntilEof]
    by_cases h0 : (readBytes 4096 src).1 = []
    · obtain rfl := hend h0
      rw [List.flatten_nil,List.append_nil]
      rfl
    · obtain ⟨k',hk⟩ := sendLoop_eq moves (le_refl (readBytes 4096 src).1.length) k dst
      have hpos := List.length_pos_of_ne_nil h0
      have hlen := congrArg List.length happ
      rw [List.length_append] at hlen
      have hnext := ih hrest (by omega) k' (dst ++ (readBytes 4096 src).1)
      rw [List.append_assoc,happ] at hnext
      simp only [if_neg h0,hk,bind,Except.bind]
      exact hnext

/-- A backend that is picked and dialled is sent the first `read` of the request. -/
theorem handle_eq {b b' : Balancer n} {idx : ℕ} (hpick : pickHealthy b = .ok (b',some idx))
    {dial : ℕ → Bool} (hdial : dial idx = true) {request reply : List Bytes}
    (hne : (readBytes 8191 request).1 ≠ []) (hreply : Segments reply) :
    handle moves b dial request reply =
      .ok (b',⟨some (idx,(readBytes 8191 request).1),reply.flatten⟩) := by
  obtain ⟨k,hk⟩ := sendLoop_eq moves (le_refl (readBytes 8191 request).1.length) 0 []
  have hclient := pipeUntilEof_eq moves hreply (Nat.lt_succ_self _) k []
  simp only [handle,if_neg hne,hpick,hdial,if_pos,hk,hclient,bind,Except.bind,List.nil_append]

def Splits (q : Bytes) (request : List Bytes) : Prop := request.flatten = q ∧ Segments request

/-- The first `read` is the whole request where it arrives in one segment that fits the buffer. -/
theorem readBytes_eq_iff {size : ℕ} (hs : 0 < size) {q : Bytes} (hq : q ≠ []) {request : List Bytes}
    (h : Splits q request) : (readBytes size request).1 = q ↔ request = [q] ∧ q.length ≤ size := by
  constructor
  · intro heq
    obtain ⟨happ,hrest,_⟩ := readBytes_spec hs h.2
    rw [heq,h.1] at happ
    have hnil : (readBytes size request).2 = [] := by
      have hflat := List.append_right_eq_self.mp happ
      cases hr : (readBytes size request).2 with
      | nil => rfl
      | cons s rest =>
        rw [hr,List.flatten_cons,List.append_eq_nil_iff] at hflat
        exact (hrest s (by simp [hr]) hflat.1).elim
    cases request with
    | nil => exact (hq heq.symm).elim
    | cons s rest =>
      rw [readBytes] at heq hnil
      split_ifs at heq hnil with hl
      obtain rfl : s = q := heq
      obtain rfl : rest = [] := hnil
      exact ⟨rfl,hl⟩
  · rintro ⟨rfl,hl⟩
    simp [readBytes,hl]

/-- A client with the request `q`, when `handle` picks a healthy backend and dials it. -/
structure Client (n : ℕ) (dial : ℕ → Bool) (q : Bytes) where
  balancer : Balancer n
  after : Balancer n
  idx : ℕ
  picks : pickHealthy balancer = .ok (after,some idx)
  dials : dial idx = true
  request : List Bytes
  splits : Splits q request
  reply : List Bytes
  replies : Segments reply
  moves : ℕ → ℕ

def Client.Sends {dial : ℕ → Bool} {q : Bytes} (c : Client n dial q) (w : Bytes) : Prop :=
  ∃ client, handle c.moves c.balancer dial c.request c.reply = .ok (c.after,⟨some (c.idx,w),client⟩)

theorem sends_iff {dial : ℕ → Bool} {q : Bytes} (hq : q ≠ []) (c : Client n dial q) (w : Bytes) :
    c.Sends w ↔ (readBytes 8191 c.request).1 = w := by
  have hne : (readBytes 8191 c.request).1 ≠ [] := by
    intro h0
    have hend := (readBytes_spec (by decide) c.splits.2).2.2 h0
    refine hq ?_
    rw [← c.splits.1,hend]
    rfl
  have h := handle_eq c.moves c.picks c.dials hne c.replies
  constructor
  · rintro ⟨client,hw⟩
    have hserved := (Prod.mk.inj (Except.ok.inj (h.symm.trans hw))).2
    exact (Prod.mk.inj (Option.some.inj (Served.mk.inj hserved).1)).2
  · rintro rfl
    exact ⟨_,h⟩

/-- Two clients with one request, however it arrives, have it forwarded whole exactly when it
arrives in one segment at both and fits the buffer. -/
theorem forwards_whole_iff {dial : ℕ → Bool} {q : Bytes} (hq : q ≠ []) (c c' : Client n dial q) :
    (∃ w, c.Sends w ∧ c'.Sends w ∧ w = q) ↔
      c.request = [q] ∧ c'.request = [q] ∧ q.length ≤ 8191 := by
  have hc := readBytes_eq_iff (by decide : 0 < 8191) hq c.splits
  have hc' := readBytes_eq_iff (by decide : 0 < 8191) hq c'.splits
  constructor
  · rintro ⟨w,hw,hw',rfl⟩
    obtain ⟨h,hl⟩ := hc.mp ((sends_iff hq c w).mp hw)
    exact ⟨h,(hc'.mp ((sends_iff hq c' w).mp hw')).1,hl⟩
  · rintro ⟨h,h',hl⟩
    exact ⟨q,(sends_iff hq c q).mpr (hc.mpr ⟨h,hl⟩),(sends_iff hq c' q).mpr (hc'.mpr ⟨h',hl⟩),rfl⟩

def getRequest : Bytes := ascii "GET / HTTP/1.1\r\n\r\n"

def oneClient (request : List Bytes) (h : Splits getRequest request) :
    Client 1 (fun _ => true) getRequest where
  balancer := ⟨fun _ => true,0⟩
  after := ⟨fun _ => true,0⟩
  idx := 0
  picks := rfl
  dials := rfl
  request := request
  splits := h
  reply := []
  replies := fun s hs => by simp at hs
  moves _ := 0

theorem splits_whole : Splits getRequest [getRequest] := by
  refine ⟨List.flatten_singleton,fun s hs => ?_⟩
  rw [List.mem_singleton.mp hs]
  decide

theorem splits_two : Splits getRequest [getRequest.take 10,getRequest.drop 10] := by
  refine ⟨by simp,fun s hs => ?_⟩
  rcases List.mem_cons.mp hs with rfl | hs
  · decide
  · rw [List.mem_singleton.mp hs]
    decide

theorem forwards_whole_get :
    getRequest ≠ [] ∧
      ((∃ w, (oneClient _ splits_whole).Sends w ∧ (oneClient _ splits_whole).Sends w ∧ w = getRequest) ↔
        [getRequest] = [getRequest] ∧ [getRequest] = [getRequest] ∧ getRequest.length ≤ 8191) :=
  ⟨by decide,forwards_whole_iff (by decide) (oneClient _ splits_whole) (oneClient _ splits_whole)⟩

/-- The second client's backend gets the first ten bytes. -/
theorem forwards_part :
    ¬ ∃ w, (oneClient _ splits_whole).Sends w ∧ (oneClient _ splits_two).Sends w ∧ w = getRequest := by
  rintro ⟨w,_,hw,rfl⟩
  exact absurd ((sends_iff (by decide) _ _).mp hw) (by decide)

end LoadForwarding
end CodingChallenges
