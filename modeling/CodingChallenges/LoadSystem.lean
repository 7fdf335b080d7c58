import CodingChallenges.LoadHealth
import CodingChallenges.LoadRelay

/-! The load balancer as a whole (`main`, `handle`, `health_loop`): a thread for every client, the
health thread, and backends that come and go in between. The threads meet at the lock. A verdict
is taken before the lock is, so it may be out of date when it is stored. Sends may fail, and so
may the thread of a client. -/
namespace CodingChallenges
namespace LoadSystem

open CText CMemory CyclicScan LoadBalancer LoadForwarding LoadHealth Runs

open LoadRelay (Chunk Relay Sound accepted bytes sendChunk)

/-- What a backend answers to a request, in segments, where it can be dialled. -/
abbrev Backend := Option (Bytes → List Bytes)

/-- The thread of a client, with the request it has read. -/
inductive Worker
  | reading (req : Bytes)
  | picked (idx : Option ℕ) (req : Bytes)
  | done

/-- `i` and `up` are those of `health_loop`; `up` is there between the probe and the lock. -/
structure System (n : ℕ) where
  balancer : Balancer n
  backends : Fin n → Backend
  i : Fin n
  up : Option ℕ
  workers : ℕ → Option Worker

/-- How `main` gets on with a connection: `malloc` and `pthread_create` may fail. -/
inductive Spawn
  | created
  | refused
  | noMemory

/-- How the network treats a client: whether its backend is reached, and what the calls of `send` to
the backend and to the client return. -/
structure Net where
  dialled : Bool
  back : ℕ → Option ℕ
  client : ℕ → Option ℕ

inductive Action (n : ℕ)
  | change (i : Fin n) (b : Backend)
  | probe
  | store
  | accept (w : ℕ) (request : List Bytes) (spawn : Spawn)
  | pick (w : ℕ)
  | serve (w : ℕ) (net : Net)

inductive Event (n : ℕ)
  | stored (i : Fin n) (up : Bool)
  | picked (w : ℕ) (idx : Option ℕ)
  | answered (w : ℕ) (served : Served)

/-- A thread that is not there to take the step, or a fault. -/
inductive Halt
  | disabled
  | fault (f : Fault)

theorem length_readBytes_le (size : ℕ) (src : List Bytes) : (readBytes size src).1.length ≤ size := by
  cases src with
  | nil => exact Nat.zero_le _
  | cons s rest =>
    rw [readBytes]
    split_ifs with h
    · exact h
    · exact List.length_take_le _ _

/-- The reads of `pipe_until_eof`, up to the one that gives nothing. -/
def reads : ℕ → List Bytes → List Chunk
  | 0, _ => []
  | fuel+1, src =>
    if h : (readBytes 4096 src).1 = [] then []
    else ⟨(readBytes 4096 src).1,h,length_readBytes_le _ src⟩ :: reads fuel (readBytes 4096 src).2

/-- `send_502`, which sends once. -/
def send502 (net : Net) : Bytes := badGateway.take (accepted net.client 0 badGateway).toNat

variable {n : ℕ} (healthPath : CString) (host : Fin n → CString)

/-- `handle` behind the pick. A request that can not be sent on closes the connection. -/
def forward (idx : ℕ) (backend : Backend) (net : Net) (req : Bytes) : Except Fault Served :=
  match backend with
  | none => .ok ⟨none,send502 net⟩
  | some answer =>
    if net.dialled then do
      let s ← sendChunk net.back req req.length 0 LoadRelay.start
      if s.failed then .ok ⟨some (idx,s.dst),[]⟩
      else do
        let reply := answer s.dst
        let r ← LoadRelay.pipeUntilEof net.client (reads reply.flatten.length reply) LoadRelay.start
        .ok ⟨some (idx,s.dst),r.dst⟩
    else .ok ⟨none,send502 net⟩

def finish (backends : Fin n → Backend) (idx : Option ℕ) (net : Net) (req : Bytes) : Except Fault Served :=
  match idx with
  | none => .ok ⟨none,send502 net⟩
  | some idx => if h : idx < n then forward idx (backends ⟨idx,h⟩) net req else .error .badIndex

/-- `i++`, and from the start again behind the sleep. -/
def next (i : Fin n) : Fin n := ⟨(i.val+1) % n,Nat.mod_lt _ i.pos⟩

def step (s : System n) : Action n → Except Halt (System n × Option (Event n))
  | .change i b => .ok ({ s with backends := Function.update s.backends i b },none)
  | .probe =>
    match s.up with
    | none => .ok ({ s with up := some (checkHealth healthPath (host s.i) (s.backends s.i)) },none)
    | some _ => .error .disabled
  | .store =>
    match s.up with
    | none => .error .disabled
    | some up =>
      .ok ({ s with
        balancer := { s.balancer with healthy := Function.update s.balancer.healthy s.i (up = 1) }
        i := next s.i
        up := none },some (.stored s.i (up = 1)))
  | .accept _ _ .noMemory => .error (.fault .nullPointer)
  | .accept _ _ .refused => .ok (s,none)
  | .accept w request .created =>
    match s.workers w with
    | some _ => .error .disabled
    | none =>
      let r := readBytes 8191 request
      let worker := if r.1 = [] then .done else .reading r.1
      .ok ({ s with workers := Function.update s.workers w (some worker) },none)
  | .pick w =>
    match s.workers w with
    | some (.reading req) =>
      match pickHealthy s.balancer with
      | .error f => .error (.fault f)
      | .ok p =>
        .ok ({ s with
          balancer := p.1
          workers := Function.update s.workers w (some (.picked p.2 req)) },some (.picked w p.2))
    | _ => .error .disabled
  | .serve w net =>
    match s.workers w with
    | some (.picked idx req) =>
      match finish s.backends idx net req with
      | .error f => .error (.fault f)
      | .ok served =>
        .ok ({ s with workers := Function.update s.workers w (some .done) },some (.answered w served))
    | _ => .error .disabled

def start (backends : Fin n → Backend) (i : Fin n) : System n :=
  ⟨⟨fun _ => true,0⟩,backends,i,none,fun _ => none⟩

theorem bytes_reads {fuel : ℕ} {src : List Bytes} (h : Segments src) (hf : src.flatten.length ≤ fuel) :
    bytes (reads fuel src) = src.flatten := by
  induction fuel generalizing src with
  | zero => rw [List.length_eq_zero_iff.mp (Nat.le_zero.mp hf)]; rfl
  | succ fuel ih =>
    obtain ⟨happ,hrest,hend⟩ := readBytes_spec (by decide : 0 < 4096) h
    rw [reads]
    split_ifs with h0
    · rw [hend h0]
      rfl
    · have hpos := List.length_pos_of_ne_nil h0
      have hlen := congrArg List.length happ
      rw [List.length_append] at hlen
      have htail := ih hrest (by omega)
      rw [← happ,← htail]
      rfl

/-- The backend gets the request, or a `send` to it fails and the client gets nothing; else the client gets
the answer from its front, and all of it where no `send` fails. -/
structure Relayed (net : Net) (answer : Bytes → List Bytes) (req sent got : Bytes) : Prop where
  part : sent <+: req
  cut : sent ≠ req → (∃ k, net.back k = none) ∧ got = []
  front : got <+: (answer req).flatten
  whole : (∀ k, net.back k ≠ none) → (∀ k, net.client k ≠ none) → got = (answer req).flatten

theorem forward_relayed (idx : ℕ) {answer : Bytes → List Bytes} {net : Net} (hd : net.dialled = true)
    {req : Bytes} (hseg : Segments (answer req)) :
    ∃ sent got, forward idx (some answer) net req = .ok ⟨some (idx,sent),got⟩ ∧
      Relayed net answer req sent got := by
  have hstart : LoadRelay.start.dst = [] ++ req.take 0 := rfl
  have hfresh : LoadRelay.start.failed = false := rfl
  obtain ⟨s,hok,hsound : Sound net.back _ s,_⟩ :=
    LoadRelay.sendChunk_sound (Nat.zero_le req.length) (Nat.sub_le _ 0) hstart hfresh
  rw [List.nil_append] at hsound
  cases hf : s.failed with
  | true =>
    obtain ⟨k,_,hk⟩ := hsound.cause hf
    refine ⟨s.dst,[],?_,hsound.front,fun _ => ⟨⟨k,hk⟩,rfl⟩,List.nil_prefix,fun hback => absurd hk (hback k)⟩
    simp only [forward,hd,if_true,hok,hf,bind,Except.bind]
  | false =>
    have hall := hsound.whole hf
    obtain ⟨r,m,hrelay,_,hr,hend⟩ := LoadRelay.pipeUntilEof_sound net.client
      (reads (answer req).flatten.length (answer req)) (show LoadRelay.start.dst = [] from rfl) rfl
    rw [List.nil_append] at hr
    have hbytes := bytes_reads hseg (le_refl _)
    refine ⟨req,r.dst,?_,List.prefix_rfl,fun h => absurd rfl h,?_,fun _ hclient => ?_⟩
    · simp only [forward,hd,if_true,hok,hf,hall,hrelay,bind,Except.bind]
      rfl
    · have htaken := (List.take_prefix m (reads (answer req).flatten.length (answer req))).flatMap Subtype.val
      rw [← hbytes]
      exact hr.front.trans htaken
    · rw [← hbytes]
      exact LoadRelay.whole_of_sends hr hend fun k _ => hclient k

/-- Where no `send` fails, pick and forward in one are `handle`. -/
theorem handle_eq_forward (moves : ℕ → ℕ) {b b' : Balancer n} {idx : ℕ}
    (hpick : pickHealthy b = .ok (b',some idx)) {backend : Backend}
    (hseg : ∀ answer, backend = some answer → ∀ req, Segments (answer req))
    {request : List Bytes} (hne : (readBytes 8191 request).1 ≠ []) :
    handle moves b (fun _ => backend.isSome) request
        (backend.elim [] fun answer => answer (readBytes 8191 request).1) =
      (forward idx backend ⟨true,fun k => some (moves k),fun k => some (moves k)⟩ (readBytes 8191 request).1).map
        fun served => (b',served) := by
  cases backend with
  | none =>
    have hpage : (accepted (fun k => some (moves k)) 0 badGateway).toNat = min (moves 0+1) badGateway.length := by
      simp only [accepted]
      omega
    simp only [handle,forward,if_neg hne,hpick,send502,hpage,bind,Except.bind,Except.map,Option.isSome_none,
      Bool.false_eq_true,if_false,← List.take_eq_take_min]
  | some answer =>
    have hreply := hseg answer rfl (readBytes 8191 request).1
    obtain ⟨sent,got,hok,hrel⟩ := @forward_relayed idx answer
      ⟨true,fun k => some (moves k),fun k => some (moves k)⟩ rfl _ hreply
    have hsent : sent = (readBytes 8191 request).1 := by
      by_contra hcut
      obtain ⟨⟨k,hk⟩,_⟩ := hrel.cut hcut
      cases hk
    have hgot := hrel.whole (fun k => Option.some_ne_none _) fun k => Option.some_ne_none _
    rw [hok,hsent,hgot]
    exact handle_eq moves hpick rfl hne hreply

/-- What a step that is taken finds and does. -/
inductive Taken (s : System n) : Action n → System n → Option (Event n) → Prop
  | change (i : Fin n) (b : Backend) :
    Taken s (.change i b) { s with backends := Function.update s.backends i b } none
  | probe (hup : s.up = none) :
    Taken s .probe { s with up := some (checkHealth healthPath (host s.i) (s.backends s.i)) } none
  | store {up : ℕ} (hup : s.up = some up) :
    Taken s .store { s with
      balancer := { s.balancer with healthy := Function.update s.balancer.healthy s.i (up = 1) }
      i := next s.i
      up := none } (some (.stored s.i (up = 1)))
  | refused (w : ℕ) (request : List Bytes) : Taken s (.accept w request .refused) s none
  | created {w : ℕ} (request : List Bytes) (hw : s.workers w = none) :
    Taken s (.accept w request .created) { s with
      workers := Function.update s.workers w
        (some (if (readBytes 8191 request).1 = [] then .done else .reading (readBytes 8191 request).1)) } none
  | pick {w : ℕ} {req : Bytes} {p : Balancer n × Option ℕ} (hw : s.workers w = some (.reading req))
      (hp : pickHealthy s.balancer = .ok p) :
    Taken s (.pick w) { s with
      balancer := p.1
      workers := Function.update s.workers w (some (.picked p.2 req)) } (some (.picked w p.2))
  | serve {w : ℕ} {net : Net} {idx : Option ℕ} {req : Bytes} {served : Served}
      (hw : s.workers w = some (.picked idx req)) (hf : finish s.backends idx net req = .ok served) :
    Taken s (.serve w net) { s with workers := Function.update s.workers w (some .done) }
      (some (.answered w served))

variable {healthPath host} {s s' : System n} {a : Action n} {o : Option (Event n)}

theorem step_taken (h : step healthPath host s a = .ok (s',o)) : Taken healthPath host s a s' o := by
  cases a with
  | change i b =>
    obtain ⟨rfl,rfl⟩ := Prod.mk.inj (Except.ok.inj h)
    exact .change i b
  | probe =>
    simp only [step] at h
    split at h
    · rename_i hup
      obtain ⟨rfl,rfl⟩ := Prod.mk.inj (Except.ok.inj h)
      exact .probe hup
    · cases h
  | store =>
    simp only [step] at h
    split at h
    · cases h
    · rename_i up hup
      obtain ⟨rfl,rfl⟩ := Prod.mk.inj (Except.ok.inj h)
      exact .store hup
  | accept w request spawn =>
    cases spawn with
    | noMemory => cases h
    | refused =>
      obtain ⟨rfl,rfl⟩ := Prod.mk.inj (Except.ok.inj h)
      exact .refused w request
    | created =>
      simp only [step] at h
      split at h
      · cases h
      · rename_i hw
        obtain ⟨rfl,rfl⟩ := Prod.mk.inj (Except.ok.inj h)
        exact .created request hw
  | pick w =>
    simp only [step] at h
    split at h
    · rename_i req hw
      split at h
      · cases h
      · rename_i p hp
        obtain ⟨rfl,rfl⟩ := Prod.mk.inj (Except.ok.inj h)
        exact .pick hw hp
    · cases h
  | serve w net =>
    simp only [step] at h
    split at h
    · rename_i idx req hw
      split at h
      · cases h
      · rename_i served hf
        obtain ⟨rfl,rfl⟩ := Prod.mk.inj (Except.ok.inj h)
        exact .serve hw hf
    · cases h

def balancerAction : Option (Event n) → Option (LoadBalancer.Action n)
  | some (.stored i up) => some (.update i up)
  | some (.picked _ _) => some .pick
  | some (.answered _ _) => none
  | none => none

def pickOf : Option (Event n) → Option (Option ℕ)
  | some (.picked _ idx) => some idx
  | some (.stored _ _) => none
  | some (.answered _ _) => none
  | none => none

/-- The balancer takes the step of its own machine, or stands. -/
theorem step_balancer (h : step healthPath host s a = .ok (s',o)) :
    (balancerAction o = none ∧ pickOf o = none ∧ s'.balancer = s.balancer) ∨
      ∃ b, balancerAction o = some b ∧ LoadBalancer.step s.balancer b = .ok (s'.balancer,pickOf o) := by
  cases step_taken h with
  | change i b => exact Or.inl ⟨rfl,rfl,rfl⟩
  | probe hup => exact Or.inl ⟨rfl,rfl,rfl⟩
  | store hup => exact Or.inr ⟨_,rfl,rfl⟩
  | refused w request => exact Or.inl ⟨rfl,rfl,rfl⟩
  | created request hw => exact Or.inl ⟨rfl,rfl,rfl⟩
  | pick hw hp => exact Or.inr ⟨.pick,rfl,step_pick hp⟩
  | serve hw hf => exact Or.inl ⟨rfl,rfl,rfl⟩

theorem pickHealthy_healthy {b : Balancer n} {p : Balancer n × Option ℕ} (h : pickHealthy b = .ok p) :
    p.1.healthy = b.healthy := by
  obtain ⟨r,_,hp⟩ := bind_eq_ok.mp h
  rw [← Except.ok.inj hp]

theorem step_health (h : step healthPath host s a = .ok (s',o)) :
    (s.up = none ∧ s' = { s with up := some (checkHealth healthPath (host s.i) (s.backends s.i)) } ∧ o = none) ∨
      (∃ up, s.up = some up ∧ s'.up = none ∧ o = some (.stored s.i (up = 1)) ∧
        s'.balancer.healthy = Function.update s.balancer.healthy s.i (up = 1)) ∨
      (s'.up = s.up ∧ s'.i = s.i ∧ s'.balancer.healthy = s.balancer.healthy ∧
        ∀ i up, o ≠ some (.stored i up)) := by
  cases step_taken h with
  | change i b => exact Or.inr (Or.inr ⟨rfl,rfl,rfl,by simp⟩)
  | probe hup => exact Or.inl ⟨hup,rfl,rfl⟩
  | store hup => exact Or.inr (Or.inl ⟨_,hup,rfl,rfl,rfl⟩)
  | refused w request => exact Or.inr (Or.inr ⟨rfl,rfl,rfl,by simp⟩)
  | created request hw => exact Or.inr (Or.inr ⟨rfl,rfl,rfl,by simp⟩)
  | pick hw hp => exact Or.inr (Or.inr ⟨rfl,rfl,pickHealthy_healthy hp,by simp⟩)
  | serve hw hf => exact Or.inr (Or.inr ⟨rfl,rfl,rfl,by simp⟩)

/-- A probe of the backend now would come to the verdict. -/
def Judged (healthPath : CString) (host : Fin n → CString) (x : Fin n) (v : Bool) (s : System n) : Prop :=
  decide (checkHealth healthPath (host x) (s.backends x) = 1) = v

instance (x : Fin n) (v : Bool) (s : System n) : Decidable (Judged healthPath host x v s) :=
  inferInstanceAs (Decidable (_ = v))

/-- No other verdict on the backend waits for the lock. -/
def Fresh (x : Fin n) (v : Bool) (s : System n) : Prop := ∀ up, s.up = some up → s.i = x → decide (up = 1) = v

/-- The flag says the verdict, and will. -/
def Settled (x : Fin n) (v : Bool) (s : System n) : Prop := Fresh x v s ∧ s.balancer.healthy x = v

def stores (x : Fin n) (os : List (Option (Event n))) : ℕ :=
  os.countP fun
    | some (.stored i _) => i = x
    | _ => false

variable {x : Fin n} {v : Bool} {as : List (Action n)} {os : List (Option (Event n))}

theorem step_fresh (hj : Judged healthPath host x v s) (h : step healthPath host s a = .ok (s',o))
    (hf : Fresh x v s) : Fresh x v s' := by
  rcases step_health h with ⟨_,rfl,_⟩ | ⟨up,_,hup',_⟩ | ⟨hup,hi,_⟩
  · rintro up hup rfl
    obtain rfl := Option.some.inj hup
    exact hj
  · intro up hup
    rw [hup'] at hup
    cases hup
  · intro up hs hx
    exact hf up (hup ▸ hs) (hi ▸ hx)

theorem step_settled (hj : Judged healthPath host x v s) (h : step healthPath host s a = .ok (s',o))
    (hs : Settled x v s) : Settled x v s' := by
  refine ⟨step_fresh hj h hs.1,?_⟩
  rcases step_health h with ⟨_,rfl,_⟩ | ⟨up,hup,_,_,hflags⟩ | ⟨_,_,hflags,_⟩
  · exact hs.2
  · rw [hflags]
    by_cases hx : x = s.i
    · subst hx
      rw [Function.update_self]
      exact hs.1 up hup rfl
    · rw [Function.update_of_ne hx]
      exact hs.2
  · rw [hflags]
    exact hs.2

/-- A store of the flag makes way for verdicts that are taken now, and the second one stores such a
verdict. -/
theorem step_stored {i : Fin n} {up : Bool} (h : step healthPath host s a = .ok (s',some (.stored i up))) :
    (∀ y w, Fresh y w s') ∧ (Fresh i v s → s'.balancer.healthy i = v) := by
  rcases step_health h with ⟨_,_,ho⟩ | ⟨u,hup,hup',ho,hflags⟩ | ⟨_,_,_,hne⟩
  · cases ho
  · obtain ⟨rfl,rfl⟩ := Event.stored.inj (Option.some.inj ho)
    refine ⟨fun y w u' hu' => ?_,fun hf => ?_⟩
    · rw [hup'] at hu'
      cases hu'
    · rw [hflags,Function.update_self]
      exact hf u hup rfl
  · exact absurd rfl (hne i up)

theorem run_settled (hj : AllSteps (step healthPath host) (fun s _ => Judged healthPath host x v s) s as)
    (hr : run (step healthPath host) s as = .ok (s',os)) (hs : Settled x v s) : Settled x v s' :=
  run_invariant (P:=Settled x v) (fun _ _ _ _ hs hj h => step_settled hj h hs) hj hs hr

theorem stores_cons (x : Fin n) (o : Option (Event n)) (os : List (Option (Event n))) :
    stores x (o :: os) = stores x os ∨ ∃ up, o = some (.stored x up) ∧ stores x (o :: os) = stores x os+1 := by
  rcases o with _ | (⟨i,up⟩ | ⟨w,idx⟩ | ⟨w,served⟩)
  · exact Or.inl (by simp [stores])
  · by_cases hi : i = x
    · subst hi
      exact Or.inr ⟨up,rfl,by simp [stores]⟩
    · exact Or.inl (by simp [stores,hi])
  · exact Or.inl (by simp [stores])
  · exact Or.inl (by simp [stores])

theorem settled_of_fresh (hj : AllSteps (step healthPath host) (fun s _ => Judged healthPath host x v s) s as)
    (hr : run (step healthPath host) s as = .ok (s',os)) (hf : Fresh x v s) (hone : 1 ≤ stores x os) :
    Settled x v s' := by
  induction as generalizing s os with
  | nil =>
    obtain ⟨_,rfl⟩ := Prod.mk.inj (Except.ok.inj hr)
    exact absurd hone (by simp [stores])
  | cons a as ih =>
    obtain ⟨t,o,os',hs,hrest,rfl⟩ := run_cons_eq_ok.mp hr
    have hf' := step_fresh hj.1 hs hf
    rcases stores_cons x o os' with hcount | ⟨up,rfl,_⟩
    · exact ih (hj.2 t o hs) hrest hf' (hcount ▸ hone)
    · exact run_settled (hj.2 t _ hs) hrest ⟨hf',(step_stored (v:=v) hs).2 hf⟩

/-- While a probe would come to the same verdict, the second store settles the flag, however old
the verdict of the first is. -/
theorem settled_of_stores (hj : AllSteps (step healthPath host) (fun s _ => Judged healthPath host x v s) s as)
    (hr : run (step healthPath host) s as = .ok (s',os)) (htwo : 2 ≤ stores x os) : Settled x v s' := by
  induction as generalizing s os with
  | nil =>
    obtain ⟨_,rfl⟩ := Prod.mk.inj (Except.ok.inj hr)
    exact absurd htwo (by simp [stores])
  | cons a as ih =>
    obtain ⟨t,o,os',hs,hrest,rfl⟩ := run_cons_eq_ok.mp hr
    rcases stores_cons x o os' with hcount | ⟨up,rfl,hcount⟩
    · exact ih (hj.2 t o hs) hrest (hcount ▸ htwo)
    · exact settled_of_fresh (hj.2 t _ hs) hrest ((step_stored (v:=v) hs).1 x v) (by omega)

def okText : Bytes := ascii "HTTP/1.1 200 OK\r\n\r\n"

def bothUp : Fin 2 → Backend := fun _ => some fun _ => [okText]

def secondDown : Fin 2 → Backend := fun i => if i = 0 then bothUp 0 else none

def here : Fin 2 → CString := fun _ => lit "127.0.0.1"

def twoRounds : List (Action 2) := [.probe,.store,.probe,.store,.probe,.store,.probe,.store]

def threeClients : List (Action 2) :=
  [.accept 0 [getRequest] .created,.pick 0,.accept 1 [getRequest] .created,.probe,.accept 2 [getRequest] .created,
    .pick 2,.pick 1]

abbrev sampleStep : System 2 → Action 2 → Except Halt (System 2 × Option (Event 2)) := step (lit "/health") here

theorem run_balancer (hr : run (step healthPath host) s as = .ok (s',os)) :
    ∃ bos, run LoadBalancer.step s.balancer (os.filterMap balancerAction) = .ok (s'.balancer,bos) ∧
      picks bos = os.filterMap pickOf := by
  induction as generalizing s os with
  | nil =>
    obtain ⟨rfl,rfl⟩ := Prod.mk.inj (Except.ok.inj hr)
    exact ⟨[],rfl,rfl⟩
  | cons a as ih =>
    obtain ⟨t,o,os',hs,hrest,rfl⟩ := run_cons_eq_ok.mp hr
    obtain ⟨bos,hb,hpicks⟩ := ih hrest
    rcases step_balancer hs with ⟨hnone,hpick,hsame⟩ | ⟨b,hb',hstep⟩
    · rw [List.filterMap_cons_none hnone,List.filterMap_cons_none hpick,← hsame]
      exact ⟨bos,hb,hpicks⟩
    · rw [List.filterMap_cons_some hb']
      refine ⟨pickOf o :: bos,run_cons hstep hb,?_⟩
      rw [picks,List.filterMap_cons,List.filterMap_cons,← hpicks]
      cases pickOf o <;> rfl

theorem rr_lt (hr : run (step healthPath host) s as = .ok (s',os)) (hrr : s.balancer.rr < n) :
    s'.balancer.rr < n := by
  obtain ⟨bos,hb,_⟩ := run_balancer hr
  obtain ⟨b',bos',hok,hlt⟩ := run_ok hrr (os.filterMap balancerAction)
  obtain ⟨rfl,_⟩ := Prod.mk.inj (Except.ok.inj (hok.symm.trans hb))
  exact hlt

theorem stays_of_settled (hj : AllSteps (step healthPath host) (fun s _ => Judged healthPath host x true s) s as)
    (hr : run (step healthPath host) s as = .ok (s',os)) (hs : Settled x true s) :
    Stays x s.balancer (os.filterMap balancerAction) := by
  induction as generalizing s os with
  | nil =>
    obtain ⟨rfl,rfl⟩ := Prod.mk.inj (Except.ok.inj hr)
    trivial
  | cons a as ih =>
    obtain ⟨t,o,os',ht,hrest,rfl⟩ := run_cons_eq_ok.mp hr
    have hstays := ih (hj.2 t o ht) hrest (step_settled hj.1 ht hs)
    rcases step_balancer ht with ⟨hnone,_,hsame⟩ | ⟨b,hb,hstep⟩
    · rw [List.filterMap_cons_none hnone,← hsame]
      exact hstays
    · rw [List.filterMap_cons_some hb]
      exact (allSteps_cons_ok hstep).mpr ⟨hs.2,hstays⟩

def given (x : Fin n) (os : List (Option (Event n))) : ℕ := (os.filterMap pickOf).count (some x.val)

/-- Two backends that stay up get the same share of the clients, to one client, from their second
stored verdicts on: whatever the other backends do and however the threads take turns. -/
theorem shares_even {backends : Fin n → Backend} {i : Fin n} {s₀ s₁ s₂ : System n}
    {before wait stretch : List (Action n)} {os₀ os₁ os₂ : List (Option (Event n))}
    (h₀ : run (step healthPath host) (start backends i) before = .ok (s₀,os₀))
    (h₁ : run (step healthPath host) s₀ wait = .ok (s₁,os₁))
    (h₂ : run (step healthPath host) s₁ stretch = .ok (s₂,os₂)) {x y : Fin n} (hxy : x ≠ y)
    (hj : AllSteps (step healthPath host)
      (fun s _ => Judged healthPath host x true s ∧ Judged healthPath host y true s) s₀ (wait ++ stretch))
    (hx : 2 ≤ stores x os₁) (hy : 2 ≤ stores y os₁) :
    given x os₂ ≤ given y os₂+1 ∧ given y os₂ ≤ given x os₂+1 := by
  have hrr : s₁.balancer.rr < n := rr_lt h₁ (rr_lt h₀ i.pos)
  obtain ⟨bos,hb,hpicks⟩ := run_balancer h₂
  have happ (z : Fin n) (hz : 2 ≤ stores z os₁) (hjz : AllSteps (step healthPath host)
      (fun s _ => Judged healthPath host z true s) s₀ (wait ++ stretch)) :
      ∃ l : List ℕ, os₂.filterMap pickOf = l.map some ∧ Approaches n z.val l := by
    have hstays := stays_of_settled (hjz.right h₁) h₂ (settled_of_stores hjz.left h₁ hz)
    obtain ⟨l,hl,_,hchain,_⟩ := picks_approach hrr hb hstays
    exact ⟨l,hpicks.symm.trans hl,hchain⟩
  obtain ⟨l,hl,hlx⟩ := happ x hx (hj.mono fun _ _ h => h.1)
  obtain ⟨l',hl',hly⟩ := happ y hy (hj.mono fun _ _ h => h.2)
  obtain rfl : l = l' := List.map_injective_iff.mpr (Option.some_injective ℕ) (hl.symm.trans hl')
  have hcount (z : Fin n) : given z os₂ = l.count z.val := by
    rw [given,hl,List.count_map_of_injective _ _ (Option.some_injective ℕ)]
  have hne : x.val ≠ y.val := fun h => hxy (Fin.ext h)
  rw [hcount,hcount]
  exact ⟨hly.count_le hne,hlx.count_le hne.symm⟩

theorem shares_even_two :
    ∃ s₁ os₁ s₂ os₂, run sampleStep (start bothUp 0) twoRounds = .ok (s₁,os₁) ∧
      run sampleStep s₁ threeClients = .ok (s₂,os₂) ∧
      given 0 os₂ ≤ given 1 os₂+1 ∧ given 1 os₂ ≤ given 0 os₂+1 := by
  have hj : AllSteps sampleStep
      (fun s _ => Judged (lit "/health") here 0 true s ∧ Judged (lit "/health") here 1 true s) (start bothUp 0)
      (twoRounds ++ threeClients) := by decide +kernel
  have h₀ : run sampleStep (start bothUp 0) [] = .ok (start bothUp 0,[]) := rfl
  exact ⟨_,_,_,_,rfl,rfl,shares_even h₀ rfl rfl (by decide) hj (by decide) (by decide)⟩

theorem healthy_of_pick {b b' : Balancer n} {y : ℕ} (hr : b.rr < n) (h : pickHealthy b = .ok (b',some y)) :
    ∃ i : Fin n, i.val = y ∧ b.healthy i = true := by
  by_cases hx : ∃ x, b.healthy x = true
  · obtain ⟨x,hx⟩ := hx
    obtain ⟨i,hi,hhealthy,_⟩ := pickHealthy_some hr hx
    exact ⟨i,Option.some.inj (Prod.mk.inj (Except.ok.inj (hi.symm.trans h))).2,hhealthy⟩
  · have hnone := pickHealthy_none hr (by simpa using hx)
    cases (Prod.mk.inj (Except.ok.inj (hnone.symm.trans h))).2

theorem not_picked_of_settled
    (hj : AllSteps (step healthPath host) (fun s _ => Judged healthPath host x false s) s as)
    (hr : run (step healthPath host) s as = .ok (s',os)) (hrr : s.balancer.rr < n)
    (hs : Settled x false s) : some x.val ∉ os.filterMap pickOf := by
  induction as generalizing s os with
  | nil =>
    obtain ⟨_,rfl⟩ := Prod.mk.inj (Except.ok.inj hr)
    exact List.not_mem_nil
  | cons a as ih =>
    obtain ⟨t,o,os',ht,hrest,rfl⟩ := run_cons_eq_ok.mp hr
    have hone : run (step healthPath host) s [a] = .ok (t,[o]) := run_cons ht (run_nil t)
    have htail := ih (hj.2 t o ht) hrest (rr_lt hone hrr) (step_settled hj.1 ht hs)
    intro hmem
    obtain ⟨o',ho',hx⟩ := List.mem_filterMap.mp hmem
    rcases List.mem_cons.mp ho' with rfl | ho'
    · rcases step_balancer ht with ⟨_,hpick,_⟩ | ⟨b,hb,hstep⟩
      · rw [hpick] at hx
        cases hx
      · cases b with
        | update i up =>
          obtain ⟨_,hout⟩ := Prod.mk.inj (Except.ok.inj hstep)
          rw [hx] at hout
          cases hout
        | pick =>
          cases hp : pickHealthy s.balancer with
          | error f =>
            simp [LoadBalancer.step,hp,Except.map] at hstep
          | ok p =>
            obtain ⟨_,hout⟩ := Prod.mk.inj (Except.ok.inj ((step_pick hp).symm.trans hstep))
            rw [hx] at hout
            obtain ⟨i,hi,hhealthy⟩ := healthy_of_pick hrr (hp.trans (by rw [← Option.some.inj hout]))
            obtain rfl := Fin.ext hi
            rw [hs.2] at hhealthy
            cases hhealthy
    · exact htail (List.mem_filterMap.mpr ⟨o',ho',hx⟩)

/-- Once two verdicts on a backend were stored while a probe comes to the same one, the backend is
given to no client, where it is down, and no client is turned away, where it is up. -/
theorem picks_follow_health {backends : Fin n → Backend} {i : Fin n} {s₀ s₁ s₂ : System n}
    {before wait stretch : List (Action n)} {os₀ os₁ os₂ : List (Option (Event n))}
    (h₀ : run (step healthPath host) (start backends i) before = .ok (s₀,os₀))
    (h₁ : run (step healthPath host) s₀ wait = .ok (s₁,os₁))
    (h₂ : run (step healthPath host) s₁ stretch = .ok (s₂,os₂)) {x : Fin n} {v : Bool}
    (hj : AllSteps (step healthPath host) (fun s _ => Judged healthPath host x v s) s₀ (wait ++ stretch))
    (hx : 2 ≤ stores x os₁) :
    (v = false → some x.val ∉ os₂.filterMap pickOf) ∧ (v = true → none ∉ os₂.filterMap pickOf) := by
  have hrr : s₁.balancer.rr < n := rr_lt h₁ (rr_lt h₀ i.pos)
  have hs := settled_of_stores hj.left h₁ hx
  constructor
  · rintro rfl
    exact not_picked_of_settled (hj.right h₁) h₂ hrr hs
  · rintro rfl
    obtain ⟨bos,hb,hpicks⟩ := run_balancer h₂
    obtain ⟨l,hl,_⟩ := picks_approach hrr hb (stays_of_settled (hj.right h₁) h₂ hs)
    rw [← hpicks,hl]
    simp

theorem picks_follow_health_down :
    ∃ s₁ os₁ s₂ os₂, run sampleStep (start secondDown 0) twoRounds = .ok (s₁,os₁) ∧
      run sampleStep s₁ threeClients = .ok (s₂,os₂) ∧ some 1 ∉ os₂.filterMap pickOf := by
  have hj : AllSteps sampleStep (fun s _ => Judged (lit "/health") here 1 false s) (start secondDown 0)
      (twoRounds ++ threeClients) := by decide +kernel
  have h₀ : run sampleStep (start secondDown 0) [] = .ok (start secondDown 0,[]) := rfl
  exact ⟨_,_,_,_,rfl,rfl,(picks_follow_health (x:=1) h₀ rfl rfl hj (by decide)).1 rfl⟩

def accepts (w : ℕ) (as : List (Action n)) : List (List Bytes) :=
  as.filterMap fun
    | .accept w' request .created => if w' = w then some request else none
    | _ => none

def serves (w : ℕ) (as : List (Action n)) : List Net :=
  as.filterMap fun
    | .serve w' net => if w' = w then some net else none
    | _ => none

def picksFor (w : ℕ) (os : List (Option (Event n))) : List (Option ℕ) :=
  os.filterMap fun
    | some (.picked w' idx) => if w' = w then some idx else none
    | _ => none

def answers (w : ℕ) (os : List (Option (Event n))) : List Served :=
  os.filterMap fun
    | some (.answered w' served) => if w' = w then some served else none
    | _ => none

/-- The backend was once like this. -/
def Known (backends : Fin n → Backend) (as : List (Action n)) (j : Fin n) (b : Backend) : Prop :=
  backends j = b ∨ .change j b ∈ as

/-- The answer for a pick and a request: the 502 page where no backend was picked or it was not reached,
or what the backend makes of the request. -/
def Proper (backends : Fin n → Backend) (as : List (Action n)) (idx : Option ℕ) (net : Net) (req : Bytes)
    (served : Served) : Prop :=
  (served = ⟨none,send502 net⟩ ∧
      ∀ j : Fin n, idx = some j.val → net.dialled = false ∨ Known backends as j none) ∨
    ∃ (j : Fin n) (answer : Bytes → List Bytes) (sent : Bytes), idx = some j.val ∧
      Known backends as j (some answer) ∧ served.backend = some (j.val,sent) ∧
      Relayed net answer req sent served.client

/-- A client's part of a run, by where its thread stands. -/
def Account (backends : Fin n → Backend) (as : List (Action n)) (os : List (Option (Event n))) (w : ℕ) :
    Option Worker → Prop
  | none => accepts w as = [] ∧ serves w as = [] ∧ picksFor w os = [] ∧ answers w os = []
  | some (.reading req) => ∃ request, accepts w as = [request] ∧ (readBytes 8191 request).1 = req ∧ req ≠ [] ∧
      serves w as = [] ∧ picksFor w os = [] ∧ answers w os = []
  | some (.picked idx req) =>
    ∃ request, accepts w as = [request] ∧ (readBytes 8191 request).1 = req ∧ req ≠ [] ∧
      (∀ j, idx = some j → j < n) ∧ serves w as = [] ∧ picksFor w os = [idx] ∧ answers w os = []
  | some .done => ∃ request, accepts w as = [request] ∧ ((readBytes 8191 request).1 ≠ [] →
      ∃ idx net served, picksFor w os = [idx] ∧ serves w as = [net] ∧ answers w os = [served] ∧
        Proper backends as idx net (readBytes 8191 request).1 served)

structure Accounts (backends : Fin n → Backend) (as : List (Action n)) (os : List (Option (Event n)))
    (s : System n) : Prop where
  rr : s.balancer.rr < n
  known : ∀ j, Known backends as j (s.backends j)
  client : ∀ w, Account backends as os w (s.workers w)

variable {backends : Fin n → Backend} {w : ℕ}

theorem Known.mono {j : Fin n} {b : Backend} (h : Known backends as j b) (a : Action n) :
    Known backends (as ++ [a]) j b := h.imp_right fun hm => List.mem_append_left [a] hm

theorem Proper.mono {idx : Option ℕ} {net : Net} {req : Bytes} {served : Served}
    (h : Proper backends as idx net req served) (a : Action n) :
    Proper backends (as ++ [a]) idx net req served := by
  rcases h with ⟨h,hno⟩ | ⟨j,answer,sent,hj,hk,hs⟩
  · exact Or.inl ⟨h,fun j hj => (hno j hj).imp_right fun hk => hk.mono a⟩
  · exact Or.inr ⟨j,answer,sent,hj,hk.mono a,hs⟩

theorem filterMap_concat_nil {α β : Type} {f : α → Option β} {l : List α} {x : α} (h : [x].filterMap f = []) :
    (l ++ [x]).filterMap f = l.filterMap f := by
  rw [List.filterMap_append,h,List.append_nil]

theorem Account.frame {x : Option Worker} (h : Account backends as os w x) (ha : accepts w [a] = [])
    (hn : serves w [a] = []) (hp : picksFor w [o] = []) (hs : answers w [o] = []) :
    Account backends (as ++ [a]) (os ++ [o]) w x := by
  have haccepts : accepts w (as ++ [a]) = accepts w as := filterMap_concat_nil ha
  have hserves : serves w (as ++ [a]) = serves w as := filterMap_concat_nil hn
  have hpicks : picksFor w (os ++ [o]) = picksFor w os := filterMap_concat_nil hp
  have hanswers : answers w (os ++ [o]) = answers w os := filterMap_concat_nil hs
  rcases x with _ | (req | ⟨idx,req⟩ | _)
  · exact ⟨haccepts.trans h.1,hserves.trans h.2.1,hpicks.trans h.2.2.1,hanswers.trans h.2.2.2⟩
  · obtain ⟨request,hr,hreq,hne,hns,hps,has⟩ := h
    exact ⟨request,haccepts.trans hr,hreq,hne,hserves.trans hns,hpicks.trans hps,hanswers.trans has⟩
  · obtain ⟨request,hr,hreq,hne,hlt,hns,hps,has⟩ := h
    exact ⟨request,haccepts.trans hr,hreq,hne,hlt,hserves.trans hns,hpicks.trans hps,hanswers.trans has⟩
  · obtain ⟨request,hr,hdone⟩ := h
    refine ⟨request,haccepts.trans hr,fun hne => ?_⟩
    obtain ⟨idx,net,served,hps,hns,has,hproper⟩ := hdone hne
    exact ⟨idx,net,served,hpicks.trans hps,hserves.trans hns,hanswers.trans has,hproper.mono a⟩

def Answering (backends : Fin n → Backend) (as : List (Action n)) : Prop :=
  ∀ j answer, Known backends as j (some answer) → ∀ req, Segments (answer req)

/-- A pick that was made is served, properly, however the network treats the client. -/
theorem finish_proper {s : System n} (hk : ∀ j, Known backends as j (s.backends j))
    (hseg : Answering backends as) {idx : Option ℕ} (hlt : ∀ j, idx = some j → j < n) (net : Net) (req : Bytes) :
    ∃ served, finish s.backends idx net req = .ok served ∧ Proper backends as idx net req served := by
  cases idx with
  | none => exact ⟨_,rfl,Or.inl ⟨rfl,fun j hj => by cases hj⟩⟩
  | some j =>
    have hj : j < n := hlt j rfl
    have hknown := hk ⟨j,hj⟩
    rw [finish,dif_pos hj]
    cases hb : s.backends ⟨j,hj⟩ with
    | none =>
      rw [hb] at hknown
      refine ⟨_,rfl,Or.inl ⟨rfl,fun i hi => Or.inr ?_⟩⟩
      obtain rfl : i = ⟨j,hj⟩ := Fin.ext (Option.some.inj hi).symm
      exact hknown
    | some answer =>
      rw [hb] at hknown
      cases hd : net.dialled with
      | false => exact ⟨_,by rw [forward,hd]; rfl,Or.inl ⟨rfl,fun _ _ => Or.inl hd⟩⟩
      | true =>
        obtain ⟨sent,got,hok,hrel⟩ := forward_relayed j hd (hseg _ answer hknown req)
        exact ⟨_,hok,Or.inr ⟨⟨j,hj⟩,answer,sent,rfl,hknown,rfl,hrel⟩⟩

theorem pick_lt {b b' : Balancer n} {idx : Option ℕ} (hr : b.rr < n) (h : pickHealthy b = .ok (b',idx)) :
    ∀ j, idx = some j → j < n := by
  rintro j rfl
  obtain ⟨i,rfl,_⟩ := healthy_of_pick hr h
  exact i.isLt

theorem Account.accepted (h : Account backends as os w none) (request : List Bytes) :
    Account backends (as ++ [.accept w request .created]) (os ++ [none]) w
      (some (if (readBytes 8191 request).1 = [] then .done else .reading (readBytes 8191 request).1)) := by
  obtain ⟨ha,hn,hp,hs⟩ := h
  have haccepts : accepts w (as ++ [.accept w request .created]) = [request] := by
    rw [accepts,List.filterMap_append]
    exact (congrArg (· ++ _) ha).trans (by simp)
  split_ifs with h0
  · exact ⟨request,haccepts,fun hne => absurd h0 hne⟩
  · exact ⟨request,haccepts,rfl,h0,by simpa [serves] using hn,by simpa [picksFor] using hp,
      by simpa [answers] using hs⟩

theorem Account.picked {req : Bytes} (h : Account backends as os w (some (.reading req))) {idx : Option ℕ}
    (hlt : ∀ j, idx = some j → j < n) :
    Account backends (as ++ [.pick w]) (os ++ [some (.picked w idx)]) w (some (.picked idx req)) := by
  obtain ⟨request,hr,hreq,hne,hns,hps,has⟩ := h
  refine ⟨request,by simpa [accepts] using hr,hreq,hne,hlt,by simpa [serves] using hns,?_,
    by simpa [answers] using has⟩
  rw [picksFor,List.filterMap_append]
  exact (congrArg (· ++ _) hps).trans (by simp)

theorem Account.served {idx : Option ℕ} {net : Net} {req : Bytes}
    (h : Account backends as os w (some (.picked idx req))) {served : Served}
    (hproper : Proper backends as idx net req served) :
    Account backends (as ++ [.serve w net]) (os ++ [some (.answered w served)]) w (some .done) := by
  obtain ⟨request,hr,rfl,_,_,hns,hps,has⟩ := h
  refine ⟨request,by simpa [accepts] using hr,fun _ => ⟨idx,net,served,by simpa [picksFor] using hps,?_,?_,
    hproper.mono _⟩⟩
  · rw [serves,List.filterMap_append]
    exact (congrArg (· ++ _) hns).trans (by simp)
  · rw [answers,List.filterMap_append]
    exact (congrArg (· ++ _) has).trans (by simp)

theorem accounts_update {workers : ℕ → Option Worker} {x : Option Worker} (hw : Account backends as os w x)
    (hother : ∀ w', w' ≠ w → Account backends as os w' (workers w')) (w' : ℕ) :
    Account backends as os w' (Function.update workers w x w') := by
  by_cases hww : w' = w
  · subst hww
    rwa [Function.update_self]
  · rw [Function.update_of_ne hww]
    exact hother w' hww

/-- Every step keeps the accounts. -/
theorem step_accounts (hc : Accounts backends as os s) (hseg : Answering backends as)
    (h : step healthPath host s a = .ok (s',o)) : Accounts backends (as ++ [a]) (os ++ [o]) s' := by
  have hone : run (step healthPath host) s [a] = .ok (s',[o]) := run_cons h (run_nil s')
  have hrr : s'.balancer.rr < n := rr_lt hone hc.rr
  have hknown : ∀ j, Known backends (as ++ [a]) j (s.backends j) := fun j => (hc.known j).mono a
  cases step_taken h with
  | change i b =>
    refine ⟨hrr,fun j => ?_,fun w => (hc.client w).frame rfl rfl rfl rfl⟩
    by_cases hj : j = i
    · subst hj
      exact Or.inr (by simp)
    · simp only [Function.update_of_ne hj]
      exact hknown j
  | probe hup => exact ⟨hrr,hknown,fun w => (hc.client w).frame rfl rfl rfl rfl⟩
  | store hup => exact ⟨hrr,hknown,fun w => (hc.client w).frame rfl rfl rfl rfl⟩
  | refused w request => exact ⟨hrr,hknown,fun w => (hc.client w).frame rfl rfl rfl rfl⟩
  | @created w request hw =>
    have hclient := hc.client w
    rw [hw] at hclient
    exact ⟨hrr,hknown,accounts_update (hclient.accepted request) fun w' hww =>
      (hc.client w').frame (by simp [accepts,Ne.symm hww]) rfl rfl rfl⟩
  | @pick w req p hw hp =>
    have hclient := hc.client w
    rw [hw] at hclient
    exact ⟨hrr,hknown,accounts_update (hclient.picked (pick_lt hc.rr hp)) fun w' hww =>
      (hc.client w').frame rfl rfl (by simp [picksFor,Ne.symm hww]) rfl⟩
  | @serve w net idx req served hw hf =>
    have hclient := hc.client w
    rw [hw] at hclient
    have hlt : ∀ j, idx = some j → j < n := by
      obtain ⟨_,_,_,_,hlt,_⟩ := hclient
      exact hlt
    obtain ⟨served',hf',hproper⟩ := finish_proper hc.known hseg hlt net req
    obtain rfl := Except.ok.inj (hf'.symm.trans hf)
    exact ⟨hrr,hknown,accounts_update (hclient.served hproper) fun w' hww =>
      (hc.client w').frame rfl (by simp [serves,Ne.symm hww]) rfl (by simp [answers,Ne.symm hww])⟩

theorem Answering.left {bs : List (Action n)} (h : Answering backends (as ++ bs)) : Answering backends as :=
  fun j answer hk => h j answer (hk.imp_right fun hm => List.mem_append_left bs hm)

/-- A run keeps the accounts. -/
theorem run_accounts {bs : List (Action n)} {ps : List (Option (Event n))} (hc : Accounts backends as os s)
    (hseg : Answering backends (as ++ bs)) (hr : run (step healthPath host) s bs = .ok (s',ps)) :
    Accounts backends (as ++ bs) (os ++ ps) s' := by
  induction bs generalizing s as os ps with
  | nil =>
    obtain ⟨rfl,rfl⟩ := Prod.mk.inj (Except.ok.inj hr)
    rwa [List.append_nil,List.append_nil]
  | cons a bs ih =>
    obtain ⟨t,o,ps,hs,hrest,rfl⟩ := run_cons_eq_ok.mp hr
    rw [List.append_cons] at hseg ⊢
    rw [List.append_cons os]
    exact ih (step_accounts hc (hseg.left.left) hs) hseg hrest

theorem accounts_start (i : Fin n) : Accounts backends [] [] (start backends i) :=
  ⟨i.pos,fun _ => Or.inl rfl,fun _ => ⟨rfl,rfl,rfl,rfl⟩⟩

theorem mem_accepts {request : List Bytes} (h : .accept w request .created ∈ as) : request ∈ accepts w as :=
  List.mem_filterMap.mpr ⟨_,h,if_pos rfl⟩

theorem step_serve {idx : Option ℕ} {net : Net} {req : Bytes} {served : Served}
    (hw : s.workers w = some (.picked idx req)) (hf : finish s.backends idx net req = .ok served) :
    step healthPath host s (.serve w net) =
      .ok ({ s with workers := Function.update s.workers w (some .done) },some (.answered w served)) := by
  simp only [step,hw,hf]

/-- However the threads take turns, a client with a thread and a request either was dealt with once, as its
pick and the network have it, or was not yet and its thread can go on. -/
theorem client_answered {i : Fin n} (hr : run (step healthPath host) (start backends i) as = .ok (s,os))
    (hseg : Answering backends as) {request : List Bytes} (hacc : .accept w request .created ∈ as)
    (hne : (readBytes 8191 request).1 ≠ []) :
    (∃ idx net served, picksFor w os = [idx] ∧ serves w as = [net] ∧ answers w os = [served] ∧
        Proper backends as idx net (readBytes 8191 request).1 served) ∨
      answers w os = [] ∧ ((∃ s' o, step healthPath host s (.pick w) = .ok (s',o)) ∨
        ∀ net, ∃ s' o, step healthPath host s (.serve w net) = .ok (s',o)) := by
  have hc := run_accounts (accounts_start i) hseg hr
  have hclient := hc.client w
  have hmem := mem_accepts hacc
  simp only [List.nil_append] at hc hclient
  rcases hw : s.workers w with _ | (req | ⟨idx,req⟩ | _)
  · rw [hw] at hclient
    rw [hclient.1] at hmem
    cases hmem
  · rw [hw] at hclient
    obtain ⟨_,_,_,_,_,_,has⟩ := hclient
    obtain ⟨b,o,hstep,_⟩ := step_ok hc.rr .pick
    cases hp : pickHealthy s.balancer with
    | error f => simp [LoadBalancer.step,hp,Except.map] at hstep
    | ok p => exact Or.inr ⟨has,Or.inl ⟨_,_,by simp only [step,hw,hp]; rfl⟩⟩
  · rw [hw] at hclient
    obtain ⟨_,_,_,_,hlt,_,_,has⟩ := hclient
    refine Or.inr ⟨has,Or.inr fun net => ?_⟩
    obtain ⟨served,hf,_⟩ := finish_proper hc.known hseg hlt net req
    exact ⟨_,_,step_serve hw hf⟩
  · rw [hw] at hclient
    obtain ⟨request',ha,hdone⟩ := hclient
    rw [ha] at hmem
    obtain rfl := List.mem_singleton.mp hmem
    exact Or.inl (hdone hne)

def slow : Net := ⟨true,fun _ => some 0,fun _ => some 0⟩

def oneClient : List (Action 2) := [.accept 0 [getRequest] .created,.pick 0,.serve 0 slow]

theorem client_answered_first :
    ∃ s os, run sampleStep (start bothUp 0) oneClient = .ok (s,os) ∧
      ((∃ idx net served, picksFor 0 os = [idx] ∧ serves 0 oneClient = [net] ∧ answers 0 os = [served] ∧
          Proper bothUp oneClient idx net (readBytes 8191 [getRequest]).1 served) ∨
        answers 0 os = [] ∧ ((∃ s' o, sampleStep s (.pick 0) = .ok (s',o)) ∨
          ∀ net, ∃ s' o, sampleStep s (.serve 0 net) = .ok (s',o))) := by
  have hok (req : Bytes) : Segments ((fun _ : Bytes => [okText]) req) := by simp [Segments,okText,ascii]
  have hseg : Answering bothUp oneClient := by
    rintro j answer (h | h) req
    · obtain rfl := Option.some.inj h
      exact hok req
    · simp [oneClient] at h
  obtain ⟨sent,got,hforward,_⟩ := @forward_relayed 0 (fun _ => [okText]) slow rfl _ (hok getRequest)
  have hfinish : finish bothUp (some 0) slow getRequest = .ok ⟨some (0,sent),got⟩ := hforward
  obtain ⟨s,os,hr⟩ : ∃ s os, run sampleStep (start bothUp 0) oneClient = .ok (s,os) :=
    ⟨_,_,run_cons rfl (run_cons rfl (run_cons (step_serve rfl hfinish) (run_nil _)))⟩
  exact ⟨s,os,hr,client_answered (i:=0) hr hseg
    (by simp [oneClient] : .accept 0 [getRequest] .created ∈ oneClient) (by decide)⟩

end LoadSystem
end CodingChallenges
