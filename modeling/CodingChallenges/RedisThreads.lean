import CodingChallenges.LockedCalls
import CodingChallenges.RedisStore

/-! The threads of the Redis clone (`per_client`, one for each connection).
A thread reads a request, parses it and checks its arguments on its own; then it makes at
most one call into the store, which holds `db_lock` for all of it; then it formats and sends
the reply on its own. Only DEL is different, its loop takes no lock, and is not sent here. -/
namespace CodingChallenges
namespace RedisThreads

open CText CMemory RedisDb RedisResp RedisParser RedisServer RedisCommands RedisSession RedisStore Runs Footprint
  LockedCalls
open RedisExpiry (Reachable)

/-- The call into the store a request has come to, or its reply when there is none to make. -/
inductive Pending
  | ready (reply : CString)
  | setEx (key value : CString) (expires_at_ms : UInt64)
  | get (key : CString)
  | exist (key : CString)
  | incr (key : CString)

inductive Halt
  | fault (f : Fault)
  | unlocked   -- DEL
  deriving DecidableEq

def ofFault {α : Type} (x : Except Fault α) : Except Halt α := x.mapError Halt.fault

def prepareEcho (cmd : RespValue) : Except Fault Pending :=
  if tooFew cmd 2 then .ok (.ready (respError (some (wrongNumber (lit "echo")))))
  else do
    .ok (.ready (respBulk (some (← cmd.item 1))))

/-- `now_ms` is called here, before the lock is taken. -/
def prepareSet (now : UInt64) (cmd : RespValue) : Except Fault Pending :=
  if tooFew cmd 3 then .ok (.ready (respError (some (wrongNumber (lit "set")))))
  else do
    let key ← cmd.item 1
    let value ← cmd.item 2
    match ← setOptions cmd now (← cmd.count).toNat 3 0 with
    | .error err => .ok (.ready (respError (some err)))
    | .ok expires_at_ms => .ok (.setEx key value expires_at_ms)

def prepareGet (cmd : RespValue) : Except Fault Pending :=
  if tooFew cmd 2 then .ok (.ready (respError (some (wrongNumber (lit "get")))))
  else do
    .ok (.get (← cmd.item 1))

def prepareExists (cmd : RespValue) : Except Fault Pending := do
  .ok (.exist (← cmd.item 1))

def prepareIncr (cmd : RespValue) : Except Fault Pending :=
  if tooFew cmd 2 then .ok (.ready (respError (some (wrongNumber (lit "incr")))))
  else do
    .ok (.incr (← cmd.item 1))

/-- `exec_command` up to its call into the store. A DEL, whose call holds no lock, is not taken: the runs
that return are those without one. -/
def prepare (now : UInt64) (cmd : RespValue) : Except Halt Pending := do
  match ← ofFault (cmdName cmd) with
  | none => .ok (.ready (respError (some unknownCommand)))
  | some cmd_name =>
    match commandOf cmd_name with
    | some .PING => .ok (.ready (respSimple (some (lit "PONG"))))
    | some .ECHO => ofFault (prepareEcho cmd)
    | some .SET => ofFault (prepareSet now cmd)
    | some .GET => ofFault (prepareGet cmd)
    | some .EXISTS => ofFault (prepareExists cmd)
    | some .DEL => .error .unlocked
    | some .INCR => ofFault (prepareIncr cmd)
    | none => .ok (.ready (respError (some unknownCommand)))

/-- The call and the formatting of its result; `db_get` reads the clock inside the lock. -/
def finish (db : HashTab) (now : UInt64) : Pending → Except Fault (HashTab × CString)
  | .ready reply => .ok (db,reply)
  | .setEx key value expires_at_ms =>
    .ok (dbSetEx db key value expires_at_ms,respSimple (some (lit "OK")))
  | .get key => .ok ((dbGet db key now).1,respBulk (dbGet db key now).2)
  | .exist key =>
    .ok ((dbGet db key now).1,respInteger (if (dbGet db key now).2.isSome then 1 else 0))
  | .incr key => do
    let r ← dbIncr db key
    match r.2 with
    | .failed error => .ok (r.1,respError (some error))
    | .ok value => .ok (r.1,respInteger (atoi value))

/-- A thread's work on the bytes of one `read`, with the reading of the clock before the lock
and the one inside it. `free_resp` comes after the call. -/
def threads : Service HashTab (UInt64 × Bytes) UInt64 (RespValue × Pending) CString Halt where
  prepare r := do
    match ← ofFault (parse r.2) with
    | none => .error (.fault .nullPointer)
    | some cmd => .ok (cmd,← prepare r.1 cmd)
  call db now p := ofFault do
    let r ← finish db now p.2
    freeResp (some p.1)
    .ok r

theorem ofFault_eq_ok {α : Type} {x : Except Fault α} {a : α} : ofFault x = .ok a ↔ x = .ok a := by
  cases x <;> simp [ofFault,Except.mapError]

theorem finish_prepareEcho (db : HashTab) (now : UInt64) {cmd : RespValue} {p : Pending}
    (h : prepareEcho cmd = .ok p) : execEcho db cmd = finish db now p := by
  unfold prepareEcho at h
  unfold execEcho
  split_ifs at h ⊢
  · cases h
    rfl
  · obtain ⟨text,ht,hp⟩ := bind_eq_ok.mp h
    cases hp
    rw [ht]
    rfl

theorem finish_prepareSet (db : HashTab) (now : UInt64) {now' : UInt64} {cmd : RespValue} {p : Pending}
    (h : prepareSet now cmd = .ok p) : execSet db now cmd = finish db now' p := by
  unfold prepareSet at h
  unfold execSet
  split_ifs at h ⊢
  · cases h
    rfl
  · obtain ⟨key,hkey,h⟩ := bind_eq_ok.mp h
    obtain ⟨value,hvalue,h⟩ := bind_eq_ok.mp h
    obtain ⟨count,hcount,h⟩ := bind_eq_ok.mp h
    obtain ⟨opts,hopts,h⟩ := bind_eq_ok.mp h
    simp only [hkey,hvalue,hcount,hopts,bind,Except.bind]
    cases opts <;> cases h <;> rfl

theorem finish_prepareGet (db : HashTab) (now : UInt64) {cmd : RespValue} {p : Pending}
    (h : prepareGet cmd = .ok p) : execGet db now cmd = finish db now p := by
  unfold prepareGet at h
  unfold execGet
  split_ifs at h ⊢
  · cases h
    rfl
  · obtain ⟨key,hkey,hp⟩ := bind_eq_ok.mp h
    cases hp
    rw [hkey]
    rfl

theorem finish_prepareExists (db : HashTab) (now : UInt64) {cmd : RespValue} {p : Pending}
    (h : prepareExists cmd = .ok p) : execExists db now cmd = finish db now p := by
  obtain ⟨key,hkey,hp⟩ := bind_eq_ok.mp h
  cases hp
  simp only [execExists,hkey,bind,Except.bind,finish]

theorem finish_prepareIncr (db : HashTab) (now : UInt64) {cmd : RespValue} {p : Pending}
    (h : prepareIncr cmd = .ok p) : execIncr db cmd = finish db now p := by
  unfold prepareIncr at h
  unfold execIncr
  split_ifs at h ⊢
  · cases h
    rfl
  · obtain ⟨key,hkey,hp⟩ := bind_eq_ok.mp h
    cases hp
    rw [hkey]
    rfl

/-- SET has read the clock before its call, the other commands read it in the call. -/
def isSet (cmd : RespValue) : Bool :=
  match cmdName cmd with
  | .ok (some cmd_name) => commandOf cmd_name = some .SET
  | _ => false

theorem dispatch_eq_finish (db : HashTab) {now now' : UInt64} {cmd : RespValue} {p : Pending}
    (h : prepare now cmd = .ok p) :
    dispatch db (if isSet cmd then now else now') cmd = finish db now' p := by
  obtain ⟨name,hname,h⟩ := bind_eq_ok.mp h
  rw [ofFault_eq_ok] at hname
  simp only [dispatch,hname,bind,Except.bind]
  cases name with
  | none =>
    cases h
    rfl
  | some w =>
    dsimp only at h ⊢
    cases hw : commandOf w with
    | none =>
      rw [hw] at h
      cases h
      rfl
    | some c =>
      rw [hw] at h
      cases c with
      | PING =>
        cases h
        rfl
      | ECHO => exact finish_prepareEcho db now' (ofFault_eq_ok.mp h)
      | SET =>
        have hset : isSet cmd = true := by simp [isSet,hname,hw]
        simp only [if_pos hset]
        exact finish_prepareSet db now (ofFault_eq_ok.mp h)
      | GET =>
        have hset : ¬ isSet cmd = true := by simp [isSet,hname,hw]
        simp only [if_neg hset]
        exact finish_prepareGet db now' (ofFault_eq_ok.mp h)
      | EXISTS =>
        have hset : ¬ isSet cmd = true := by simp [isSet,hname,hw]
        simp only [if_neg hset]
        exact finish_prepareExists db now' (ofFault_eq_ok.mp h)
      | DEL => cases h
      | INCR => exact finish_prepareIncr db now' (ofFault_eq_ok.mp h)

def deciding (r : UInt64 × Bytes) (now : UInt64) : UInt64 :=
  match parse r.2 with
  | .ok (some cmd) => if isSet cmd then r.1 else now
  | _ => now

def execAt (db : HashTab) (r : UInt64 × Bytes) : Except Fault (HashTab × CString) := execCommand db r.1 r.2

def execClient {ι : Type} (db : HashTab) (q : ι × UInt64 × Bytes) : Except Fault (HashTab × CString) :=
  execAt db q.2

def stamped {ι : Type} (q : ι × UInt64 × UInt64 × Bytes) : ι × UInt64 × Bytes :=
  (q.1,deciding q.2.2 q.2.1,q.2.2.2)

/-- A thread's preparation and call are the call of `exec_command`. -/
theorem execClient_of_serve {ι : Type} (db : HashTab) (q : ι × UInt64 × UInt64 × Bytes) (r : HashTab × CString)
    (h : threads.serve db q = .ok r) : execClient db (stamped q) = .ok r := by
  obtain ⟨c,now',now,request⟩ := q
  obtain ⟨p,hp,hcall⟩ := bind_eq_ok.mp h
  obtain ⟨v,hparse,hp⟩ := bind_eq_ok.mp hp
  rw [ofFault_eq_ok] at hparse
  cases v with
  | none => cases hp
  | some cmd =>
    obtain ⟨pending,hprep,hp⟩ := bind_eq_ok.mp hp
    cases hp
    have hcall := ofFault_eq_ok.mp hcall
    have hclock : deciding (now,request) now' = if isSet cmd then now else now' := by
      simp only [deciding,hparse]
    have hparse' : parse request = .ok (some cmd) := hparse
    simp only [execClient,execAt,stamped,hclock,execCommand,hparse',bind,Except.bind]
    rw [execValue,dispatch_eq_finish db hprep]
    exact hcall

variable {ι : Type}

def started (db : HashTab) : System ι HashTab (UInt64 × Bytes) (RespValue × Pending) CString :=
  ⟨db,fun _ => .idle⟩

theorem prepared_started (db : HashTab) : threads.Prepared (started (ι:=ι) db) := by
  intro c r p h
  cases h

variable [DecidableEq ι]

/-- Linearizability: in any interleaving of the connections' threads, over requests of which none
is a DEL, the store ends as after the calls of `exec_command` one by one in the order of the
critical sections; every connection has been sent the replies it gets there, in the order of
its requests, but for the one still to be sent, and each request taken is executed once. -/
theorem threads_linearizable (db : HashTab) (acts : List (LockedCalls.Action ι (UInt64 × Bytes) UInt64))
    {u : System ι HashTab (UInt64 × Bytes) (RespValue × Pending) CString}
    {es : List (Event ι (UInt64 × Bytes) UInt64 CString)}
    (h : run threads.step (started db) acts = .ok (u,es)) :
    ∃ replies, run execClient db ((order es).map stamped) = .ok (u.shared,replies) ∧ ∀ c,
      outputsOf c (order es) replies = given c es ++ (u.phase c).owed ∧
      taken c es = (actionsOf c (order es)).map Prod.snd ++ (u.phase c).waiting := by
  obtain ⟨replies,hr,hc⟩ := run_linear acts (prepared_started db) h
  refine ⟨replies,run_of_ok stamped execClient_of_serve hr,fun c => ?_⟩
  simpa [started,Phase.owed,Phase.waiting] using hc c

def bothIncr : List (LockedCalls.Action Bool (UInt64 × Bytes) UInt64) :=
  [.take true (0,request [ascii "INCR",ascii "k"]),.take false (0,request [ascii "incr",ascii "k"]),
    .call false 0,.call true 0,.give true,.take true (1,request [ascii "GET",ascii "k"])]

theorem threads_linearizable_both : ∃ u es replies,
    run threads.step (started emptyTab) bothIncr = .ok (u,es) ∧
    run execClient emptyTab ((order es).map stamped) = .ok (u.shared,replies) ∧
    outputsOf true (order es) replies = given true es ++ (u.phase true).owed ∧
    given true es = [lit ":2\r\n"] ∧ (u.phase false).owed = [lit ":1\r\n"] := by
  obtain ⟨u,es,hr,hg,ho⟩ : ∃ u es, run threads.step (started emptyTab) bothIncr = .ok (u,es) ∧
      given true es = [lit ":2\r\n"] ∧ (u.phase false).owed = [lit ":1\r\n"] := ⟨_,_,rfl,rfl,rfl⟩
  obtain ⟨replies,hrun,hc⟩ := threads_linearizable emptyTab bothIncr hr
  exact ⟨u,es,replies,hr,hrun,(hc true).1,hg,ho⟩

/-- An encoded request whose keys are the connection's own. -/
def OwnRequest (owner : CString → ι) (c : ι) (r : UInt64 × Bytes) : Prop :=
  ∃ args, r.2 = request args ∧ Sized (r.1,args) ∧ ∀ key ∈ keysOf (args.map cut), owner key = c

omit [DecidableEq ι] in
theorem exists_requests (owner : CString → ι) (qs : List (ι × UInt64 × UInt64 × Bytes))
    (h : ∀ q ∈ qs, OwnRequest owner q.1 q.2.2) :
    ∃ rs : List (ι × UInt64 × List Bytes), qs.map stamped = rs.map (fun r => (r.1,r.2.1,request r.2.2)) ∧
      ∀ r ∈ rs, Sized r.2 ∧ ∀ key ∈ keysOf (reading r.2).2, owner key = r.1 := by
  induction qs with
  | nil => exact ⟨[],rfl,by simp⟩
  | cons q qs ih =>
    obtain ⟨rs,hmap,hrs⟩ := ih fun q' hq => h q' (by simp [hq])
    obtain ⟨args,hargs,hsized,hkeys⟩ := h q (by simp)
    refine ⟨(q.1,deciding q.2.2 q.2.1,args) :: rs,?_,?_⟩
    · rw [List.map_cons,List.map_cons,hmap,stamped,hargs]
    · intro r hr
      rcases List.mem_cons.mp hr with rfl | hr
      · exact ⟨hsized,hkeys⟩
      · exact hrs r hr

/-- Isolation under any interleaving: connections whose requests name no key of another one are
sent what they would be sent alone. -/
theorem threads_isolated (owner : CString → ι) {db : HashTab} (hdb : Reachable db)
    (acts : List (LockedCalls.Action ι (UInt64 × Bytes) UInt64))
    (hown : ∀ c r, .take c r ∈ acts → OwnRequest owner c r)
    {u : System ι HashTab (UInt64 × Bytes) (RespValue × Pending) CString}
    {es : List (Event ι (UInt64 × Bytes) UInt64 CString)}
    (h : run threads.step (started db) acts = .ok (u,es)) (c : ι) :
    ∃ v, run execAt db (actionsOf c ((order es).map stamped)) = .ok (v,given c es ++ (u.phase c).owed) := by
  obtain ⟨replies,hrun,hclients⟩ := threads_linearizable db acts h
  obtain ⟨rs,hrs,hgood⟩ := exists_requests owner (order es) fun q hq =>
    hown q.1 q.2.2 (sent_of_mem_order (prepared_started db) (fun _ => rfl) h hq)
  have hserve : run serveClient db rs = .ok (u.shared,replies) := by
    have hmap : (run serveClient db rs).map (fun q => (id q.1,q.2)) =
        run execClient (id db) (rs.map fun r => (r.1,r.2.1,request r.2.2)) := by
      refine run_map id _ rs (fun s a _ => ?_) db
      change (serveClient s a).map (fun q => (id q.1,q.2)) = serveClient s a
      cases serveClient s a <;> rfl
    rw [← hrs,id,hrun] at hmap
    cases hx : run serveClient db rs with
    | error e =>
      rw [hx] at hmap
      cases hmap
    | ok q =>
      rw [hx] at hmap
      exact hmap
  obtain ⟨v,hv⟩ := (clients_isolated owner rs rs hdb (fun r hr => (hgood r hr).1) (fun r hr => (hgood r hr).2)
    (fun _ => rfl) hserve).1 c
  have hfst : (order es).map Prod.fst = rs.map Prod.fst := by
    have hf := congrArg (List.map Prod.fst) hrs
    rw [List.map_map,List.map_map] at hf
    exact hf
  refine ⟨v,?_⟩
  rw [hrs,actionsOf_map (fun r : UInt64 × List Bytes => (r.1,request r.2)),← (hclients c).1,outputsOf_congr hfst c]
  exact run_of_ok (fun r : UInt64 × List Bytes => (r.1,request r.2)) (fun _ _ _ hq => hq) hv

def keyEach : List (LockedCalls.Action Bool (UInt64 × Bytes) UInt64) :=
  [.take true (0,request [ascii "INCR",ascii "a"]),.take false (0,request [ascii "SET",ascii "b",ascii "x"]),
    .call false 0,.call true 0,.give false]

theorem threads_isolated_keyEach : ∃ u es v,
    run threads.step (started emptyTab) keyEach = .ok (u,es) ∧ given false es = [lit "+OK\r\n"] ∧
    run execAt emptyTab (actionsOf false ((order es).map stamped)) =
      .ok (v,given false es ++ (u.phase false).owed) := by
  obtain ⟨u,es,hr,hg⟩ : ∃ u es, run threads.step (started emptyTab) keyEach = .ok (u,es) ∧
      given false es = [lit "+OK\r\n"] := ⟨_,_,rfl,rfl⟩
  have hown : ∀ c r, .take c r ∈ keyEach → OwnRequest (fun key => decide (key = lit "a")) c r := by
    intro c r hm
    simp only [keyEach,List.mem_cons,Action.take.injEq,reduceCtorEq,List.not_mem_nil,or_false] at hm
    rcases hm with ⟨rfl,rfl⟩ | ⟨rfl,rfl⟩
    · exact ⟨[ascii "INCR",ascii "a"],rfl,by decide,by decide⟩
    · exact ⟨[ascii "SET",ascii "b",ascii "x"],rfl,by decide,by decide⟩
  obtain ⟨v,hv⟩ := threads_isolated (fun key => decide (key = lit "a")) ⟨[],[],rfl⟩ keyEach hown hr false
  exact ⟨u,es,v,hr,hg,hv⟩

end RedisThreads
end CodingChallenges
