import CodingChallenges.Footprint
import CodingChallenges.RedisCounter
import CodingChallenges.RedisDeletion

/-! The server as a store: what the requests of any clients do, without hash table and bytes.
An argument list asks for something, the store answers. The dispatcher over the chained
table refines this, whole runs of it included, and clients that share no key are isolated. -/
namespace CodingChallenges
namespace RedisStore

open CText CMemory RedisDb RedisResp RedisParser RedisServer RedisCommands RedisSession Runs Footprint
open RedisExpiry (Reachable wellFormed_of_reachable wellFormed_dbGet)
open RedisDeletion (present count_foldl_delOne lookup_foldl_delOne_eq)

/-- A value and the instant it lapses; 0 for never. -/
structure Held where
  value : CString
  expires_at_ms : UInt64
  deriving DecidableEq

abbrev Store := CString → Option Held

def emptyStore : Store := fun _ => none

def Held.lapsed (h : Held) (now : UInt64) : Bool := h.expires_at_ms ≠ 0 && h.expires_at_ms ≤ now

inductive Answer
  | simple (s : CString)
  | error (s : CString)
  | integer (i_val : ℤ)
  | bulk (s : Option CString)
  deriving DecidableEq

def Answer.text : Answer → CString
  | .simple s => respSimple (some s)
  | .error s => respError (some s)
  | .integer i_val => respInteger i_val
  | .bulk s => respBulk s

/-- What an argument list asks for. `fixed` needs no store; `stray` is EXISTS without a key. -/
inductive Request
  | fixed (a : Answer)
  | set (key value : CString) (expires_at_ms : UInt64)
  | get (key : CString)
  | exist (key : CString)
  | del (keys : List CString)
  | incr (key : CString)
  | stray

def ask (now : UInt64) : List CString → Request
  | [] => .fixed (.error unknownCommand)
  | w :: args =>
    match commandOf w, args with
    | none, _ => .fixed (.error unknownCommand)
    | some .PING, _ => .fixed (.simple (lit "PONG"))
    | some .ECHO, text :: _ => .fixed (.bulk (some text))
    | some .ECHO, [] => .fixed (.error (wrongNumber (lit "echo")))
    | some .SET, key :: value :: opts =>
      match options now opts 0 with
      | .error err => .fixed (.error err)
      | .ok expires_at_ms => .set key value expires_at_ms
    | some .SET, _ => .fixed (.error (wrongNumber (lit "set")))
    | some .GET, key :: _ => .get key
    | some .GET, [] => .fixed (.error (wrongNumber (lit "get")))
    | some .EXISTS, key :: _ => .exist key
    | some .EXISTS, [] => .stray
    | some .DEL, keys => .del keys
    | some .INCR, key :: _ => .incr key
    | some .INCR, [] => .fixed (.error (wrongNumber (lit "incr")))

/-- What a reader finds, and the store it leaves: a lapsed value is gone for good. -/
def find (σ : Store) (key : CString) (now : UInt64) : Store × Option CString :=
  match σ key with
  | none => (σ,none)
  | some h => if h.lapsed now then (Function.update σ key none,none) else (σ,some h.value)

def held (σ : Store) (keys : List CString) : Finset CString :=
  keys.toFinset.filter fun key => (σ key).isSome

def deleted (n count : ℕ) : Answer :=
  if n = 1 then if count = 0 then .integer 0 else .simple (lit "OK") else .integer count

def respond (σ : Store) (now : UInt64) : Request → Except Fault (Store × Answer)
  | .fixed a => .ok (σ,a)
  | .set key value expires_at_ms =>
    .ok (Function.update σ key (some ⟨value,expires_at_ms⟩),.simple (lit "OK"))
  | .get key => .ok ((find σ key now).1,.bulk (find σ key now).2)
  | .exist key => .ok ((find σ key now).1,.integer (if (find σ key now).2.isSome then 1 else 0))
  | .del keys =>
    .ok (fun key => if key ∈ keys then none else σ key,deleted keys.length (held σ keys).card)
  | .incr key =>
    match σ key with
    | none => .ok (Function.update σ key (some ⟨lit "1",0⟩),.integer 1)
    | some h =>
      if ¬ isNumber h.value then .ok (σ,.error notAnInteger)
      else if atoi h.value = INT_MAX then .error .intOverflow
      else .ok (Function.update σ key (some ⟨intText (atoi h.value+1),h.expires_at_ms⟩),
        .integer (atoi h.value+1))
  | .stray => .error .badIndex

/-- One argument list, at its reading of the clock. -/
def answer (σ : Store) (r : UInt64 × List CString) : Except Fault (Store × Answer) :=
  respond σ r.1 (ask r.1 r.2)

def view (t : HashTab) : Store := fun key => (lookup t key).map fun e => ⟨e.value,e.expires_at_ms⟩

/-- A table in order that holds what the store holds. -/
structure Holds (t : HashTab) (σ : Store) : Prop where
  wellFormed : layout.WellFormed t
  view : view t = σ

variable {t : HashTab} {key value : CString}

theorem view_install (exp : UInt64) :
    view (install t key value exp).1 = Function.update (view t) key (some ⟨value,exp⟩) := by
  funext k
  by_cases hk : k = key
  · subst hk
    simp [view,lookup_install_self]
  · simp [view,lookup_install_other hk,Function.update_of_ne hk]

theorem view_undef (hw : layout.WellFormed t) :
    view (undef t key).1 = Function.update (view t) key none := by
  funext k
  by_cases hk : k = key
  · subst hk
    simp [view,lookup_undef_self hw]
  · simp [view,lookup_undef_other hk,Function.update_of_ne hk]

/-- A read of the table is a read of the store. -/
theorem find_view (hw : layout.WellFormed t) (now : UInt64) :
    find (view t) key now = (view (dbGet t key now).1,(dbGet t key now).2) := by
  cases he : lookup t key with
  | none => simp [find,view,dbGet_absent he,he]
  | some e =>
    have hv : view t key = some ⟨e.value,e.expires_at_ms⟩ := by simp [view,he]
    have hl : Held.lapsed ⟨e.value,e.expires_at_ms⟩ now = expired e now := rfl
    cases hx : expired e now with
    | true => simp [find,hv,hl,hx,dbGet_expired he hx,view_undef hw]
    | false => simp [find,hv,hl,hx,dbGet_live he hx]

theorem held_view (keys : List CString) : held (view t) keys = present t keys := by
  simp [held,present,view]

theorem view_deleted (hw : layout.WellFormed t) (keys : List CString) :
    view (keys.foldl delOne (t,0)).1 = fun key => if key ∈ keys then none else view t key := by
  funext key
  simp only [view,lookup_foldl_delOne_eq hw]
  split_ifs <;> rfl

theorem wellFormed_foldl_delOne (keys : List CString) {r : HashTab × ℤ} (hw : layout.WellFormed r.1) :
    layout.WellFormed (keys.foldl delOne r).1 := by
  induction keys generalizing r with
  | nil => exact hw
  | cons key keys ih => exact ih (wellFormed_undef hw)

theorem deleted_text (keys : List CString) (count : ℕ) :
    delReply keys count = (deleted keys.length count).text := by
  unfold delReply deleted
  by_cases hn : keys.length = 1
  · by_cases hc : count = 0 <;> simp [hn,hc,Answer.text]
  · simp [hn,Answer.text]

theorem incr_holds {w : CString} {rest : List CString} (hw : layout.WellFormed t) (now : UInt64)
    (hcmd : commandOf w = some .INCR) :
    Match Holds Answer.text (perform t now (w :: key :: rest)) (respond (view t) now (.incr key)) := by
  have hseed {m : ℤ} {exp : UInt64} (hb : RedisCounter.Begins (lookup t key) m exp) (hm : m < INT_MAX) :
      perform t now (w :: key :: rest) = .ok ((install t key (intText (m+1)) exp).1,respInteger (m+1)) := by
    have hlow := hb.low
    have hrange : atoi (intText (m+1)) = m+1 :=
      NumberText.atoi_denotes (NumberText.denotes_decimal (m+1)) (by omega) (by omega)
    simp only [perform,hcmd,hb.dbIncr hm,hrange]
  cases he : lookup t key with
  | none =>
    have hv : view t key = none := by simp [view,he]
    have hb : RedisCounter.Begins (lookup t key) 0 0 := by
      rw [he]
      exact ⟨rfl,rfl⟩
    rw [hseed hb (by decide)]
    simp only [respond,hv]
    exact ⟨⟨wellFormed_install hw,view_install 0⟩,rfl⟩
  | some e =>
    have hv : view t key = some ⟨e.value,e.expires_at_ms⟩ := by simp [view,he]
    simp only [respond,hv]
    by_cases hn : isNumber e.value = true
    · by_cases hmax : atoi e.value = INT_MAX
      · have herr : dbIncr t key = .error .intOverflow := dbIncr_error.mpr ⟨rfl,e,he,hn,hmax⟩
        simp only [perform,hcmd,herr,hn,hmax,not_true_eq_false,if_false,if_true]
        exact rfl
      · have hb : RedisCounter.Begins (lookup t key) (atoi e.value) e.expires_at_ms := by
          rw [he]
          exact ⟨hn,rfl,rfl⟩
        have hlt : atoi e.value < INT_MAX :=
          lt_of_le_of_ne (Int.le_of_lt_add_one (Int.bmod_lt (by norm_num))) hmax
        rw [hseed hb hlt]
        simp only [hn,hmax,not_true_eq_false,if_false]
        exact ⟨⟨wellFormed_install hw,view_install e.expires_at_ms⟩,rfl⟩
    · have hfail : dbIncr t key = .ok (t,.failed notAnInteger) := by simp [dbIncr,he,hn]
      simp only [perform,hcmd,hfail,hn]
      exact ⟨⟨hw,rfl⟩,rfl⟩

/-- Every argument list does to the table what it does to the store, and gets the reply that
spells the answer. -/
theorem perform_holds (hw : layout.WellFormed t) (now : UInt64) (args : List CString) :
    Match Holds Answer.text (perform t now args) (answer (view t) (now,args)) := by
  have hkeep (a : Answer) : Match Holds Answer.text (.ok (t,a.text)) (respond (view t) now (.fixed a)) :=
    ⟨⟨hw,rfl⟩,rfl⟩
  unfold answer
  cases args with
  | nil => exact hkeep (.error unknownCommand)
  | cons w args =>
    cases hcmd : commandOf w with
    | none =>
      simp only [perform,ask,hcmd]
      exact hkeep (.error unknownCommand)
    | some c =>
      cases c with
      | PING =>
        simp only [perform,ask,hcmd]
        exact hkeep (.simple (lit "PONG"))
      | ECHO =>
        cases args with
        | nil =>
          simp only [perform,ask,hcmd]
          exact hkeep (.error (wrongNumber (lit "echo")))
        | cons text rest =>
          simp only [perform,ask,hcmd]
          exact hkeep (.bulk (some text))
      | SET =>
        rcases args with _ | ⟨key,_ | ⟨value,opts⟩⟩
        · simp only [perform,ask,hcmd]
          exact hkeep (.error (wrongNumber (lit "set")))
        · simp only [perform,ask,hcmd]
          exact hkeep (.error (wrongNumber (lit "set")))
        · simp only [perform,ask,hcmd]
          cases options now opts 0 with
          | error err => exact hkeep (.error err)
          | ok exp => exact ⟨⟨wellFormed_install hw,view_install exp⟩,rfl⟩
      | GET =>
        cases args with
        | nil =>
          simp only [perform,ask,hcmd]
          exact hkeep (.error (wrongNumber (lit "get")))
        | cons key rest =>
          simp only [perform,ask,hcmd,respond,find_view hw]
          exact ⟨⟨wellFormed_dbGet hw key now,rfl⟩,rfl⟩
      | EXISTS =>
        cases args with
        | nil =>
          simp only [perform,ask,hcmd]
          exact rfl
        | cons key rest =>
          simp only [perform,ask,hcmd,respond,find_view hw]
          exact ⟨⟨wellFormed_dbGet hw key now,rfl⟩,rfl⟩
      | DEL =>
        simp only [perform,ask,hcmd,respond,held_view,count_foldl_delOne args hw 0,zero_add]
        exact ⟨⟨wellFormed_foldl_delOne args hw,view_deleted hw args⟩,deleted_text args _⟩
      | INCR =>
        cases args with
        | nil =>
          simp only [perform,ask,hcmd]
          exact hkeep (.error (wrongNumber (lit "incr")))
        | cons key rest =>
          have hask : ask now (w :: key :: rest) = .incr key := by simp only [ask,hcmd]
          rw [hask]
          exact incr_holds hw now hcmd

def reading (r : UInt64 × List Bytes) : UInt64 × List CString := (r.1,r.2.map cut)

/-- A request whose count and lengths an `int` holds. -/
def Sized (r : UInt64 × List Bytes) : Prop := CountFits r.2 ∧ LengthsFit r.2

instance (r : UInt64 × List Bytes) : Decidable (Sized r) := inferInstanceAs (Decidable (_ ∧ _))

theorem serve_holds {t : HashTab} {σ : Store} (h : Holds t σ) {r : UInt64 × List Bytes} (hr : Sized r) :
    Match Holds Answer.text (serve t r) (answer σ (reading r)) := by
  obtain rfl := h.view
  have hserve : serve t r = perform t r.1 (r.2.map cut) := serve_fits hr.1 hr.2 t r.1
  rw [hserve]
  exact perform_holds h.wellFormed r.1 (r.2.map cut)

theorem holds_emptyTab : Holds emptyTab emptyStore := ⟨wellFormed_emptyTab,rfl⟩

/-- Every run of the server from the empty table is a run of the store: it stops where the store
stops, its replies spell the answers, and it leaves what the store leaves. -/
theorem run_serve_eq_answers (rs : List (UInt64 × List Bytes)) (h : ∀ r ∈ rs, Sized r) :
    (run serve emptyTab rs).map (fun q => (view q.1,q.2)) =
      (run answer emptyStore (rs.map reading)).map (fun q => (q.1,q.2.map Answer.text)) :=
  (run_match reading rs (fun _ _ hR r hr => serve_holds hR (h r hr)) holds_emptyTab).map_eq
    fun _ _ hv => hv.view

/-- A value with a lifetime is read before its end and not after it. -/
theorem run_serve_eq_answers_lapse :
    (run serve emptyTab [(0,[ascii "set",ascii "k",ascii "v",ascii "EX",ascii "1"]),(999,[ascii "GET",ascii "k"]),
        (1000,[ascii "GET",ascii "k"]),(1000,[ascii "DEL",ascii "k",ascii "k"])]).map Prod.snd =
      .ok [lit "+OK\r\n",lit "$1\r\nv\r\n",lit "$-1\r\n",lit ":0\r\n"] := by
  have h := run_serve_eq_answers [(0,[ascii "set",ascii "k",ascii "v",ascii "EX",ascii "1"]),
    (999,[ascii "GET",ascii "k"]),(1000,[ascii "GET",ascii "k"]),(1000,[ascii "DEL",ascii "k",ascii "k"])] (by decide)
  have hreplies (x : Except Fault (HashTab × List CString)) :
      (x.map fun q => (view q.1,q.2)).map Prod.snd = x.map Prod.snd := by
    cases x <;> rfl
  rw [← hreplies,h]
  decide +kernel

def Request.keys : Request → Set CString
  | .fixed _ => ∅
  | .set key _ _ => {key}
  | .get key => {key}
  | .exist key => {key}
  | .del keys => {key | key ∈ keys}
  | .incr key => {key}
  | .stray => ∅

def keysOf : List CString → List CString
  | [] => []
  | w :: args =>
    match commandOf w with
    | none => []
    | some .PING => []
    | some .ECHO => []
    | some .DEL => args
    | some _ => args.take 1

theorem keys_ask (now : UInt64) (args : List CString) : (ask now args).keys ⊆ {key | key ∈ keysOf args} := by
  intro key hk
  cases args with
  | nil => exact hk.elim
  | cons w args =>
    cases hcmd : commandOf w with
    | none =>
      simp only [ask,hcmd] at hk
      exact hk.elim
    | some c =>
      cases c with
      | SET =>
        rcases args with _ | ⟨k,_ | ⟨value,opts⟩⟩ <;> simp only [ask,hcmd] at hk
        · exact hk.elim
        · exact hk.elim
        · cases ho : options now opts 0 with
          | error err =>
            rw [ho] at hk
            exact hk.elim
          | ok exp =>
            rw [ho] at hk
            simpa [keysOf,hcmd,Request.keys] using hk
      | _ => cases args <;> simp_all [ask,keysOf,Request.keys]

theorem find_confined (key : CString) (now : UInt64) {σ τ : Store} (h : AgreeOn {key} σ τ) :
    (find σ key now).2 = (find τ key now).2 ∧
      AgreeOn {key} (find σ key now).1 (find τ key now).1 ∧
      ∀ k, k ∉ ({key} : Set CString) → (find σ key now).1 k = σ k := by
  have hk : σ key = τ key := h key rfl
  unfold find
  rw [← hk]
  cases hσ : σ key with
  | none => exact ⟨rfl,h,fun _ _ => rfl⟩
  | some e =>
    dsimp only
    split_ifs with hx
    · refine ⟨rfl,?_,fun k hne => Function.update_of_ne hne _ _⟩
      intro k hm
      obtain rfl := Set.mem_singleton_iff.mp hm
      simp
    · exact ⟨rfl,h,fun _ _ => rfl⟩

theorem agreeOn_update {σ τ : Store} (key : CString) (h : Option Held) :
    AgreeOn {key} (Function.update σ key h) (Function.update τ key h) := by
  intro k hk
  obtain rfl := Set.mem_singleton_iff.mp hk
  simp

theorem respond_incr_confined (key : CString) {σ τ σ' : Store} {a : Answer} (now : UInt64)
    (h : AgreeOn {key} σ τ) (hs : respond σ now (.incr key) = .ok (σ',a)) :
    (∀ k, k ∉ ({key} : Set CString) → σ' k = σ k) ∧
      ∃ τ', respond τ now (.incr key) = .ok (τ',a) ∧ AgreeOn {key} σ' τ' := by
  have hk : σ key = τ key := h key rfl
  simp only [respond,← hk] at hs ⊢
  cases hσ : σ key with
  | none =>
    rw [hσ] at hs
    cases hs
    exact ⟨fun k hne => Function.update_of_ne hne _ _,_,rfl,agreeOn_update key _⟩
  | some e =>
    rw [hσ] at hs
    dsimp only at hs ⊢
    split_ifs at hs ⊢ with hn hmax
    · cases hs
      exact ⟨fun k hne => Function.update_of_ne hne _ _,_,rfl,agreeOn_update key _⟩
    · cases hs
      exact ⟨fun _ _ => rfl,_,rfl,h⟩

theorem respond_confined : Confined (fun σ (q : UInt64 × Request) => respond σ q.1 q.2) fun q => q.2.keys := by
  have hstep : ∀ (σ τ σ' : Store) (q : UInt64 × Request) (a : Answer), AgreeOn q.2.keys σ τ →
      respond σ q.1 q.2 = .ok (σ',a) → (∀ k, k ∉ q.2.keys → σ' k = σ k) ∧
        ∃ τ', respond τ q.1 q.2 = .ok (τ',a) ∧ AgreeOn q.2.keys σ' τ' := by
    rintro σ τ σ' ⟨now,q⟩ a h hs
    cases q with
    | fixed b =>
      cases hs
      exact ⟨fun _ _ => rfl,τ,rfl,h⟩
    | set key value exp =>
      cases hs
      exact ⟨fun k hk => Function.update_of_ne hk _ _,_,rfl,agreeOn_update key _⟩
    | get key =>
      obtain ⟨hfound,hagree,hkeep⟩ := find_confined key now h
      cases hs
      exact ⟨hkeep,_,by rw [respond,hfound],hagree⟩
    | exist key =>
      obtain ⟨hfound,hagree,hkeep⟩ := find_confined key now h
      cases hs
      exact ⟨hkeep,_,by rw [respond,hfound],hagree⟩
    | del keys =>
      have hheld : held σ keys = held τ keys :=
        Finset.filter_congr fun k hk => by rw [h k (List.mem_toFinset.mp hk)]
      cases hs
      refine ⟨fun k hk => if_neg hk,_,by rw [respond,hheld],fun k hk => ?_⟩
      have hm : k ∈ keys := hk
      simp [hm]
    | incr key => exact respond_incr_confined key now h hs
    | stray => cases hs
  exact ⟨fun σ q σ' a k hs hk => (hstep σ σ σ' q a (AgreeOn.refl _ σ) hs).1 k hk,
    fun σ τ q σ' a h hs => (hstep σ τ σ' q a h hs).2⟩

/-- What a request does and answers depends on the keys it names, and it changes no other. -/
theorem answer_confined : Confined answer fun r => {key | key ∈ keysOf r.2} := by
  have hask : Confined answer fun r => (ask r.1 r.2).keys :=
    ⟨fun σ r => respond_confined.keeps σ (r.1,ask r.1 r.2),
      fun σ τ r => respond_confined.depends σ τ (r.1,ask r.1 r.2)⟩
  exact hask.mono fun r => keys_ask r.1 r.2

section Clients

variable {ι : Type}

def serveClient (t : HashTab) (r : ι × UInt64 × List Bytes) : Except Fault (HashTab × CString) :=
  serve t r.2

theorem run_serveClient {t : HashTab} (hw : layout.WellFormed t) (as : List (ι × UInt64 × List Bytes))
    (hsized : ∀ r ∈ as, Sized r.2) :
    Match Holds (List.map Answer.text) (run serveClient t as)
      (run (clientStep answer) (view t) (as.map fun r => (r.1,reading r.2))) :=
  run_match (R:=Holds) (f:=Answer.text) (fun r => (r.1,reading r.2)) as
    (fun _ _ hR r hr => serve_holds hR (hsized r hr)) ⟨hw,rfl⟩

variable [DecidableEq ι]

/-- Clients that name no key of another client are isolated: each gets the replies it gets
alone, and any schedule of the same requests gives everybody the same replies and leaves the
same store. -/
theorem clients_isolated (owner : CString → ι) (as bs : List (ι × UInt64 × List Bytes)) {t u : HashTab}
    {replies : List CString} (ht : Reachable t) (hsized : ∀ r ∈ as, Sized r.2)
    (hown : ∀ r ∈ as, ∀ key ∈ keysOf (reading r.2).2, owner key = r.1)
    (hsame : ∀ i, actionsOf i as = actionsOf i bs) (hr : run serveClient t as = .ok (u,replies)) :
    (∀ i, ∃ v, run serve t (actionsOf i as) = .ok (v,outputsOf i as replies)) ∧
    ∃ u' replies', run serveClient t bs = .ok (u',replies') ∧ view u' = view u ∧
      ∀ i, outputsOf i bs replies' = outputsOf i as replies := by
  have hw := wellFormed_of_reachable ht
  have hmem : ∀ r ∈ bs, r ∈ as := fun r hb => mem_actionsOf.mp (hsame r.1 ▸ mem_actionsOf.mpr hb)
  have hsep (cs : List (ι × UInt64 × List Bytes)) (hcs : ∀ r ∈ cs, r ∈ as) :
      Separate (fun r : UInt64 × List CString => {key | key ∈ keysOf r.2}) (fun i => {key | owner key = i})
        (cs.map fun r => (r.1,reading r.2)) := by
    constructor
    · intro a ha key hk
      obtain ⟨r,hrc,rfl⟩ := List.mem_map.mp ha
      exact hown r (hcs r hrc) key hk
    · exact fun i j key hi hj => hi.symm.trans hj
  have hm := run_serveClient hw as hsized
  rw [hr] at hm
  obtain ⟨σ,answers,hrun,hview,rfl⟩ := hm.of_ok
  constructor
  · intro i
    obtain ⟨τ,hτ,-⟩ := answer_confined.run_project i _ (hsep as fun _ h => h) (AgreeOn.refl _ _) hrun
    rw [actionsOf_map] at hτ
    have hone := run_match (R:=Holds) (f:=Answer.text) reading (actionsOf i as)
      (fun _ _ hR r hri => serve_holds hR (hsized (i,r) (mem_actionsOf.mp hri))) ⟨hw,rfl⟩
    rw [hτ] at hone
    obtain ⟨v,hv,-⟩ := hone.to_ok
    rw [outputsOf_map reading]
    exact ⟨v,hv⟩
  · have hsame' : ∀ i, actionsOf i (as.map fun r => (r.1,reading r.2)) =
        actionsOf i (bs.map fun r => (r.1,reading r.2)) := fun i => by
      rw [actionsOf_map,actionsOf_map,hsame]
    obtain ⟨answers',hrun',hout⟩ :=
      answer_confined.run_reschedule (hsep as fun _ h => h) (hsep bs hmem) hsame' hrun
    have hm' := run_serveClient hw bs fun r hb => hsized r (hmem r hb)
    rw [hrun'] at hm'
    obtain ⟨u',hu',hview'⟩ := hm'.to_ok
    refine ⟨u',_,hu',hview'.view.trans hview.view.symm,fun i => ?_⟩
    rw [outputsOf_map reading,outputsOf_map reading,hout i]

def twoClients : List (Bool × UInt64 × List Bytes) :=
  [(true,0,[ascii "SET",ascii "a",ascii "1"]),(false,0,[ascii "INCR",ascii "b"]),(true,1,[ascii "INCR",ascii "a"])]

def twoClientsLater : List (Bool × UInt64 × List Bytes) :=
  [(true,0,[ascii "SET",ascii "a",ascii "1"]),(true,1,[ascii "INCR",ascii "a"]),(false,0,[ascii "INCR",ascii "b"])]

theorem clients_isolated_two : ∃ u replies u' replies',
    run serveClient emptyTab twoClients = .ok (u,replies) ∧
    run serveClient emptyTab twoClientsLater = .ok (u',replies') ∧ view u' = view u ∧
      outputsOf true twoClientsLater replies' = outputsOf true twoClients replies := by
  have hown : ∀ r ∈ twoClients, ∀ key ∈ keysOf (reading r.2).2, decide (key = lit "a") = r.1 := by decide
  obtain ⟨u,replies,hr⟩ : ∃ u replies, run serveClient emptyTab twoClients = .ok (u,replies) := ⟨_,_,rfl⟩
  obtain ⟨_,u',replies',hr',hview,hout⟩ := clients_isolated (fun key => decide (key = lit "a"))
    twoClients twoClientsLater ⟨[],[],rfl⟩ (by decide) hown (by decide) hr
  exact ⟨u,replies,u',replies',hr,hr',hview,hout true⟩

end Clients

end RedisStore
end CodingChallenges
