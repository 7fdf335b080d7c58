import CodingChallenges.Runs
import CodingChallenges.RedisMap

/-! The public functions of the store (`db.h`) under a clock.
Reads delete expired entries on the way; the store that only filters by time is
the reference they are compared with. `db_del` and `db_incr` look at no expiry,
and what follows from that is stated against a store without the key. -/
namespace CodingChallenges
namespace RedisExpiry

open CText CMemory ChainedTable RedisDb RedisMap Runs

/-- The calls that neither fail nor count. A read carries the `now_ms()` it sees. -/
inductive Access
  | set (key value : CString)
  | setEx (key value : CString) (expires_at_ms : UInt64)
  | get (key : CString) (now : UInt64)
  | del (key : CString)

inductive Op
  | access (a : Access)
  | incr (key : CString)

inductive Result
  | done
  | copy (value : Option CString)
  | removed (found : Bool)
  | counted (res : DbResult)
  deriving DecidableEq

def access (t : HashTab) : Access → HashTab × Result
  | .set key value => (dbSet t key value,.done)
  | .setEx key value expires_at_ms => (dbSetEx t key value expires_at_ms,.done)
  | .get key now =>
    let r := dbGet t key now
    (r.1,.copy r.2)
  | .del key =>
    let r := dbDel t key
    (r.1,.removed r.2)

def call (t : HashTab) : Op → Except Fault (HashTab × Result)
  | .access a => .ok (access t a)
  | .incr key => do
    let r ← dbIncr t key
    .ok (r.1,.counted r.2)

theorem wellFormed_dbGet {t : HashTab} (hw : layout.WellFormed t) (key : CString) (now : UInt64) :
    layout.WellFormed (dbGet t key now).1 := by
  unfold dbGet
  split
  · exact hw
  · split
    · exact wellFormed_undef hw
    · exact hw

theorem wellFormed_access {t : HashTab} (hw : layout.WellFormed t) (a : Access) :
    layout.WellFormed (access t a).1 := by
  cases a with
  | set key value => exact wellFormed_install hw
  | setEx key value expires_at_ms => exact wellFormed_install hw
  | get key now => exact wellFormed_dbGet hw key now
  | del key => exact wellFormed_undef hw

theorem wellFormed_call {t t' : HashTab} {op : Op} {r : Result} (hw : layout.WellFormed t)
    (h : call t op = .ok (t',r)) : layout.WellFormed t' := by
  cases op with
  | access a =>
    have ht : (access t a).1 = t' := congrArg Prod.fst (Except.ok.inj h)
    exact ht ▸ wellFormed_access hw a
  | incr key =>
    obtain ⟨q,hq,hr⟩ := bind_eq_ok.mp h
    cases hr
    rcases dbIncr_table hq with h | ⟨value,exp,h⟩
    · rwa [h]
    · rw [h]
      exact wellFormed_install hw

def Reachable (t : HashTab) : Prop := ∃ ops results, run call emptyTab ops = .ok (t,results)

theorem wellFormed_of_reachable {t : HashTab} (h : Reachable t) : layout.WellFormed t := by
  obtain ⟨ops,results,hr⟩ := h
  exact run_invariant (G:=fun _ _ => True) (fun s a s' o hw _ hs => wellFormed_call hw hs)
    (allSteps_of_forall ops (fun _ _ _ => trivial) emptyTab) wellFormed_emptyTab hr

def Access.reading : Access → Option UInt64
  | .get _ now => some now
  | _ => none

def copies (results : List Result) : List (Option CString) :=
  results.filterMap fun
    | .copy value => some value
    | _ => none

/-- What a held value looks like at a time: nothing once its expiry has come. -/
def visible (held : Option (CString × UInt64)) (now : UInt64) : Option CString :=
  match held with
  | none => none
  | some (value,exp) => if exp = 0 ∨ now < exp then some value else none

/-- The store that keeps what was last written and filters by time on read. -/
def filterStore (held : CString → Option (CString × UInt64)) :
    Access → (CString → Option (CString × UInt64)) × Result
  | .set key value => (Function.update held key (some (value,0)),.done)
  | .setEx key value expires_at_ms => (Function.update held key (some (value,expires_at_ms)),.done)
  | .get key now => (held,.copy (visible (held key) now))
  | .del key => (Function.update held key none,.removed (held key).isSome)

def Access.writes (key : CString) : Access → Prop
  | .set k _ => k = key
  | .setEx k _ _ => k = key
  | .get _ _ => False
  | .del k => k = key

def recordWrite (key : CString) (held : Option (CString × UInt64)) :
    Access → Option (CString × UInt64)
  | .set k value => if k = key then some (value,0) else held
  | .setEx k value expires_at_ms => if k = key then some (value,expires_at_ms) else held
  | .get _ _ => held
  | .del k => if k = key then none else held

/-- What the last `db_set`, `db_set_ex` or `db_del` of the key stored. -/
def lastWrite (key : CString) (calls : List Access) : Option (CString × UInt64) :=
  calls.foldl (recordWrite key) none

/-- The real store holds what the reference holds, up to entries that have expired. -/
structure Agrees (now : UInt64) (t : HashTab) (held : CString → Option (CString × UInt64)) : Prop where
  wf : layout.WellFormed t
  entry : ∀ key, lookup t key = (held key).map (entryOf key) ∨
    (lookup t key = none ∧ ∃ value exp, held key = some (value,exp) ∧ exp ≠ 0 ∧ exp ≤ now)

theorem agrees_empty (now : UInt64) : Agrees now emptyTab fun _ => none :=
  ⟨wellFormed_emptyTab,fun _ => Or.inl rfl⟩

theorem Agrees.later {now now' : UInt64} {t : HashTab} {held : CString → Option (CString × UInt64)}
    (h : Agrees now t held) (hn : now ≤ now') : Agrees now' t held where
  wf := h.wf
  entry := fun key => (h.entry key).imp id fun ⟨hl,value,exp,hh,h0,hle⟩ =>
    ⟨hl,value,exp,hh,h0,UInt64.le_trans hle hn⟩

theorem Agrees.install {now : UInt64} {t : HashTab} {held : CString → Option (CString × UInt64)}
    (h : Agrees now t held) (key value : CString) (exp : UInt64) :
    Agrees now (RedisDb.install t key value exp).1 (Function.update held key (some (value,exp))) where
  wf := wellFormed_install h.wf
  entry := by
    intro k
    by_cases hk : k = key
    · subst hk
      rw [lookup_install_self,Function.update_self]
      exact Or.inl rfl
    · rw [lookup_install_other hk,Function.update_of_ne hk]
      exact h.entry k

theorem Agrees.undef {now : UInt64} {t : HashTab} {held : CString → Option (CString × UInt64)}
    (h : Agrees now t held) (key : CString) :
    Agrees now (RedisDb.undef t key).1 (Function.update held key none) where
  wf := wellFormed_undef h.wf
  entry := by
    intro k
    by_cases hk : k = key
    · subst hk
      rw [lookup_undef_self h.wf,Function.update_self]
      exact Or.inl rfl
    · rw [lookup_undef_other hk,Function.update_of_ne hk]
      exact h.entry k

theorem visible_expired {key : CString} {p : CString × UInt64} {now : UInt64}
    (hx : expired (entryOf key p) now = true) : visible (some p) now = none := by
  obtain ⟨h0,hle⟩ : p.2 ≠ 0 ∧ p.2 ≤ now := expired_iff.mp hx
  have hvis : ¬ (p.2 = 0 ∨ now < p.2) := not_or.mpr ⟨h0,UInt64.not_lt.mpr hle⟩
  rw [visible,if_neg hvis]

theorem visible_live {key : CString} {p : CString × UInt64} {now : UInt64}
    (hx : expired (entryOf key p) now = false) : visible (some p) now = some p.1 := by
  have hlive : ¬ (p.2 ≠ 0 ∧ p.2 ≤ now) := by
    intro h
    have he : expired (entryOf key p) now = true := expired_iff.mpr h
    rw [hx] at he
    contradiction
  have hvis : p.2 = 0 ∨ now < p.2 := by
    by_cases h0 : p.2 = 0
    · exact Or.inl h0
    · exact Or.inr (UInt64.not_le.mp fun hle => hlive ⟨h0,hle⟩)
  rw [visible,if_pos hvis]

theorem Agrees.dbGet {now : UInt64} {t : HashTab} {held : CString → Option (CString × UInt64)}
    (h : Agrees now t held) (key : CString) :
    (RedisDb.dbGet t key now).2 = visible (held key) now ∧ Agrees now (RedisDb.dbGet t key now).1 held := by
  have he := h.entry key
  cases hh : held key with
  | none =>
    have hl : lookup t key = none := by simpa [hh] using he
    rw [dbGet_absent hl]
    exact ⟨rfl,h⟩
  | some p =>
    rcases he with hl | ⟨hl,value,exp,hv,h0,hle⟩
    · rw [hh,Option.map_some] at hl
      cases hx : expired (entryOf key p) now with
      | true =>
        rw [dbGet_expired hl hx,visible_expired hx]
        refine ⟨rfl,wellFormed_undef h.wf,?_⟩
        intro k
        by_cases hk : k = key
        · subst hk
          exact Or.inr ⟨lookup_undef_self h.wf,p.1,p.2,hh,expired_iff.mp hx⟩
        · rw [lookup_undef_other hk]
          exact h.entry k
      | false =>
        rw [dbGet_live hl hx,visible_live hx]
        exact ⟨rfl,h⟩
    · have hx : expired (entryOf key (value,exp)) now = true := expired_iff.mpr ⟨h0,hle⟩
      rw [dbGet_absent hl,← hh,hv,visible_expired hx]
      exact ⟨rfl,h⟩

/-- One call keeps the agreement; a read has to come no earlier than `now`. -/
theorem Agrees.access {now : UInt64} {t : HashTab} {held : CString → Option (CString × UInt64)}
    (h : Agrees now t held) (a : Access) (ha : ∀ r, a.reading = some r → now ≤ r) :
    Agrees (a.reading.getD now) (access t a).1 (filterStore held a).1 ∧
      copies [(RedisExpiry.access t a).2] = copies [(filterStore held a).2] := by
  cases a with
  | set key value => exact ⟨h.install key value 0,rfl⟩
  | setEx key value expires_at_ms => exact ⟨h.install key value expires_at_ms,rfl⟩
  | get key r =>
    have hg := (h.later (ha r rfl)).dbGet key
    refine ⟨hg.2,?_⟩
    simp [RedisExpiry.access,filterStore,copies,hg.1]
  | del key => exact ⟨h.undef key,rfl⟩

theorem copies_cons (r : Result) (rs : List Result) : copies (r :: rs) = copies [r] ++ copies rs := by
  cases r <;> simp [copies]

/-- A run keeps the agreement up to its last reading, and returns the same texts. -/
theorem Agrees.follow (calls : List Access) {now : UInt64} {t : HashTab}
    {held : CString → Option (CString × UInt64)} (h : Agrees now t held)
    (hc : (now :: calls.filterMap Access.reading).Pairwise (· ≤ ·)) :
    copies (Runs.follow RedisExpiry.access t calls).2 = copies (Runs.follow filterStore held calls).2 ∧
      ∀ last, (∀ r ∈ now :: calls.filterMap Access.reading, r ≤ last) →
        Agrees last (Runs.follow RedisExpiry.access t calls).1 (Runs.follow filterStore held calls).1 := by
  induction calls generalizing now t held with
  | nil => exact ⟨rfl,fun last hl => h.later (hl now (by simp))⟩
  | cons a calls ih =>
    have ha : ∀ r, a.reading = some r → now ≤ r := by
      intro r hr
      exact (List.pairwise_cons.mp hc).1 r (by simp [hr])
    have hs := h.access a ha
    have hn : (a.reading.getD now :: calls.filterMap Access.reading).Pairwise (· ≤ ·) := by
      cases hr : a.reading with
      | none => simpa [hr] using hc
      | some r =>
        simp only [List.filterMap_cons,hr] at hc
        exact (List.pairwise_cons.mp hc).2
    have ht := ih hs.1 hn
    constructor
    · simp only [Runs.follow]
      rw [copies_cons,hs.2,ht.1,← copies_cons]
    · intro last hl
      refine ht.2 last ?_
      intro r hr
      rcases List.mem_cons.mp hr with rfl | hr
      · cases hq : a.reading with
        | none => exact hl now (by simp)
        | some q => exact hl q (by simp [hq])
      · apply hl
        cases hq : a.reading <;> simp [hq,hr]

theorem filterStore_follow (key : CString) (calls : List Access)
    (held : CString → Option (CString × UInt64)) :
    (Runs.follow filterStore held calls).1 key = calls.foldl (recordWrite key) (held key) := by
  induction calls generalizing held with
  | nil => rfl
  | cons a calls ih =>
    have hs := ih (filterStore held a).1
    have ha : (filterStore held a).1 key = recordWrite key (held key) a := by
      cases a <;> simp [filterStore,recordWrite,Function.update_apply,eq_comm]
    rw [List.foldl_cons,← ha]
    exact hs

theorem recordWrite_other {key : CString} {a : Access} (h : ¬ a.writes key)
    (held : Option (CString × UInt64)) : recordWrite key held a = held := by
  cases a <;> simp_all [recordWrite,Access.writes]

theorem foldl_recordWrite_other {key : CString} (calls : List Access)
    (h : ∀ a ∈ calls, ¬ a.writes key) (held : Option (CString × UInt64)) :
    calls.foldl (recordWrite key) held = held := by
  induction calls with
  | nil => rfl
  | cons a calls ih =>
    rw [List.foldl_cons,recordWrite_other (h a (by simp))]
    exact ih fun b hb => h b (by simp [hb])

theorem visible_eq_some {held : Option (CString × UInt64)} {now : UInt64} {value : CString} :
    visible held now = some value ↔ ∃ exp, held = some (value,exp) ∧ (exp = 0 ∨ now < exp) := by
  unfold visible
  split
  · simp
  · rename_i v exp
    split_ifs with h
    · simp only [Option.some.injEq,Prod.mk.injEq]
      exact ⟨fun hv => ⟨exp,⟨hv,rfl⟩,h⟩,fun ⟨_,hv,_⟩ => hv.1⟩
    · simp only [false_iff,Option.some.injEq,Prod.mk.injEq]
      rintro ⟨e,⟨_,rfl⟩,he⟩
      exact h he

theorem dbGet_follow {pre post : List Access} {key : CString} {now : UInt64}
    (hc : ((pre ++ .get key now :: post).filterMap Access.reading).Pairwise (· ≤ ·)) :
    (RedisDb.dbGet (Runs.follow access emptyTab pre).1 key now).2 = visible (lastWrite key pre) now := by
  simp only [List.filterMap_append,List.filterMap_cons,Access.reading] at hc
  have hp := List.pairwise_append.mp hc
  have h0 : ((0 : UInt64) :: pre.filterMap Access.reading).Pairwise (· ≤ ·) :=
    List.pairwise_cons.mpr ⟨fun r _ => UInt64.zero_le,hp.1⟩
  have hl : ∀ r ∈ (0 : UInt64) :: pre.filterMap Access.reading, r ≤ now := by
    intro r hr
    rcases List.mem_cons.mp hr with rfl | hr
    · exact UInt64.zero_le
    · exact hp.2.2 r hr now (by simp)
  have ha := ((agrees_empty 0).follow pre h0).2 now hl
  rw [(ha.dbGet key).1,filterStore_follow]
  rfl

/-- Lazy deletion is invisible to readers: each read returns the value of the last
write of its key unless that write has expired, the reads of a run are those of a
store that never removes an entry, and a plain set ends an older expiry. -/
theorem reads_eq_filterStore (calls : List Access)
    (hclock : (calls.filterMap Access.reading).Pairwise (· ≤ ·)) :
    (∀ pre key now post, calls = pre ++ .get key now :: post → ∀ value,
      (RedisDb.dbGet (Runs.follow access emptyTab pre).1 key now).2 = some value ↔
        ∃ exp, lastWrite key pre = some (value,exp) ∧ (exp = 0 ∨ now < exp)) ∧
    copies (Runs.follow access emptyTab calls).2 =
      copies (Runs.follow filterStore (fun _ => none) calls).2 ∧
    (∀ pre key value mid now post,
      calls = (pre ++ .set key value :: mid) ++ .get key now :: post →
      (∀ a ∈ mid, ¬ a.writes key) →
      (RedisDb.dbGet (Runs.follow access emptyTab (pre ++ .set key value :: mid)).1 key now).2 =
        some value) := by
  refine ⟨?_,?_,?_⟩
  · rintro pre key now post rfl value
    rw [dbGet_follow hclock,visible_eq_some]
  · have h0 : ((0 : UInt64) :: calls.filterMap Access.reading).Pairwise (· ≤ ·) :=
      List.pairwise_cons.mpr ⟨fun r _ => UInt64.zero_le,hclock⟩
    exact ((agrees_empty 0).follow calls h0).1
  · rintro pre key value mid now post rfl hmid
    rw [dbGet_follow hclock,visible_eq_some]
    refine ⟨0,?_,Or.inl rfl⟩
    rw [lastWrite,List.foldl_append,List.foldl_cons,foldl_recordWrite_other mid hmid]
    simp [recordWrite]

def lapseCalls : List Access :=
  [.setEx (lit "k") (lit "v") 5,.get (lit "k") 3,.get (lit "k") 7,.set (lit "k") (lit "w"),.get (lit "k") 9]

theorem reads_eq_filterStore_lapse :
    copies (Runs.follow access emptyTab lapseCalls).2 =
        copies (Runs.follow filterStore (fun _ => none) lapseCalls).2 ∧
      (RedisDb.dbGet (Runs.follow access emptyTab (lapseCalls.take 4)).1 (lit "k") 9).2 = some (lit "w") :=
  have h := reads_eq_filterStore lapseCalls (by decide)
  ⟨h.2.1,h.2.2 [.setEx (lit "k") (lit "v") 5,.get (lit "k") 3,.get (lit "k") 7] (lit "k") (lit "w") [] 9 []
    rfl (by simp)⟩

def observe (t : HashTab) (ops : List Op) : Except Fault (List Result) :=
  (run call t ops).map Prod.snd

def Op.reading : Op → Option UInt64
  | .access a => a.reading
  | .incr _ => none

/-- The readings from `now` on never decrease. -/
def ClockFrom (now : UInt64) (ops : List Op) : Prop :=
  (now :: ops.filterMap Op.reading).Pairwise (· ≤ ·)

/-- The call at `now` and everything after it come out as if the key had no entry. -/
def SameAsAbsent (t : HashTab) (key : CString) (now : UInt64) (op : Op) : Prop :=
  ∀ later, ClockFrom now later →
    observe t (op :: later) = observe (RedisDb.undef t key).1 (op :: later)

def Touches (key : CString) (now : UInt64) (op : Op) : Prop :=
  op = .access (.get key now) ∨ op = .access (.del key) ∨ op = .incr key

theorem dbIncr_absent {t : HashTab} {key : CString} (h : lookup t key = none) :
    RedisDb.dbIncr t key = .ok ((RedisDb.install t key (lit "1") 0).1,.ok (lit "1")) := by
  simp [RedisDb.dbIncr,h,install_entry]

theorem dbIncr_keeps_expiry {t t' : HashTab} {key : CString} {e : Entry} {res : DbResult}
    (he : lookup t key = some e) (h : RedisDb.dbIncr t key = .ok (t',res)) :
    ∃ e', lookup t' key = some e' ∧ e'.expires_at_ms = e.expires_at_ms := by
  simp only [RedisDb.dbIncr,he] at h
  split at h
  · cases h
    exact ⟨e,he,rfl⟩
  · obtain ⟨n,_,hr⟩ := bind_eq_ok.mp h
    cases hr
    exact ⟨_,lookup_install_self,rfl⟩

theorem expired_congr {e e' : Entry} (h : e'.expires_at_ms = e.expires_at_ms) (now : UInt64) :
    expired e' now = expired e now := by
  simp [expired,h]

theorem get_sameAsAbsent {t : HashTab} (hw : layout.WellFormed t) {key : CString} {now : UInt64}
    {e : Entry} (he : lookup t key = some e) (hx : expired e now = true) :
    SameAsAbsent t key now (.access (.get key now)) := by
  intro later _
  have hn : lookup (RedisDb.undef t key).1 key = none := lookup_undef_self hw
  have ha := dbGet_absent hn now
  simp [observe,run,call,access,dbGet_expired he hx,ha]

/-- `db_del` reports that the expired key existed. -/
theorem del_not_sameAsAbsent {t : HashTab} (hw : layout.WellFormed t) {key : CString} {now : UInt64}
    {e : Entry} (he : lookup t key = some e) :
    ¬ SameAsAbsent t key now (.access (.del key)) := by
  intro h
  have hn := h [] (by simp [ClockFrom])
  have hf : (RedisDb.undef t key).2 = true := by simp [undef_found,he]
  have ha : (RedisDb.undef (RedisDb.undef t key).1 key).2 = false := by
    simp [undef_found,lookup_undef_self hw]
  simp [observe,run,call,access,dbDel,Except.map,hf,ha] at hn

/-- `db_incr` counts on from the expired value and keeps its expiry: a read at the
same time misses what was just stored. -/
theorem incr_not_sameAsAbsent {t : HashTab} (hw : layout.WellFormed t) {key : CString} {now : UInt64}
    {e : Entry} (he : lookup t key = some e) (hx : expired e now = true) :
    ¬ SameAsAbsent t key now (.incr key) := by
  intro h
  have hn := h [.access (.get key now)] (by simp [ClockFrom,Op.reading,Access.reading])
  have hu : lookup (RedisDb.undef t key).1 key = none := lookup_undef_self hw
  have hi := dbIncr_absent hu
  have hl : lookup (RedisDb.install (RedisDb.undef t key).1 key (lit "1") 0).1 key =
      some ⟨key,lit "1",0⟩ := lookup_install_self
  have hx₁ : expired ⟨key,lit "1",0⟩ now = false := by simp [expired]
  have hg := dbGet_live hl hx₁
  have hr : observe (RedisDb.undef t key).1 [.incr key,.access (.get key now)] =
      .ok [.counted (.ok (lit "1")),.copy (some (lit "1"))] := by
    simp [observe,run,call,access,hi,hg,Except.map,bind,Except.bind]
  rw [hr] at hn
  cases hq : RedisDb.dbIncr t key with
  | error f => simp [observe,run,call,hq,Except.map,bind,Except.bind] at hn
  | ok q =>
    obtain ⟨e',he',hee⟩ := dbIncr_keeps_expiry he hq
    have hx' : expired e' now = true := (expired_congr hee now).trans hx
    simp [observe,run,call,access,hq,dbGet_expired he' hx',Except.map,bind,Except.bind] at hn

/-- Of the three calls only `db_get` treats an expired key as an absent one. -/
theorem sameAsAbsent_iff_get (t : HashTab) (hr : Reachable t) (key : CString) (now : UInt64) (e : Entry)
    (he : lookup t key = some e) (h0 : e.expires_at_ms ≠ 0) (hle : e.expires_at_ms ≤ now)
    (op : Op) (hop : Touches key now op) :
    SameAsAbsent t key now op ↔ op = .access (.get key now) := by
  have hw := wellFormed_of_reachable hr
  have hx : expired e now = true := expired_iff.mpr ⟨h0,hle⟩
  constructor
  · intro h
    rcases hop with rfl | rfl | rfl
    · rfl
    · exact absurd h (del_not_sameAsAbsent hw he)
    · exact absurd h (incr_not_sameAsAbsent hw he hx)
  · rintro rfl
    exact get_sameAsAbsent hw he hx

def lapsedStore : HashTab := dbSetEx emptyTab (lit "k") (lit "5") 1

theorem reachable_lapsedStore : Reachable lapsedStore :=
  ⟨[.access (.setEx (lit "k") (lit "5") 1)],[.done],rfl⟩

theorem sameAsAbsent_iff_get_lapsed :
    SameAsAbsent lapsedStore (lit "k") 2 (.access (.get (lit "k") 2)) :=
  (sameAsAbsent_iff_get lapsedStore reachable_lapsedStore (lit "k") 2 ⟨lit "k",lit "5",1⟩
    lookup_install_self (by decide) (by decide) _ (Or.inl rfl)).mpr rfl

/-- `db_del` says true at time 2, and `db_incr` counts to 6. -/
theorem expired_key_not_absent :
    ¬ (∀ t, Reachable t → ∀ key now e, lookup t key = some e → e.expires_at_ms ≠ 0 →
      e.expires_at_ms ≤ now → ∀ op, Touches key now op → SameAsAbsent t key now op) ∧
    (dbDel lapsedStore (lit "k")).2 = true ∧
    (dbIncr lapsedStore (lit "k")).map Prod.snd = .ok (.ok (lit "6")) := by
  refine ⟨?_,by decide,by decide⟩
  intro h
  have hd := h lapsedStore reachable_lapsedStore (lit "k") 2 ⟨lit "k",lit "5",1⟩ lookup_install_self
    (by decide) (by decide) (.access (.del (lit "k"))) (Or.inr (Or.inl rfl))
  exact absurd (hd [] (by simp [ClockFrom])) (by decide)

end RedisExpiry
end CodingChallenges
