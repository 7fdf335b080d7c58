import CodingChallenges.NumberText
import CodingChallenges.RedisClients

/-! INCR as a counter: what one increment makes of every text, and how increments add up
in a run with other clients. -/
namespace CodingChallenges
namespace RedisCounter

open CText CMemory ChainedTable PointerTable RedisDb RedisHeap RedisClients NumberText Runs
open RedisExpiry (Op Reachable Result call)

theorem length_pos_of_denotes {s : Bytes} {z : ℤ} (h : Denotes s z) : 0 < s.length := by
  obtain ⟨_,_,_,hne⟩ := h
  have hl := List.length_pos_of_ne_nil hne
  simp only [List.length_append]
  omega

theorem isNumber_iff {s : CString} :
    isNumber s = true ↔ ∃ z, Denotes s.bytes z ∧ INT_MIN ≤ z ∧ z ≤ INT_MAX := by
  constructor
  · intro h
    simp only [isNumber,Bool.and_eq_true,decide_eq_true_eq,beq_iff_eq,Bool.not_eq_true'] at h
    obtain ⟨⟨⟨⟨hne,hused⟩,herange⟩,hlow⟩,hhigh⟩ := h
    obtain ⟨z,hz⟩ := denotes_of_strtol hused hne
    rw [strtol_denotes hz] at herange hlow hhigh
    have hr := of_decide_eq_false herange
    have hs : saturate z = z := saturate_of_range (by omega) (by omega)
    rw [hs] at hlow hhigh
    exact ⟨z,hz,hlow,hhigh⟩
  · rintro ⟨z,hz,hlow,hhigh⟩
    have h₁ : LONG_MIN ≤ z := le_trans (by decide) hlow
    have h₂ : z ≤ LONG_MAX := le_trans hhigh (by decide)
    have hpos : s.length ≠ 0 := (length_pos_of_denotes hz).ne'
    have hrange : ¬ (z < LONG_MIN ∨ LONG_MAX < z) := by omega
    simp [isNumber,strtol_denotes hz,saturate_of_range h₁ h₂,hpos,hrange,hlow,hhigh]

/-- The increment of a number below the largest one. -/
theorem dbIncr_denotes {t : HashTab} {key : CString} {e : Entry} {z : ℤ} (he : lookup t key = some e)
    (h : Denotes e.value.bytes z) (hlow : INT_MIN ≤ z) (hhigh : z < INT_MAX) :
    dbIncr t key = .ok ((install t key (intText (z+1)) e.expires_at_ms).1,.ok (intText (z+1))) := by
  have hn : isNumber e.value = true := isNumber_iff.mpr ⟨z,h,hlow,hhigh.le⟩
  have ha : addInt (atoi e.value) 1 = .ok (z+1) := by
    rw [atoi_denotes h hlow hhigh.le]
    exact addInt_of_range (by omega) (by omega)
  simp [dbIncr,he,hn,ha,install_entry,bind,Except.bind]

/-- The increment counts on from the integer the text denotes and stores what it returns, or
fails and leaves every key as it is. -/
def IncrCorrect (t : HashTab) (key s : CString) : Prop :=
  (∃ z t' e, Denotes s.bytes z ∧ dbIncr t key = .ok (t',.ok (intText (z+1))) ∧
    lookup t' key = some e ∧ e.value = intText (z+1)) ∨
  ∃ t' error, dbIncr t key = .ok (t',.failed error) ∧ ∀ key', lookup t' key' = lookup t key'

/-- The increment is correct on every text but those of the largest `int`. -/
theorem incrCorrect_iff (t : HashTab) (key : CString) (e : Entry) (he : lookup t key = some e) :
    IncrCorrect t key e.value ↔ ¬ Denotes e.value.bytes INT_MAX := by
  constructor
  · intro h hmax
    have hn : isNumber e.value = true := isNumber_iff.mpr ⟨INT_MAX,hmax,by decide,le_refl _⟩
    have herr : dbIncr t key = .error .intOverflow :=
      dbIncr_error.mpr ⟨rfl,e,he,hn,atoi_denotes hmax (by decide) (le_refl _)⟩
    rcases h with ⟨z,t',e',_,h,_⟩ | ⟨t',error,h,_⟩
    · simp [herr] at h
    · simp [herr] at h
  · intro hmax
    by_cases hn : isNumber e.value = true
    · obtain ⟨z,hz,hlow,hhigh⟩ := isNumber_iff.mp hn
      have hlt : z < INT_MAX := lt_of_le_of_ne hhigh fun h => hmax (h ▸ hz)
      exact Or.inl ⟨z,_,_,hz,dbIncr_denotes he hz hlow hlt,lookup_install_self,rfl⟩
    · refine Or.inr ⟨t,notAnInteger,?_,fun _ => rfl⟩
      simp [dbIncr,he,hn]

theorem incrCorrect_iff_spelled :
    IncrCorrect (dbSet emptyTab (lit "k") (lit " -08")) (lit "k") (lit " -08") := by
  have h := (incrCorrect_iff (dbSet emptyTab (lit "k") (lit " -08")) (lit "k") ⟨lit "k",lit " -08",0⟩
    lookup_install_self).mpr
  refine h fun hd => ?_
  have hn := readNumeral_eq_some_length.mpr hd
  exact absurd hn (by decide)

def fullStore : HashTab := dbSet emptyTab (lit "k") (lit "2147483647")

/-- The check accepts the text and the sum leaves `int`. -/
theorem db_incr_overflows :
    ¬ (∀ t, Reachable t → ∀ key now e, lookup t key = some e → expired e now = false →
      IncrCorrect t key e.value) ∧
    dbIncr fullStore (lit "k") = .error .intOverflow := by
  have herr : dbIncr fullStore (lit "k") = .error .intOverflow := by decide
  refine ⟨fun h => ?_,herr⟩
  have hr : Reachable fullStore := ⟨[.access (.set (lit "k") (lit "2147483647"))],[.done],rfl⟩
  rcases h fullStore hr (lit "k") 0 ⟨lit "k",lit "2147483647",0⟩ lookup_install_self rfl with
    ⟨z,t',e,_,hi,_⟩ | ⟨t',error,hi,_⟩
  · simp [herr] at hi
  · simp [herr] at hi

def Begins (held : Option Entry) (m : ℤ) (exp : UInt64) : Prop :=
  match held with
  | none => m = 0 ∧ exp = 0
  | some e => isNumber e.value = true ∧ atoi e.value = m ∧ e.expires_at_ms = exp

instance (held : Option Entry) (m : ℤ) (exp : UInt64) : Decidable (Begins held m exp) :=
  match held with
  | none => inferInstanceAs (Decidable (_ ∧ _))
  | some _ => inferInstanceAs (Decidable (_ ∧ _ ∧ _))

def Counted (t : HashTab) (key : CString) (m : ℤ) (exp : UInt64) (n : ℕ) : Prop :=
  if n = 0 then Begins (lookup t key) m exp else lookup t key = some ⟨key,intText (m+n),exp⟩

theorem Begins.low {held : Option Entry} {m : ℤ} {exp : UInt64} (h : Begins held m exp) : INT_MIN ≤ m := by
  cases held with
  | none =>
    rw [h.1]
    decide
  | some e => exact h.2.1 ▸ Int.le_bmod (by norm_num)

theorem begins_intText {key : CString} {z : ℤ} {exp : UInt64} (hlow : INT_MIN ≤ z) (hhigh : z ≤ INT_MAX) :
    Begins (some ⟨key,intText z,exp⟩) z exp :=
  ⟨isNumber_iff.mpr ⟨z,denotes_decimal z,hlow,hhigh⟩,atoi_denotes (denotes_decimal z) hlow hhigh,rfl⟩

theorem Begins.dbIncr {t : HashTab} {key : CString} {m : ℤ} {exp : UInt64}
    (h : Begins (lookup t key) m exp) (hm : m < INT_MAX) :
    RedisDb.dbIncr t key = .ok ((install t key (intText (m+1)) exp).1,.ok (intText (m+1))) := by
  cases he : lookup t key with
  | none =>
    rw [he] at h
    obtain ⟨rfl,rfl⟩ := h
    exact RedisExpiry.dbIncr_absent he
  | some e =>
    rw [he] at h
    obtain ⟨hn,rfl,rfl⟩ := h
    obtain ⟨z,hz,hlow,hhigh⟩ := isNumber_iff.mp hn
    rw [atoi_denotes hz hlow hhigh] at hm ⊢
    exact dbIncr_denotes he hz hlow hm

theorem Counted.begins {t : HashTab} {key : CString} {m : ℤ} {exp : UInt64} {n : ℕ}
    (h : Counted t key m exp n) (hlow : INT_MIN ≤ m) (hn : m+n ≤ INT_MAX) :
    Begins (lookup t key) (m+n) exp := by
  unfold Counted at h
  split at h
  · rename_i h0
    simpa [h0] using h
  · rw [h]
    exact begins_intText (by omega) hn

theorem Counted.next {t : HashTab} {key : CString} {m : ℤ} {exp : UInt64} {n : ℕ}
    (h : Counted t key m exp n) (hlow : INT_MIN ≤ m) (hn : m+n < INT_MAX) :
    ∃ t', dbIncr t key = .ok (t',.ok (intText (m+n+1))) ∧ Counted t' key m exp (n+1) := by
  refine ⟨_,(h.begins hlow hn.le).dbIncr hn,?_⟩
  rw [Counted,if_neg n.succ_ne_zero,Nat.cast_succ,← add_assoc]
  exact lookup_install_self

theorem Counted.congr {t t' : HashTab} {key : CString} {m : ℤ} {exp : UInt64} {n : ℕ}
    (h : Counted t key m exp n) (hl : lookup t' key = lookup t key) : Counted t' key m exp n := by
  rwa [Counted,hl]

def keyOf : Op → CString
  | .access (.set key _) => key
  | .access (.setEx key _ _) => key
  | .access (.get key _) => key
  | .access (.del key) => key
  | .incr key => key

def increments (key : CString) : Op → Bool
  | .incr k => k = key
  | _ => false

theorem call_elsewhere {t t' : HashTab} {op : Op} {r : Result} {key : CString}
    (h : call t op = .ok (t',r)) (hk : key ≠ keyOf op) : lookup t' key = lookup t key := by
  cases op with
  | access a =>
    obtain rfl := congrArg Prod.fst (Except.ok.inj h)
    cases a with
    | set k value => exact lookup_install_other hk
    | setEx k value exp => exact lookup_install_other hk
    | get k now => exact lookup_dbGet_other hk now
    | del k => exact lookup_undef_other hk
  | incr k =>
    obtain ⟨q,hq,hr⟩ := bind_eq_ok.mp h
    cases hr
    exact lookup_dbIncr_other hq hk

theorem calls_count {t t' : HashTab} {key : CString} {m : ℤ} {exp : UInt64}
    (h0 : Begins (lookup t key) m exp) {ops : List Op} {rs : List Result}
    (hops : ∀ op ∈ ops, increments key op = true ∨ key ≠ keyOf op)
    (hm : m+ops.countP (increments key) ≤ INT_MAX) (hr : run call t ops = .ok (t',rs)) :
    Counted t' key m exp (ops.countP (increments key)) := by
  have hcount := run_counts (I:=fun n t => Counted t key m exp n) (increments key)
    (ops.countP (increments key)) (G:=fun _ op => increments key op = true ∨ key ≠ keyOf op)
    ?_ ?_ (allSteps_of_forall ops (fun _ => hops) t) (n:=0) (by simpa [Counted] using h0) (by omega) hr
  · rwa [Nat.zero_add] at hcount
  · intro n t op t' r hc hn hI _ hs
    cases op with
    | access a => simp [increments] at hc
    | incr k =>
      obtain rfl : k = key := by simpa [increments] using hc
      obtain ⟨t₁,ht,hI'⟩ := hI.next h0.low (by omega)
      obtain ⟨q,hq,he⟩ := bind_eq_ok.mp hs
      obtain rfl := Except.ok.inj (ht.symm.trans hq)
      cases he
      exact hI'
  · intro n t op t' r hc hI hG hs
    have hk : key ≠ keyOf op := hG.resolve_left (by simp [hc])
    exact hI.congr (call_elsewhere hs hk)

def keyOfStep : Action → Option CString
  | .set _ _ key _ => some key
  | .setEx _ _ key _ _ => some key
  | .get _ key _ => some key
  | .incr _ _ key => some key
  | .delCall _ key => some key
  | .delStep _ => none

def incrementsStep (key : CString) : Action → Bool
  | .incr _ _ k => k = key
  | _ => false

/-- Wherever the run stands: once the key has been incremented it holds the number reached,
with this expiry, and a client that can start the next increment gets the next number. -/
def CountsFrom (s₀ : Sys) (key : CString) (m : ℤ) (exp : UInt64) (acts : List Action) : Prop :=
  ∀ (now later : List Action) (s : Sys) (os : List (Option Result)),
    acts = now ++ later → run step s₀ now = .ok (s,os) →
    (0 < now.countP (incrementsStep key) →
      entryAt s.heap key = .ok (some ⟨key,intText (m+now.countP (incrementsStep key)),exp⟩)) ∧
    ∀ c a rest, later = .incr c a key :: rest → idleAt s c a → ∃ s',
      step s (.incr c a key) =
        .ok (s',some (.counted (.ok (intText (m+now.countP (incrementsStep key)+1)))))

/-- From any reachable memory in which the key counts from `m`, every run of increments of the
key and of operations on other keys counts. -/
def CountsWithoutLoss : Prop :=
  ∀ (before acts : List Action) (s₀ : Sys) (os₀ : List (Option Result)) (key : CString)
    (held : Option Entry) (m : ℤ) (exp : UInt64),
    run step start before = .ok (s₀,os₀) → NotDeleting s₀ key →
    entryAt s₀.heap key = .ok held → Begins held m exp →
    (∀ act ∈ acts, incrementsStep key act = true ∨ keyOfStep act ≠ some key) →
    m+acts.countP (incrementsStep key) ≤ INT_MAX → CountsFrom s₀ key m exp acts

theorem not_overwrites {act : Action} {key : CString} (hk : keyOfStep act ≠ some key) :
    ¬ act.overwrites key := by
  cases act with
  | get => exact id
  | delStep => exact id
  | _ => exact fun h => hk (congrArg some h)

theorem tableStep_elsewhere {s : Sys} {t : HashTab} {act : Action} {key : CString}
    (hk : keyOfStep act ≠ some key) (hd : NotDeleting s key) :
    lookup (tableStep s t act) key = lookup t key := by
  rcases lookup_tableStep t (not_overwrites hk) hd with ⟨c,now,rfl⟩ | hsame
  · exact absurd rfl hk
  · exact hsame

theorem notDeleting_counting {s s' : Sys} {act : Action} {o : Option Result} {key : CString}
    (hd : NotDeleting s key) (ha : incrementsStep key act = true ∨ keyOfStep act ≠ some key)
    (h : step s act = .ok (s',o)) : NotDeleting s' key := by
  rcases ha with ha | ha
  · cases act with
    | incr c a k =>
      rw [NotDeleting,locked_deleting h]
      exact hd
    | _ => simp [incrementsStep] at ha
  · exact step_notDeleting hd (not_overwrites ha) h

/-- Memory spells out a table in which the key has been incremented `n` times. -/
def CountedAt (s : Sys) (key : CString) (m : ℤ) (exp : UInt64) (n : ℕ) : Prop :=
  (∃ t, Repr layout s.heap t ∧ Counted t key m exp n) ∧ NotDeleting s key

theorem CountedAt.next {s : Sys} {key : CString} {m : ℤ} {exp : UInt64} {n : ℕ}
    (h : CountedAt s key m exp n) (hlow : INT_MIN ≤ m) (hn : m+n < INT_MAX) {c : ℕ} {a : Addr}
    (hi : idleAt s c a) : ∃ s', step s (.incr c a key) = .ok (s',some (.counted (.ok (intText (m+n+1))))) := by
  obtain ⟨⟨t,hr,hc⟩,_⟩ := h
  obtain ⟨t',ht,_⟩ := hc.next hlow hn
  have href := incrAt_refines hr (Option.isNone_iff_eq_none.mp hi.2) key
  rw [ht] at href
  obtain ⟨h',hh,_⟩ := href
  refine ⟨{ s with heap := h' },?_⟩
  simp only [step]
  rw [if_pos hi]
  exact bind_eq_ok.mpr ⟨_,ofFault_eq_ok.mpr hh,rfl⟩

/-- A run of increments and of steps elsewhere counts its increments. -/
theorem run_countedAt {acts : List Action} {s u : Sys} {os : List (Option Result)} {key : CString}
    {m : ℤ} {exp : UInt64} (h : CountedAt s key m exp 0) (hlow : INT_MIN ≤ m)
    (hu : AllSteps step Undisturbed s acts)
    (ha : ∀ act ∈ acts, incrementsStep key act = true ∨ keyOfStep act ≠ some key)
    (hm : m+acts.countP (incrementsStep key) ≤ INT_MAX) (hr : run step s acts = .ok (u,os)) :
    CountedAt u key m exp (acts.countP (incrementsStep key)) := by
  have hG := hu.and (allSteps_of_forall
    (G:=fun _ act => incrementsStep key act = true ∨ keyOfStep act ≠ some key) acts (fun _ => ha) s)
  have hcount := run_counts (I:=fun n s => CountedAt s key m exp n) (incrementsStep key)
    (acts.countP (incrementsStep key)) ?_ ?_ hG (n:=0) h (by omega) hr
  · rwa [Nat.zero_add] at hcount
  · rintro n s act s' o hc hn ⟨⟨t,hr,hI⟩,hd⟩ ⟨hu,ha⟩ hs
    have hr' := step_refines hr hu hs
    cases act with
    | incr c a k =>
      obtain rfl : k = key := by simpa [incrementsStep] using hc
      obtain ⟨t',ht,hI'⟩ := hI.next hlow (by omega)
      simp only [tableStep,ht] at hr'
      exact ⟨⟨t',hr',hI'⟩,notDeleting_counting hd ha hs⟩
    | _ => simp [incrementsStep] at hc
  · rintro n s act s' o hc ⟨⟨t,hr,hI⟩,hd⟩ ⟨hu,ha⟩ hs
    have hk : keyOfStep act ≠ some key := ha.resolve_left (by simp [hc])
    exact ⟨⟨_,step_refines hr hu hs,hI.congr (tableStep_elsewhere hk hd)⟩,notDeleting_counting hd ha hs⟩

/-- No increment is lost in a run whose `db_del` steps all find memory as they left it. -/
theorem countsFrom_undisturbed (before acts : List Action) (s₀ : Sys) (os₀ : List (Option Result))
    (key : CString) (held : Option Entry) (m : ℤ) (exp : UInt64)
    (hbefore : run step start before = .ok (s₀,os₀)) (hd : NotDeleting s₀ key)
    (hheld : entryAt s₀.heap key = .ok held) (hbegins : Begins held m exp)
    (hacts : ∀ act ∈ acts, incrementsStep key act = true ∨ keyOfStep act ≠ some key)
    (hm : m+acts.countP (incrementsStep key) ≤ INT_MAX)
    (hcond : AllSteps step Undisturbed start (before ++ acts)) : CountsFrom s₀ key m exp acts := by
  intro now later s os hsplit hnow
  obtain ⟨t₀,hr₀⟩ := repr_of_run hcond.left hbefore
  have hl : lookup t₀ key = held := Except.ok.inj ((entryAt_eq hr₀ key).symm.trans hheld)
  have hstart : CountedAt s₀ key m exp 0 := by
    refine ⟨⟨t₀,hr₀,?_⟩,hd⟩
    rw [Counted,if_pos rfl,hl]
    exact hbegins
  subst hsplit
  rw [List.countP_append] at hm
  have hcount := run_countedAt hstart hbegins.low (hcond.right hbefore).left
    (fun act ha => hacts act (by simp [ha])) (by omega) hnow
  constructor
  · intro hpos
    obtain ⟨⟨t,hr,hc⟩,_⟩ := hcount
    rw [Counted,if_neg hpos.ne'] at hc
    rw [entryAt_eq hr,hc]
  · rintro c a rest rfl hi
    have hone : 0 < (Action.incr c a key :: rest).countP (incrementsStep key) := by
      rw [List.countP_cons_of_pos (by simp [incrementsStep])]
      exact Nat.succ_pos _
    exact hcount.next hbegins.low (by omega) hi

def sharedStart : List Action := [.setEx 0 0 (lit "bA") (lit " -2") 7,.set 0 1 (lit "ab") (lit "x")]

def sharedBucket : List Action :=
  [.delCall 2 (lit "ab"),.delStep 2,.incr 1 2 (lit "bA"),.delStep 2,.incr 3 2 (lit "bA"),.delStep 2,
    .incr 0 2 (lit "bA")]

theorem countsFrom_undisturbed_shared :
    entryAt (stateAfter (sharedStart ++ sharedBucket)).heap (lit "bA") =
      .ok (some ⟨lit "bA",intText 1,7⟩) := by
  have hidle : (stateAfter sharedStart).deleting = fun _ => none := rfl
  have h := (countsFrom_undisturbed sharedStart sharedBucket (stateAfter sharedStart) [some .done,some .done]
    (lit "bA") (some ⟨lit "bA",lit " -2",7⟩) (-2) 7 rfl (fun _ _ => by simp [hidle]) rfl (by decide)
    (by decide) (by decide) (by decide) sharedBucket [] (stateAfter (sharedStart ++ sharedBucket)) _
    (List.append_nil _).symm rfl).1 (by decide)
  have hz : (-2 : ℤ)+sharedBucket.countP (incrementsStep (lit "bA")) = 1 := by decide
  rwa [hz] at h

/-- Client 1 deletes "ab" and stands before its store when client 2 increments "bA" in the
same bucket: the store drops the new node, and the next increment starts again from 1. -/
theorem db_del_loses_increment :
    ¬ CountsWithoutLoss ∧
    (run step start [.set 0 0 (lit "ab") (lit "1"),.delCall 1 (lit "ab"),.delStep 1,.delStep 1,
      .incr 2 1 (lit "bA"),.delStep 1,.incr 2 2 (lit "bA")]).map Prod.snd =
        .ok [some .done,none,none,none,some (.counted (.ok (lit "1"))),some (.removed true),
          some (.counted (.ok (lit "1")))] := by
  refine ⟨fun h => ?_,by decide⟩
  have hrun : run step start [.set 0 0 (lit "ab") (lit "1"),.delCall 1 (lit "ab"),.delStep 1,
      .delStep 1] = .ok (stateAfter [.set 0 0 (lit "ab") (lit "1"),.delCall 1 (lit "ab"),.delStep 1,
      .delStep 1],[some .done,none,none,none]) := rfl
  have hd : NotDeleting _ (lit "bA") :=
    notDeleting_of_run (by simp [Action.overwrites]; decide) hrun
  have hlost := (h _ [.incr 2 1 (lit "bA"),.delStep 1] _ _ (lit "bA") none 0 0 hrun hd (by decide)
    (by decide) (by decide) (by decide) _ [] _ _ (List.append_nil _).symm rfl).1 (by decide)
  have hn : entryAt (stateAfter [.set 0 0 (lit "ab") (lit "1"),.delCall 1 (lit "ab"),.delStep 1,
      .delStep 1,.incr 2 1 (lit "bA"),.delStep 1]).heap (lit "bA") = .ok none := by decide
  exact absurd (hn.symm.trans hlost) (by simp)

end RedisCounter
end CodingChallenges
