import CodingChallenges.RedisHeap

/-! Concurrent clients of the store.
Each client thread of the server calls the functions of `db.h`. All of them hold
`db_lock` for their whole body except `db_del`, whose loop in `undef` advances here
by one load or store of a head or `next` pointer at a time, between any steps of
the other clients. -/
namespace CodingChallenges
namespace RedisClients

open CText CMemory ChainedTable PointerTable RedisDb RedisHeap Runs
open RedisExpiry (Result)

/-- Where a `db_del` stands in the loop of `undef`. -/
inductive DelAt
  -- before the load of the bucket head
  | start
  -- at a node with another key, before the load of `cur->next`
  | visit (cur : Addr)
  -- at the node with the key, before the load of `cur->next`
  | found (prev : Option Addr) (cur : Addr)
  -- before the store of the loaded `next` in the link in front of the node
  | unlink (link : Link (Fin HASH_SIZE)) (cur : Addr) (next : Option Addr)

/-- Shared memory, and the key and place of each client's unfinished `db_del`. -/
structure Sys where
  heap : DbHeap
  deleting : ℕ → Option (CString × DelAt)

def start : Sys := ⟨emptyHeap,fun _ => none⟩

/-- A step of a client: a whole locked call, the call of `db_del`, or one memory
access of it. `a` is the address `malloc` would return. -/
inductive Action
  | set (c : ℕ) (a : Addr) (key value : CString)
  | setEx (c : ℕ) (a : Addr) (key value : CString) (expires_at_ms : UInt64)
  | get (c : ℕ) (key : CString) (now : UInt64)
  | incr (c : ℕ) (a : Addr) (key : CString)
  | delCall (c : ℕ) (key : CString)
  | delStep (c : ℕ)

/-- Why a step has no successor: the client cannot take it now, or it faults. -/
inductive Stop
  | disabled
  | fault (f : Fault)
  deriving DecidableEq

def ofFault {α : Type} (x : Except Fault α) : Except Stop α := x.mapError Stop.fault

/-- The loop arrives at `cur`: leave it at the end of the chain, else compare the keys. -/
def arrive (h : DbHeap) (key : CString) (prev : Option Addr) :
    Option Addr → Except Fault (Option DelAt)
  | none => .ok none
  | some cur => do
    let p ← h.deref cur
    if p.entry.key = key then .ok (some (.found prev cur)) else .ok (some (.visit cur))

/-- One memory access of `undef`; `none` as the next place means that it returned. -/
def undefStep (h : DbHeap) (key : CString) : DelAt → Except Fault (DbHeap × Option DelAt × Option Result)
  | .start => do
    let place ← arrive h key none (h.head (hash key))
    .ok (h,place,if place.isNone then some (.removed false) else none)
  | .visit cur => do
    let p ← h.deref cur
    let place ← arrive h key (some cur) p.next
    .ok (h,place,if place.isNone then some (.removed false) else none)
  | .found prev cur => do
    let p ← h.deref cur
    .ok (h,some (.unlink (linkBefore (hash p.entry.key) prev) cur p.next),none)
  | .unlink link cur next => do
    let h' ← h.store next link
    let _ ← h'.deref cur   -- `free(cur->key)` reads the node
    .ok (h'.free cur,none,some (.removed true))

/-- The client is between two calls, and the address is one `malloc` can return. -/
def idleAt (s : Sys) (c : ℕ) (a : Addr) : Prop := (s.deleting c).isNone ∧ (s.heap.node a).isNone

instance (s : Sys) (c : ℕ) (a : Addr) : Decidable (idleAt s c a) :=
  inferInstanceAs (Decidable (_ ∧ _))

/-- `db_set` and `db_set_ex`: an `install` under the lock. -/
def lockedInstall (s : Sys) (c : ℕ) (a : Addr) (key value : CString) (expires_at_ms : UInt64) :
    Except Stop (Sys × Option Result) :=
  if idleAt s c a then do
    let h ← ofFault (installAt s.heap a key value expires_at_ms)
    .ok ({ s with heap := h },some .done)
  else .error .disabled

def step (s : Sys) : Action → Except Stop (Sys × Option Result)
  | .set c a key value => lockedInstall s c a key value 0
  | .setEx c a key value expires_at_ms => lockedInstall s c a key value expires_at_ms
  | .get c key now =>
    if (s.deleting c).isNone then do
      let r ← ofFault (getAt s.heap key now)
      .ok ({ s with heap := r.1 },some (.copy r.2))
    else .error .disabled
  | .incr c a key =>
    if idleAt s c a then do
      let r ← ofFault (incrAt s.heap a key)
      .ok ({ s with heap := r.1 },some (.counted r.2))
    else .error .disabled
  | .delCall c key =>
    if (s.deleting c).isNone then
      .ok ({ s with deleting := Function.update s.deleting c (some (key,.start)) },none)
    else .error .disabled
  | .delStep c =>
    match s.deleting c with
    | none => .error .disabled
    | some (key,place) => do
      let r ← ofFault (undefStep s.heap key place)
      .ok (⟨r.1,Function.update s.deleting c (r.2.1.map fun place => (key,place))⟩,r.2.2)

def Action.overwrites (key : CString) : Action → Prop
  | .set _ _ k _ => k = key
  | .setEx _ _ k _ _ => k = key
  | .get _ _ _ => False
  | .incr _ _ k => k = key
  | .delCall _ k => k = key
  | .delStep _ => False

def Finds (h : DbHeap) (key value : CString) : Prop :=
  ∃ a p, lookupAt h key = .ok (some a) ∧ h.node a = some p ∧ p.entry.value = value

/-- In every run a completed `db_set` that no overlapping `db_del` and no later call
overwrites or deletes is found in the end. -/
def NoLostWrite : Prop :=
  ∀ before after s₁ s₂ s₃ os₁ os₂ os₃ c a key value,
    run step start before = .ok (s₁,os₁) →
    step s₁ (.set c a key value) = .ok (s₂,os₂) →
    run step s₂ after = .ok (s₃,os₃) →
    (∀ c' place, s₁.deleting c' ≠ some (key,place)) →
    (∀ act ∈ after, ¬ act.overwrites key) →
    Finds s₃.heap key value

/-- The memory a `db_del` is about to use is as it left it: the node it stands at has
not been freed, and when it unlinks the node, the link still points at the node, which
still has the key and the `next` pointer that was read. -/
def UndisturbedAt (h : DbHeap) (key : CString) : DelAt → Prop
  | .start => True
  | .visit cur => (h.node cur).isSome
  | .found _ cur => (h.node cur).isSome
  | .unlink link cur next =>
    h.load link = some cur ∧ ∃ p ∈ h.node cur, p.entry.key = key ∧ p.next = next

instance (h : DbHeap) (key : CString) : (place : DelAt) → Decidable (UndisturbedAt h key place)
  | .start => isTrue trivial
  | .visit cur => inferInstanceAs (Decidable ((h.node cur).isSome = true))
  | .found _ cur => inferInstanceAs (Decidable ((h.node cur).isSome = true))
  | .unlink link cur next => inferInstanceAs (Decidable (h.load link = some cur ∧
      ∃ p ∈ h.node cur, p.entry.key = key ∧ p.next = next))

/-- The step is no step of a `db_del`, or finds memory undisturbed. -/
def Undisturbed (s : Sys) : Action → Prop
  | .delStep c => ∀ q ∈ s.deleting c, UndisturbedAt s.heap q.1 q.2
  | _ => True

instance (s : Sys) : (act : Action) → Decidable (Undisturbed s act)
  | .set .. => isTrue trivial
  | .setEx .. => isTrue trivial
  | .get .. => isTrue trivial
  | .incr .. => isTrue trivial
  | .delCall .. => isTrue trivial
  | .delStep c => inferInstanceAs (Decidable (∀ q ∈ s.deleting c, UndisturbedAt s.heap q.1 q.2))

theorem ofFault_eq_ok {α : Type} {x : Except Fault α} {y : α} : ofFault x = .ok y ↔ x = .ok y := by
  cases x <;> simp [ofFault,Except.mapError]

/-- What a step does to the table, where `db_del` takes effect with its store. -/
def tableStep (s : Sys) (t : HashTab) : Action → HashTab
  | .set _ _ key value => dbSet t key value
  | .setEx _ _ key value expires_at_ms => dbSetEx t key value expires_at_ms
  | .get _ key now => (dbGet t key now).1
  | .incr _ _ key =>
    match dbIncr t key with
    | .ok (t',_) => t'
    | .error _ => t
  | .delCall _ _ => t
  | .delStep c =>
    match s.deleting c with
    | some (key,.unlink _ _ _) => (undef t key).1
    | _ => t

/-- Only the store of an undisturbed `db_del` changes memory, and it performs `undef`. -/
theorem undefStep_refines {h h' : DbHeap} {t : HashTab} {key : CString} {place : DelAt}
    {place' : Option DelAt} {o : Option Result} (hr : Repr layout h t)
    (hu : UndisturbedAt h key place) (hs : undefStep h key place = .ok (h',place',o)) :
    match place with
    | .unlink _ _ _ => Repr layout h' (undef t key).1
    | _ => h' = h := by
  cases place with
  | start =>
    obtain ⟨q,_,hq⟩ := bind_eq_ok.mp hs
    cases hq
    rfl
  | visit cur =>
    obtain ⟨p,_,hp⟩ := bind_eq_ok.mp hs
    obtain ⟨q,_,hq⟩ := bind_eq_ok.mp hp
    cases hq
    rfl
  | found prev cur =>
    obtain ⟨p,_,hp⟩ := bind_eq_ok.mp hs
    cases hp
    rfl
  | unlink link cur next =>
    obtain ⟨hl,p,hp,rfl,rfl⟩ := hu
    obtain ⟨h₁,hst,hr₁⟩ := hr.store hl hp
    obtain ⟨h₂,hh,hs'⟩ := bind_eq_ok.mp hs
    obtain rfl := Except.ok.inj (hst.symm.trans hh)
    obtain ⟨_,_,hs''⟩ := bind_eq_ok.mp hs'
    cases hs''
    exact hr₁

theorem lockedInstall_refines {s s' : Sys} {t : HashTab} {c : ℕ} {a : Addr} {key value : CString}
    {exp : UInt64} {o : Option Result} (hr : Repr layout s.heap t)
    (h : lockedInstall s c a key value exp = .ok (s',o)) :
    Repr layout s'.heap (dbSetEx t key value exp) ∧ s'.deleting = s.deleting := by
  unfold lockedInstall at h
  split at h
  · rename_i hi
    obtain ⟨h',hh,hr'⟩ := installAt_refines hr (Option.isNone_iff_eq_none.mp hi.2) key value exp
    obtain ⟨h'',hh',he⟩ := bind_eq_ok.mp h
    obtain rfl := Except.ok.inj (hh.symm.trans (ofFault_eq_ok.mp hh'))
    cases he
    exact ⟨hr',rfl⟩
  · contradiction

theorem incr_refines {s s' : Sys} {t : HashTab} {c : ℕ} {a : Addr} {key : CString} {o : Option Result}
    (hr : Repr layout s.heap t) (h : step s (.incr c a key) = .ok (s',o)) :
    Repr layout s'.heap (tableStep s t (.incr c a key)) := by
  simp only [step] at h
  split at h
  · rename_i hi
    have hi' := incrAt_refines hr (Option.isNone_iff_eq_none.mp hi.2) key
    obtain ⟨r,hh',he⟩ := bind_eq_ok.mp h
    have hh := ofFault_eq_ok.mp hh'
    cases he
    simp only [tableStep]
    cases hd : dbIncr t key with
    | error f => simp [hd,hh] at hi'
    | ok q =>
      simp only [hd] at hi'
      obtain ⟨h'',hh'',hr'⟩ := hi'
      obtain rfl := Except.ok.inj (hh''.symm.trans hh)
      exact hr'
  · contradiction

theorem delStep_refines {s s' : Sys} {t : HashTab} {c : ℕ} {o : Option Result}
    (hr : Repr layout s.heap t) (hu : Undisturbed s (.delStep c)) (h : step s (.delStep c) = .ok (s',o)) :
    Repr layout s'.heap (tableStep s t (.delStep c)) := by
  simp only [step] at h
  split at h
  · contradiction
  · rename_i key place hd
    obtain ⟨r,hh,he⟩ := bind_eq_ok.mp h
    have hm := undefStep_refines hr (hu _ hd) (ofFault_eq_ok.mp hh)
    cases he
    simp only [tableStep,hd]
    cases place with
    | unlink link cur next => exact hm
    | start => exact hm ▸ hr
    | visit cur => exact hm ▸ hr
    | found prev cur => exact hm ▸ hr

/-- The heap keeps spelling out the table that the calls would build one after another. -/
theorem step_refines {s s' : Sys} {t : HashTab} {act : Action} {o : Option Result}
    (hr : Repr layout s.heap t) (hu : Undisturbed s act) (h : step s act = .ok (s',o)) :
    Repr layout s'.heap (tableStep s t act) := by
  cases act with
  | set c a key value => exact (lockedInstall_refines hr h).1
  | setEx c a key value exp => exact (lockedInstall_refines hr h).1
  | get c key now =>
    simp only [step] at h
    split at h
    · obtain ⟨h',hh,hr'⟩ := getAt_refines hr key now
      obtain ⟨r,hh',he⟩ := bind_eq_ok.mp h
      obtain rfl := Except.ok.inj (hh.symm.trans (ofFault_eq_ok.mp hh'))
      cases he
      exact hr'
    · contradiction
  | incr c a key => exact incr_refines hr h
  | delCall c key =>
    simp only [step] at h
    split at h
    · cases h
      exact hr
    · contradiction
  | delStep c => exact delStep_refines hr hu h

def NotDeleting (s : Sys) (key : CString) : Prop := ∀ c place, s.deleting c ≠ some (key,place)

theorem lookup_tableStep {s : Sys} (t : HashTab) {act : Action} {key : CString}
    (ha : ¬ act.overwrites key) (hd : NotDeleting s key) :
    (∃ c now, act = .get c key now) ∨ lookup (tableStep s t act) key = lookup t key := by
  cases act with
  | set c a k v => exact Or.inr (lookup_install_other fun hk => ha hk.symm)
  | setEx c a k v exp => exact Or.inr (lookup_install_other fun hk => ha hk.symm)
  | get c k now =>
    by_cases hk : key = k
    · exact Or.inl ⟨c,now,by rw [hk]⟩
    · exact Or.inr (lookup_dbGet_other hk now)
  | incr c a k =>
    refine Or.inr ?_
    simp only [tableStep]
    split
    · rename_i t' res hi
      exact lookup_dbIncr_other hi fun hk => ha hk.symm
    · rfl
  | delCall c k => exact Or.inr rfl
  | delStep c =>
    refine Or.inr ?_
    simp only [tableStep]
    split
    · rename_i k link cur next hk
      have hne : key ≠ k := by
        rintro rfl
        exact hd c _ hk
      exact lookup_undef_other hne
    · rfl

theorem tableStep_keeps {s : Sys} {t : HashTab} {act : Action} {key value : CString}
    (hl : lookup t key = some ⟨key,value,0⟩) (ha : ¬ act.overwrites key) (hd : NotDeleting s key) :
    lookup (tableStep s t act) key = some ⟨key,value,0⟩ := by
  rcases lookup_tableStep t ha hd with ⟨c,now,rfl⟩ | hsame
  · exact lookup_dbGet_persistent hl rfl now
  · rw [hsame,hl]

theorem locked_deleting {α : Type} {cond : Prop} [Decidable cond] {s s' : Sys} {x : Except Stop α}
    {f : α → DbHeap} {g : α → Option Result} {o : Option Result}
    (h : (if cond then x >>= fun r => .ok ({ s with heap := f r },g r) else .error .disabled) =
      .ok (s',o)) : s'.deleting = s.deleting := by
  split_ifs at h
  obtain ⟨r,_,he⟩ := bind_eq_ok.mp h
  cases he
  rfl

theorem step_notDeleting {s s' : Sys} {act : Action} {o : Option Result} {key : CString}
    (hd : NotDeleting s key) (ha : ¬ act.overwrites key) (h : step s act = .ok (s',o)) :
    NotDeleting s' key := by
  have hsame : s'.deleting = s.deleting → NotDeleting s' key := fun he => by rwa [NotDeleting,he]
  cases act with
  | set c a k v => exact hsame (locked_deleting h)
  | setEx c a k v exp => exact hsame (locked_deleting h)
  | get c k now => exact hsame (locked_deleting h)
  | incr c a k => exact hsame (locked_deleting h)
  | delCall c k =>
    simp only [step] at h
    split at h
    · cases h
      intro c' place hc
      simp only [Function.update_apply] at hc
      split_ifs at hc
      · exact ha (congrArg Prod.fst (Option.some.inj hc))
      · exact hd c' place hc
    · contradiction
  | delStep c =>
    simp only [step] at h
    split at h
    · contradiction
    · rename_i k place hk
      obtain ⟨r,_,he⟩ := bind_eq_ok.mp h
      cases he
      intro c' place' hc
      simp only [Function.update_apply] at hc
      split_ifs at hc
      · obtain ⟨_,_,hq⟩ := Option.map_eq_some_iff.mp hc
        have hkk : k = key := congrArg Prod.fst hq
        exact hd c place (hkk ▸ hk)
      · exact hd c' place' hc

theorem notDeleting_of_run {acts : List Action} {s : Sys} {os : List (Option Result)} {key : CString}
    (ha : ∀ act ∈ acts, ¬ act.overwrites key) (h : run step start acts = .ok (s,os)) :
    NotDeleting s key :=
  run_invariant (P:=fun s => NotDeleting s key) (fun _ _ _ _ hd ha hs => step_notDeleting hd ha hs)
    (allSteps_of_forall (G:=fun _ act => ¬ act.overwrites key) acts (fun _ => ha) start)
    (fun _ _ => by simp [start]) h

theorem repr_of_run {acts : List Action} {s : Sys} {os : List (Option Result)}
    (hu : AllSteps step Undisturbed start acts) (h : run step start acts = .ok (s,os)) :
    ∃ t, Repr layout s.heap t :=
  run_invariant (P:=fun s => ∃ t, Repr layout s.heap t)
    (fun s act _ _ ⟨t,hr⟩ hu hs => ⟨tableStep s t act,step_refines hr hu hs⟩)
    hu ⟨emptyTab,repr_empty layout⟩ h

/-- A key stored without expiry stays, as long as no call of its own intervenes. -/
theorem kept_of_run {acts : List Action} {s s' : Sys} {t : HashTab} {key value : CString}
    {os : List (Option Result)} (hr : Repr layout s.heap t) (hl : lookup t key = some ⟨key,value,0⟩)
    (hd : NotDeleting s key) (hu : AllSteps step Undisturbed s acts)
    (ha : ∀ act ∈ acts, ¬ act.overwrites key) (h : run step s acts = .ok (s',os)) :
    ∃ t', Repr layout s'.heap t' ∧ lookup t' key = some ⟨key,value,0⟩ := by
  have hG := hu.and (allSteps_of_forall (G:=fun _ act => ¬ act.overwrites key) acts (fun _ => ha) s)
  have hP := run_invariant
    (P:=fun s => (∃ t, Repr layout s.heap t ∧ lookup t key = some ⟨key,value,0⟩) ∧ NotDeleting s key)
    (fun s act _ _ ⟨⟨t,hr,hl⟩,hd⟩ ⟨hu,ha⟩ hs =>
      ⟨⟨tableStep s t act,step_refines hr hu hs,tableStep_keeps hl ha hd⟩,step_notDeleting hd ha hs⟩)
    hG ⟨⟨t,hr,hl⟩,hd⟩ h
  exact hP.1

/-- No acknowledged write is lost in a run whose `db_del` steps all find memory as
they left it. -/
theorem noLostWrite_undisturbed (before after : List Action) (s₁ s₂ s₃ : Sys)
    (os₁ os₃ : List (Option Result)) (o₂ : Option Result) (c : ℕ) (a : Addr) (key value : CString)
    (h₁ : run step start before = .ok (s₁,os₁)) (h₂ : step s₁ (.set c a key value) = .ok (s₂,o₂))
    (h₃ : run step s₂ after = .ok (s₃,os₃))
    (hcond : AllSteps step Undisturbed start (before ++ .set c a key value :: after))
    (hover : ∀ c' place, s₁.deleting c' ≠ some (key,place))
    (hlater : ∀ act ∈ after, ¬ act.overwrites key) : Finds s₃.heap key value := by
  obtain ⟨t₁,hr₁⟩ := repr_of_run hcond.left h₁
  have hcond₂ := (hcond.right h₁).2 s₂ o₂ h₂
  have hs := lockedInstall_refines hr₁ h₂
  have hd : NotDeleting s₂ key := by
    intro c' place
    rw [hs.2]
    exact hover c' place
  obtain ⟨t₃,hr₃,hl₃⟩ := kept_of_run hs.1 lookup_install_self hd hcond₂ hlater h₃
  rcases lookupAt_cases hr₃ key with ⟨hn,_⟩ | ⟨x,p,hp,hl,_,hw⟩
  · rw [hl₃] at hn
    contradiction
  · have he : p.entry = ⟨key,value,0⟩ := Option.some.inj (hl.symm.trans hl₃)
    exact ⟨x,p,hw,hp,by rw [he]⟩

def stateAfter (acts : List Action) : Sys :=
  match run step start acts with
  | .ok (s,_) => s
  | .error _ => start

/-- "ab" and "bA" share a bucket; client 1 deletes "bA" while client 2 is at work elsewhere. -/
theorem noLostWrite_undisturbed_quiet :
    Finds (stateAfter [.set 1 0 (lit "bA") (lit "2"),.set 0 1 (lit "ab") (lit "1"),
      .delCall 1 (lit "bA"),.delStep 1,.delStep 1,.set 2 2 (lit "k") (lit "3"),.delStep 1,
      .delStep 1]).heap (lit "ab") (lit "1") :=
  noLostWrite_undisturbed [.set 1 0 (lit "bA") (lit "2")]
    [.delCall 1 (lit "bA"),.delStep 1,.delStep 1,.set 2 2 (lit "k") (lit "3"),.delStep 1,.delStep 1]
    _ _ _ _ _ _ 0 1 (lit "ab") (lit "1") rfl rfl rfl (by decide) (fun _ _ => by simp [start])
    (by simp [Action.overwrites]; decide)

/-- Client 1 deletes "ab" and stands before its store when client 2 sets "bA" in the
same bucket: the store drops the new node from the chain. -/
theorem db_del_loses_write : ¬ NoLostWrite := by
  intro h
  have hrun : run step start [.set 0 0 (lit "ab") (lit "1"),.delCall 1 (lit "ab"),.delStep 1,
      .delStep 1] = .ok (stateAfter [.set 0 0 (lit "ab") (lit "1"),.delCall 1 (lit "ab"),.delStep 1,
      .delStep 1],[some .done,none,none,none]) := rfl
  have hd : NotDeleting _ (lit "bA") :=
    notDeleting_of_run (by simp [Action.overwrites]; decide) hrun
  have hf := h _ [.delStep 1] _ _ _ _ _ _ 2 1 (lit "bA") (lit "2") hrun rfl rfl
    hd (by simp [Action.overwrites])
  obtain ⟨a,p,hw,_⟩ := hf
  have hn : lookupAt (stateAfter [.set 0 0 (lit "ab") (lit "1"),.delCall 1 (lit "ab"),.delStep 1,
      .delStep 1,.set 2 1 (lit "bA") (lit "2"),.delStep 1]).heap (lit "bA") = .ok none := by decide
  exact absurd (hn.symm.trans hw) (by simp)

end RedisClients
end CodingChallenges
