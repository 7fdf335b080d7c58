import CodingChallenges.PointerTable
import CodingChallenges.RedisExpiry

/-! The store of `db.c` as nodes in memory, and its functions under the lock.
`malloc` may return any free address, so the address of a new entry is a parameter.
Run without interruption, each function performs what `RedisDb` says of it. -/
namespace CodingChallenges
namespace RedisHeap

open CText CMemory ChainedTable PointerTable RedisDb RedisMap Runs

abbrev DbHeap := Heap Entry (Fin HASH_SIZE)

def emptyHeap : DbHeap := ⟨fun _ => none,fun _ => none,0⟩

def lookupAt (h : DbHeap) (key : CString) : Except Fault (Option Addr) :=
  walk h Entry.key key h.allocs (h.head (hash key))

def installAt (h : DbHeap) (a : Addr) (key value : CString) (expires_at_ms : UInt64) :
    Except Fault DbHeap := do
  match ← lookupAt h key with
  | none => .ok (h.insertNode a (hash key) ⟨key,value,expires_at_ms⟩)
  | some p =>
    h.changeNode p fun e => { e with value := value, expires_at_ms := expires_at_ms }

def undefAt (h : DbHeap) (key : CString) : Except Fault (DbHeap × Bool) :=
  unlinkWalk h layout key h.allocs none (h.head (hash key))

def getAt (h : DbHeap) (key : CString) (now : UInt64) : Except Fault (DbHeap × Option CString) := do
  match ← lookupAt h key with
  | none => .ok (h,none)
  | some a =>
    let p ← h.deref a
    if expired p.entry now then do
      let r ← undefAt h p.entry.key
      .ok (r.1,none)
    else .ok (h,some p.entry.value)

def incrAt (h : DbHeap) (a : Addr) (key : CString) : Except Fault (DbHeap × DbResult) := do
  match ← lookupAt h key with
  | none =>
    let h' ← installAt h a key (lit "1") 0
    .ok (h',.ok (lit "1"))
  | some x =>
    let p ← h.deref x
    if ¬ isNumber p.entry.value then .ok (h,.failed notAnInteger)
    else do
      let n ← addInt (atoi p.entry.value) 1
      let h' ← installAt h a key (intText n) p.entry.expires_at_ms
      .ok (h',.ok (intText n))

variable {h : DbHeap} {t : HashTab}

theorem lookupAt_cases (hr : Repr layout h t) (key : CString) :
    (lookup t key = none ∧ lookupAt h key = .ok none) ∨
      ∃ a p, h.node a = some p ∧ lookup t key = some p.entry ∧ p.entry.key = key ∧
        lookupAt h key = .ok (some a) := hr.walk key

theorem installAt_refines (hr : Repr layout h t) {a : Addr} (ha : h.node a = none)
    (key value : CString) (exp : UInt64) :
    ∃ h', installAt h a key value exp = .ok h' ∧ Repr layout h' (install t key value exp).1 := by
  rcases lookupAt_cases hr key with ⟨hl,hw⟩ | ⟨x,p,hp,hl,hk,hw⟩
  · have hi := hr.insertNode (e:=⟨key,value,exp⟩) ha hl
    refine ⟨_,by simp only [installAt,hw]; rfl,?_⟩
    simp only [install,hl]
    exact hi
  · subst hk
    obtain ⟨h',hc,_,hr'⟩ := hr.changeNode
      (f:=fun e => { e with value := value, expires_at_ms := exp }) hp (fun _ => rfl)
    refine ⟨h',?_,?_⟩
    · simp only [installAt,hw]
      exact hc
    · simp only [install,hl]
      exact hr'

theorem undefAt_refines (hr : Repr layout h t) (key : CString) :
    ∃ h', undefAt h key = .ok (h',(undef t key).2) ∧ Repr layout h' (undef t key).1 :=
  hr.unlinkWalk key

theorem getAt_refines (hr : Repr layout h t) (key : CString) (now : UInt64) :
    ∃ h', getAt h key now = .ok (h',(dbGet t key now).2) ∧ Repr layout h' (dbGet t key now).1 := by
  rcases lookupAt_cases hr key with ⟨hl,hw⟩ | ⟨x,p,hp,hl,hk,hw⟩
  · refine ⟨h,?_,by simpa [dbGet,hl] using hr⟩
    simp only [getAt,hw,dbGet,hl]
    rfl
  · by_cases hx : expired p.entry now = true
    · obtain ⟨h',hu,hr'⟩ := undefAt_refines hr p.entry.key
      refine ⟨h',?_,by simpa [dbGet,hl,hx] using hr'⟩
      simp [getAt,hw,dbGet,hl,hx,deref_eq hp,hu,bind,Except.bind]
    · refine ⟨h,?_,by simpa [dbGet,hl,hx] using hr⟩
      simp [getAt,hw,dbGet,hl,hx,deref_eq hp,bind,Except.bind]

theorem incrAt_refines (hr : Repr layout h t) {a : Addr} (ha : h.node a = none) (key : CString) :
    match dbIncr t key with
    | .error f => incrAt h a key = .error f
    | .ok (t',res) => ∃ h', incrAt h a key = .ok (h',res) ∧ Repr layout h' t' := by
  rcases lookupAt_cases hr key with ⟨hl,hw⟩ | ⟨x,p,hp,hl,hk,hw⟩
  · obtain ⟨h',hi,hr'⟩ := installAt_refines hr ha key (lit "1") 0
    simp only [dbIncr,hl,install_entry]
    exact ⟨h',by simp [incrAt,hw,hi,bind,Except.bind],hr'⟩
  · by_cases hn : isNumber p.entry.value = true
    · cases hadd : addInt (atoi p.entry.value) 1 with
      | error f => simp [dbIncr,incrAt,hl,hw,hn,hadd,deref_eq hp,bind,Except.bind]
      | ok n =>
        obtain ⟨h',hi,hr'⟩ := installAt_refines hr ha key (intText n) p.entry.expires_at_ms
        simp only [dbIncr,hl,hn,hadd,install_entry]
        exact ⟨h',by simp [incrAt,hw,hn,hadd,deref_eq hp,hi,bind,Except.bind],hr'⟩
    · simp only [dbIncr,hl,hn]
      exact ⟨h,by simp [incrAt,hw,hn,deref_eq hp,bind,Except.bind],hr⟩

def applyAt (h : DbHeap) (call : Addr × TableOp) : Except Fault (DbHeap × Option Bool) :=
  match call.2 with
  | .install key value expires_at_ms => do
    let h' ← installAt h call.1 key value expires_at_ms
    .ok (h',none)
  | .undef key => do
    let r ← undefAt h key
    .ok (r.1,some r.2)

/-- `malloc` returns no address in use. -/
def FreshAt (h : DbHeap) (call : Addr × TableOp) : Prop := (h.node call.1).isNone

instance (h : DbHeap) (call : Addr × TableOp) : Decidable (FreshAt h call) :=
  inferInstanceAs (Decidable (_ = true))

def entryAt (h : DbHeap) (key : CString) : Except Fault (Option Entry) := do
  match ← lookupAt h key with
  | none => .ok none
  | some a =>
    let p ← h.deref a
    .ok (some p.entry)

theorem entryAt_eq (hr : Repr layout h t) (key : CString) : entryAt h key = .ok (lookup t key) := by
  rcases lookupAt_cases hr key with ⟨hl,hw⟩ | ⟨x,p,hp,hl,_,hw⟩
  · rw [entryAt,hw,hl]
    rfl
  · simp only [entryAt,hw,deref_eq hp,hl,bind,Except.bind]

theorem applyAt_refines (hr : Repr layout h t) {call : Addr × TableOp} (hf : FreshAt h call) :
    ∃ h' found, applyAt h call = .ok (h',found) ∧ Repr layout h' (apply t call.2) := by
  cases call with
  | mk a op =>
    cases op with
    | install key value exp =>
      obtain ⟨h',hi,hr'⟩ := installAt_refines hr (Option.isNone_iff_eq_none.mp hf) key value exp
      exact ⟨h',none,bind_eq_ok.mpr ⟨h',hi,rfl⟩,hr'⟩
    | undef key =>
      obtain ⟨h',hu,hr'⟩ := undefAt_refines hr key
      exact ⟨h',_,bind_eq_ok.mpr ⟨_,hu,rfl⟩,hr'⟩

/-- A run in memory returns and spells out the table of its operations. -/
theorem run_applyAt (calls : List (Addr × TableOp)) (hr : Repr layout h t)
    (hf : AllSteps applyAt FreshAt h calls) :
    ∃ h' found, run applyAt h calls = .ok (h',found) ∧
      Repr layout h' ((calls.map Prod.snd).foldl apply t) := by
  induction calls generalizing h t with
  | nil => exact ⟨h,[],rfl,hr⟩
  | cons call calls ih =>
    obtain ⟨h₁,found,hs,hr₁⟩ := applyAt_refines hr hf.1
    obtain ⟨h',rest,hrun,hr'⟩ := ih hr₁ (hf.2 h₁ found hs)
    exact ⟨h',found :: rest,run_cons hs hrun,hr'⟩

/-- Every run of install and undef in memory returns. Its heap holds in each bucket a chain
of entries of that hash, no key twice; lookup finds the latest install of a key that no
undef follows; undef tells whether the key was present; and neither operation touches
another key. -/
theorem heap_refines_map (calls : List (Addr × TableOp))
    (hmalloc : AllSteps applyAt FreshAt emptyHeap calls) :
    ∃ h found, run applyAt emptyHeap calls = .ok (h,found) ∧
      (∃ chain : Fin HASH_SIZE → List Entry, (∀ b, Linked h.node (h.head b) (chain b)) ∧
        (∀ b, ∀ e ∈ chain b, hash e.key = b) ∧
        ((List.finRange HASH_SIZE).flatMap fun b => (chain b).map Entry.key).Nodup) ∧
      (∀ key, entryAt h key = .ok ((latest key (calls.map Prod.snd)).map (entryOf key))) ∧
      (∀ key, ∃ h', undefAt h key = .ok (h',(latest key (calls.map Prod.snd)).isSome) ∧
        ∀ key', key' ≠ key → entryAt h' key' = entryAt h key') ∧
      (∀ a key value exp, h.node a = none → ∃ h', installAt h a key value exp = .ok h' ∧
        ∀ key', key' ≠ key → entryAt h' key' = entryAt h key') := by
  obtain ⟨h,found,hrun,hr⟩ := run_applyAt calls (repr_empty layout) hmalloc
  have hmap := hashtab_refines_map (calls.map Prod.snd)
  refine ⟨h,found,hrun,⟨_,hr.chain,hmap.1,hmap.2.1⟩,?_,?_,?_⟩
  · intro key
    rw [entryAt_eq hr]
    exact congrArg _ (hmap.2.2.1 key)
  · intro key
    obtain ⟨h',hu,hr'⟩ := undefAt_refines hr key
    have hfound : (undef (tableAfter (calls.map Prod.snd)) key).2 =
        (latest key (calls.map Prod.snd)).isSome := by
      rw [undef_found,hmap.2.2.1 key,Option.isSome_map]
    refine ⟨h',hfound ▸ hu,fun key' hk => ?_⟩
    rw [entryAt_eq hr',entryAt_eq hr]
    exact congrArg _ (lookup_undef_other hk)
  · intro a key value exp ha
    obtain ⟨h',hi,hr'⟩ := installAt_refines hr ha key value exp
    refine ⟨h',hi,fun key' hk => ?_⟩
    rw [entryAt_eq hr',entryAt_eq hr]
    exact congrArg _ (lookup_install_other hk)

/-- "ab" and "bA" share a bucket; the node of "ab" is the second of its chain when it goes. -/
theorem heap_refines_map_collision : ∃ h found,
    run applyAt emptyHeap [(0,.install (lit "ab") (lit "1") 0),(1,.install (lit "bA") (lit "2") 7),
      (2,.undef (lit "ab"))] = .ok (h,found) ∧
    entryAt h (lit "bA") = .ok (some ⟨lit "bA",lit "2",7⟩) := by
  obtain ⟨h,found,hrun,_,hentry,_⟩ := heap_refines_map [(0,.install (lit "ab") (lit "1") 0),
    (1,.install (lit "bA") (lit "2") 7),(2,.undef (lit "ab"))] (by decide)
  exact ⟨h,found,hrun,(hentry (lit "bA")).trans rfl⟩

end RedisHeap
end CodingChallenges
