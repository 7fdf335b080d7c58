import CodingChallenges.OwnedTable
import CodingChallenges.RedisAllocation

/-! The store of `db.c` in memory: entries, and the strings they point to. `malloc` and `strdup` may
return any free address, or NULL. What is freed twice, read after it was freed or lost shows here;
apart from that each call does what `RedisAllocation` says of it. What is copied for a caller belongs
to the caller. -/
namespace CodingChallenges
namespace RedisMemory

open CText CMemory ChainedTable OwnedBlocks OwnedTable PointerTable RedisDb Runs
open RedisAllocation (Cell CellTab Copies Op cellLayout emptyCells failedToSave)
open RedisExpiry (Result)

/-- The data beside the strings is the expiry, `none` where it was never assigned. -/
abbrev Entry := OwnedTable.Entry CString (Option UInt64)

abbrev EntryTab := Table Entry (Fin HASH_SIZE)

abbrev Strings := OwnedTable.Memory CString (Option UInt64) (Fin HASH_SIZE)

/-- The table, and the blocks of entries that no pointer leads to any more. -/
structure Memory where
  table : Strings
  lost : List Addr

/-- What `malloc` and the calls of `strdup` in `install` return, NULL where they fail. -/
structure Choice where
  entry : Option Addr
  key : Option Addr
  value : Option Addr

def empty : Memory := ⟨OwnedTable.empty,[]⟩

def lookup (m : Memory) (key : CString) : Except Fault (Option Addr) := OwnedTable.lookup hash m.table key

/-- An entry whose value is the copy at `v`; without one it has no value and keeps its expiry. -/
def assigned (v : Option Addr) (value : CString) (expires_at_ms : UInt64) (e : Entry) : Entry :=
  match v with
  | none => { e with value := none }
  | some v => { e with value := some (v,value), data := some expires_at_ms }

/-- `p->value = strdup(value)` and what follows it. -/
def assign (m : Memory) (a : Addr) (v : Option Addr) (value : CString) (expires_at_ms : UInt64) :
    Except Fault (Memory × Option Addr) := do
  let nodes ← m.table.nodes.changeNode a (assigned v value expires_at_ms)
  match v with
  | none => .ok (⟨⟨nodes,m.table.strings⟩,m.lost⟩,none)
  | some v => .ok (⟨⟨nodes,Function.update m.table.strings v (some value)⟩,m.lost⟩,some a)

/-- A NULL from `malloc` is followed; after one from `strdup(key)` the entry is forgotten. -/
def install (m : Memory) (c : Choice) (key value : CString) (expires_at_ms : UInt64) :
    Except Fault (Memory × Option Addr) := do
  match ← lookup m key with
  | none =>
    match c.entry, c.key with
    | none, _ => .error .nullPointer
    | some a, none => .ok (⟨m.table,a :: m.lost⟩,none)
    | some a, some k =>
      assign ⟨m.table.insert a k (hash key) key none,m.lost⟩ a c.value value expires_at_ms
  | some a => do
    -- the old value is freed before it is known whether there is a new one
    let p ← m.table.nodes.deref a
    let strings ← free m.table.strings (p.entry.value.map Prod.fst)
    assign ⟨⟨m.table.nodes,strings⟩,m.lost⟩ a c.value value expires_at_ms

/-- What the argument of `undef` points to: `db_get` passes the key of the entry itself. -/
inductive Argument
  | own (key : CString)
  | shared (k : Addr)

def Argument.text (m : Strings) : Argument → Except Fault CString
  | .own key => .ok key
  | .shared k => read m.strings k

def undefFrom (m : Strings) (key : Argument) : ℕ → Option Addr → Option Addr → Except Fault (Strings × Bool)
  | _, _, none => .ok (m,false)
  | 0, _, some _ => .error .endless
  | n+1, prev, some cur => do
    let p ← m.nodes.deref cur
    let k ← read m.strings p.entry.keyAt
    let k' ← key.text m
    if k = k' then do
      let nodes ← m.nodes.store p.next (linkBefore (hash k) prev)
      let m ← Memory.freeEntry ⟨nodes,m.strings⟩ cur
      .ok (m,true)
    else undefFrom m key n (some cur) p.next

def undef (m : Memory) (key : Argument) : Except Fault (Memory × Bool) := do
  let k ← key.text m.table
  let r ← undefFrom m.table key m.table.nodes.allocs none (m.table.nodes.head (hash k))
  .ok (⟨r.1,m.lost⟩,r.2)

def strdup (copied : Bool) (s : CString) : Option CString := if copied then some s else none

/-- `expired` reads the expiry, `strdup` the value. -/
def dbGet (m : Memory) (copied : Bool) (key : CString) (now : UInt64) :
    Except Fault (Memory × Option CString) := do
  match ← lookup m key with
  | none => .ok (m,none)
  | some a => do
    let p ← m.table.nodes.deref a
    match p.entry.data with
    | none => .error .uninitialised
    | some exp =>
      if exp ≠ 0 && exp ≤ now then do
        let r ← undef m (.shared p.entry.keyAt)
        .ok (r.1,none)
      else
        match p.entry.value with
        | none => .error .nullPointer
        | some v => do
          let s ← read m.table.strings v.1
          .ok (m,strdup copied s)

/-- The `DbResult` of `db_incr`: without memory for the copy it is `ok` and has no value. -/
structure IncrResult where
  ok : Bool
  value : Option CString
  error : Option CString
  deriving DecidableEq

/-- Whether `malloc` and `strdup` of `db_incr` itself find memory. -/
structure Reply where
  res : Bool
  copied : Bool

/-- The end of `db_incr`, behind `install`. -/
def counted (r : Memory × Option Addr) (copied : Bool) : Except Fault (Memory × IncrResult) :=
  match r.2 with
  | none => .ok (r.1,⟨false,none,some failedToSave⟩)
  | some a => do
    let p ← r.1.table.nodes.deref a
    match p.entry.value with
    | none => .error .nullPointer
    | some v => do
      let s ← read r.1.table.strings v.1
      .ok (r.1,⟨true,strdup copied s,none⟩)

/-- The block of the result is written to before it is known whether there is one. -/
def dbIncr (m : Memory) (reply : Reply) (c : Choice) (key : CString) : Except Fault (Memory × IncrResult) :=
  if ¬ reply.res then .error .nullPointer
  else do
    match ← lookup m key with
    | none => do
      let r ← install m c key (lit "1") 0
      counted r reply.copied
    | some a => do
      let p ← m.table.nodes.deref a
      match p.entry.value with
      | none => .error .nullPointer
      | some v => do
        let s ← read m.table.strings v.1
        if ¬ isNumber s then .ok (m,⟨false,none,some notAnInteger⟩)
        else do
          let n ← addInt (atoi s) 1
          match p.entry.data with
          | none => .error .uninitialised
          | some exp => do
            let r ← install m c key (intText n) exp
            counted r reply.copied

inductive Call
  | install (c : Choice) (key value : CString) (expires_at_ms : UInt64)
  | get (copied : Bool) (key : CString) (now : UInt64)
  | del (key : CString)
  | incr (reply : Reply) (c : Choice) (key : CString)

inductive Answer
  | done
  | copy (value : Option CString)
  | removed (found : Bool)
  | counted (res : IncrResult)
  deriving DecidableEq

def step (m : Memory) : Call → Except Fault (Memory × Answer)
  | .install c key value expires_at_ms => do
    let r ← install m c key value expires_at_ms
    .ok (r.1,.done)
  | .get copied key now => do
    let r ← dbGet m copied key now
    .ok (r.1,.copy r.2)
  | .del key => do
    let r ← undef m (.own key)
    .ok (r.1,.removed r.2)
  | .incr reply c key => do
    let r ← dbIncr m reply c key
    .ok (r.1,.counted r.2)

def Choice.copies (c : Choice) : Copies := ⟨c.key.isSome,c.value.isSome⟩

def Call.op : Call → Op
  | .install c key value expires_at_ms => .install c.copies key value expires_at_ms
  | .get _ key now => .get key now
  | .del key => .del key
  | .incr _ c key => .incr c.copies key

/-- The key of a call that may need a new entry, and what its allocations return. -/
def Call.allocations : Call → Option (CString × Choice)
  | .install c key _ _ => some (key,c)
  | .incr _ c key => some (key,c)
  | _ => none

def Call.reply : Call → Reply
  | .get copied _ _ => ⟨true,copied⟩
  | .incr reply _ _ => reply
  | _ => ⟨true,true⟩

def IncrResult.of (copied : Bool) : DbResult → IncrResult
  | .ok value => ⟨true,strdup copied value,none⟩
  | .failed error => ⟨false,none,some error⟩

def Answer.of (copied : Bool) : Result → Answer
  | .done => .done
  | .copy value => .copy (value.bind (strdup copied))
  | .removed found => .removed found
  | .counted res => .counted (IncrResult.of copied res)

/-- The calls of `RedisAllocation`; where one needs a new entry, it stops without the block for it,
and loses the block without the copy of the key. -/
def tableStep (s : CellTab × ℕ) (call : Call) : Except Fault ((CellTab × ℕ) × Answer) :=
  if ¬ call.reply.res then .error .nullPointer
  else match call.allocations with
  | none => do
    let r ← RedisAllocation.step s.1 call.op
    .ok ((r.1,s.2),Answer.of call.reply.copied r.2)
  | some (key,c) =>
    let new := RedisAllocation.lookup s.1 key = none
    if new ∧ c.entry = none then .error .nullPointer
    else do
      let r ← RedisAllocation.step s.1 call.op
      .ok ((r.1,if new ∧ c.key = none then s.2+1 else s.2),Answer.of call.reply.copied r.2)

def view (e : Entry) : Cell := ⟨e.key,e.value.map Prod.snd,e.data⟩

/-- The strings belong to the entries of a table, and no lost block is one of its entries. -/
structure Spells (m : Memory) (s : CellTab × ℕ) : Prop where
  table : ∃ t : EntryTab, Tidy hash m.table t ∧ s.1 = Layout.image view t
  lost : m.lost.Nodup ∧ m.lost.length = s.2
  apart : ∀ a ∈ m.lost, m.table.nodes.node a = none

/-- The address of the value that `install` frees. -/
def freed (m : Memory) (key : CString) : Option Addr :=
  match lookup m key with
  | .ok (some a) => (slots m.table.nodes (a,true)).map Prod.fst
  | _ => none

structure Fresh (m : Memory) (key : CString) (c : Choice) : Prop where
  entry : ∀ a, c.entry = some a → m.table.nodes.node a = none ∧ a ∉ m.lost
  keyAt : ∀ k, c.key = some k → m.table.strings k = none
  value : ∀ v, c.value = some v → m.table.strings v = none ∨ freed m key = some v
  apart : ∀ k v, c.key = some k → c.value = some v → v ≠ k

def Allocates (m : Memory) : Call → Prop
  | .install c key _ _ => Fresh m key c
  | .incr _ c key => Fresh m key c
  | _ => True

instance {m : Memory} {key : CString} {c : Choice} : Decidable (Fresh m key c) :=
  decidable_of_iff ((∀ a ∈ c.entry, m.table.nodes.node a = none ∧ a ∉ m.lost) ∧
      (∀ k ∈ c.key, m.table.strings k = none) ∧
      (∀ v ∈ c.value, m.table.strings v = none ∨ freed m key = some v) ∧
      ∀ k ∈ c.key, ∀ v ∈ c.value, v ≠ k)
    ⟨fun ⟨h₁,h₂,h₃,h₄⟩ => ⟨h₁,h₂,h₃,fun k v hk => h₄ k hk v⟩,
      fun h => ⟨h.entry,h.keyAt,h.value,fun k hk v => h.apart k v hk⟩⟩

instance (m : Memory) : (call : Call) → Decidable (Allocates m call)
  | .install c key _ _ => inferInstanceAs (Decidable (Fresh m key c))
  | .incr _ c key => inferInstanceAs (Decidable (Fresh m key c))
  | .get .. => isTrue trivial
  | .del .. => isTrue trivial

abbrev layout : Layout Entry CString (Fin HASH_SIZE) := OwnedTable.layout hash

variable {m : Memory} {t : EntryTab} {s : CellTab × ℕ} {c : Choice} {key value : CString}

theorem lookup_view (t : EntryTab) (key : CString) :
    RedisAllocation.lookup (Layout.image view t) key = (layout.find t key).map view :=
  Layout.find_image (fun _ => rfl) rfl

theorem change_view (t : EntryTab) (key : CString) (v : Option Addr) (value : CString) (exp : UInt64) :
    cellLayout.change (Layout.image view t) key (RedisAllocation.assign v.isSome value exp) =
      Layout.image view (layout.change t key (assigned v value exp)) := by
  refine Layout.change_image (L:=layout) (g:=view) (fun _ => rfl) rfl fun e => ?_
  cases v <;> rfl

theorem remove_view (t : EntryTab) (key : CString) :
    cellLayout.remove (Layout.image view t) key =
      (Layout.image view (layout.remove t key).1,(layout.remove t key).2) :=
  Layout.remove_image (fun _ => rfl) rfl

theorem insertHead_view (t : EntryTab) (key : CString) (k : Addr) :
    cellLayout.insertHead (Layout.image view t) ⟨key,none,none⟩ =
      Layout.image view (layout.insertHead t ⟨key,k,none,none⟩) :=
  Layout.insertHead_image (L:=layout) (g:=view) (fun _ => rfl) rfl ⟨key,k,none,none⟩

theorem assign_tidy {nodes : Heap Entry (Fin HASH_SIZE)} {strings strings' : Addr → Option CString}
    (h : Tidy hash ⟨nodes,strings⟩ t) {a : Addr} {p : PointerTable.Node Entry} (hp : nodes.node a = some p)
    (ho : Owned (Function.update (slots nodes) (a,true) none) strings') {v : Option Addr}
    (hv : ∀ x, v = some x → strings' x = none) (lost : List Addr) (value : CString) (exp : UInt64) :
    ∃ table, assign ⟨⟨nodes,strings'⟩,lost⟩ a v value exp = .ok (⟨table,lost⟩,v.map fun _ => a) ∧
      Tidy hash table (layout.change t p.entry.key (assigned v value exp)) ∧
      table.nodes.node a = some ⟨assigned v value exp p.entry,p.next⟩ ∧
      ∀ x, nodes.node x = none → table.nodes.node x = none := by
  have hkey : ∀ e, (assigned v value exp e).key = e.key := fun e => by cases v <;> rfl
  have hat : ∀ e, (assigned v value exp e).keyAt = e.keyAt := fun e => by cases v <;> rfl
  cases v with
  | none =>
    obtain ⟨nodes',hnodes,hnode,hnone,htidy⟩ := h.change hp hkey hat ho
    exact ⟨_,by simp only [assign,hnodes,bind,Except.bind,Option.map_none],htidy,hnode,hnone⟩
  | some v =>
    have hfill := ho.fill (i:=(a,true)) (v:=value) (Function.update_self ..) (hv v rfl)
    rw [Function.update_idem] at hfill
    obtain ⟨nodes',hnodes,hnode,hnone,htidy⟩ := h.change hp hkey hat hfill
    exact ⟨_,by simp only [assign,hnodes,bind,Except.bind,Option.map_some],htidy,hnode,hnone⟩

/-- What `install` leaves where it gets the block for a new entry, and the pointer it returns. -/
structure Installed (s : CellTab × ℕ) (c : Choice) (key value : CString) (exp : UInt64)
    (r : Memory × Option Addr) : Prop where
  spells : Spells r.1 ((RedisAllocation.install c.copies s.1 key value exp).1,
    if RedisAllocation.lookup s.1 key = none ∧ c.key = none then s.2+1 else s.2)
  found : (RedisAllocation.install c.copies s.1 key value exp).2 = r.2.isSome
  value : ∀ a, r.2 = some a → ∃ p v, r.1.table.nodes.node a = some p ∧ p.entry.value = some (v,value)

theorem isSome_pointer (v : Option Addr) (a : Addr) : (v.map fun _ => a).isSome = v.isSome := by
  cases v <;> rfl

theorem assigned_value {v : Option Addr} {a x : Addr} (value : CString) (exp : UInt64) (e : Entry)
    (h : (v.map fun _ => a) = some x) : x = a ∧ ∃ w, (assigned v value exp e).value = some (w,value) := by
  cases v with
  | none => cases h
  | some w => exact ⟨(Option.some.inj h).symm,w,rfl⟩

theorem Spells.lookup_cases (h : Spells m s) (key : CString) :
    (RedisAllocation.lookup s.1 key = none ∧ lookup m key = .ok none) ∨
      ∃ a p, m.table.nodes.node a = some p ∧ RedisAllocation.lookup s.1 key = some (view p.entry) ∧
        p.entry.key = key ∧ lookup m key = .ok (some a) := by
  obtain ⟨t,ht,hs⟩ := h.table
  rw [hs,lookup_view]
  rcases OwnedTable.lookup_cases ht key with ⟨hf,hl⟩ | ⟨a,p,hp,hf,hk,hl⟩
  · exact Or.inl ⟨by rw [hf]; rfl,hl⟩
  · exact Or.inr ⟨a,p,hp,by rw [hf]; rfl,hk,hl⟩

theorem install_forgotten (h : Spells m s) (hc : Fresh m key c) (hl : RedisAllocation.lookup s.1 key = none)
    (hw : lookup m key = .ok none) {a : Addr} (ha : c.entry = some a) (hk : c.key = none) (value : CString)
    (exp : UInt64) : ∃ r, install m c key value exp = .ok r ∧ Installed s c key value exp r := by
  obtain ⟨htable,hlost,hapart⟩ := h
  obtain ⟨hfree,hnot⟩ := hc.entry a ha
  have hsame : RedisAllocation.install c.copies s.1 key value exp = (s.1,false) :=
    RedisAllocation.install_noKey (by simp [Choice.copies,hk]) hl value exp
  refine ⟨(⟨m.table,a :: m.lost⟩,none),by simp only [install,hw,ha,hk,bind,Except.bind],?_,
    by rw [hsame]; rfl,?_⟩
  · rw [hsame,if_pos ⟨hl,hk⟩]
    refine ⟨htable,⟨List.nodup_cons.mpr ⟨hnot,hlost.1⟩,by simp [hlost.2]⟩,fun x hx => ?_⟩
    rcases List.mem_cons.mp hx with rfl | hx
    · exact hfree
    · exact hapart x hx
  · intro x hx
    cases hx

theorem install_new (h : Spells m s) (hc : Fresh m key c) (hl : RedisAllocation.lookup s.1 key = none)
    (hw : lookup m key = .ok none) {a k : Addr} (ha : c.entry = some a) (hk : c.key = some k) (value : CString)
    (exp : UInt64) : ∃ r, install m c key value exp = .ok r ∧ Installed s c key value exp r := by
  obtain ⟨⟨t,ht,hs⟩,hlost,hapart⟩ := h
  obtain ⟨hfree,hnot⟩ := hc.entry a ha
  have hf : layout.find t key = none := by rwa [hs,lookup_view,Option.map_eq_none_iff] at hl
  have hinsert := ht.insert hf hfree (hc.keyAt k hk) none
  have hnode : (m.table.insert a k (hash key) key none).nodes.node a = some ⟨⟨key,k,none,none⟩,_⟩ :=
    Function.update_self ..
  have howned := hinsert.owned
  rw [← Function.update_eq_self (a,true) (slots _),slots_value hnode] at howned
  have hfresh : ∀ x, c.value = some x → (m.table.insert a k (hash key) key none).strings x = none := by
    intro x hx
    have hfreed : freed m key = none := by rw [freed,hw]
    refine (Function.update_of_ne (hc.apart k x hk hx) ..).trans ((hc.value x hx).resolve_right ?_)
    rw [hfreed]
    simp
  obtain ⟨table,hassign,htidy,hnode',hnone⟩ := assign_tidy hinsert hnode howned hfresh m.lost value exp
  have htable : RedisAllocation.install c.copies s.1 key value exp =
      (Layout.image view (layout.change (layout.insertHead t ⟨key,k,none,none⟩) key (assigned c.value value exp)),
        c.value.isSome) := by
    rw [← change_view,← insertHead_view,← hs]
    simp [RedisAllocation.install,hl,Choice.copies,hk]
  refine ⟨(⟨table,m.lost⟩,c.value.map fun _ => a),?_,?_,?_,?_⟩
  · simp only [install,hw,ha,hk,bind,Except.bind]
    exact hassign
  · rw [htable,if_neg (by simp [hk])]
    refine ⟨⟨_,htidy,rfl⟩,hlost,fun x hx => hnone x ?_⟩
    have hxa : x ≠ a := by
      rintro rfl
      exact hnot hx
    exact (Function.update_of_ne hxa ..).trans (hapart x hx)
  · rw [htable,isSome_pointer]
  · intro x hx
    obtain ⟨rfl,w,hv⟩ := assigned_value value exp ⟨key,k,none,none⟩ hx
    exact ⟨_,w,hnode',hv⟩

theorem install_old (h : Spells m s) (hc : Fresh m key c) {a : Addr} {p : PointerTable.Node Entry}
    (hp : m.table.nodes.node a = some p) (hl : RedisAllocation.lookup s.1 key = some (view p.entry))
    (hkey : p.entry.key = key) (hw : lookup m key = .ok (some a)) (value : CString) (exp : UInt64) :
    ∃ r, install m c key value exp = .ok r ∧ Installed s c key value exp r := by
  obtain ⟨⟨t,ht,hs⟩,hlost,hapart⟩ := h
  obtain ⟨strings,hfree,howned⟩ := ht.owned.release (a,true)
  have hfreed : freed m key = (slots m.table.nodes (a,true)).map Prod.fst := by rw [freed,hw]
  have hfresh : ∀ x, c.value = some x → strings x = none := by
    intro x hx
    have hv := hc.value x hx
    rw [hfreed] at hv
    exact free_none hfree hv
  obtain ⟨table,hassign,htidy,hnode,hnone⟩ := assign_tidy ht hp howned hfresh m.lost value exp
  rw [hkey] at htidy
  have htable : RedisAllocation.install c.copies s.1 key value exp =
      (Layout.image view (layout.change t key (assigned c.value value exp)),c.value.isSome) := by
    rw [← change_view,← hs]
    simp [RedisAllocation.install,hl,Choice.copies]
  rw [slots_value hp] at hfree
  refine ⟨(⟨table,m.lost⟩,c.value.map fun _ => a),?_,?_,?_,?_⟩
  · simp only [install,hw,deref_eq hp,hfree,bind,Except.bind]
    exact hassign
  · rw [htable,if_neg (by simp [hl])]
    exact ⟨⟨_,htidy,rfl⟩,hlost,fun x hx => hnone x (hapart x hx)⟩
  · rw [htable,isSome_pointer]
  · intro x hx
    obtain ⟨rfl,w,hv⟩ := assigned_value value exp p.entry hx
    exact ⟨_,w,hnode,hv⟩

/-- `install` stops only where it needs a new entry and gets no block for it. -/
theorem install_spells (h : Spells m s) (hc : Fresh m key c) (value : CString) (exp : UInt64) :
    (RedisAllocation.lookup s.1 key = none ∧ c.entry = none ∧
      install m c key value exp = .error .nullPointer) ∨
    (¬ (RedisAllocation.lookup s.1 key = none ∧ c.entry = none) ∧
      ∃ r, install m c key value exp = .ok r ∧ Installed s c key value exp r) := by
  rcases h.lookup_cases key with ⟨hl,hw⟩ | ⟨a,p,hp,hl,hkey,hw⟩
  · cases ha : c.entry with
    | none => exact Or.inl ⟨hl,rfl,by simp only [install,hw,ha,bind,Except.bind]⟩
    | some a =>
      refine Or.inr ⟨by simp,?_⟩
      cases hk : c.key with
      | none => exact install_forgotten h hc hl hw ha hk value exp
      | some k => exact install_new h hc hl hw ha hk value exp
  · exact Or.inr ⟨by simp [hl],install_old h hc hp hl hkey hw value exp⟩

theorem undefFrom_tidy {table : Strings} {arg : Argument} (h : Tidy hash table t) (ha : arg.text table = .ok key)
    {es : List Entry} {prev cur : Option Addr} {n : ℕ} (hc : Linked table.nodes.node cur es) (hn : es.length ≤ n)
    (hs : search layout.key key es = layout.find t key)
    (hlink : table.nodes.load (linkBefore (hash key) prev) = cur) :
    ∃ table', undefFrom table arg n prev cur = .ok (table',(layout.remove t key).2) ∧
      (∀ x, table.nodes.node x = none → table'.nodes.node x = none) ∧
      Tidy hash table' (layout.remove t key).1 := by
  induction es generalizing prev cur n with
  | nil =>
    obtain rfl : cur = none := hc
    have hrem : layout.remove t key = (t,false) := Layout.remove_absent hs.symm
    rw [hrem]
    exact ⟨table,by cases n <;> rfl,fun _ hx => hx,h⟩
  | cons e es ih =>
    obtain ⟨a,p,rfl,hp,rfl,hl⟩ := hc
    obtain ⟨k,rfl⟩ : ∃ k, n = k+1 := ⟨n-1,by simp at hn; omega⟩
    by_cases hk : p.entry.key = key
    · subst hk
      obtain ⟨nodes,strings,hstore,hfree,hnone,htidy⟩ := h.unlink hlink hp
      have hfound : (layout.remove t p.entry.key).2 = true := by
        rw [Layout.remove_found,show layout.find t p.entry.key = some p.entry from h.repr.owned a p hp]
        rfl
      refine ⟨_,?_,hnone,htidy⟩
      simp only [undefFrom,deref_eq hp,h.read_key hp,ha,hstore,hfree,hfound,if_true,bind,Except.bind]
    · have hs' : search layout.key key es = layout.find t key := by
        rw [← hs,search,if_neg (show ¬ key = layout.key p.entry from Ne.symm hk)]
      have hlink' : table.nodes.load (linkBefore (hash key) (some a)) = p.next := by
        simp [linkBefore,Heap.load,hp]
      obtain ⟨table',hw,hnone,htidy⟩ := ih hl (by simpa using hn) hs' hlink'
      refine ⟨table',?_,hnone,htidy⟩
      simpa only [undefFrom,deref_eq hp,h.read_key hp,ha,if_neg hk,bind,Except.bind] using hw

theorem undef_spells (h : Spells m s) {arg : Argument} (ha : arg.text m.table = .ok key) :
    ∃ m', undef m arg = .ok (m',(cellLayout.remove s.1 key).2) ∧
      Spells m' ((cellLayout.remove s.1 key).1,s.2) := by
  obtain ⟨⟨t,ht,hs⟩,hlost,hapart⟩ := h
  have hlink : m.table.nodes.load (linkBefore (hash key) none) = m.table.nodes.head (hash key) := rfl
  obtain ⟨table,hw,hnone,htidy⟩ := undefFrom_tidy ht ha (ht.repr.chain _) (ht.repr.short _) rfl hlink
  rw [hs,remove_view]
  refine ⟨⟨table,m.lost⟩,?_,⟨⟨_,htidy,rfl⟩,hlost,fun x hx => hnone x (hapart x hx)⟩⟩
  have hw' : undefFrom m.table arg m.table.nodes.allocs none (m.table.nodes.head (hash key)) =
      .ok (table,(layout.remove t key).2) := hw
  simp only [undef,ha,hw',bind,Except.bind]

theorem dbGet_match (h : Spells m s) (copied : Bool) (key : CString) (now : UInt64) :
    Match (fun m t => Spells m (t,s.2)) (fun value => value.bind (strdup copied)) (dbGet m copied key now)
      (RedisAllocation.dbGet s.1 key now) := by
  rcases h.lookup_cases key with ⟨hl,hw⟩ | ⟨a,p,hp,hl,hkey,hw⟩
  · simp only [dbGet,hw,RedisAllocation.dbGet,hl,bind,Except.bind]
    exact ⟨h,rfl⟩
  · obtain ⟨t,ht,-⟩ := h.table
    simp only [dbGet,hw,RedisAllocation.dbGet,hl,deref_eq hp,view,bind,Except.bind]
    cases hd : p.entry.data with
    | none => exact rfl
    | some exp =>
      simp only
      by_cases hx : (exp ≠ 0 && exp ≤ now) = true
      · have hread : Argument.text m.table (.shared p.entry.keyAt) = .ok p.entry.key := ht.read_key hp
        obtain ⟨m',hu,hspells⟩ := undef_spells h hread
        rw [if_pos hx,if_pos hx,hu]
        rw [hkey] at hspells
        exact ⟨hspells,rfl⟩
      · rw [if_neg hx,if_neg hx]
        cases hv : p.entry.value with
        | none => exact rfl
        | some v =>
          simp only [Option.map_some,ht.read_value hp hv]
          exact ⟨h,rfl⟩

theorem Installed.counted {r : Memory × Option Addr} {exp : UInt64} (h : Installed s c key value exp r)
    (copied : Bool) : counted r copied = .ok (r.1,IncrResult.of copied
      (if (RedisAllocation.install c.copies s.1 key value exp).2 then .ok value else .failed failedToSave)) := by
  rw [h.found]
  obtain ⟨m,q⟩ := r
  cases q with
  | none => rfl
  | some a =>
    obtain ⟨p,v,hp,hv⟩ := h.value a rfl
    obtain ⟨t,ht,-⟩ := h.spells.table
    have hread := ht.read_value hp hv
    simp only [RedisMemory.counted,deref_eq hp,hv,hread,bind,Except.bind]
    rfl

/-- As `install` does, `db_incr` stops where it gets no block for a new entry. -/
theorem dbIncr_match (h : Spells m s) (hc : Fresh m key c) {reply : Reply} (hres : reply.res = true) :
    (RedisAllocation.lookup s.1 key = none ∧ c.entry = none ∧ dbIncr m reply c key = .error .nullPointer) ∨
    (¬ (RedisAllocation.lookup s.1 key = none ∧ c.entry = none) ∧
      Match (fun m t => Spells m (t,if RedisAllocation.lookup s.1 key = none ∧ c.key = none then s.2+1 else s.2))
        (IncrResult.of reply.copied) (dbIncr m reply c key) (RedisAllocation.dbIncr c.copies s.1 key)) := by
  have hstart : ¬ ¬ reply.res = true := not_not_intro hres
  rcases h.lookup_cases key with ⟨hl,hw⟩ | ⟨a,p,hp,hl,hkey,hw⟩
  · rcases install_spells h hc (lit "1") 0 with ⟨-,he,hi⟩ | ⟨hne,r,hi,hr⟩
    · exact Or.inl ⟨hl,he,by simp only [dbIncr,if_neg hstart,hw,hi,bind,Except.bind]⟩
    · refine Or.inr ⟨hne,?_⟩
      simp only [dbIncr,if_neg hstart,hw,hi,hr.counted,RedisAllocation.dbIncr,hl,bind,Except.bind]
      have hspells := hr.spells
      simp only [hl] at hspells
      exact ⟨hspells,rfl⟩
  · refine Or.inr ⟨by simp [hl],?_⟩
    obtain ⟨t,ht,-⟩ := h.table
    have hsame : ¬ (RedisAllocation.lookup s.1 key = none ∧ c.key = none) := by simp [hl]
    rw [if_neg hsame]
    simp only [dbIncr,if_neg hstart,hw,RedisAllocation.dbIncr,deref_eq hp,bind,Except.bind]
    rw [hl]
    simp only [view]
    cases hv : p.entry.value with
    | none => exact rfl
    | some v =>
      simp only [Option.map_some,ht.read_value hp hv]
      by_cases hn : isNumber v.2 = true
      · rw [if_neg (by simp [hn]),if_neg (by simp [hn])]
        cases addInt (atoi v.2) 1 with
        | error f => exact rfl
        | ok n =>
          cases hd : p.entry.data with
          | none => exact rfl
          | some exp =>
            obtain ⟨r,hi,hr⟩ := install_old h hc hp hl hkey hw (intText n) exp
            have hspells := hr.spells
            rw [if_neg hsame] at hspells
            simp only [hi,hr.counted]
            exact ⟨hspells,rfl⟩
      · rw [if_pos hn,if_pos hn]
        exact ⟨h,rfl⟩

theorem answer_match {ρ ρ' : Type} {x : Except Fault (Memory × ρ)} {y : Except Fault (CellTab × ρ')} {n : ℕ}
    {f : ρ' → ρ} {g : ρ → Answer} {g' : ρ' → Result} {copied : Bool}
    (hg : ∀ r, g (f r) = Answer.of copied (g' r))
    (h : Match (fun m t => Spells m (t,n)) f x y) :
    Match Spells id (do let r ← x; .ok (r.1,g r.2))
      (do let r ← (do let r ← y; .ok (r.1,g' r.2)); .ok ((r.1,n),Answer.of copied r.2)) := by
  rcases x with e | r <;> rcases y with e' | r'
  · exact h
  · exact h.elim
  · exact h.elim
  · exact ⟨h.1,(congrArg g h.2).trans (hg r'.2)⟩

/-- A call in memory and the call on the table end alike. -/
theorem step_match {call : Call} (h : Spells m s) (ha : Allocates m call) :
    Match Spells id (step m call) (tableStep s call) := by
  cases call with
  | install c key value exp =>
    have hres : (Call.install c key value exp).reply.res = true := rfl
    rw [tableStep,if_neg (not_not_intro hres),Call.allocations]
    rcases install_spells h ha value exp with ⟨hl,he,hi⟩ | ⟨hne,r,hi,hr⟩
    · dsimp only
      rw [if_pos ⟨hl,he⟩,step,hi]
      rfl
    · dsimp only
      rw [if_neg hne,step,hi]
      exact ⟨hr.spells,rfl⟩
  | get copied key now => exact answer_match (g:=.copy) (fun _ => rfl) (dbGet_match h copied key now)
  | del key =>
    obtain ⟨m',hu,hspells⟩ := undef_spells h (show Argument.text m.table (.own key) = .ok key from rfl)
    have hm : Match (fun m t => Spells m (t,s.2)) id (undef m (.own key)) (.ok (cellLayout.remove s.1 key)) := by
      rw [hu]
      exact ⟨hspells,rfl⟩
    exact answer_match (fun r => show Answer.removed r = Answer.of true (.removed r) from rfl) hm
  | incr reply c key =>
    cases hres : reply.res with
    | false =>
      have hnone : ¬ (Call.incr reply c key).reply.res = true := fun h => by cases hres.symm.trans h
      rw [tableStep,if_pos hnone,step,dbIncr,if_pos (show ¬ reply.res = true from hnone)]
      rfl
    | true =>
      have hres' : (Call.incr reply c key).reply.res = true := hres
      rw [tableStep,if_neg (not_not_intro hres'),Call.allocations]
      rcases dbIncr_match h ha hres with ⟨hl,he,hi⟩ | ⟨hne,hm⟩
      · dsimp only
        rw [if_pos ⟨hl,he⟩,step,hi]
        rfl
      · dsimp only
        rw [if_neg hne]
        exact answer_match (g:=.counted) (fun _ => rfl) hm

theorem spells_empty : Spells empty (emptyCells,0) :=
  ⟨⟨fun _ => [],tidy_empty,rfl⟩,⟨List.nodup_nil,rfl⟩,nofun⟩

/-- The faults a call can end in: a NULL is followed, the expiry was never assigned, a sum leaves
`int`. -/
def Known (f : Fault) : Prop := f = .nullPointer ∨ f = .uninitialised ∨ f = .intOverflow

theorem known_dbGet {cells : CellTab} {now : UInt64} {f : Fault}
    (h : RedisAllocation.dbGet cells key now = .error f) : Known f := by
  unfold RedisAllocation.dbGet at h
  split at h
  · cases h
  · split at h
    · exact Or.inr (Or.inl (Except.error.inj h).symm)
    · split at h
      · cases h
      · split at h
        · exact Or.inl (Except.error.inj h).symm
        · cases h

theorem known_dbIncr {cells : CellTab} {copies : Copies} {f : Fault}
    (h : RedisAllocation.dbIncr copies cells key = .error f) : Known f := by
  unfold RedisAllocation.dbIncr at h
  split at h
  · cases h
  · split at h
    · exact Or.inl (Except.error.inj h).symm
    · split at h
      · cases h
      · rename_i value _
        unfold addInt at h
        split at h
        · simp only [bind,Except.bind] at h
          split at h
          · exact Or.inr (Or.inl (Except.error.inj h).symm)
          · cases h
        · exact Or.inr (Or.inr (Except.error.inj h).symm)

theorem error_of_bind {α β : Type} {x : Except Fault α} {g : α → β} {f : Fault}
    (h : (do let r ← x; .ok (g r)) = (.error f : Except Fault β)) : x = .error f := by
  cases x with
  | error e => exact congrArg _ (Except.error.inj h)
  | ok r => cases h

theorem known_step {cells : CellTab} {op : Op} {f : Fault} (h : RedisAllocation.step cells op = .error f) :
    Known f := by
  cases op with
  | install c key value exp => cases h
  | get key now => exact known_dbGet (error_of_bind h)
  | del key => cases h
  | incr c key => exact known_dbIncr (error_of_bind h)

theorem known_tableStep {call : Call} {f : Fault} (h : tableStep s call = .error f) : Known f := by
  rw [tableStep] at h
  split at h
  · exact Or.inl (Except.error.inj h).symm
  split at h
  · exact known_step (error_of_bind h)
  · dsimp only at h
    split at h
    · exact Or.inl (Except.error.inj h).symm
    · exact known_step (error_of_bind h)

/-- Every sequence of calls, with allocations that fail or return any free address, stops where the
calls on the table stop, or ends with the table they end with and gives their answers, without the
copies there was no memory for. No call reads
memory that was freed, and none frees it again: it stops at a NULL, at an expiry never assigned or
at a sum that leaves `int`, or not at all. In the end the strings are those of the entries, each in
one place, and the blocks without a pointer are those whose keys could not be copied. -/
theorem memory_refines_table (calls : List Call) (hc : AllSteps step Allocates empty calls) :
    (∀ f, run step empty calls = .error f → run tableStep (emptyCells,0) calls = .error f ∧ Known f) ∧
    ∀ m os, run step empty calls = .ok (m,os) →
      ∃ s, run tableStep (emptyCells,0) calls = .ok (s,os) ∧ Spells m s := by
  have hm : Match Spells (List.map id) (run step empty calls) (run tableStep (emptyCells,0) (calls.map id)) :=
    hc.run_match id (fun _ _ _ h ha => step_match h ha) spells_empty
  rw [List.map_id,List.map_id_fun] at hm
  constructor
  · intro f hf
    rw [hf] at hm
    have hrun := hm.of_error
    obtain ⟨s,call,hstep⟩ := exists_step_of_error hrun
    exact ⟨hrun,known_tableStep hstep⟩
  · intro m os hr
    rw [hr] at hm
    obtain ⟨s,os',hrun,hspells,rfl⟩ := hm.of_ok
    exact ⟨s,hrun,hspells⟩

def busyCalls : List Call :=
  [.install ⟨some 0,some 1,some 2⟩ (lit "k") (lit "7") 9,.incr ⟨true,false⟩ ⟨none,none,some 2⟩ (lit "k"),
    .install ⟨some 5,none,none⟩ (lit "j") (lit "x") 0,.get true (lit "k") 9,
    .install ⟨some 0,some 2,some 1⟩ (lit "j") (lit "y") 0,.get false (lit "j") 9,.del (lit "j")]

theorem memory_refines_table_busy : ∃ m os s, run step empty busyCalls = .ok (m,os) ∧ m.lost = [5] ∧
    run tableStep (emptyCells,0) busyCalls = .ok (s,os) ∧ Spells m s := by
  have hlost : (run step empty busyCalls).map (fun r => r.1.lost) = .ok [5] := by decide +kernel
  cases hr : run step empty busyCalls with
  | error f =>
    rw [hr] at hlost
    cases hlost
  | ok r =>
    rw [hr] at hlost
    obtain ⟨s,hs,hspells⟩ := (memory_refines_table busyCalls (by decide +kernel)).2 r.1 r.2 hr
    exact ⟨r.1,r.2,s,rfl,Except.ok.inj hlost,hs,hspells⟩

end RedisMemory
end CodingChallenges
