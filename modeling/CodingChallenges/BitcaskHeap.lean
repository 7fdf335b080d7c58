import CodingChallenges.BitcaskTable
import CodingChallenges.OwnedTable
import CodingChallenges.Runs

/-! The hash table of the Bitcask store in memory (`ht_set`, `ht_get`, `ht_free`): nodes, and the
strings they point to. `malloc` may return any free address, or NULL. -/
namespace CodingChallenges
namespace BitcaskHeap

open CText CMemory ChainedTable BitcaskTable OwnedBlocks OwnedTable PointerTable Runs

abbrev Entry := OwnedTable.Entry CString Unit

abbrev Memory := OwnedTable.Memory CString Unit (Fin HT_BUCKETS)

abbrev layout : Layout Entry CString (Fin HT_BUCKETS) := OwnedTable.layout htHash

/-- What the calls of `calloc` and `strdup` return, NULL where they fail. -/
structure Choice where
  node : Option Addr
  key : Option Addr
  value : Option Addr

def lookup (m : Memory) (key : CString) : Except Fault (Option Addr) := OwnedTable.lookup htHash m key

/-- The node of a key that has none. Where `strdup` fails, it is freed again. -/
def newNode (m : Memory) (c : Choice) (key : CString) : Option (Addr × Memory) :=
  match c.node, c.key with
  | some a, some k => some (a,m.insert a k (htHash key) key ())
  | _, _ => none

/-- Behind `lookup`: the value is copied before the old one is freed. -/
def setValue (m : Memory) (a : Addr) (v : Option Addr) (value : CString) : Except Fault Memory :=
  match v with
  | none => .ok m
  | some v => do
    let p ← m.nodes.deref a
    let strings ← free (Function.update m.strings v (some value)) (p.entry.value.map Prod.fst)
    let nodes ← m.nodes.changeNode a fun e => { e with value := some (v,value) }
    .ok ⟨nodes,strings⟩

def htSet (m : Memory) (c : Choice) (key value : CString) : Except Fault Memory := do
  match ← lookup m key with
  | some a => setValue m a c.value value
  | none =>
    match newNode m c key with
    | none => .ok m
    | some r => setValue r.2 r.1 c.value value

def htGet (m : Memory) (key : CString) : Except Fault (Option CString) := do
  match ← lookup m key with
  | none => .ok none
  | some a => do
    let p ← m.nodes.deref a
    match p.entry.value with
    | none => .ok none
    | some v => do
      let s ← read m.strings v.1
      .ok (some s)

/-- The loop of `ht_free` over one chain. -/
def freeChain : ℕ → Option Addr → Memory → Except Fault Memory
  | _, none, m => .ok m
  | 0, some _, _ => .error .endless
  | n+1, some a, m => do
    let p ← m.nodes.deref a
    let m ← m.freeEntry a
    freeChain n p.next m

def htFree (m : Memory) : Except Fault Memory :=
  (List.finRange HT_BUCKETS).foldlM (fun m b => freeChain m.nodes.allocs (m.nodes.head b) m) m

/-- What a program asks of the table between `ht_new` and `ht_free`. -/
inductive Call
  | set (c : Choice) (key value : CString)
  | get (key : CString)

def step (m : Memory) : Call → Except Fault (Memory × Option CString)
  | .set c key value => (htSet m c key value).map (·,none)
  | .get key => (htGet m key).map (m,·)

structure Fresh (m : Memory) (c : Choice) : Prop where
  node : ∀ a, c.node = some a → m.nodes.node a = none
  key : ∀ k, c.key = some k → m.strings k = none
  value : ∀ v, c.value = some v → m.strings v = none
  apart : ∀ k v, c.key = some k → c.value = some v → v ≠ k

def view (e : Entry) : BitcaskTable.Node := ⟨e.key,e.value.map Prod.snd⟩

variable {m m' : Memory} {t : Table Entry (Fin HT_BUCKETS)} {c : Choice} {key value : CString}

def tableSet (t : Table Entry (Fin HT_BUCKETS)) (key : CString) (v : Option Addr) (value : CString) :
    Table Entry (Fin HT_BUCKETS) :=
  match v with
  | none => t
  | some v => layout.change t key fun e => { e with value := some (v,value) }

theorem setValue_tidy (h : Tidy htHash m t) {a : Addr} {p : PointerTable.Node Entry} (hp : m.nodes.node a = some p)
    {v : Option Addr} (hv : ∀ x, v = some x → m.strings x = none) (value : CString) :
    ∃ m', setValue m a v value = .ok m' ∧ Tidy htHash m' (tableSet t p.entry.key v value) := by
  cases v with
  | none => exact ⟨m,rfl,h⟩
  | some v =>
    obtain ⟨strings,hfree,howned⟩ := h.owned.replace (a,true) (hv v rfl) value
    rw [slots_value hp] at hfree
    obtain ⟨nodes,hnodes,-,-,htidy⟩ :=
      h.change (f:=fun e => { e with value := some (v,value) }) hp (fun _ => rfl) (fun _ => rfl) howned
    exact ⟨_,by simp only [setValue,deref_eq hp,hfree,hnodes,bind,Except.bind],htidy⟩

def tableHtSet (t : Table Entry (Fin HT_BUCKETS)) (c : Choice) (key value : CString) :
    Table Entry (Fin HT_BUCKETS) :=
  match layout.find t key with
  | some _ => tableSet t key c.value value
  | none =>
    match c.node, c.key with
    | some _, some k => tableSet (layout.insertHead t ⟨key,k,none,()⟩) key c.value value
    | _, _ => t

/-- A call of `ht_set` keeps the invariant, whichever of its allocations fail. -/
theorem htSet_tidy (h : Tidy htHash m t) (hc : Fresh m c) (key value : CString) :
    ∃ m', htSet m c key value = .ok m' ∧ Tidy htHash m' (tableHtSet t c key value) := by
  rcases lookup_cases h key with ⟨hf,hl⟩ | ⟨a,p,hp,hf,hk,hl⟩
  · cases hn : c.node with
    | none =>
      refine ⟨m,?_,?_⟩
      · simp [htSet,lookup,hl,newNode,hn,bind,Except.bind]
      · simpa only [tableHtSet,hf,hn] using h
    | some a =>
      cases hk : c.key with
      | none =>
        refine ⟨m,?_,?_⟩
        · simp [htSet,lookup,hl,newNode,hn,hk,bind,Except.bind]
        · simpa only [tableHtSet,hf,hn,hk] using h
      | some k =>
        have hinsert := h.insert hf (hc.node a hn) (hc.key k hk) ()
        have hfresh : ∀ x, c.value = some x → Function.update m.strings k (some key) x = none := by
          intro x hx
          rw [Function.update_of_ne (hc.apart k x hk hx)]
          exact hc.value x hx
        obtain ⟨m',hset,htidy⟩ := setValue_tidy (a:=a) hinsert (Function.update_self ..) hfresh value
        refine ⟨m',?_,?_⟩
        · simp only [htSet,lookup,hl,newNode,hn,hk,bind,Except.bind]
          exact hset
        · simpa only [tableHtSet,hf,hn,hk] using htidy
  · obtain ⟨m',hset,htidy⟩ := setValue_tidy h hp hc.value value
    refine ⟨m',by simp only [htSet,lookup,hl,hset,bind,Except.bind],?_⟩
    subst hk
    simpa only [tableHtSet,hf] using htidy

def Choice.made (c : Choice) : Allocations := ⟨c.node.isSome,c.key.isSome,c.value.isSome⟩

def tableStep (ht : Hashtable) : Call → Except Fault (Hashtable × Option CString)
  | .set c key value => .ok (BitcaskTable.htSet ht key value c.made,none)
  | .get key => .ok (ht,BitcaskTable.htGet ht key)

theorem lookup_view (t : Table Entry (Fin HT_BUCKETS)) (key : CString) :
    BitcaskTable.lookup (Layout.image view t) key = (layout.find t key).map view :=
  Layout.find_image (fun _ => rfl) rfl

theorem tableSet_view (t : Table Entry (Fin HT_BUCKETS)) (c : Choice) (key value : CString) :
    BitcaskTable.setValue (Layout.image view t) key value c.made =
      Layout.image view (tableSet t key c.value value) := by
  rw [BitcaskTable.setValue]
  cases hv : c.value with
  | none => simp [Choice.made,hv,tableSet]
  | some v =>
    rw [if_pos (by simp [Choice.made,hv])]
    exact Layout.change_image (L:=layout) (g:=view) (fun _ => rfl) rfl fun _ => rfl

theorem tableHtSet_view (t : Table Entry (Fin HT_BUCKETS)) (c : Choice) (key value : CString) :
    BitcaskTable.htSet (Layout.image view t) key value c.made =
      Layout.image view (tableHtSet t c key value) := by
  rw [BitcaskTable.htSet,lookup_view]
  cases hf : layout.find t key with
  | some e => simpa only [Option.map_some,tableHtSet,hf] using tableSet_view t c key value
  | none =>
    cases hn : c.node with
    | none => simp [Choice.made,hn,tableHtSet,hf]
    | some a =>
      cases hk : c.key with
      | none => simp [Choice.made,hn,hk,tableHtSet,hf]
      | some k =>
        have hinsert : BitcaskTable.layout.insertHead (Layout.image view t) ⟨key,none⟩ =
            Layout.image view (layout.insertHead t ⟨key,k,none,()⟩) :=
          Layout.insertHead_image (L:=layout) (g:=view) (fun _ => rfl) rfl ⟨key,k,none,()⟩
        have hset := tableSet_view (layout.insertHead t ⟨key,k,none,()⟩) c key value
        rw [← hinsert] at hset
        simpa only [Option.map_none,tableHtSet,hf,hn,hk,Choice.made,Option.isSome_some,Bool.and_self,
          if_true] using hset

theorem htGet_eq (h : Tidy htHash m t) (key : CString) :
    htGet m key = .ok (BitcaskTable.htGet (Layout.image view t) key) := by
  rw [BitcaskTable.htGet,lookup_view]
  rcases lookup_cases h key with ⟨hf,hl⟩ | ⟨a,p,hp,hf,-,hl⟩
  · simp [htGet,lookup,hl,hf,bind,Except.bind]
  · simp only [htGet,lookup,hl,hf,deref_eq hp,bind,Except.bind,Option.map_some,Option.bind_some]
    cases hv : p.entry.value with
    | none => simp [view,hv]
    | some v =>
      have hread : read m.strings v.1 = .ok v.2 := h.owned.read (i:=(a,true)) (by simp [slots,hp,hv])
      simp [view,hv,hread]

/-- No call is handed an address that is in use. -/
def Allocates (m : Memory) : Call → Prop
  | .set c _ _ => Fresh m c
  | .get _ => True

instance : Decidable (Fresh m c) :=
  decidable_of_iff ((∀ a ∈ c.node, m.nodes.node a = none) ∧ (∀ k ∈ c.key, m.strings k = none) ∧
      (∀ v ∈ c.value, m.strings v = none) ∧ ∀ k ∈ c.key, ∀ v ∈ c.value, v ≠ k)
    ⟨fun ⟨h₁,h₂,h₃,h₄⟩ => ⟨h₁,h₂,h₃,fun k v hk => h₄ k hk v⟩,
      fun h => ⟨h.node,h.key,h.value,fun k hk v => h.apart k v hk⟩⟩

instance : (a : Call) → Decidable (Allocates m a)
  | .set c _ _ => inferInstanceAs (Decidable (Fresh m c))
  | .get _ => inferInstanceAs (Decidable True)

theorem step_tidy {a : Call} (h : Tidy htHash m t) (ha : Allocates m a) :
    ∃ m' t' o, step m a = .ok (m',o) ∧ Tidy htHash m' t' ∧
      tableStep (Layout.image view t) a = .ok (Layout.image view t',o) := by
  cases a with
  | set c key value =>
    obtain ⟨m',hset,htidy⟩ := htSet_tidy h ha key value
    exact ⟨m',_,none,by rw [step,hset]; rfl,htidy,by rw [tableStep,tableHtSet_view]⟩
  | get key => exact ⟨m,t,_,by rw [step,htGet_eq h]; rfl,h,rfl⟩

/-- A program that only works on the table never faults and sees that table. -/
theorem run_tidy {calls : List Call} (h : Tidy htHash m t) (hc : AllSteps step Allocates m calls) :
    ∃ m' t' os, run step m calls = .ok (m',os) ∧ Tidy htHash m' t' ∧
      run tableStep (Layout.image view t) calls = .ok (Layout.image view t',os) := by
  induction calls generalizing m t with
  | nil => exact ⟨m,t,[],rfl,h,rfl⟩
  | cons a calls ih =>
    obtain ⟨m₁,t₁,o,hstep,htidy,htable⟩ := step_tidy h hc.1
    obtain ⟨m',t',os,hrun,htidy',hruns⟩ := ih htidy (hc.2 m₁ o hstep)
    exact ⟨m',t',o :: os,run_cons hstep hrun,htidy',run_cons htable hruns⟩

/-- The memory with other heads: `ht_free` leaves pointers to freed nodes in the array, the proof
follows the chains that are left. -/
def Memory.withHeads (m : Memory) (heads : Fin HT_BUCKETS → Option Addr) : Memory :=
  ⟨{ m.nodes with head := heads },m.strings⟩

variable {heads : Fin HT_BUCKETS → Option Addr} {b : Fin HT_BUCKETS}

theorem head_cases (h : Tidy htHash (m.withHeads heads) t) (b : Fin HT_BUCKETS) :
    (heads b = none ∧ t b = []) ∨
      ∃ a p rest, heads b = some a ∧ m.nodes.node a = some p ∧ t b = p.entry :: rest := by
  have hc : Linked m.nodes.node (heads b) (t b) := h.repr.chain b
  cases ht : t b with
  | nil =>
    rw [ht] at hc
    exact Or.inl ⟨hc,rfl⟩
  | cons e rest =>
    rw [ht] at hc
    obtain ⟨a,p,ha,hp,rfl,-⟩ := hc
    exact Or.inr ⟨a,p,rest,ha,hp,rfl⟩

theorem freeFirst {a : Addr} {p : PointerTable.Node Entry} {rest : List Entry}
    (h : Tidy htHash (m.withHeads heads) t) (hb : heads b = some a) (hp : m.nodes.node a = some p)
    (ht : t b = p.entry :: rest) :
    ∃ strings, m.freeEntry a = .ok ⟨m.nodes.free a,strings⟩ ∧
      Tidy htHash (Memory.withHeads ⟨m.nodes.free a,strings⟩ (Function.update heads b p.next))
        (Function.update t b rest) := by
  have howned : Owned (slots m.nodes) m.strings := h.owned
  obtain ⟨strings,hfree,howned⟩ := freeEntry_owned howned hp
  have hload : Heap.load (m.withHeads heads).nodes (.bucket b) = some a := hb
  obtain ⟨nodes,hstore,hrepr⟩ := h.repr.store hload hp
  obtain rfl := Except.ok.inj hstore
  have hbucket : htHash p.entry.key = b := h.repr.wf.placed b p.entry (by simp [ht])
  obtain ⟨rest',hunlink,hremove⟩ := Layout.remove_present (h.repr.owned a p hp)
  have hrest : rest' = rest := by
    have hchain : ChainedTable.unlink layout.key p.entry.key (t (htHash p.entry.key)) = some rest := by
      rw [hbucket,ht]
      simp [ChainedTable.unlink,OwnedTable.layout]
    exact Option.some.inj (hunlink.symm.trans hchain)
  rw [hremove,hrest,show layout.hash (layout.key p.entry) = b from hbucket] at hrepr
  exact ⟨strings,hfree,hrepr,howned⟩

theorem freeChain_tidy {n : ℕ} (h : Tidy htHash (m.withHeads heads) t) (hn : (t b).length ≤ n) :
    ∃ m', freeChain n (heads b) m = .ok m' ∧ m'.nodes.head = m.nodes.head ∧
      Tidy htHash (m'.withHeads (Function.update heads b none)) (Function.update t b []) := by
  induction n generalizing m t heads with
  | zero =>
    rcases head_cases h b with ⟨hb,ht⟩ | ⟨a,p,rest,hb,hp,ht⟩
    · refine ⟨m,by rw [hb]; rfl,rfl,?_⟩
      rwa [← hb,← ht,Function.update_eq_self,Function.update_eq_self]
    · simp [ht] at hn
  | succ n ih =>
    rcases head_cases h b with ⟨hb,ht⟩ | ⟨a,p,rest,hb,hp,ht⟩
    · refine ⟨m,by rw [hb]; rfl,rfl,?_⟩
      rwa [← hb,← ht,Function.update_eq_self,Function.update_eq_self]
    · obtain ⟨strings,hentry,htidy⟩ := freeFirst h hb hp ht
      have hlen : (Function.update t b rest b).length ≤ n := by
        rw [Function.update_self]
        simpa [ht] using hn
      obtain ⟨m',hfree,hhead,htidy'⟩ := ih htidy hlen
      rw [Function.update_self] at hfree
      rw [Function.update_idem,Function.update_idem] at htidy'
      refine ⟨m',?_,hhead,htidy'⟩
      rw [hb,freeChain]
      simp only [deref_eq hp,hentry,bind,Except.bind]
      exact hfree

theorem freeBuckets_tidy {bs : List (Fin HT_BUCKETS)} (h : Tidy htHash (m.withHeads heads) t) (hbs : bs.Nodup)
    (hheads : ∀ b ∈ bs, heads b = m.nodes.head b) :
    ∃ m' heads' t', bs.foldlM (fun m b => freeChain m.nodes.allocs (m.nodes.head b) m) m = .ok m' ∧
      Tidy htHash (m'.withHeads heads') t' ∧ ∀ b, t' b = if b ∈ bs then [] else t b := by
  induction bs generalizing m t heads with
  | nil => exact ⟨m,heads,t,rfl,h,by simp⟩
  | cons b bs ih =>
    rw [List.nodup_cons] at hbs
    obtain ⟨m₁,hfree,hhead,htidy⟩ := freeChain_tidy h (h.repr.short b)
    have hrest : ∀ x ∈ bs, Function.update heads b none x = m₁.nodes.head x := by
      intro x hx
      have hne : x ≠ b := by
        rintro rfl
        exact hbs.1 hx
      rw [Function.update_of_ne hne,hhead,hheads x (by simp [hx])]
    obtain ⟨m',heads',t',hfold,htidy',htable⟩ := ih htidy hbs.2 hrest
    refine ⟨m',heads',t',?_,htidy',fun x => ?_⟩
    · rw [List.foldlM_cons,← hheads b (by simp)]
      simp only [bind,Except.bind]
      rw [show freeChain m.nodes.allocs (heads b) m = .ok m₁ from hfree]
      exact hfold
    · rw [htable]
      by_cases hx : x = b
      · subst hx
        simp
      · simp [hx]

/-- `ht_free` frees every node and every string once. -/
theorem htFree_tidy (h : Tidy htHash m t) :
    ∃ m', htFree m = .ok m' ∧ (∀ a, m'.nodes.node a = none) ∧ ∀ a, m'.strings a = none := by
  have hheads : Tidy htHash (m.withHeads m.nodes.head) t := h
  obtain ⟨m',heads',t',hfree,htidy,htable⟩ :=
    freeBuckets_tidy hheads (List.nodup_finRange HT_BUCKETS) fun _ _ => rfl
  have hempty : ∀ b, t' b = [] := fun b => by rw [htable,if_pos (List.mem_finRange b)]
  have hnode : ∀ a, m'.nodes.node a = none := by
    intro a
    cases hp : m'.nodes.node a with
    | none => rfl
    | some p =>
      have hmem := htidy.repr.mem (a:=a) (p:=p) hp
      rw [hempty] at hmem
      cases hmem
  refine ⟨m',hfree,hnode,htidy.owned.all_free fun i => ?_⟩
  obtain ⟨a,f⟩ := i
  have hnode' : (m'.withHeads heads').nodes.node a = none := hnode a
  cases f <;> simp [slots,hnode']

/-- A program makes any calls, with allocations that fail or return any free address. No call faults,
each sees the table of `BitcaskTable`, and `ht_free` afterwards frees all that is left, nothing twice. -/
theorem lifetime (calls : List Call) (hc : AllSteps step Allocates empty calls) :
    ∃ m m' ht os, run step empty calls = .ok (m,os) ∧ run tableStep htNew calls = .ok (ht,os) ∧
      htFree m = .ok m' ∧ (∀ a, m'.nodes.node a = none) ∧ ∀ a, m'.strings a = none := by
  obtain ⟨m,t,os,hrun,htidy,htable⟩ := run_tidy tidy_empty hc
  obtain ⟨m',hfree,hnode,hstring⟩ := htFree_tidy htidy
  exact ⟨m,m',_,os,hrun,htable,hfree,hnode,hstring⟩

def busyCalls : List Call :=
  [.set ⟨some 0,some 1,some 2⟩ (lit "a") (lit "x"),.set ⟨none,none,some 3⟩ (lit "a") (lit "y"),
    .set ⟨some 1,some 2,none⟩ (lit "b") (lit "z"),.get (lit "a"),.get (lit "b")]

theorem lifetime_busy : AllSteps step Allocates empty busyCalls ∧
    ∃ m m' ht os, run step empty busyCalls = .ok (m,os) ∧ run tableStep htNew busyCalls = .ok (ht,os) ∧
      htFree m = .ok m' ∧ (∀ a, m'.nodes.node a = none) ∧ ∀ a, m'.strings a = none :=
  have hc : AllSteps step Allocates empty busyCalls := by decide +kernel
  ⟨hc,lifetime busyCalls hc⟩

end BitcaskHeap
end CodingChallenges
