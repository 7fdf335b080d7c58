import CodingChallenges.OwnedBlocks
import CodingChallenges.PointerTable

/-! Chained hash tables in memory whose nodes own strings: a copy of the key, and one of the value
or none. `Tidy` ties the nodes and the strings to a table; each operation in memory is shown to keep
it with the operation of `ChainedTable`. -/
set_option linter.unusedSectionVars false
namespace CodingChallenges
namespace OwnedTable

open CMemory ChainedTable OwnedBlocks PointerTable

variable {S D B : Type} [DecidableEq S] [DecidableEq B]

/-- A node's pointers, and the data beside them. The strings they point to are kept with them for
the proofs; the functions read them from memory. -/
structure Entry (S D : Type) where
  key : S
  keyAt : Addr
  value : Option (Addr × S)
  data : D

structure Memory (S D B : Type) where
  nodes : Heap (Entry S D) B
  strings : Addr → Option S

def empty : Memory S D B := ⟨⟨fun _ => none,fun _ => none,0⟩,fun _ => none⟩

def layout (hash : S → B) : Layout (Entry S D) S B := ⟨Entry.key,hash⟩

/-- The first node with the key, from a pointer on. A walk of more nodes than there are goes in
circles. -/
def lookupFrom (m : Memory S D B) (key : S) : ℕ → Option Addr → Except Fault (Option Addr)
  | _, none => .ok none
  | 0, some _ => .error .endless
  | n+1, some a => do
    let p ← m.nodes.deref a
    let k ← read m.strings p.entry.keyAt
    if key = k then .ok (some a) else lookupFrom m key n p.next

def lookup (hash : S → B) (m : Memory S D B) (key : S) : Except Fault (Option Addr) :=
  lookupFrom m key m.nodes.allocs (m.nodes.head (hash key))

def Memory.insert (m : Memory S D B) (a k : Addr) (b : B) (key : S) (data : D) : Memory S D B :=
  ⟨m.nodes.insertNode a b ⟨key,k,none,data⟩,Function.update m.strings k (some key)⟩

def Memory.freeEntry (m : Memory S D B) (a : Addr) : Except Fault (Memory S D B) := do
  let p ← m.nodes.deref a
  let strings ← free m.strings (some p.entry.keyAt)
  let strings ← free strings (p.entry.value.map Prod.fst)
  .ok ⟨m.nodes.free a,strings⟩

/-- The strings of the nodes: the key under `false`, the value under `true`. -/
def slots (nodes : Heap (Entry S D) B) : Addr × Bool → Option (Addr × S)
  | (a,false) => (nodes.node a).map fun p => (p.entry.keyAt,p.entry.key)
  | (a,true) => (nodes.node a).bind fun p => p.entry.value

/-- The heap spells out the table, and every string belongs to one node of it. -/
structure Tidy (hash : S → B) (m : Memory S D B) (t : Table (Entry S D) B) : Prop where
  repr : Repr (layout hash) m.nodes t
  owned : Owned (slots m.nodes) m.strings

variable {hash : S → B} {m : Memory S D B} {t : Table (Entry S D) B} {nodes nodes' : Heap (Entry S D) B}
  {a : Addr} {p : Node (Entry S D)}

theorem tidy_empty : Tidy hash (empty : Memory S D B) fun _ => [] := by
  refine ⟨repr_empty (layout hash),?_⟩
  have hslots : slots (empty : Memory S D B).nodes = fun _ => none := by
    funext i
    obtain ⟨a,b⟩ := i
    cases b <;> rfl
  rw [hslots]
  exact owned_empty

theorem slots_key (hp : nodes.node a = some p) : slots nodes (a,false) = some (p.entry.keyAt,p.entry.key) := by
  simp [slots,hp]

theorem slots_value (hp : nodes.node a = some p) : slots nodes (a,true) = p.entry.value := by
  simp [slots,hp]

theorem slots_eq_none : slots nodes (a,false) = none ↔ nodes.node a = none := Option.map_eq_none_iff

theorem slots_insertNode (ha : nodes.node a = none) (b : B) (key : S) (k : Addr) (data : D) :
    slots (nodes.insertNode a b ⟨key,k,none,data⟩) = Function.update (slots nodes) (a,false) (some (k,key)) := by
  funext i
  obtain ⟨x,f⟩ := i
  by_cases hx : x = a
  · subst hx
    cases f <;> simp [slots,Heap.insertNode,ha]
  · cases f <;> simp [slots,Heap.insertNode,hx]

theorem slots_change (hp : nodes.node a = some p) {f : Entry S D → Entry S D}
    (hkey : ∀ e, (f e).key = e.key) (hat : ∀ e, (f e).keyAt = e.keyAt)
    (h : nodes.changeNode a f = .ok nodes') :
    slots nodes' = Function.update (slots nodes) (a,true) (f p.entry).value := by
  rw [changeNode_eq hp] at h
  obtain rfl := Except.ok.inj h
  funext i
  obtain ⟨x,b⟩ := i
  by_cases hx : x = a
  · subst hx
    cases b <;> simp [slots,hp,hkey,hat]
  · cases b <;> simp [slots,hx]

theorem slots_store {link : Link B} {target : Option Addr} (h : nodes.store target link = .ok nodes') :
    slots nodes' = slots nodes := by
  cases link with
  | bucket b =>
    obtain rfl := Except.ok.inj h
    rfl
  | field x =>
    cases hx : nodes.node x with
    | none => simp [Heap.store,Heap.deref,hx,bind,Except.bind] at h
    | some r =>
      rw [store_field hx] at h
      obtain rfl := Except.ok.inj h
      funext i
      obtain ⟨y,b⟩ := i
      by_cases hy : y = x
      · subst hy
        cases b <;> simp [slots,hx]
      · cases b <;> simp [slots,hy]

theorem slots_free (nodes : Heap (Entry S D) B) (a : Addr) :
    slots (nodes.free a) = Function.update (Function.update (slots nodes) (a,false) none) (a,true) none := by
  funext i
  obtain ⟨x,f⟩ := i
  by_cases hx : x = a
  · subst hx
    cases f <;> simp [slots,Heap.free]
  · cases f <;> simp [slots,Heap.free,hx]

theorem Tidy.read_key (h : Tidy hash m t) (hp : m.nodes.node a = some p) :
    read m.strings p.entry.keyAt = .ok p.entry.key := h.owned.read (slots_key hp)

theorem Tidy.read_value (h : Tidy hash m t) (hp : m.nodes.node a = some p) {v : Addr × S}
    (hv : p.entry.value = some v) : read m.strings v.1 = .ok v.2 :=
  h.owned.read (i:=(a,true)) (by rw [slots_value hp,hv])

/-- Under the invariant the keys that are read are those of the nodes. -/
theorem lookupFrom_eq (h : Tidy hash m t) (key : S) (n : ℕ) (q : Option Addr) :
    lookupFrom m key n q = walk m.nodes (layout hash).key key n q := by
  induction n generalizing q with
  | zero => cases q <;> rfl
  | succ n ih =>
    cases q with
    | none => rfl
    | some a =>
      rw [lookupFrom,walk]
      cases hp : m.nodes.node a with
      | none => simp [Heap.deref,hp,bind,Except.bind]
      | some p =>
        simp only [deref_eq hp,h.read_key hp,bind,Except.bind,ih]
        rfl

theorem lookup_cases (h : Tidy hash m t) (key : S) :
    ((layout hash).find t key = none ∧ lookup hash m key = .ok none) ∨
      ∃ a p, m.nodes.node a = some p ∧ (layout hash).find t key = some p.entry ∧ p.entry.key = key ∧
        lookup hash m key = .ok (some a) := by
  rw [lookup,lookupFrom_eq h]
  exact h.repr.walk key

theorem Tidy.insert (h : Tidy hash m t) {key : S} (hf : (layout hash).find t key = none) {k : Addr}
    (ha : m.nodes.node a = none) (hk : m.strings k = none) (data : D) :
    Tidy hash (m.insert a k (hash key) key data) ((layout hash).insertHead t ⟨key,k,none,data⟩) := by
  have howned := h.owned.fill (i:=(a,false)) (v:=key) (by simp [slots,ha]) hk
  rw [← slots_insertNode ha (hash key) key k data] at howned
  exact ⟨h.repr.insertNode (e:=⟨key,k,none,data⟩) ha hf,howned⟩

theorem Tidy.change (h : Tidy hash m t) (hp : m.nodes.node a = some p) {f : Entry S D → Entry S D}
    (hkey : ∀ e, (f e).key = e.key) (hat : ∀ e, (f e).keyAt = e.keyAt) {strings : Addr → Option S}
    (ho : Owned (Function.update (slots m.nodes) (a,true) (f p.entry).value) strings) :
    ∃ nodes, m.nodes.changeNode a f = .ok nodes ∧ nodes.node a = some ⟨f p.entry,p.next⟩ ∧
      (∀ x, m.nodes.node x = none → nodes.node x = none) ∧
      Tidy hash ⟨nodes,strings⟩ ((layout hash).change t p.entry.key f) := by
  obtain ⟨nodes,hnodes,hnode,hrepr⟩ := h.repr.changeNode (f:=f) hp hkey
  have hslots := slots_change hp hkey hat hnodes
  refine ⟨nodes,hnodes,hnode,fun x hx => ?_,hrepr,by rwa [hslots]⟩
  rw [← slots_eq_none,hslots,Function.update_of_ne (by simp),slots_eq_none,hx]

theorem freeEntry_owned (ho : Owned (slots m.nodes) m.strings) (hp : m.nodes.node a = some p) :
    ∃ strings, m.freeEntry a = .ok ⟨m.nodes.free a,strings⟩ ∧ Owned (slots (m.nodes.free a)) strings := by
  obtain ⟨s₁,hkey,howned⟩ := ho.release (a,false)
  obtain ⟨s₂,hvalue,howned⟩ := howned.release (a,true)
  rw [slots_key hp] at hkey
  rw [Function.update_of_ne (by simp),slots_value hp] at hvalue
  rw [← slots_free] at howned
  refine ⟨s₂,?_,howned⟩
  simp only [Option.map_some] at hkey
  simp only [Memory.freeEntry,deref_eq hp,hkey,hvalue,bind,Except.bind]

/-- A node is taken out of its chain and freed with its strings. -/
theorem Tidy.unlink (h : Tidy hash m t) {link : Link B} (hl : m.nodes.load link = some a)
    (hp : m.nodes.node a = some p) :
    ∃ nodes strings, m.nodes.store p.next link = .ok nodes ∧
      Memory.freeEntry ⟨nodes,m.strings⟩ a = .ok ⟨nodes.free a,strings⟩ ∧
      (∀ x, m.nodes.node x = none → (nodes.free a).node x = none) ∧
      Tidy hash ⟨nodes.free a,strings⟩ ((layout hash).remove t p.entry.key).1 := by
  obtain ⟨nodes,hstore,hrepr⟩ := h.repr.store hl hp
  have hslots := slots_store hstore
  have howned : Owned (slots nodes) m.strings := by rw [hslots]; exact h.owned
  obtain ⟨q,hq⟩ : ∃ q, nodes.node a = some q := by
    have hkey := congrFun hslots (a,false)
    rw [slots_key hp] at hkey
    cases hq : nodes.node a with
    | none => simp [slots,hq] at hkey
    | some q => exact ⟨q,rfl⟩
  obtain ⟨strings,hfree,howned⟩ := freeEntry_owned (m:=⟨nodes,m.strings⟩) howned hq
  refine ⟨nodes,strings,hstore,hfree,fun x hx => ?_,hrepr,howned⟩
  rw [← slots_eq_none,slots_free,hslots,Function.update_of_ne (by simp)]
  by_cases hxa : x = a
  · rw [hxa,Function.update_self]
  · rw [Function.update_of_ne (by simp [hxa]),slots_eq_none,hx]

end OwnedTable
end CodingChallenges
