import CodingChallenges.CMemory
import CodingChallenges.ChainedTable

/-! Chained hash tables as pointers in memory, over any entries, keys and buckets.
Nodes live at addresses and carry a `next` pointer; the table array holds the heads.
Freed addresses are empty and may be handed out again. `Repr` ties such a heap to
the table of chains it spells out, and each pointer operation is shown to perform
the operation of `ChainedTable` on it. -/
set_option linter.unusedSectionVars false
namespace CodingChallenges
namespace PointerTable

open CMemory ChainedTable

variable {E K B : Type} [DecidableEq K] [DecidableEq B]

abbrev Addr := ℕ

structure Node (E : Type) where
  entry : E
  next : Option Addr

/-- The table array, the allocated nodes, and how many nodes were ever allocated. -/
structure Heap (E B : Type) where
  head : B → Option Addr
  node : Addr → Option (Node E)
  allocs : ℕ

/-- `*p`; a freed node must not be read. -/
def Heap.deref (h : Heap E B) (a : Addr) : Except Fault (Node E) :=
  match h.node a with
  | some p => .ok p
  | none => .error .useAfterFree

def Heap.free (h : Heap E B) (a : Addr) : Heap E B := { h with node := Function.update h.node a none }

def Heap.insertNode (h : Heap E B) (a : Addr) (b : B) (e : E) : Heap E B where
  head := Function.update h.head b (some a)
  node := Function.update h.node a (some ⟨e,h.head b⟩)
  allocs := h.allocs+1

def Heap.changeNode (h : Heap E B) (a : Addr) (f : E → E) : Except Fault (Heap E B) := do
  let p ← h.deref a
  .ok { h with node := Function.update h.node a (some ⟨f p.entry,p.next⟩) }

/-- Follow `next` pointers to the first node with the key. A walk of more nodes than
were ever allocated goes in circles. -/
def walk (h : Heap E B) (key : E → K) (k : K) : ℕ → Option Addr → Except Fault (Option Addr)
  | _, none => .ok none
  | 0, some _ => .error .endless
  | n+1, some a => do
    let p ← h.deref a
    if k = key p.entry then .ok (some a) else walk h key k n p.next

/-- A place that holds a pointer to a node: a bucket of the array or a `next` field. -/
inductive Link (B : Type)
  | bucket (b : B)
  | field (a : Addr)

def Heap.load (h : Heap E B) : Link B → Option Addr
  | .bucket b => h.head b
  | .field a => (h.node a).bind Node.next

def Heap.store (h : Heap E B) (target : Option Addr) : Link B → Except Fault (Heap E B)
  | .bucket b => .ok { h with head := Function.update h.head b target }
  | .field a => do
    let p ← h.deref a
    .ok { h with node := Function.update h.node a (some ⟨p.entry,target⟩) }

def linkBefore (b : B) : Option Addr → Link B
  | none => .bucket b
  | some prev => .field prev

/-- Walk with the previous node in hand; unlink and free the first node with the key. -/
def unlinkWalk (h : Heap E B) (L : Layout E K B) (k : K) :
    ℕ → Option Addr → Option Addr → Except Fault (Heap E B × Bool)
  | _, _, none => .ok (h,false)
  | 0, _, some _ => .error .endless
  | n+1, prev, some cur => do
    let p ← h.deref cur
    if L.key p.entry = k then do
      let h' ← h.store p.next (linkBefore (L.hash (L.key p.entry)) prev)
      .ok (h'.free cur,true)
    else unlinkWalk h L k n (some cur) p.next

/-- The entries met when `next` pointers are followed from a pointer to the null one. -/
def Linked (node : Addr → Option (Node E)) : Option Addr → List E → Prop
  | q, [] => q = none
  | q, e :: es => ∃ a p, q = some a ∧ node a = some p ∧ p.entry = e ∧ Linked node p.next es

section Chain

variable {node node' : Addr → Option (Node E)} {q : Option Addr} {es : List E}

theorem Linked.tail {a : Addr} {p : Node E} (h : Linked node (some a) es) (hp : node a = some p) :
    ∃ rest, es = p.entry :: rest ∧ Linked node p.next rest := by
  cases es with
  | nil => exact absurd h (by simp [Linked])
  | cons e es =>
    obtain ⟨a',p',ha,hp',he,hl⟩ := h
    obtain rfl := Option.some.inj ha
    obtain rfl := Option.some.inj (hp.symm.trans hp')
    exact ⟨es,by rw [he],hl⟩

theorem Linked.frame (h : Linked node q es)
    (hf : ∀ a p, node a = some p → p.entry ∈ es → node' a = some p) : Linked node' q es := by
  induction es generalizing q with
  | nil => exact h
  | cons e es ih =>
    obtain ⟨a,p,ha,hp,he,hl⟩ := h
    have ht := ih hl (fun a p hp hm => hf a p hp (by simp [hm]))
    exact ⟨a,p,ha,hf a p hp (by simp [he]),he,ht⟩

/-- Changing the one node of a key in place changes the first entry of the key. -/
theorem Linked.change {key : E → K} {x : Addr} {p : Node E} {f : E → E} (h : Linked node q es)
    (hd : (es.map key).Nodup) (hx : node x = some p) (hm : p.entry ∈ es)
    (hu : ∀ a r, node a = some r → key r.entry = key p.entry → a = x) :
    Linked (Function.update node x (some ⟨f p.entry,p.next⟩)) q
      (changeFirst key (key p.entry) f es) := by
  induction es generalizing q with
  | nil => simp at hm
  | cons e es ih =>
    obtain ⟨a,r,ha,hr,he,hl⟩ := h
    have hn := List.nodup_cons.mp hd
    simp only [changeFirst]
    by_cases hk : key p.entry = key e
    · rw [if_pos hk]
      have hax : a = x := hu a r hr (by rw [he,hk])
      subst hax
      have hrp : r = p := Option.some.inj (hr.symm.trans hx)
      subst hrp
      refine ⟨a,⟨f r.entry,r.next⟩,ha,Function.update_self ..,by rw [he],?_⟩
      apply hl.frame
      intro a' p' hp' hm'
      have hne : a' ≠ a := by
        rintro rfl
        obtain rfl := Option.some.inj (hp'.symm.trans hr)
        exact hn.1 (hk ▸ List.mem_map_of_mem hm')
      rw [Function.update_of_ne hne,hp']
    · rw [if_neg hk]
      have hme : p.entry ∈ es := by
        rcases List.mem_cons.mp hm with rfl | hm
        · exact absurd rfl hk
        · exact hm
      have hax : a ≠ x := by
        rintro rfl
        obtain rfl := Option.some.inj (hr.symm.trans hx)
        exact hk (by rw [he])
      exact ⟨a,r,ha,by rw [Function.update_of_ne hax,hr],he,ih hl hn.2 hme⟩

/-- Bending the `next` field in front of a node past it drops its entry. -/
theorem Linked.bend {key : E → K} {x c : Addr} {p r : Node E} (h : Linked node q es)
    (hd : (es.map key).Nodup) (hx : node x = some p) (hm : p.entry ∈ es) (hc : p.next = some c)
    (hr : node c = some r) (hu : ∀ a s, node a = some s → key s.entry = key p.entry → a = x) :
    ∃ rest, unlink key (key r.entry) es = some rest ∧
      Linked (Function.update node x (some ⟨p.entry,r.next⟩)) q rest := by
  induction es generalizing q with
  | nil => simp at hm
  | cons e es ih =>
    obtain ⟨a,s,ha,hs,he,hl⟩ := h
    have hn := List.nodup_cons.mp hd
    by_cases hax : a = x
    · subst hax
      have hsp : s = p := Option.some.inj (hs.symm.trans hx)
      subst hsp
      rw [hc] at hl
      obtain ⟨rest,hes,hrest⟩ := hl.tail hr
      subst hes
      have hne : ¬ key e = key r.entry := fun hk => hn.1 (by simp [hk])
      refine ⟨e :: rest,by simp [unlink,hne],?_⟩
      refine ⟨a,⟨s.entry,r.next⟩,ha,Function.update_self ..,he,?_⟩
      apply hrest.frame
      intro a' p' hp' hm'
      have hne' : a' ≠ a := by
        rintro rfl
        have he' : p'.entry = e := by rw [Option.some.inj (hp'.symm.trans hs),he]
        exact hn.1 (by simpa using Or.inr ⟨p'.entry,hm',by rw [he']⟩)
      rw [Function.update_of_ne hne',hp']
    · have hke : key e ≠ key p.entry := fun hk => hax (hu a s hs (by rw [he,hk]))
      have hme : p.entry ∈ es := by
        rcases List.mem_cons.mp hm with rfl | hm
        · exact absurd rfl hke
        · exact hm
      obtain ⟨rest,hun,hlr⟩ := ih hl hn.2 hme
      have hne : ¬ key e = key r.entry := fun hk => hn.1 (hk ▸ mem_of_unlink hun)
      exact ⟨e :: rest,by simp [unlink,hne,hun],a,s,ha,
        by rw [Function.update_of_ne hax,hs],he,hlr⟩

end Chain

variable {L : Layout E K B} {h h' : Heap E B} {t : Table E B}

/-- The heap holds the chains of the table, and every allocated node is in its chain. -/
structure Repr (L : Layout E K B) (h : Heap E B) (t : Table E B) : Prop where
  wf : L.WellFormed t
  chain : ∀ b, Linked h.node (h.head b) (t b)
  owned : ∀ a p, h.node a = some p → L.find t (L.key p.entry) = some p.entry
  unique : ∀ a a' p p', h.node a = some p → h.node a' = some p' →
    L.key p.entry = L.key p'.entry → a = a'
  short : ∀ b, (t b).length ≤ h.allocs

theorem Repr.mem (hr : Repr L h t) {a : Addr} {p : Node E} (hp : h.node a = some p) :
    p.entry ∈ t (L.hash (L.key p.entry)) := (search_mem (hr.owned a p hp)).1

theorem node_of_update {node : Addr → Option (Node E)} {a x : Addr} {v : Option (Node E)} {p : Node E}
    (hp : Function.update node a v x = some p) : (x = a ∧ v = some p) ∨ (x ≠ a ∧ node x = some p) := by
  by_cases hx : x = a
  · subst hx
    exact Or.inl ⟨rfl,by simpa using hp⟩
  · exact Or.inr ⟨hx,by simpa [Function.update_of_ne hx] using hp⟩

theorem repr_empty (L : Layout E K B) : Repr L ⟨fun _ => none,fun _ => none,0⟩ fun _ => [] where
  wf := Layout.wellFormed_empty
  chain := fun _ => rfl
  owned := by simp
  unique := by simp
  short := by simp

theorem deref_eq {a : Addr} {p : Node E} (hp : h.node a = some p) : h.deref a = .ok p := by
  simp only [Heap.deref,hp]

theorem store_field {a : Addr} {p : Node E} (hp : h.node a = some p) (target : Option Addr) :
    h.store target (.field a) =
      .ok { h with node := Function.update h.node a (some ⟨p.entry,target⟩) } := by
  simp only [Heap.store,deref_eq hp]
  rfl

theorem changeNode_eq {a : Addr} {p : Node E} (hp : h.node a = some p) (f : E → E) :
    h.changeNode a f =
      .ok { h with node := Function.update h.node a (some ⟨f p.entry,p.next⟩) } := by
  simp only [Heap.changeNode,deref_eq hp]
  rfl

theorem walk_refines {key : E → K} {k : K} {es : List E} {q : Option Addr} {n : ℕ}
    (hl : Linked h.node q es) (hn : es.length ≤ n) :
    (search key k es = none ∧ walk h key k n q = .ok none) ∨
      ∃ a p, h.node a = some p ∧ search key k es = some p.entry ∧ walk h key k n q = .ok (some a) := by
  induction es generalizing q n with
  | nil =>
    obtain rfl : q = none := hl
    exact Or.inl ⟨rfl,by cases n <;> rfl⟩
  | cons e es ih =>
    obtain ⟨a,p,rfl,hp,rfl,hl⟩ := hl
    obtain ⟨m,rfl⟩ : ∃ m, n = m+1 := ⟨n-1,by simp at hn; omega⟩
    have hw : walk h key k (m+1) (some a) =
        if k = key p.entry then .ok (some a) else walk h key k m p.next := by
      simp [walk,Heap.deref,hp,bind,Except.bind]
    rw [hw]
    by_cases hk : k = key p.entry
    · exact Or.inr ⟨a,p,hp,by simp [search,hk],if_pos hk⟩
    · have ht := ih hl (n:=m) (by simpa using hn)
      simpa [search,hk] using ht

/-- The node a key's walk stops at, or the proof that the table has none. -/
theorem Repr.walk (hr : Repr L h t) (k : K) :
    (L.find t k = none ∧ PointerTable.walk h L.key k h.allocs (h.head (L.hash k)) = .ok none) ∨
      ∃ a p, h.node a = some p ∧ L.find t k = some p.entry ∧ L.key p.entry = k ∧
        PointerTable.walk h L.key k h.allocs (h.head (L.hash k)) = .ok (some a) := by
  rcases walk_refines (k:=k) (hr.chain (L.hash k)) (hr.short _) with hn | ⟨a,p,hp,hs,hw⟩
  · exact Or.inl hn
  · exact Or.inr ⟨a,p,hp,hs,(search_mem hs).2,hw⟩

theorem Repr.key_ne (hr : Repr L h t) {k : K} (hk : L.find t k = none) {a : Addr} {p : Node E}
    (hp : h.node a = some p) : L.key p.entry ≠ k := by
  intro he
  have ho := hr.owned a p hp
  rw [he,hk] at ho
  contradiction

theorem Repr.insertNode (hr : Repr L h t) {a : Addr} {e : E} (ha : h.node a = none)
    (he : L.find t (L.key e) = none) :
    Repr L (h.insertNode a (L.hash (L.key e)) e) (L.insertHead t e) where
  wf := hr.wf.insertHead he
  chain := by
    have hf : ∀ b, Linked (h.insertNode a (L.hash (L.key e)) e).node (h.head b) (t b) := by
      intro b
      apply (hr.chain b).frame
      intro a' p hp _
      have hne : a' ≠ a := by
        rintro rfl
        exact absurd (ha.symm.trans hp) (by simp)
      simp [Heap.insertNode,Function.update_of_ne hne,hp]
    intro b
    by_cases hb : b = L.hash (L.key e)
    · subst hb
      simp only [Layout.insertHead,Function.update_self,Heap.insertNode]
      exact ⟨a,_,rfl,Function.update_self ..,rfl,hf _⟩
    · simp only [Layout.insertHead,Function.update_of_ne hb]
      have hh : (h.insertNode a (L.hash (L.key e)) e).head b = h.head b := by
        simp [Heap.insertNode,Function.update_of_ne hb]
      rw [hh]
      exact hf b
  owned := by
    intro a' p hp
    rcases node_of_update hp with ⟨rfl,hv⟩ | ⟨_,hp'⟩
    · obtain rfl := Option.some.inj hv
      exact Layout.find_insertHead_self e
    · rw [Layout.find_insertHead_other (hr.key_ne he hp'),hr.owned a' p hp']
  unique := by
    intro a₁ a₂ p₁ p₂ h₁ h₂ hkk
    rcases node_of_update h₁ with ⟨e₁,v₁⟩ | ⟨_,n₁⟩ <;>
      rcases node_of_update h₂ with ⟨e₂,v₂⟩ | ⟨_,n₂⟩
    · rw [e₁,e₂]
    · obtain rfl := Option.some.inj v₁
      exact absurd hkk.symm (hr.key_ne he n₂)
    · obtain rfl := Option.some.inj v₂
      exact absurd hkk (hr.key_ne he n₁)
    · exact hr.unique a₁ a₂ p₁ p₂ n₁ n₂ hkk
  short := by
    intro b
    have hs := hr.short b
    by_cases hb : b = L.hash (L.key e)
    · subst hb
      simpa [Layout.insertHead,Heap.insertNode] using hs
    · simp only [Layout.insertHead,Function.update_of_ne hb,Heap.insertNode]
      omega

theorem length_changeFirst (key : E → K) (k : K) (f : E → E) (es : List E) :
    (changeFirst key k f es).length = es.length := by
  induction es with
  | nil => rfl
  | cons e es ih =>
    simp only [changeFirst]
    split_ifs <;> simp [ih]

theorem Repr.chain_other (hr : Repr L h t) {a : Addr} {p : Node E} (hp : h.node a = some p) {b : B}
    (hb : b ≠ L.hash (L.key p.entry)) (v : Option (Node E)) :
    Linked (Function.update h.node a v) (h.head b) (t b) := by
  apply (hr.chain b).frame
  intro x r hx hm
  have hne : x ≠ a := by
    rintro rfl
    obtain rfl := Option.some.inj (hx.symm.trans hp)
    exact hb (hr.wf.placed b _ hm).symm
  rw [Function.update_of_ne hne,hx]

theorem Repr.changeNode (hr : Repr L h t) {a : Addr} {p : Node E} {f : E → E}
    (hp : h.node a = some p) (hf : ∀ e, L.key (f e) = L.key e) :
    ∃ h', h.changeNode a f = .ok h' ∧ h'.node a = some ⟨f p.entry,p.next⟩ ∧
      Repr L h' (L.change t (L.key p.entry) f) := by
  refine ⟨_,changeNode_eq hp f,Function.update_self ..,?_⟩
  have hkeys : ∀ x q, Function.update h.node a (some ⟨f p.entry,p.next⟩) x = some q →
      ∃ r, h.node x = some r ∧ L.key q.entry = L.key r.entry := by
    intro x q hq
    rcases node_of_update hq with ⟨rfl,hv⟩ | ⟨_,hq'⟩
    · obtain rfl := Option.some.inj hv
      exact ⟨p,hp,hf _⟩
    · exact ⟨q,hq',rfl⟩
  refine ⟨hr.wf.change hf,?_,?_,?_,?_⟩
  · intro b
    by_cases hb : b = L.hash (L.key p.entry)
    · subst hb
      simp only [Layout.change,Function.update_self]
      exact (hr.chain _).change (hr.wf.distinct _) hp (hr.mem hp)
        (fun x r hx hk => hr.unique x a r p hx hp hk)
    · simp only [Layout.change,Function.update_of_ne hb]
      exact hr.chain_other hp hb _
  · intro x q hq
    rcases node_of_update hq with ⟨rfl,hv⟩ | ⟨hne,hq'⟩
    · obtain rfl := Option.some.inj hv
      rw [hf,Layout.find_change_self hf,hr.owned x p hp]
      rfl
    · have hk : L.key q.entry ≠ L.key p.entry := fun hk => hne (hr.unique x a q p hq' hp hk)
      rw [Layout.find_change_other hf hk,hr.owned x q hq']
  · intro x y q r hq hr' hk
    obtain ⟨q',hq',kq⟩ := hkeys x q hq
    obtain ⟨r',hr'',kr⟩ := hkeys y r hr'
    exact hr.unique x y q' r' hq' hr'' (by rw [← kq,← kr,hk])
  · intro b
    have hs := hr.short b
    by_cases hb : b = L.hash (L.key p.entry)
    · subst hb
      simpa [Layout.change,length_changeFirst] using hs
    · simpa [Layout.change,Function.update_of_ne hb] using hs

/-- Once no chain holds a node any more, the node can be freed. -/
theorem Repr.unlinked (hr : Repr L h t) {c : Addr} {p : Node E} {rest : List E} (hp : h.node c = some p)
    (hu : unlink L.key (L.key p.entry) (t (L.hash (L.key p.entry))) = some rest)
    (hnode : ∀ x q, h'.node x = some q → ∃ r, h.node x = some r ∧ q.entry = r.entry)
    (hchain : ∀ b, Linked h'.node (h'.head b) (Function.update t (L.hash (L.key p.entry)) rest b))
    (ha : h'.allocs = h.allocs) : Repr L (h'.free c) (L.remove t (L.key p.entry)).1 := by
  obtain ⟨rest',hu',hrem⟩ := Layout.remove_present (hr.owned c p hp)
  obtain rfl := Option.some.inj (hu.symm.trans hu')
  have hwf := hr.wf.remove (k:=L.key p.entry)
  have hgone : L.find (L.remove t (L.key p.entry)).1 (L.key p.entry) = none :=
    Layout.find_remove_self hr.wf
  have hother : ∀ x q, (h'.free c).node x = some q → ∃ r, h.node x = some r ∧ q.entry = r.entry ∧
      L.key r.entry ≠ L.key p.entry := by
    intro x q hq
    rcases node_of_update hq with ⟨rfl,hv⟩ | ⟨hne,hq'⟩
    · contradiction
    · obtain ⟨r,hr',he⟩ := hnode x q hq'
      exact ⟨r,hr',he,fun hk => hne (hr.unique x c r p hr' hp hk)⟩
  refine ⟨hwf,?_,?_,?_,?_⟩
  · intro b
    have hl := hchain b
    rw [show (L.remove t (L.key p.entry)).1 = Function.update t (L.hash (L.key p.entry)) rest by rw [hrem]]
    apply hl.frame
    intro x q hq hm
    have hne : x ≠ c := by
      rintro rfl
      obtain ⟨r,hr',he⟩ := hnode x q hq
      obtain rfl := Option.some.inj (hr'.symm.trans hp)
      rw [he] at hm
      have hf := (hwf.mem_iff_find (e:=r.entry)).mp ⟨b,by rwa [hrem]⟩
      rw [hgone] at hf
      contradiction
    simp [Heap.free,Function.update_of_ne hne,hq]
  · intro x q hq
    obtain ⟨r,hr',he,hk⟩ := hother x q hq
    rw [he,Layout.find_remove_other hk,hr.owned x r hr']
  · intro x y q r hq hr' hk
    obtain ⟨q',hq',he,_⟩ := hother x q hq
    obtain ⟨r',hr'',he',_⟩ := hother y r hr'
    exact hr.unique x y q' r' hq' hr'' (by rw [← he,← he',hk])
  · intro b
    have hs := hr.short b
    rw [hrem]
    show _ ≤ h'.allocs
    rw [ha]
    by_cases hb : b = L.hash (L.key p.entry)
    · subst hb
      have hl := (unlink_sublist hu).length_le
      simp only [Function.update_self]
      omega
    · simpa only [Function.update_of_ne hb] using hs

theorem Repr.bend (hr : Repr L h t) {a c : Addr} {pp p : Node E} (ha : h.node a = some pp)
    (hn : pp.next = some c) (hp : h.node c = some p) :
    ∃ rest, unlink L.key (L.key p.entry) (t (L.hash (L.key p.entry))) = some rest ∧
      ∀ b, Linked (Function.update h.node a (some ⟨pp.entry,p.next⟩)) (h.head b)
        (Function.update t (L.hash (L.key p.entry)) rest b) := by
  obtain ⟨rest,hu,hrest⟩ := (hr.chain (L.hash (L.key pp.entry))).bend (hr.wf.distinct _) ha
    (hr.mem ha) hn hp (fun x s hs hk => hr.unique x a s pp hs ha hk)
  obtain ⟨e,he,hek⟩ := List.mem_map.mp (mem_of_unlink hu)
  have hb : L.hash (L.key p.entry) = L.hash (L.key pp.entry) := by
    rw [← hek]
    exact hr.wf.placed _ e he
  rw [hb]
  refine ⟨rest,hu,fun b => ?_⟩
  by_cases hbb : b = L.hash (L.key pp.entry)
  · subst hbb
    simpa using hrest
  · rw [Function.update_of_ne hbb]
    exact hr.chain_other ha hbb _

theorem Repr.store (hr : Repr L h t) {link : Link B} {c : Addr} {p : Node E}
    (hl : h.load link = some c) (hp : h.node c = some p) :
    ∃ h', h.store p.next link = .ok h' ∧ Repr L (h'.free c) (L.remove t (L.key p.entry)).1 := by
  cases link with
  | bucket b =>
    have hc := hr.chain b
    rw [show h.head b = some c from hl] at hc
    obtain ⟨rest,ht,hrest⟩ := hc.tail hp
    have hb : L.hash (L.key p.entry) = b := hr.wf.placed b p.entry (by simp [ht])
    have hu : unlink L.key (L.key p.entry) (t (L.hash (L.key p.entry))) = some rest := by
      rw [hb,ht]
      simp [unlink]
    refine ⟨_,rfl,hr.unlinked hp hu (fun x q hq => ⟨q,hq,rfl⟩) ?_ rfl⟩
    intro b'
    rw [hb]
    by_cases hbb : b' = b
    · subst hbb
      simpa using hrest
    · simpa [Function.update_of_ne hbb] using hr.chain b'
  | field a =>
    cases ha : h.node a with
    | none => simp [Heap.load,ha] at hl
    | some pp =>
      have hn : pp.next = some c := by simpa [Heap.load,ha] using hl
      obtain ⟨rest,hu,hchain⟩ := hr.bend ha hn hp
      refine ⟨_,store_field ha p.next,hr.unlinked hp hu ?_ hchain rfl⟩
      intro x q hq
      rcases node_of_update hq with ⟨rfl,hv⟩ | ⟨_,hq'⟩
      · obtain rfl := Option.some.inj hv
        exact ⟨pp,ha,rfl⟩
      · exact ⟨q,hq',rfl⟩

theorem unlinkWalk_refines (hr : Repr L h t) {k : K} {es : List E} {prev cur : Option Addr} {n : ℕ}
    (hc : Linked h.node cur es) (hn : es.length ≤ n) (hs : search L.key k es = L.find t k)
    (hlink : h.load (linkBefore (L.hash k) prev) = cur) :
    ∃ h', unlinkWalk h L k n prev cur = .ok (h',(L.remove t k).2) ∧ Repr L h' (L.remove t k).1 := by
  induction es generalizing prev cur n with
  | nil =>
    obtain rfl : cur = none := hc
    have hrem : L.remove t k = (t,false) := Layout.remove_absent hs.symm
    rw [hrem]
    exact ⟨h,by cases n <;> rfl,hr⟩
  | cons e es ih =>
    obtain ⟨a,p,rfl,hp,rfl,hl⟩ := hc
    obtain ⟨m,rfl⟩ : ∃ m, n = m+1 := ⟨n-1,by simp at hn; omega⟩
    by_cases hk : L.key p.entry = k
    · subst hk
      obtain ⟨h',hst,hr'⟩ := hr.store hlink hp
      have hrem : (L.remove t (L.key p.entry)).2 = true := by
        rw [Layout.remove_found,hr.owned a p hp]
        rfl
      refine ⟨_,?_,hr'⟩
      simp [unlinkWalk,deref_eq hp,hst,hrem,bind,Except.bind]
    · have hs' : search L.key k es = L.find t k := by
        rw [← hs,search,if_neg (Ne.symm hk)]
      have hlink' : h.load (linkBefore (L.hash k) (some a)) = p.next := by
        simp [linkBefore,Heap.load,hp]
      obtain ⟨h',hw,hr'⟩ := ih hl (by simpa using hn) hs' hlink'
      refine ⟨h',?_,hr'⟩
      simpa [unlinkWalk,deref_eq hp,hk,bind,Except.bind] using hw

theorem Repr.unlinkWalk (hr : Repr L h t) (k : K) :
    ∃ h', PointerTable.unlinkWalk h L k h.allocs none (h.head (L.hash k)) = .ok (h',(L.remove t k).2) ∧
      Repr L h' (L.remove t k).1 :=
  unlinkWalk_refines hr (hr.chain _) (hr.short _) rfl rfl

end PointerTable
end CodingChallenges
