import Mathlib.Data.List.Nodup
import Mathlib.Logic.Function.Basic
import Mathlib.Data.List.FinRange
import Mathlib.Data.List.Forall2
import Mathlib.Tactic

/-! Hash tables with chains, over any entries, keys and bucket indices.
A table is the function from a bucket index to the chain it holds. The four
operations below are the loops of such a table: search a chain, put a node in
front of it, change the node found, unlink the node found. Their laws say that
the table is a finite map from keys to entries. -/
set_option linter.unusedSectionVars false
namespace CodingChallenges
namespace ChainedTable

variable {E K B : Type} [DecidableEq K] [DecidableEq B]

def search (key : E → K) (k : K) : List E → Option E
  | [] => none
  | p :: rest => if k = key p then some p else search key k rest

def changeFirst (key : E → K) (k : K) (f : E → E) : List E → List E
  | [] => []
  | p :: rest => if k = key p then f p :: rest else p :: changeFirst key k f rest

/-- Unlink the first node with the key; `none` when the walk ends without one. -/
def unlink (key : E → K) (k : K) : List E → Option (List E)
  | [] => none
  | cur :: rest => if key cur = k then some rest else (unlink key k rest).map (cur :: ·)

section Chain

variable {key : E → K} {k : K} {chain : List E}

theorem search_eq_none : search key k chain = none ↔ k ∉ chain.map key := by
  induction chain with
  | nil => simp [search]
  | cons p rest ih =>
    simp only [search,List.map_cons,List.mem_cons,not_or]
    split_ifs with h <;> simp [h,ih]

theorem search_mem {e : E} (h : search key k chain = some e) : e ∈ chain ∧ key e = k := by
  induction chain with
  | nil => simp [search] at h
  | cons p rest ih =>
    simp only [search] at h
    split_ifs at h with hk
    · obtain rfl := Option.some.inj h
      exact ⟨by simp,hk.symm⟩
    · have ht := ih h
      exact ⟨by simp [ht.1],ht.2⟩

theorem search_of_mem {e : E} (hd : (chain.map key).Nodup) (he : e ∈ chain) :
    search key (key e) chain = some e := by
  induction chain with
  | nil => simp at he
  | cons p rest ih =>
    simp only [List.map_cons,List.nodup_cons] at hd
    simp only [search]
    rcases List.mem_cons.mp he with rfl | he
    · simp
    · rw [if_neg,ih hd.2 he]
      intro hk
      exact hd.1 (hk ▸ List.mem_map_of_mem he)

theorem filter_eq_search (hd : (chain.map key).Nodup) (k : K) :
    (chain.filter fun e => key e = k) = (search key k chain).toList := by
  induction chain with
  | nil => rfl
  | cons p rest ih =>
    rw [List.map_cons,List.nodup_cons] at hd
    have ht := ih hd.2
    rw [List.filter_cons,search]
    by_cases hk : key p = k
    · subst hk
      have hnone : search key (key p) rest = none := search_eq_none.mpr hd.1
      rw [hnone] at ht
      simp [ht]
    · simp [hk,Ne.symm hk,ht]

theorem map_changeFirst {f : E → E} (hf : ∀ p, key (f p) = key p) :
    (changeFirst key k f chain).map key = chain.map key := by
  induction chain with
  | nil => rfl
  | cons p rest ih =>
    simp only [changeFirst]
    split_ifs <;> simp [hf,ih]

theorem search_changeFirst_self {f : E → E} (hf : ∀ p, key (f p) = key p) :
    search key k (changeFirst key k f chain) = (search key k chain).map f := by
  induction chain with
  | nil => rfl
  | cons p rest ih =>
    simp only [changeFirst,search]
    split_ifs with h
    · simp [search,hf,h]
    · simp [search,h,ih]

theorem search_changeFirst_other {f : E → E} (hf : ∀ p, key (f p) = key p) {k' : K} (h : k' ≠ k) :
    search key k' (changeFirst key k f chain) = search key k' chain := by
  induction chain with
  | nil => rfl
  | cons p rest ih =>
    simp only [changeFirst]
    split_ifs with hk
    · have hp : k' ≠ key p := hk ▸ h
      simp [search,hf,hp]
    · simp [search,ih]

/-- Chains whose nodes agree one by one still agree after changes that agree. -/
theorem forall₂_changeFirst {R : E → E → Prop} {f g : E → E} (hk : ∀ p q, R p q → key p = key q)
    (hfg : ∀ p q, R p q → key p = k → R (f p) (g q)) {chain' : List E} (h : List.Forall₂ R chain chain') :
    List.Forall₂ R (changeFirst key k f chain) (changeFirst key k g chain') := by
  induction h with
  | nil => exact List.Forall₂.nil
  | @cons p q _ _ hpq ht ih =>
    simp only [changeFirst,← hk p q hpq]
    split_ifs with hp
    · exact List.Forall₂.cons (hfg p q hpq hp.symm) ht
    · exact List.Forall₂.cons hpq ih

section Image

variable {E' : Type} {key' : E' → K} {g : E → E'}

theorem search_map (hk : ∀ e, key' (g e) = key e) :
    search key' k (chain.map g) = (search key k chain).map g := by
  induction chain with
  | nil => rfl
  | cons p rest ih =>
    simp only [List.map_cons,search,hk]
    split_ifs <;> simp [ih]

theorem changeFirst_map (hk : ∀ e, key' (g e) = key e) {f : E → E} {f' : E' → E'}
    (hf : ∀ e, f' (g e) = g (f e)) :
    changeFirst key' k f' (chain.map g) = (changeFirst key k f chain).map g := by
  induction chain with
  | nil => rfl
  | cons p rest ih =>
    simp only [List.map_cons,changeFirst,hk]
    split_ifs <;> simp [ih,hf]

theorem unlink_map (hk : ∀ e, key' (g e) = key e) :
    unlink key' k (chain.map g) = (unlink key k chain).map (List.map g) := by
  induction chain with
  | nil => rfl
  | cons p rest ih =>
    simp only [List.map_cons,unlink,hk,ih]
    split_ifs
    · rfl
    · cases unlink key k rest <;> rfl

end Image

theorem map_key_eq (key : E → K) {R : E → E → Prop} (hk : ∀ p q, R p q → key p = key q) {chain' : List E}
    (h : List.Forall₂ R chain chain') : chain.map key = chain'.map key := by
  induction h with
  | nil => rfl
  | cons hpq _ ih => rw [List.map_cons,List.map_cons,hk _ _ hpq,ih]

theorem unlink_eq_none : unlink key k chain = none ↔ k ∉ chain.map key := by
  induction chain with
  | nil => simp [unlink]
  | cons p rest ih =>
    simp only [unlink,List.map_cons,List.mem_cons,not_or]
    split_ifs with h
    · simp [h]
    · simp only [Option.map_eq_none_iff,ih]
      exact ⟨fun hr => ⟨fun hk => h hk.symm,hr⟩,fun hr => hr.2⟩

theorem mem_of_unlink {rest : List E} (h : unlink key k chain = some rest) : k ∈ chain.map key := by
  by_contra hno
  rw [unlink_eq_none.mpr hno] at h
  contradiction

theorem unlink_sublist {rest : List E} (h : unlink key k chain = some rest) :
    rest.Sublist chain := by
  induction chain generalizing rest with
  | nil => simp [unlink] at h
  | cons p t ih =>
    simp only [unlink] at h
    split_ifs at h with hk
    · obtain rfl := Option.some.inj h
      exact List.sublist_cons_self p t
    · obtain ⟨u,hu,rfl⟩ := Option.map_eq_some_iff.mp h
      exact (ih hu).cons_cons p

theorem search_unlink_other {rest : List E} (h : unlink key k chain = some rest) {k' : K}
    (hk : k' ≠ k) : search key k' rest = search key k' chain := by
  induction chain generalizing rest with
  | nil => simp [unlink] at h
  | cons p t ih =>
    simp only [unlink] at h
    split_ifs at h with hp
    · obtain rfl := Option.some.inj h
      simp [search,hp,hk]
    · obtain ⟨u,hu,rfl⟩ := Option.map_eq_some_iff.mp h
      simp [search,ih hu]

theorem search_unlink_self {rest : List E} (hd : (chain.map key).Nodup)
    (h : unlink key k chain = some rest) : search key k rest = none := by
  induction chain generalizing rest with
  | nil => simp [unlink] at h
  | cons p t ih =>
    simp only [List.map_cons,List.nodup_cons] at hd
    simp only [unlink] at h
    split_ifs at h with hp
    · obtain rfl := Option.some.inj h
      exact search_eq_none.mpr (hp ▸ hd.1)
    · obtain ⟨u,hu,rfl⟩ := Option.map_eq_some_iff.mp h
      simp only [search,if_neg (Ne.symm hp)]
      exact ih hd.2 hu

end Chain

abbrev Table (E B : Type) := B → List E

/-- Where entries go: their keys and the bucket of a key. -/
structure Layout (E K B : Type) where
  key : E → K
  hash : K → B

namespace Layout

variable (L : Layout E K B)

def find (t : Table E B) (k : K) : Option E := search L.key k (t (L.hash k))

def insertHead (t : Table E B) (e : E) : Table E B :=
  Function.update t (L.hash (L.key e)) (e :: t (L.hash (L.key e)))

def change (t : Table E B) (k : K) (f : E → E) : Table E B :=
  Function.update t (L.hash k) (changeFirst L.key k f (t (L.hash k)))

def remove (t : Table E B) (k : K) : Table E B × Bool :=
  match unlink L.key k (t (L.hash k)) with
  | none => (t,false)
  | some rest => (Function.update t (L.hash k) rest,true)

/-- Every entry sits in the bucket of its key, and no chain repeats a key. -/
structure WellFormed (t : Table E B) : Prop where
  placed : ∀ b, ∀ e ∈ t b, L.hash (L.key e) = b
  distinct : ∀ b, ((t b).map L.key).Nodup

variable {L} {t : Table E B} {k k' : K}

theorem find_key {e : E} (h : L.find t k = some e) : L.key e = k := (search_mem h).2

theorem find_update_other {chain : List E} (hs : search L.key k' chain = search L.key k' (t (L.hash k))) :
    L.find (Function.update t (L.hash k) chain) k' = L.find t k' := by
  unfold find
  by_cases hb : L.hash k' = L.hash k
  · rw [hb,Function.update_self,hs]
  · rw [Function.update_of_ne hb]

theorem find_insertHead_self (e : E) : L.find (L.insertHead t e) (L.key e) = some e := by
  simp [find,insertHead,search]

theorem find_insertHead_other {e : E} (h : k' ≠ L.key e) :
    L.find (L.insertHead t e) k' = L.find t k' :=
  find_update_other (by simp [search,h])

theorem find_change_self {f : E → E} (hf : ∀ p, L.key (f p) = L.key p) :
    L.find (L.change t k f) k = (L.find t k).map f := by
  simp [find,change,search_changeFirst_self hf]

theorem find_change_other {f : E → E} (hf : ∀ p, L.key (f p) = L.key p) (h : k' ≠ k) :
    L.find (L.change t k f) k' = L.find t k' :=
  find_update_other (search_changeFirst_other hf h)

theorem change_insertHead {f : E → E} (hf : ∀ p, L.key (f p) = L.key p) (t : Table E B) (e : E) :
    L.change (L.insertHead t e) (L.key e) f = L.insertHead t (f e) := by
  simp [change,insertHead,changeFirst,hf]

theorem remove_absent (h : L.find t k = none) : L.remove t k = (t,false) := by
  have hu : unlink L.key k (t (L.hash k)) = none := unlink_eq_none.mpr (search_eq_none.mp h)
  simp [remove,hu]

theorem remove_present {e : E} (h : L.find t k = some e) :
    ∃ rest, unlink L.key k (t (L.hash k)) = some rest ∧
      L.remove t k = (Function.update t (L.hash k) rest,true) := by
  cases hu : unlink L.key k (t (L.hash k)) with
  | none =>
    have hn : L.find t k = none := search_eq_none.mpr (unlink_eq_none.mp hu)
    rw [h] at hn
    contradiction
  | some rest => exact ⟨rest,rfl,by simp [remove,hu]⟩

theorem remove_found : (L.remove t k).2 = (L.find t k).isSome := by
  cases h : L.find t k with
  | none => simp [remove_absent h]
  | some e =>
    obtain ⟨rest,_,hr⟩ := remove_present h
    simp [hr]

theorem find_remove_other (h : k' ≠ k) : L.find (L.remove t k).1 k' = L.find t k' := by
  cases hf : L.find t k with
  | none => rw [remove_absent hf]
  | some e =>
    obtain ⟨rest,hu,hr⟩ := remove_present hf
    rw [hr]
    exact find_update_other (search_unlink_other hu h)

theorem find_remove_self (hw : L.WellFormed t) : L.find (L.remove t k).1 k = none := by
  cases hf : L.find t k with
  | none => rw [remove_absent hf,hf]
  | some e =>
    obtain ⟨rest,hu,hr⟩ := remove_present hf
    simp only [hr,find,Function.update_self]
    exact search_unlink_self (hw.distinct _) hu

section Image

variable {E' : Type} {L' : Layout E' K B} {g : E → E'}

def image (g : E → E') (t : Table E B) : Table E' B := fun b => (t b).map g

theorem image_update (t : Table E B) (b : B) (chain : List E) :
    image g (Function.update t b chain) = Function.update (image g t) b (chain.map g) := by
  funext b'
  by_cases hb : b' = b
  · subst hb
    simp [image]
  · simp [image,Function.update_of_ne hb]

variable (hkey : ∀ e, L'.key (g e) = L.key e) (hhash : L'.hash = L.hash)
include hkey hhash

theorem find_image : L'.find (image g t) k = (L.find t k).map g := by
  rw [find,find,hhash]
  exact search_map hkey

theorem insertHead_image (e : E) : L'.insertHead (image g t) (g e) = image g (L.insertHead t e) := by
  rw [insertHead,insertHead,image_update,hkey,hhash]
  rfl

theorem change_image {f : E → E} {f' : E' → E'} (hf : ∀ e, f' (g e) = g (f e)) :
    L'.change (image g t) k f' = image g (L.change t k f) := by
  rw [change,change,image_update,hhash]
  exact congrArg (Function.update _ _) (changeFirst_map hkey hf)

theorem remove_image : L'.remove (image g t) k = (image g (L.remove t k).1,(L.remove t k).2) := by
  have hu : unlink L'.key k (image g t (L.hash k)) = (unlink L.key k (t (L.hash k))).map (List.map g) :=
    unlink_map hkey
  simp only [remove,hhash,hu]
  cases unlink L.key k (t (L.hash k)) with
  | none => rfl
  | some rest => exact congrArg (·,true) (image_update t _ rest).symm

end Image

theorem wellFormed_empty : L.WellFormed fun _ => [] := ⟨by simp,by simp⟩

theorem WellFormed.update (hw : L.WellFormed t) {b : B} {chain : List E}
    (hp : ∀ e ∈ chain, L.hash (L.key e) = b) (hd : (chain.map L.key).Nodup) :
    L.WellFormed (Function.update t b chain) where
  placed := by
    intro b' e he
    by_cases hb : b' = b
    · subst hb
      exact hp e (by simpa using he)
    · rw [Function.update_of_ne hb] at he
      exact hw.placed b' e he
  distinct := by
    intro b'
    by_cases hb : b' = b
    · subst hb
      simpa using hd
    · rw [Function.update_of_ne hb]
      exact hw.distinct b'

theorem WellFormed.insertHead (hw : L.WellFormed t) {e : E} (h : L.find t (L.key e) = none) :
    L.WellFormed (L.insertHead t e) := by
  apply hw.update
  · intro p hp
    rcases List.mem_cons.mp hp with rfl | hp
    · rfl
    · exact hw.placed _ p hp
  · exact List.nodup_cons.mpr ⟨search_eq_none.mp h,hw.distinct _⟩

theorem WellFormed.change (hw : L.WellFormed t) {f : E → E} (hf : ∀ p, L.key (f p) = L.key p) :
    L.WellFormed (L.change t k f) := by
  have hm : (changeFirst L.key k f (t (L.hash k))).map L.key = (t (L.hash k)).map L.key :=
    map_changeFirst hf
  apply hw.update
  · intro p hp
    have hk : L.key p ∈ (t (L.hash k)).map L.key := hm ▸ List.mem_map_of_mem hp
    obtain ⟨q,hq,hqp⟩ := List.mem_map.mp hk
    rw [← hqp]
    exact hw.placed _ q hq
  · rw [hm]
    exact hw.distinct _

theorem WellFormed.remove (hw : L.WellFormed t) : L.WellFormed (L.remove t k).1 := by
  cases hf : L.find t k with
  | none => rwa [remove_absent hf]
  | some e =>
    obtain ⟨rest,hu,hr⟩ := remove_present hf
    have hs := unlink_sublist hu
    rw [hr]
    exact hw.update (fun p hp => hw.placed _ p (hs.subset hp)) ((hw.distinct _).sublist (hs.map L.key))

theorem WellFormed.keys_nodup (hw : L.WellFormed t) {bs : List B} (hbs : bs.Nodup) :
    (bs.flatMap fun b => (t b).map L.key).Nodup := by
  refine List.nodup_flatMap.mpr ⟨fun b _ => hw.distinct b,?_⟩
  refine hbs.imp fun {b b'} hb => ?_
  intro k hk hk'
  obtain ⟨e,he,rfl⟩ := List.mem_map.mp hk
  obtain ⟨e',he',hee⟩ := List.mem_map.mp hk'
  exact hb ((hw.placed b e he).symm.trans (hee ▸ hw.placed b' e' he'))

/-- An entry is in the table exactly when its key finds it. -/
theorem WellFormed.mem_iff_find (hw : L.WellFormed t) {e : E} :
    (∃ b, e ∈ t b) ↔ L.find t (L.key e) = some e := by
  constructor
  · rintro ⟨b,he⟩
    obtain rfl := hw.placed b e he
    exact search_of_mem (hw.distinct _) he
  · exact fun h => ⟨_,(search_mem h).1⟩

/-- A walk over all buckets meets of every key the entry that the key finds, and no other. -/
theorem WellFormed.filter_walk (hw : L.WellFormed t) {bs : List B} (hbs : bs.Nodup) (hall : ∀ b, b ∈ bs)
    (k : K) : ((bs.flatMap t).filter fun e => L.key e = k) = (L.find t k).toList := by
  have hd : ((bs.flatMap t).map L.key).Nodup := by
    rw [List.map_flatMap]
    exact hw.keys_nodup hbs
  rw [filter_eq_search hd]
  congr 1
  ext e
  constructor
  · intro h
    obtain ⟨hmem,rfl⟩ := search_mem h
    obtain ⟨b,-,hb⟩ := List.mem_flatMap.mp hmem
    exact hw.mem_iff_find.mp ⟨b,hb⟩
  · intro h
    obtain ⟨b,hb⟩ := hw.mem_iff_find.mpr (find_key h ▸ h)
    obtain rfl := find_key h
    exact search_of_mem hd (List.mem_flatMap.mpr ⟨b,hall b,hb⟩)

end Layout

end ChainedTable
end CodingChallenges
