import CodingChallenges.BitcaskFile

/-! Two tables that differ in the value of one key, seen through the file.
The walk meets the same nodes in the same order, so the texts differ in one item only.
Where every item ends at the end of a piece, the items are read one by one, and the item
of the key sets nothing but the key. -/
namespace CodingChallenges
namespace BitcaskInterference

open CText CMemory CStream ChainedTable BitcaskTable BitcaskFile

/-- Equal but for the value given to `a`. -/
def SameBut (a : CString) (p q : CString × CString) : Prop := p.1 = q.1 ∧ (p.1 ≠ a → p.2 = q.2)

structure NodeRel (a : CString) (p q : Node) : Prop where
  key : p.key = q.key
  value : p.key ≠ a → p.value = q.value
  missing : p.value = none ↔ q.value = none

def TableRel (a : CString) (s t : Hashtable) : Prop := ∀ b, List.Forall₂ (NodeRel a) (s b) (t b)

variable {a : CString} {s t : Hashtable}

theorem TableRel.update (h : TableRel a s t) (b : Fin HT_BUCKETS) {c d : List Node}
    (hc : List.Forall₂ (NodeRel a) c d) :
    TableRel a (Function.update s b c) (Function.update t b d) := by
  intro b'
  by_cases hb : b' = b
  · subst hb
    simpa using hc
  · simpa [Function.update_of_ne hb] using h b'

theorem TableRel.lookup_eq_none (h : TableRel a s t) (key : CString) :
    lookup s key = none ↔ lookup t key = none := by
  have hm := map_key_eq Node.key (fun _ _ hr => NodeRel.key hr) (h (htHash key))
  have hs : lookup s key = none ↔ key ∉ (s (htHash key)).map Node.key := search_eq_none
  rw [hs,hm]
  exact search_eq_none.symm

theorem TableRel.linked (h : TableRel a s t) (key : CString) : TableRel a (linked s key) (linked t key) := by
  have hn := h.lookup_eq_none key
  unfold BitcaskTable.linked
  cases hs : lookup s key with
  | none =>
    rw [hn.mp hs]
    exact h.update (htHash key) (List.Forall₂.cons ⟨rfl,fun _ => rfl,Iff.rfl⟩ (h (htHash key)))
  | some p =>
    cases ht : lookup t key with
    | none => exact absurd (hn.mpr ht) (by simp [hs])
    | some q => exact h

/-- A call with the same key, and the same value unless the key is `a`, keeps the relation. -/
theorem TableRel.htSet (h : TableRel a s t) {p q : CString × CString} (hpq : SameBut a p q) :
    TableRel a (htSet s p.1 p.2 allocated) (htSet t q.1 q.2 allocated) := by
  obtain ⟨k,v⟩ := p
  obtain ⟨k',w⟩ := q
  obtain ⟨rfl,hv⟩ := hpq
  rw [htSet_allocated,htSet_allocated]
  refine (h.linked k).update (htHash k) (forall₂_changeFirst (fun _ _ hr => NodeRel.key hr) ?_
    (h.linked k (htHash k)))
  intro p q hr hk
  have hpk : p.key = k := hk
  exact ⟨hr.key,fun hne => congrArg some (hv (hpk ▸ hne)),by simp [withValue]⟩

theorem TableRel.setAll (h : TableRel a s t) {ps qs : List (CString × CString)}
    (hpq : List.Forall₂ (SameBut a) ps qs) : TableRel a (setAll s ps) (setAll t qs) := by
  induction hpq generalizing s t with
  | nil => exact h
  | cons hp _ ih => exact ih (h.htSet hp)

theorem tableRel_htNew : TableRel a htNew htNew := fun _ => List.Forall₂.nil

theorem TableRel.pairs (h : TableRel a s t) : List.Forall₂ (SameBut a) (pairs s) (pairs t) := by
  have he (bs : List (Fin HT_BUCKETS)) : List.Forall₂ (NodeRel a) (bs.flatMap s) (bs.flatMap t) := by
    induction bs with
    | nil => exact List.Forall₂.nil
    | cons b bs ih => exact List.rel_append (h b) ih
  refine List.rel_filterMap ?_ (he _)
  intro p q hr
  cases hp : p.value with
  | none =>
    simp only [hp,hr.missing.mp hp,Option.map_none]
    exact Option.Rel.none
  | some v =>
    cases hq : q.value with
    | none => exact absurd (hr.missing.mpr hq) (by simp [hp])
    | some w =>
      simp only [hp,hq,Option.map_some]
      refine Option.Rel.some ⟨hr.key,fun hne => ?_⟩
      have hv := hr.value hne
      rw [hp,hq] at hv
      exact Option.some.inj hv

def itemPairs (p : CString × CString) : List (CString × CString) :=
  (chunks (ITEM_SZ-1) (itemText p)).filterMap splitItem

theorem loadedPairs_settled {ps : List (CString × CString)}
    (h : ∀ p ∈ ps, Settled (ITEM_SZ-1) (itemText p)) :
    loadedPairs (ps.flatMap itemText) = ps.flatMap itemPairs := by
  have hw : ∀ w ∈ ps.map itemText, Settled (ITEM_SZ-1) w := by
    intro w hw
    obtain ⟨p,hp,rfl⟩ := List.mem_map.mp hw
    exact h p hp
  rw [loadedPairs,List.flatMap_def,chunks_flatten (by decide) _ hw,List.flatMap_map,List.filterMap_flatMap]
  rfl

/-- No line feed stands in the entry, or it is one of another key whose item is not cut. -/
def Tidy (a key value : CString) : Prop :=
  (10 ∉ key.bytes ∧ 10 ∉ value.bytes) ∨ (key ≠ a ∧ key.length+value.length ≤ 1020)

theorem Tidy.settled {p : CString × CString} (h : Tidy a p.1 p.2) : Settled (ITEM_SZ-1) (itemText p) := by
  rcases h with ⟨hk,hv⟩ | ⟨_,hl⟩
  · exact settled_item hk hv
  · exact settled_short hl

theorem key_of_itemPairs {p q : CString × CString} (h58 : 58 ∉ p.1.bytes) (hk : 10 ∉ p.1.bytes)
    (hv : 10 ∉ p.2.bytes) (hq : q ∈ itemPairs p) : q.1 = p.1 := by
  rw [itemPairs,chunks_item hk hv] at hq
  have hs : splitItem (itemText p) = some (q.1,q.2) := by
    cases hi : splitItem (itemText p) with
    | none => simp [hi] at hq
    | some r => simpa [hi,eq_comm] using hq
  obtain ⟨hcut,h58q⟩ := splitItem_eq_some.mp hs
  have hpre : q.1.bytes ++ 58 :: q.2.bytes <+: p.1.bytes ++ 58 :: (p.2.bytes ++ [13,10]) := by
    rw [← hcut]
    exact ((List.takeWhile_prefix _).trans (List.takeWhile_prefix _)).trans (List.take_prefix _ _)
  obtain ⟨r,hr⟩ := hpre
  have hw := congrArg (List.takeWhile (· ≠ 58)) hr
  rw [List.append_assoc,List.cons_append,takeWhile_ne h58q,takeWhile_ne h58] at hw
  exact CString.ext hw

/-- What is loaded for another key does not depend on the value of `a`. -/
theorem filter_itemPairs {b : CString} (hb : b ≠ a) (h58 : 58 ∉ a.bytes) {p q : CString × CString}
    (hpq : SameBut a p q) (hp : Tidy a p.1 p.2) (hq : Tidy a q.1 q.2) :
    (itemPairs p).filter (fun r => r.1 = b) = (itemPairs q).filter fun r => r.1 = b := by
  by_cases hk : p.1 = a
  · have hnone {p : CString × CString} (hk : p.1 = a) (hp : Tidy a p.1 p.2) :
        (itemPairs p).filter (fun r => r.1 = b) = [] := by
      rw [List.filter_eq_nil_iff]
      intro r hr
      rcases hp with ⟨h10,hv⟩ | ⟨hne,_⟩
      · have hra : r.1 = a := (key_of_itemPairs (hk ▸ h58) h10 hv hr).trans hk
        simpa [hra] using Ne.symm hb
      · exact (hne hk).elim
    rw [hnone hk hp,hnone (hpq.1 ▸ hk) hq]
  · have he : p = q := Prod.ext hpq.1 (hpq.2 hk)
    rw [he]

theorem filter_flatMap_itemPairs {b : CString} (hb : b ≠ a) (h58 : 58 ∉ a.bytes)
    {ps qs : List (CString × CString)} (h : List.Forall₂ (SameBut a) ps qs)
    (hp : ∀ p ∈ ps, Tidy a p.1 p.2) (hq : ∀ q ∈ qs, Tidy a q.1 q.2) :
    (ps.flatMap itemPairs).filter (fun r => r.1 = b) = (qs.flatMap itemPairs).filter fun r => r.1 = b := by
  induction h with
  | nil => rfl
  | @cons p q ps qs hpq _ ih =>
    have hhead := filter_itemPairs hb h58 hpq (hp p (by simp)) (hq q (by simp))
    have htail := ih (fun r hr => hp r (by simp [hr])) fun r hr => hq r (by simp [hr])
    rw [List.flatMap_cons,List.flatMap_cons,List.filter_append,List.filter_append,hhead,htail]

/-- Saving and loading either table gives the same value for `b`. -/
def SameLoaded (dir : CString) (files : Files) (s t : Hashtable) (b : CString) : Prop :=
  ∃ f g, dbSave whole files s dir = .ok (f,0) ∧ dbSave whole files t dir = .ok (g,0) ∧
    htGet (dbLoad f htNew dir).1 b = htGet (dbLoad g htNew dir).1 b

theorem sameLoaded_iff {s t : Hashtable} (hs : Valid s) (ht : Valid t) {dir path : CString}
    (hd : getPath dir = some path) (files : Files) (b : CString) :
    SameLoaded dir files s t b ↔
      htGet (setAll htNew (loadedPairs ((pairs s).flatMap itemText))) b =
        htGet (setAll htNew (loadedPairs ((pairs t).flatMap itemText))) b := by
  obtain ⟨f,hf,hlf⟩ := dbLoad_dbSave hs hd files
  obtain ⟨g,hg,hlg⟩ := dbLoad_dbSave ht hd files
  rw [← hlf,← hlg]
  constructor
  · rintro ⟨f',g',hf',hg',h⟩
    rw [hf] at hf'
    rw [hg] at hg'
    obtain ⟨rfl,_⟩ := Prod.mk.inj (Except.ok.inj hf')
    obtain ⟨rfl,_⟩ := Prod.mk.inj (Except.ok.inj hg')
    exact h
  · exact fun h => ⟨f,g,hf,hg,h⟩

/-- The values of a key without colon do not reach another key, as long as they hold no line
feed and no item with one is cut. -/
theorem sameLoaded_of_sameBut (dir : CString) (files : Files) {a b : CString} (hb : b ≠ a)
    (h58 : 58 ∉ a.bytes) {ps qs : List (CString × CString)} (h : List.Forall₂ (SameBut a) ps qs)
    (hp : ∀ key value, htGet (setAll htNew ps) key = some value → Tidy a key value)
    (hq : ∀ key value, htGet (setAll htNew qs) key = some value → Tidy a key value) :
    SameLoaded dir files (setAll htNew ps) (setAll htNew qs) b := by
  have hvp : Valid (setAll htNew ps) := valid_htNew.setAll ps
  have hvq : Valid (setAll htNew qs) := valid_htNew.setAll qs
  cases hd : getPath dir with
  | none => exact ⟨files,files,by simp [dbSave,hd],by simp [dbSave,hd],rfl⟩
  | some path =>
    have htp : ∀ p ∈ pairs (setAll htNew ps), Tidy a p.1 p.2 := fun p hm => hp p.1 p.2 (hvp.mem_pairs.mp hm)
    have htq : ∀ q ∈ pairs (setAll htNew qs), Tidy a q.1 q.2 := fun q hm => hq q.1 q.2 (hvq.mem_pairs.mp hm)
    have hfilter := filter_flatMap_itemPairs hb h58 (tableRel_htNew.setAll h).pairs htp htq
    rw [sameLoaded_iff hvp hvq hd,loadedPairs_settled fun p hm => (htp p hm).settled,
      loadedPairs_settled fun q hm => (htq q hm).settled,htGet_setAll,htGet_setAll,hfilter]

theorem sameLoaded_of_sameBut_cr :
    SameLoaded (lit "./db") (fun _ => none) (setAll htNew [(lit "k",lit "1\n2"),(lit "a",lit "x")])
      (setAll htNew [(lit "k",lit "1\n2"),(lit "a",lit "\rk:y")]) (lit "k") := by
  have htidy {x : CString} (hx : 10 ∉ x.bytes) (key value : CString)
      (h : htGet (setAll htNew [(lit "k",lit "1\n2"),(lit "a",x)]) key = some value) :
      Tidy (lit "a") key value := by
    rcases mem_of_htGet_setAll h with hm | hn
    · rcases List.mem_cons.mp hm with he | hm
      · obtain ⟨rfl,rfl⟩ := Prod.mk.inj he
        exact Or.inr ⟨by decide,by decide⟩
      · obtain ⟨rfl,rfl⟩ := Prod.mk.inj (List.mem_singleton.mp hm)
        exact Or.inl ⟨by decide,hx⟩
    · exact (htGet_htNew key value hn).elim
  exact sameLoaded_of_sameBut (a:=lit "a") (lit "./db") _ (by decide) (by decide)
    (.cons ⟨rfl,fun _ => rfl⟩ (.cons ⟨rfl,fun h => (h rfl).elim⟩ .nil)) (htidy (by decide)) (htidy (by decide))

def brokenValue (n : ℕ) : CString where
  bytes := 10 :: List.replicate n 122
  nul_free := by simp [List.mem_replicate]

/-- A value forges a line of another key; a key with a colon is taken for another key; the
piece that holds the end of a cut item swallows the start of the next, and the rest of
that passes for a line. -/
theorem interference :
    ¬ SameLoaded (lit "./db") (fun _ => none) (setAll htNew [(lit "a",lit "x")])
        (setAll htNew [(lit "a",lit "x\nb:evil")]) (lit "b") ∧
    ¬ SameLoaded (lit "./db") (fun _ => none) (setAll htNew [(lit "b:c",lit "x")])
        (setAll htNew [(lit "b:c",lit "y")]) (lit "b") ∧
    ¬ SameLoaded (lit "./db") (fun _ => none) (setAll htNew [(lit "c",brokenValue 1030),(lit "d",lit "q")])
        (setAll htNew [(lit "c",brokenValue 1030),(lit "d",lit "qb:evil")]) (lit "b") := by
  have hd : getPath (lit "./db") = some (lit "./db") := getPath_of_short (by decide) (by decide)
  rw [sameLoaded_iff (valid_htNew.setAll _) (valid_htNew.setAll _) hd,
    sameLoaded_iff (valid_htNew.setAll _) (valid_htNew.setAll _) hd,
    sameLoaded_iff (valid_htNew.setAll _) (valid_htNew.setAll _) hd]
  exact ⟨by decide +kernel,by decide +kernel,by decide +kernel⟩

end BitcaskInterference
end CodingChallenges
