import CodingChallenges.BitcaskFile
import CodingChallenges.Runs

/-! The file store of the Bitcask program as a store of maps: any number of programs, each with a
table, that set and get keys and save to and load from files in any order. -/
namespace CodingChallenges
namespace BitcaskStore

open CText CMemory ChainedTable BitcaskTable BitcaskFile Runs

variable {P : Type} [DecidableEq P]

structure State (P : Type) where
  tables : P → Hashtable
  files : Files

/-- `new` is `ht_new`, also of a program that starts again; a file may fail to open. -/
inductive Action (P : Type)
  | new (p : P)
  | set (p : P) (key value : CString)
  | get (p : P) (key : CString)
  | save (p : P) (dir : CString) (opened : Bool)
  | load (p : P) (dir : CString) (opened : Bool)

inductive Reply
  | done
  | value (v : Option CString)
  | status (n : ℤ)
  deriving DecidableEq

def step (s : State P) : Action P → Except Fault (State P × Reply)
  | .new p => .ok ({ s with tables := Function.update s.tables p htNew },.done)
  | .set p key value =>
    .ok ({ s with tables := Function.update s.tables p (htSet (s.tables p) key value allocated) },.done)
  | .get p key => .ok (s,.value (htGet (s.tables p) key))
  | .save p dir opened => do
    let r ← dbSave { whole with opened := opened } s.files (s.tables p) dir
    .ok ({ s with files := r.1 },.status r.2)
  | .load p dir opened =>
    let r := dbLoad (if opened then s.files else fun _ => none) (s.tables p) dir
    .ok ({ s with tables := Function.update s.tables p r.1 },.status r.2)

abbrev Map := CString → Option CString

structure Maps (P : Type) where
  tables : P → Map
  files : CString → Option Map

/-- What is asked of the store, on maps: a file holds the map that was saved, and a load adds it to
the map of the program. -/
def move (s : Maps P) : Action P → Maps P × Reply
  | .new p => ({ s with tables := Function.update s.tables p fun _ => none },.done)
  | .set p key value =>
    ({ s with tables := Function.update s.tables p (Function.update (s.tables p) key (some value)) },.done)
  | .get p key => (s,.value (s.tables p key))
  | .save p dir opened =>
    match getPath dir with
    | none => (s,.status 0)
    | some path =>
      if opened then ({ s with files := Function.update s.files path (some (s.tables p)) },.status 0)
      else (s,.status 0)
  | .load p dir opened =>
    match getPath dir with
    | none => (s,.status 0)
    | some path =>
      match if opened then s.files path else none with
      | none => (s,.status (-1))
      | some m =>
        ({ s with tables := Function.update s.tables p fun key => (m key).or (s.tables p key) },.status 0)

def mapOf (text : Bytes) : Map := lastSet (loadedPairs text)

def State.maps (s : State P) : Maps P := ⟨fun p => htGet (s.tables p),fun path => (s.files path).map mapOf⟩

/-- The tables are in order and hold what the file format can. -/
def Clean (s : State P) : Prop :=
  ∀ p, Valid (s.tables p) ∧ ∀ key value, htGet (s.tables p) key = some value → Storable key value

def Fits : Action P → Prop
  | .set _ key value => Storable key value
  | _ => True

instance (key value : CString) : Decidable (Storable key value) :=
  decidable_of_iff (58 ∉ key.bytes ∧ 13 ∉ key.bytes ∧ 10 ∉ key.bytes ∧
      13 ∉ value.bytes ∧ 10 ∉ value.bytes ∧ key.length+value.length ≤ 1022)
    ⟨fun ⟨h₁,h₂,h₃,h₄,h₅,h₆⟩ => ⟨h₁,h₂,h₃,h₄,h₅,h₆⟩,
      fun h => ⟨h.no_colon,h.no_cr,h.no_lf,h.value_cr,h.value_lf,h.fits⟩⟩

instance : (a : Action P) → Decidable (Fits a)
  | .new _ => isTrue trivial
  | .set _ key value => inferInstanceAs (Decidable (Storable key value))
  | .get _ _ => isTrue trivial
  | .save _ _ _ => isTrue trivial
  | .load _ _ _ => isTrue trivial

variable {s : State P} {p : P} {ht : Hashtable} {key value : CString}

theorem Clean.update (h : Clean s) (hv : Valid ht)
    (hs : ∀ key value, htGet ht key = some value → Storable key value) (p : P) :
    Clean { s with tables := Function.update s.tables p ht } := by
  intro q
  by_cases hq : q = p
  · subst hq
    simpa using ⟨hv,hs⟩
  · simpa [Function.update_of_ne hq] using h q

theorem maps_update (s : State P) (p : P) (ht : Hashtable) :
    State.maps { s with tables := Function.update s.tables p ht } =
      { s.maps with tables := Function.update s.maps.tables p (htGet ht) } := by
  have htables : (fun q => htGet (Function.update s.tables p ht q)) =
      Function.update (fun q => htGet (s.tables q)) p (htGet ht) := by
    funext q
    by_cases hq : q = p
    · subst hq
      simp
    · simp [Function.update_of_ne hq]
  exact congrArg (fun tables => (⟨tables,s.maps.files⟩ : Maps P)) htables

theorem htGet_htSet (ht : Hashtable) (key value : CString) :
    htGet (htSet ht key value allocated) = Function.update (htGet ht) key (some value) := by
  funext k
  by_cases hk : k = key
  · subst hk
    rw [htGet_htSet_self,Function.update_self]
  · rw [htGet_htSet_other hk,Function.update_of_ne hk]

theorem htGet_load (ht : Hashtable) (text : Bytes) :
    htGet (setAll ht (loadedPairs text)) = fun key => (mapOf text key).or (htGet ht key) := by
  funext key
  rw [htGet_setAll,foldl_last]
  rfl

theorem storable_mapOf {text : Bytes} (h : mapOf text key = some value) : Storable key value :=
  storable_of_loaded ((htGet_setAll_htNew _ _).trans h)

/-- The text of a table holds its map. -/
theorem mapOf_save (hv : Valid ht) (hs : ∀ key value, htGet ht key = some value → Storable key value) :
    mapOf ((pairs ht).flatMap itemText) = htGet ht := by
  funext key
  rw [mapOf,← htGet_setAll_htNew]
  exact load_storable hv hs key

theorem save_moves (h : Clean s) (p : P) (dir : CString) (opened : Bool) :
    ∃ s', step s (.save p dir opened) = .ok (s',.status 0) ∧ Clean s' ∧
      move s.maps (.save p dir opened) = (s'.maps,.status 0) := by
  obtain ⟨hv,hs⟩ := h p
  cases hd : getPath dir with
  | none =>
    refine ⟨s,?_,h,?_⟩
    · simp only [step,dbSave,hd,bind,Except.bind]
    · simp only [move,hd]
  | some path =>
    cases opened with
    | false =>
      refine ⟨s,?_,h,?_⟩
      · simp only [step,dbSave,hd,bind,Except.bind]
        rfl
      · simp only [move,hd]
        rfl
    | true =>
      refine ⟨{ s with
        files := Function.update s.files path (some ((pairs (s.tables p)).flatMap itemText)) },?_,h,?_⟩
      · simp only [step,dbSave,hd,not_true_eq_false,if_false,saveNodes_entries hv,bind,Except.bind]
      · have hfiles : (fun q => (Function.update s.files path (some ((pairs (s.tables p)).flatMap itemText)) q).map
              mapOf) =
            Function.update (fun q => (s.files q).map mapOf) path (some (htGet (s.tables p))) := by
          funext q
          by_cases hq : q = path
          · subst hq
            rw [Function.update_self,Function.update_self,Option.map_some,mapOf_save hv hs]
          · rw [Function.update_of_ne hq,Function.update_of_ne hq]
        simp only [move,hd,if_true]
        exact congrArg (fun files => ((⟨s.maps.tables,files⟩ : Maps P),Reply.status 0)) hfiles.symm

theorem load_moves (h : Clean s) (p : P) (dir : CString) (opened : Bool) :
    ∃ s' o, step s (.load p dir opened) = .ok (s',o) ∧ Clean s' ∧
      move s.maps (.load p dir opened) = (s'.maps,o) := by
  obtain ⟨hv,hs⟩ := h p
  cases hd : getPath dir with
  | none =>
    refine ⟨s,.status 0,?_,h,by simp only [move,hd]⟩
    simp only [step,dbLoad,hd,Function.update_eq_self]
  | some path =>
    cases opened with
    | false =>
      refine ⟨s,.status (-1),?_,h,by simp only [move,hd]; rfl⟩
      simp only [step,dbLoad,hd,Bool.false_eq_true,if_false,Function.update_eq_self]
    | true =>
      cases hf : s.files path with
      | none =>
        refine ⟨s,.status (-1),?_,h,?_⟩
        · simp only [step,dbLoad,hd,if_true,hf,Function.update_eq_self]
        · simp only [move,hd,State.maps,if_true,hf,Option.map_none]
      | some text =>
        refine ⟨{ s with tables := Function.update s.tables p (setAll (s.tables p) (loadedPairs text)) },.status 0,?_,
          h.update (hv.setAll _) ?_ p,?_⟩
        · simp only [step,dbLoad,hd,if_true,hf,foldl_loadItem]
          rfl
        · intro key value hg
          rw [htGet_load] at hg
          rcases Option.or_eq_some_iff.mp hg with hm | ⟨-,hg⟩
          · exact storable_mapOf hm
          · exact hs key value hg
        · rw [maps_update,htGet_load]
          simp only [move,hd,State.maps,if_true,hf,Option.map_some]

theorem step_moves {a : Action P} (h : Clean s) (ha : Fits a) :
    ∃ s' o, step s a = .ok (s',o) ∧ Clean s' ∧ move s.maps a = (s'.maps,o) := by
  cases a with
  | new p =>
    refine ⟨_,_,rfl,h.update valid_htNew (fun key value hg => (htGet_htNew key value hg).elim) p,?_⟩
    rw [maps_update]
    rfl
  | set p key value =>
    obtain ⟨hv,hs⟩ := h p
    refine ⟨_,_,rfl,h.update (hv.htSet key value) ?_ p,?_⟩
    · intro k v hg
      rw [htGet_htSet] at hg
      by_cases hk : k = key
      · subst hk
        rw [Function.update_self] at hg
        obtain rfl := Option.some.inj hg
        exact ha
      · rw [Function.update_of_ne hk] at hg
        exact hs k v hg
    · rw [maps_update,htGet_htSet]
      rfl
  | get p key => exact ⟨s,_,rfl,h,rfl⟩
  | save p dir opened =>
    obtain ⟨s',hs,hc,hm⟩ := save_moves h p dir opened
    exact ⟨s',_,hs,hc,hm⟩
  | load p dir opened => exact load_moves h p dir opened

def start (files : Files) : State P := ⟨fun _ => htNew,files⟩

/-- Any programs on any files, taking turns in any way: where every pair that is set can be stored,
each of them works with a map, each file holds a map, and a map that was saved is loaded by whoever
comes next, as it was; where a file does not open nothing changes. -/
theorem store_of_maps (files : Files) (actions : List (Action P)) (h : ∀ a ∈ actions, Fits a) :
    ∃ s os, run step (start files) actions = .ok (s,os) ∧
      follow move (State.maps (start files : State P)) actions = (s.maps,os) := by
  have hclean : Clean (start files : State P) := fun p =>
    ⟨valid_htNew,fun key value hg => (htGet_htNew key value hg).elim⟩
  exact run_eq_follow (fun _ _ => step_moves) h hclean

/-- One program saves, a second adds a key to what it loads, and the first one starts again and needs
two tries. -/
def handedOver : List (Action Bool) :=
  [.set false (lit "a") (lit "x"),.save false (lit "./d") true,.load true (lit "./d") true,
    .set true (lit "b") (lit "y:z"),.save true (lit "./d") true,.new false,.load false (lit "./d") false,
    .load false (lit "./d") true,.get false (lit "b")]

theorem store_of_maps_handedOver : ∃ s os, run step (start fun _ => none) handedOver = .ok (s,os) ∧
    os.getLast? = some (.value (some (lit "y:z"))) := by
  obtain ⟨s,os,hrun,hfollow⟩ := store_of_maps (fun _ => none) handedOver (by decide +kernel)
  refine ⟨s,os,hrun,?_⟩
  rw [← show (follow move _ handedOver).2 = os from congrArg Prod.snd hfollow]
  rfl

end BitcaskStore
end CodingChallenges
