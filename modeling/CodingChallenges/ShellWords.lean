import Mathlib.Data.List.DropRight
import Mathlib.Data.List.ReduceOption
import CodingChallenges.CBuffer
import CodingChallenges.Pieces

/-! How the shell takes a command line apart (`trim`, `build_args`, `extract_segments`).
Both loops collect bytes in a local buffer and, at a separator, put the string in it into an
array of pointers. The array is read up to its first NULL. -/
namespace CodingChallenges
namespace ShellWords

open CText CMemory CBuffer Pieces

/-- An array of `char *`: a cell has no value until it is assigned, then NULL or a string. -/
abbrev Pointers := List (Option (Option CString))

def assign (v : Pointers) (i : ℕ) (x : Option CString) : Except Fault Pointers :=
  if i < v.length then .ok (v.set i (some x)) else .error .outOfBounds

def walk : Pointers → Except Fault (List CString)
  | [] => .error .outOfBounds
  | none :: _ => .error .uninitialised
  | some none :: _ => .ok []
  | some (some s) :: v => do
    let rest ← walk v
    .ok (s :: rest)

def isBlank (c : UInt8) : Bool := c = 32 || c = 10

/-- `trim`; `r` is kept one higher. -/
def trim (cmd : CString) : Option CString :=
  let l := (cmd.bytes.takeWhile isBlank).length
  let r := (cmd.bytes.rdropWhile isBlank).length
  if r ≤ l then none else some ((cmd.drop l).take (r-l))

/-- The local buffer and array with the places to fill next. -/
structure Splitter where
  part : Buffer
  pos : ℕ
  items : Pointers
  count : ℕ

variable (sep : UInt8 → Bool) (item : CString → Option CString)

/-- The buffer is terminated, and what `item` makes of its string is put into the array. -/
def Splitter.close (q : Splitter) : Except Fault Splitter := do
  let part ← store q.part q.pos [0]
  let s ← stringOf part
  let items ← assign q.items q.count (item s)
  .ok ⟨part,0,items,q.count+1⟩

def splitLoop : Bytes → Splitter → Except Fault Splitter
  | [], q => .ok q
  | c :: w, q =>
    if sep c then do
      let q ← q.close item
      splitLoop w q
    else do
      let part ← store q.part q.pos [c]
      splitLoop w { q with part := part, pos := q.pos+1 }

def Splitter.finish (q : Splitter) : Except Fault Pointers := do
  let q ← if q.pos > 0 then q.close item else .ok q
  assign q.items q.count none

/-- Into an array of `n` pointers through a buffer of `m` bytes. -/
def split (n m : ℕ) (cmd : CString) : Except Fault Pointers := do
  let q ← splitLoop sep item cmd.bytes ⟨fresh m,0,List.replicate n none,0⟩
  q.finish item

def isSeparator (c : UInt8) : Bool := c = 32 || c = 9 || c = 10

def isBar (c : UInt8) : Bool := c = 124

def buildArgs (cmd : CString) : Except Fault Pointers := split isSeparator some 100 100 cmd

def extractSegments (cmd : CString) : Except Fault Pointers := split isBar trim 16 128 cmd

/-- The array of `n` pointers behind the pieces. -/
def listing (n : ℕ) (ps : List Bytes) : Pointers :=
  (ps.map fun p => some (item (CString.ofBuffer p))) ++ some none :: List.replicate (n-(ps.length+1)) none

structure Filling (n m : ℕ) (q : Splitter) (done : List Bytes) (t : Bytes) : Prop where
  part_size : q.part.length = m
  part : Holds q.part t
  pos : q.pos = t.length
  nul : 0 ∉ t
  items : q.items = (done.map fun p => some (item (CString.ofBuffer p))) ++ List.replicate (n-done.length) none
  count : q.count = done.length
  done_le : done.length ≤ n

variable {sep item} {n m : ℕ} {q : Splitter} {done : List Bytes} {t : Bytes}

theorem Filling.size (h : Filling item n m q done t) : q.items.length = n := by
  rw [h.items,List.length_append,List.length_map,List.length_replicate]
  exact Nat.add_sub_cancel' h.done_le

theorem Filling.assign (h : Filling item n m q done t) (x : Option CString) (hlt : done.length < n) :
    assign q.items q.count x = .ok ((done.map fun p => some (item (CString.ofBuffer p))) ++
      some x :: List.replicate (n-(done.length+1)) none) := by
  obtain ⟨k,hk⟩ : ∃ k, n-done.length = k+1 := ⟨n-done.length-1,by omega⟩
  have hk' : n-(done.length+1) = k := by omega
  rw [ShellWords.assign,if_pos (by rw [h.size,h.count]; exact hlt),h.items,hk,hk',h.count,
    List.set_append_right _ _ (by rw [List.length_map])]
  simp [List.replicate_succ]

theorem Filling.assign_full (h : Filling item n m q done t) (x : Option CString) (hge : ¬ done.length < n) :
    ShellWords.assign q.items q.count x = .error .outOfBounds := by
  rw [ShellWords.assign,if_neg]
  rwa [h.size,h.count]

theorem Filling.store_full (h : Filling item n m q done t) (c : UInt8) (hge : ¬ t.length+1 ≤ m) :
    store q.part q.pos [c] = .error .outOfBounds := by
  rw [store,if_neg]
  rwa [List.length_singleton,h.pos,h.part_size]

theorem Filling.push (h : Filling item n m q done t) {c : UInt8} (hc : c ≠ 0) (hlt : t.length+1 ≤ m) :
    ∃ part, store q.part q.pos [c] = .ok part ∧
      Filling item n m { q with part := part, pos := q.pos+1 } done (t ++ [c]) := by
  obtain ⟨part,hs,hl,hh⟩ := h.part.store [c] (by rw [h.part_size]; exact hlt)
  rw [← h.pos] at hs
  exact ⟨part,hs,{ h with
    part_size := by rw [hl,h.part_size]
    part := hh
    pos := by simp [h.pos]
    nul := by simp [h.nul,Ne.symm hc] }⟩

theorem Filling.close (h : Filling item n m q done t) (hlt : t.length+1 ≤ m) (hn : done.length < n) :
    ∃ q', q.close item = .ok q' ∧ Filling item n m q' (done ++ [t]) [] := by
  obtain ⟨part,hs,hl,hh⟩ := h.part.store [0] (by rw [h.part_size]; exact hlt)
  rw [← h.pos] at hs
  have hstring : stringOf part = .ok (CString.ofBuffer t) := by
    rw [hh.stringOf h.nul]
    exact congrArg Except.ok (CString.ofBuffer_self ⟨t,h.nul⟩).symm
  refine ⟨_,bind_eq_ok.mpr ⟨part,hs,bind_eq_ok.mpr ⟨_,hstring,bind_eq_ok.mpr ⟨_,h.assign _ hn,rfl⟩⟩⟩,?_⟩
  exact {
    part_size := by rw [hl,h.part_size]
    part := holds_nil _
    pos := rfl
    nul := List.not_mem_nil
    items := by simp
    count := by simp [h.count]
    done_le := by simpa using hn }

theorem Filling.close_full (h : Filling item n m q done t) (hfull : ¬ (t.length+1 ≤ m ∧ done.length < n)) :
    q.close item = .error .outOfBounds := by
  by_cases hlt : t.length+1 ≤ m
  · obtain ⟨part,hs,hl,hh⟩ := h.part.store [0] (by rw [h.part_size]; exact hlt)
    rw [← h.pos] at hs
    have hstring := hh.stringOf h.nul
    have hassign := h.assign_full (item ⟨t,h.nul⟩) fun hn => hfull ⟨hlt,hn⟩
    simp only [Splitter.close,hs,hstring,hassign,bind,Except.bind]
  · simp only [Splitter.close,h.store_full 0 hlt,bind,Except.bind]

def outcome (item : CString → Option CString) (n m : ℕ) (ps : List Bytes) : Except Fault Pointers :=
  if ps.length+1 ≤ n ∧ ∀ p ∈ ps, p.length+1 ≤ m then .ok (listing item n ps) else .error .outOfBounds

theorem Filling.terminate (h : Filling item n m q done t) (hdone : ∀ p ∈ done, p.length+1 ≤ m) :
    ShellWords.assign q.items q.count none = outcome item n m done := by
  by_cases hn : done.length < n
  · rw [h.assign none hn,outcome,if_pos ⟨hn,hdone⟩]
    rfl
  · rw [h.assign_full none hn,outcome,if_neg fun hfit => hn hfit.1]

theorem Filling.finish (h : Filling item n m q done t) (hdone : ∀ p ∈ done, p.length+1 ≤ m) :
    q.finish item = outcome item n m (done ++ pieces sep t []) := by
  rw [pieces_nil,Splitter.finish,h.pos]
  by_cases ht : t = []
  · subst ht
    rw [if_pos rfl,List.append_nil]
    exact h.terminate hdone
  · have hpos : t.length > 0 := List.length_pos_of_ne_nil ht
    rw [if_neg ht,if_pos hpos]
    by_cases hroom : t.length+1 ≤ m ∧ done.length < n
    · obtain ⟨q',hq',hf⟩ := h.close hroom.1 hroom.2
      rw [hq']
      refine hf.terminate fun p hp => ?_
      rcases List.mem_append.mp hp with hp | hp
      · exact hdone p hp
      · rw [List.mem_singleton.mp hp]
        exact hroom.1
    · rw [h.close_full hroom,outcome,if_neg]
      · rfl
      · rintro ⟨hlen,hall⟩
        refine hroom ⟨hall t (by simp),?_⟩
        rw [List.length_append,List.length_singleton] at hlen
        omega

/-- From any state the loop and what follows it make the array of all the pieces, where they fit. -/
theorem splitLoop_outcome (h : Filling item n m q done t) (ht : Clear sep t)
    (hdone : ∀ p ∈ done, p.length+1 ≤ m) {w : Bytes} (hw : 0 ∉ w) :
    (splitLoop sep item w q >>= Splitter.finish item) = outcome item n m (done ++ pieces sep t w) := by
  induction w generalizing q done t with
  | nil => exact h.finish hdone
  | cons c w ih =>
    have hc0 : c ≠ 0 := fun h => hw (by simp [h])
    have hw0 : 0 ∉ w := fun h => hw (by simp [h])
    rw [splitLoop]
    by_cases hc : sep c = true
    · rw [if_pos hc,pieces_sep hc,bind_assoc]
      by_cases hroom : t.length+1 ≤ m ∧ done.length < n
      · obtain ⟨q',hq',hf⟩ := h.close hroom.1 hroom.2
        rw [hq']
        have hrest := ih hf clear_nil (fun p hp => by
          rcases List.mem_append.mp hp with hp | hp
          · exact hdone p hp
          · rw [List.mem_singleton.mp hp]
            exact hroom.1) hw0
        rw [List.append_assoc] at hrest
        exact hrest
      · rw [h.close_full hroom,outcome,if_neg]
        · rfl
        · rintro ⟨hlen,hall⟩
          refine hroom ⟨hall t (by simp),?_⟩
          rw [List.length_append,List.length_cons] at hlen
          omega
    · rw [if_neg hc,pieces_other hc,bind_assoc]
      have hclear := ht.snoc hc
      by_cases hlt : t.length+1 ≤ m
      · obtain ⟨part,hpart,hf⟩ := h.push hc0 hlt
        rw [hpart]
        exact ih hf hclear hdone hw0
      · rw [h.store_full c hlt,outcome,if_neg]
        · rfl
        · rintro ⟨_,hall⟩
          -- the piece that was begun ends up in one that is too long as well
          obtain ⟨p,hp,hin⟩ := exists_pieces (t:=t ++ [c]) (w:=w) hclear (by simp) List.infix_append_left
          have hlen := hin.length_le
          have hm := hall p (List.mem_append_right done hp)
          rw [List.length_append,List.length_singleton] at hlen
          omega

theorem split_outcome (cmd : CString) :
    split sep item n m cmd = outcome item n m (pieces sep [] cmd.bytes) := by
  have hstart : Filling item n m ⟨fresh m,0,List.replicate n none,0⟩ [] [] :=
    ⟨length_fresh m,holds_nil _,rfl,List.not_mem_nil,rfl,rfl,Nat.zero_le n⟩
  exact splitLoop_outcome hstart clear_nil (by simp) cmd.nul_free

/-- Room for every piece with its terminator, and for the pointers with NULL. -/
def Fits (sep : UInt8 → Bool) (n m : ℕ) (w : Bytes) : Prop :=
  stored sep w+1 ≤ n ∧ ∀ u, u <:+: w → Clear sep u → u.length+1 ≤ m

theorem Fits.part {w u : Bytes} (h : Fits sep n m w) (hu : u <:+: w) : Fits sep n m u :=
  ⟨le_trans (Nat.succ_le_succ (stored_mono hu)) h.1,fun v hv hclear => h.2 v (hv.trans hu) hclear⟩

theorem fits_iff (hm : 0 < m) (w : Bytes) :
    Fits sep n m w ↔ (pieces sep [] w).length+1 ≤ n ∧ ∀ p ∈ pieces sep [] w, p.length+1 ≤ m := by
  obtain ⟨m,rfl⟩ := Nat.exists_eq_succ_of_ne_zero hm.ne'
  have hlen : (pieces sep [] w).length = stored sep ([] ++ w) := length_pieces [] w clear_nil
  simp only [Fits,hlen,List.nil_append,Nat.succ_eq_add_one,Nat.add_le_add_iff_right,length_pieces_le_iff]

/-- A command line is taken apart inside the buffer and the array exactly when it fits. -/
theorem split_ok_iff (hm : 0 < m) (cmd : CString) :
    (∃ v, split sep item n m cmd = .ok v) ↔ Fits sep n m cmd.bytes := by
  rw [split_outcome,fits_iff hm,outcome]
  split_ifs with h
  · exact iff_of_true ⟨_,rfl⟩ h
  · exact iff_of_false (fun ⟨v,hv⟩ => by cases hv) h

theorem split_eq (hm : 0 < m) {cmd : CString} (h : Fits sep n m cmd.bytes) :
    split sep item n m cmd = .ok (listing item n (pieces sep [] cmd.bytes)) := by
  rw [split_outcome,outcome,if_pos ((fits_iff hm _).mp h)]

def nonblank (w : Bytes) : Bool := w.any fun c => !isBlank c

def strip (w : Bytes) : Bytes := (w.dropWhile isBlank).rdropWhile isBlank

theorem rdropWhile_append {a x : Bytes} (hx : x.rdropWhile isBlank ≠ []) :
    (a ++ x).rdropWhile isBlank = a ++ x.rdropWhile isBlank := by
  have hne : (x.reverse.dropWhile isBlank).isEmpty = false := by
    rw [List.isEmpty_eq_false_iff]
    intro h
    exact hx (by rw [List.rdropWhile,h,List.reverse_nil])
  rw [List.rdropWhile,List.reverse_append,List.dropWhile_append,hne,List.rdropWhile]
  simp

theorem trim_bytes (s : CString) :
    (trim s).map CString.bytes = if nonblank s.bytes then some (strip s.bytes) else none := by
  have happ := List.takeWhile_append_dropWhile (p:=isBlank) (l:=s.bytes)
  by_cases hn : nonblank s.bytes = true
  · obtain ⟨c,hc,hcb⟩ := List.any_eq_true.mp hn
    have hcb : ¬ isBlank c = true := by simpa using hcb
    have hmem : c ∈ s.bytes.dropWhile isBlank := by
      rw [← happ] at hc
      rcases List.mem_append.mp hc with hc | hc
      · exact (hcb (List.mem_takeWhile_imp hc)).elim
      · exact hc
    have hne : (s.bytes.dropWhile isBlank).rdropWhile isBlank ≠ [] := by
      rw [Ne,List.rdropWhile_eq_nil_iff]
      exact fun h => hcb (h c hmem)
    have hr := rdropWhile_append (a:=s.bytes.takeWhile isBlank) hne
    rw [happ] at hr
    have hlen := congrArg List.length hr
    rw [List.length_append] at hlen
    have hpos := List.length_pos_of_ne_nil hne
    have hdrop : s.bytes.drop (s.bytes.takeWhile isBlank).length = s.bytes.dropWhile isBlank :=
      (congrArg (List.drop _) happ.symm).trans List.drop_left
    have htake := List.prefix_iff_eq_take.mp (List.rdropWhile_prefix isBlank (s.bytes.dropWhile isBlank))
    rw [if_pos hn,trim,if_neg (by omega),Option.map_some,CString.take_bytes,CString.drop_bytes,hdrop,hlen,
      Nat.add_sub_cancel_left,← htake]
    rfl
  · have hall : ∀ c ∈ s.bytes, isBlank c = true := by
      intro c hc
      by_contra hcb
      exact hn (List.any_eq_true.mpr ⟨c,hc,by simpa using hcb⟩)
    have hr : s.bytes.rdropWhile isBlank = [] := List.rdropWhile_eq_nil_iff.mpr hall
    rw [if_neg hn,trim]
    simp only [hr,List.length_nil]
    rw [if_pos (Nat.zero_le _)]
    rfl

theorem trim_part {s u : CString} (h : trim s = some u) : u.bytes <:+: s.bytes := by
  simp only [trim] at h
  split_ifs at h
  obtain rfl := Option.some.inj h
  exact ((List.take_prefix _ _).isInfix).trans (List.drop_suffix _ _).isInfix

/-- The line is cut into segments, and the line and every segment into words, inside the arrays. -/
def InBounds (line : CString) : Prop :=
  ∃ segments args, extractSegments line = .ok segments ∧ buildArgs line = .ok args ∧
    ∀ s, some (some s) ∈ segments → ∃ v, buildArgs s = .ok v

theorem mem_listing {ps : List Bytes} {s : CString} (h : some (some s) ∈ listing item n ps) :
    ∃ p ∈ ps, item (CString.ofBuffer p) = some s := by
  rcases List.mem_append.mp h with h | h
  · obtain ⟨p,hp,hs⟩ := List.mem_map.mp h
    exact ⟨p,hp,Option.some.inj hs⟩
  · rcases List.mem_cons.mp h with h | h
    · cases h
    · cases List.eq_of_mem_replicate h

theorem infix_of_mem_pieces {cmd : CString} {p : Bytes} (h : p ∈ pieces sep [] cmd.bytes) :
    p <:+: cmd.bytes ∧ (CString.ofBuffer p).bytes = p := by
  have hin := (mem_pieces (t:=[]) clear_nil h).2
  rw [List.nil_append] at hin
  exact ⟨hin,congrArg CString.bytes (CString.ofBuffer_self ⟨p,fun h0 => cmd.nul_free (hin.subset h0)⟩)⟩

/-- The segments fit because the line does: they are parts of it. -/
theorem inBounds_iff (line : CString) :
    InBounds line ↔ Fits isBar 16 128 line.bytes ∧ Fits isSeparator 100 100 line.bytes := by
  constructor
  · rintro ⟨segments,args,hs,ha,_⟩
    exact ⟨(split_ok_iff (by decide) line).mp ⟨_,hs⟩,(split_ok_iff (by decide) line).mp ⟨_,ha⟩⟩
  · rintro ⟨hbar,hsep⟩
    refine ⟨_,_,split_eq (by decide) hbar,split_eq (by decide) hsep,fun s hs => ?_⟩
    obtain ⟨p,hp,hps⟩ := mem_listing hs
    obtain ⟨hin,hbytes⟩ := infix_of_mem_pieces hp
    have htrim := trim_part hps
    rw [hbytes] at htrim
    exact (split_ok_iff (by decide) s).mpr (hsep.part (htrim.trans hin))

theorem extractSegments_overrun : ¬ InBounds (lit "||||||||||||||||") := by
  rintro ⟨segments,_,hs,_⟩
  have hfits := (split_ok_iff (by decide) _).mp ⟨_,hs⟩
  exact absurd hfits.1 (by decide)

theorem walk_listing (l : List (Option CString)) (v : Pointers) :
    walk (l.map some ++ some none :: v) = .ok (l.takeWhile Option.isSome).reduceOption := by
  induction l with
  | nil => rfl
  | cons x l ih =>
    cases x with
    | none => rfl
    | some s =>
      rw [List.map_cons,List.cons_append,walk,ih]
      rfl

theorem takeWhile_trim {ps : List Bytes} (hps : ∀ p ∈ ps, (CString.ofBuffer p).bytes = p) :
    ((ps.map fun p => trim (CString.ofBuffer p)).takeWhile Option.isSome).reduceOption.map CString.bytes =
      (ps.takeWhile nonblank).map strip := by
  induction ps with
  | nil => rfl
  | cons p ps ih =>
    have hrest := ih fun p' hp => hps p' (by simp [hp])
    have htrim := trim_bytes (CString.ofBuffer p)
    rw [hps p (by simp)] at htrim
    by_cases hn : nonblank p = true
    · rw [if_pos hn] at htrim
      obtain ⟨u,hu,hub⟩ := Option.map_eq_some_iff.mp htrim
      rw [List.map_cons,hu,List.takeWhile_cons_of_pos rfl,List.takeWhile_cons_of_pos hn,
        List.reduceOption_cons_of_some,List.map_cons,List.map_cons,hrest,hub]
    · rw [if_neg hn] at htrim
      rw [List.map_cons,Option.map_eq_none_iff.mp htrim,List.takeWhile_cons_of_neg (by simp),
        List.takeWhile_cons_of_neg hn]
      rfl

/-- `handle_cmd` walks the stripped parts up to the first blank one. -/
theorem walk_segments {line : CString} (h : Fits isBar 16 128 line.bytes) :
    ∃ segments walked, extractSegments line = .ok segments ∧ walk segments = .ok walked ∧
      walked.map CString.bytes = ((line.bytes.splitOnP isBar).takeWhile nonblank).map strip := by
  have hwalk := walk_listing ((pieces isBar [] line.bytes).map fun p => trim (CString.ofBuffer p))
    (List.replicate (16-((pieces isBar [] line.bytes).length+1)) none)
  rw [List.map_map] at hwalk
  refine ⟨_,_,split_eq (by decide) h,hwalk,?_⟩
  rw [takeWhile_trim fun p hp => (infix_of_mem_pieces hp).2,takeWhile_splitOnP (by decide)]

/-- The stages of a command line: its parts that are not blank, stripped. -/
def stages (w : Bytes) : List Bytes := ((w.splitOnP isBar).filter nonblank).map strip

/-- What `handle_cmd` walks are the stages. -/
def WalksStages (line : CString) : Prop :=
  ∃ segments walked, extractSegments line = .ok segments ∧ walk segments = .ok walked ∧
    walked.map CString.bytes = stages line.bytes

theorem walksStages_eq {line : CString} (h : Fits isBar 16 128 line.bytes) :
    WalksStages line ↔
      ((line.bytes.splitOnP isBar).takeWhile nonblank).map strip = stages line.bytes := by
  obtain ⟨segments,walked,hs,hw,hbytes⟩ := walk_segments h
  constructor
  · rintro ⟨segments',walked',hs',hw',hstages⟩
    obtain rfl := Except.ok.inj (hs.symm.trans hs')
    obtain rfl := Except.ok.inj (hw.symm.trans hw')
    exact hbytes.symm.trans hstages
  · exact fun heq => ⟨segments,walked,hs,hw,hbytes.trans heq⟩

/-- No stage is dropped exactly when no blank part stands in front of one that is not. -/
theorem walksStages_iff {line : CString} (h : Fits isBar 16 128 line.bytes) :
    WalksStages line ↔
      (line.bytes.splitOnP isBar).Pairwise fun p p' => nonblank p' = true → nonblank p = true := by
  rw [walksStages_eq h,← takeWhile_eq_filter_iff,stages]
  constructor
  · intro heq
    have hlen := congrArg List.length heq
    rw [List.length_map,List.length_map] at hlen
    exact (takeWhile_sublist_filter nonblank _).eq_of_length hlen
  · exact fun heq => congrArg (List.map strip) heq

theorem walksStages_pair :
    Fits isBar 16 128 (lit "ls | wc").bytes ∧ (WalksStages (lit "ls | wc") ↔
      ((lit "ls | wc").bytes.splitOnP isBar).Pairwise fun p p' => nonblank p' = true → nonblank p = true) :=
  ⟨(fits_iff (by decide) _).mpr (by decide),walksStages_iff ((fits_iff (by decide) _).mpr (by decide))⟩

theorem walksStages_dropped : Fits isBar 16 128 (lit "ls||wc").bytes ∧ ¬ WalksStages (lit "ls||wc") := by
  have hfits : Fits isBar 16 128 (lit "ls||wc").bytes := (fits_iff (by decide) _).mpr (by decide)
  refine ⟨hfits,fun h => ?_⟩
  exact absurd ((walksStages_eq hfits).mp h) (by decide)

def words (w : Bytes) : List Bytes := (w.splitOnP isSeparator).filter (· ≠ [])

theorem walk_args {cmd : CString} (h : Fits isSeparator 100 100 cmd.bytes) :
    ∃ v args, buildArgs cmd = .ok v ∧ walk v = .ok args ∧
      args.map CString.bytes = pieces isSeparator [] cmd.bytes := by
  have hwalk := walk_listing ((pieces isSeparator [] cmd.bytes).map fun p => some (CString.ofBuffer p))
    (List.replicate (100-((pieces isSeparator [] cmd.bytes).length+1)) none)
  rw [List.map_map] at hwalk
  refine ⟨_,_,split_eq (by decide) h,hwalk,?_⟩
  have hall : ∀ x ∈ (pieces isSeparator [] cmd.bytes).map (fun p => some (CString.ofBuffer p)),
      x.isSome = true := by
    intro x hx
    obtain ⟨p,_,rfl⟩ := List.mem_map.mp hx
    rfl
  have hsome : ((pieces isSeparator [] cmd.bytes).map fun p => some (CString.ofBuffer p)).reduceOption =
      (pieces isSeparator [] cmd.bytes).map CString.ofBuffer := by
    rw [List.reduceOption,List.filterMap_map]
    exact congrFun (List.filterMap_eq_map (f:=CString.ofBuffer)) _
  rw [List.takeWhile_eq_self_iff.mpr hall,hsome,List.map_map]
  exact (List.map_congr_left fun p hp => (infix_of_mem_pieces hp).2).trans (List.map_id _)

/-- What `build_args` returns are the words of the command. -/
def MakesWords (cmd : CString) : Prop :=
  ∃ v args, buildArgs cmd = .ok v ∧ walk v = .ok args ∧ args.map CString.bytes = words cmd.bytes

theorem makesWords_eq {cmd : CString} (h : Fits isSeparator 100 100 cmd.bytes) :
    MakesWords cmd ↔ pieces isSeparator [] cmd.bytes = words cmd.bytes := by
  obtain ⟨v,args,hv,ha,hbytes⟩ := walk_args h
  constructor
  · rintro ⟨v',args',hv',ha',hwords⟩
    obtain rfl := Except.ok.inj (hv.symm.trans hv')
    obtain rfl := Except.ok.inj (ha.symm.trans ha')
    exact hbytes.symm.trans hwords
  · exact fun heq => ⟨v,args,hv,ha,hbytes.trans heq⟩

/-- `build_args` makes the words exactly when the command has no separator in front and none
behind another. -/
theorem makesWords_iff {cmd : CString} (h : Fits isSeparator 100 100 cmd.bytes) :
    MakesWords cmd ↔
      (32 :: cmd.bytes).IsChain fun c c' => isSeparator c = true → ¬ isSeparator c' = true := by
  rw [makesWords_eq h,words,filter_splitOnP (by decide),eq_comm,List.filter_eq_self,
    ← pieces_ne_nil_iff (t:=[]) (by decide)]
  simp

theorem makesWords_pair :
    Fits isSeparator 100 100 (lit "cd /tmp").bytes ∧ (MakesWords (lit "cd /tmp") ↔
      (32 :: (lit "cd /tmp").bytes).IsChain fun c c' => isSeparator c = true → ¬ isSeparator c' = true) :=
  ⟨(fits_iff (by decide) _).mpr (by decide),makesWords_iff ((fits_iff (by decide) _).mpr (by decide))⟩

theorem makesWords_empty :
    Fits isSeparator 100 100 (lit "cd  /tmp").bytes ∧ ¬ MakesWords (lit "cd  /tmp") := by
  have hfits : Fits isSeparator 100 100 (lit "cd  /tmp").bytes := (fits_iff (by decide) _).mpr (by decide)
  refine ⟨hfits,fun h => ?_⟩
  exact absurd ((makesWords_eq hfits).mp h) (by decide)

theorem args_insert {a b : Bytes} {c c' : UInt8} (hc : isSeparator c = true) (hc' : isSeparator c' = true)
    {cmd cmd' : CString} (h : cmd.bytes = a ++ c :: b) (h' : cmd'.bytes = a ++ c :: c' :: b)
    {v v' : Pointers} {args args' : List CString} (hv : buildArgs cmd = .ok v) (hw : walk v = .ok args)
    (hv' : buildArgs cmd' = .ok v') (hw' : walk v' = .ok args') : args'.length = args.length+1 := by
  have hlen {cmd : CString} {v : Pointers} {args : List CString} (hv : buildArgs cmd = .ok v)
      (hw : walk v = .ok args) : args.length = stored isSeparator cmd.bytes := by
    obtain ⟨v₁,args₁,hv₁,hw₁,hbytes⟩ := walk_args ((split_ok_iff (by decide) cmd).mp ⟨v,hv⟩)
    obtain rfl := Except.ok.inj (hv.symm.trans hv₁)
    obtain rfl := Except.ok.inj (hw.symm.trans hw₁)
    have hpieces : (pieces isSeparator [] cmd.bytes).length = stored isSeparator ([] ++ cmd.bytes) :=
      length_pieces [] cmd.bytes clear_nil
    rwa [← hbytes,List.length_map] at hpieces
  rw [hlen hv hw,hlen hv' hw',h,h']
  exact stored_insert hc hc' a b

end ShellWords
end CodingChallenges
