import CodingChallenges.CBuffer
import CodingChallenges.RecordStream
import CodingChallenges.BitcaskHelper
import CodingChallenges.Runs

/-! The Bitcask log: `bitcask_append` on the active file of one writer.
The file is opened with `O_APPEND`, so each `write` adds the bytes it takes to the end.
A call that fails returns what it has written so far to nobody: the bytes stay. -/
namespace CodingChallenges
namespace BitcaskLog

open CText CMemory CBuffer RecordStream BitcaskHelper Runs

/-- One call and what the system answers to it: whether `malloc` succeeds, the clock, and
the results of the writes in order, `none` for an error. A write takes at most what it is
offered, and one for which no result is listed fails. -/
structure Call where
  key : CString
  value : CString
  time : UInt64
  allocated : Bool
  results : List (Option ℕ)

/-- The loop over `write`; `rest` is what lies from `buf + written` on. -/
def writeLoop : List (Option ℕ) → Bytes → Bytes → Bytes × Bool
  | [], rest, file => (file,rest = [])
  | r :: rs, rest, file =>
    if rest = [] then (file,true)
    else match r with
      | none => (file,false)
      | some 0 => (file,false)
      | some (n+1) => writeLoop rs (rest.drop (n+1)) (file ++ rest.take (n+1))

/-- The new contents of the file, and the position returned or `none` for -1. -/
def bitcaskAppend (file : Bytes) (c : Call) : Except Fault (Bytes × Option ℕ) := do
  let keyLen := c.key.length
  let valueLen := c.value.length
  let bodyWithoutCrc := 16+keyLen+valueLen
  let total := 4+bodyWithoutCrc
  if c.allocated then
    let fileEnd := file.length
    let valuePos := fileEnd+20+keyLen
    let buf ← store (fresh total) 4 (packU64 c.time)
    let buf ← store buf 12 (packU32 keyLen.toUInt32)
    let buf ← store buf 16 (packU32 valueLen.toUInt32)
    let buf ← store buf 20 c.key.bytes
    let buf ← store buf (20+keyLen) c.value.bytes
    let body ← load buf 4 bodyWithoutCrc
    let buf ← store buf 0 (packU32 (crc32Of body))
    let bytes ← load buf 0 total
    let r := writeLoop c.results bytes file
    .ok (r.1,if r.2 then some valuePos else none)
  else .ok (file,none)

@[ext] structure Record where
  time : UInt64
  key : Bytes
  value : Bytes
  deriving DecidableEq

namespace Record

def body (r : Record) : Bytes :=
  packU64 r.time ++ (packU32 r.key.length.toUInt32 ++ (packU32 r.value.length.toUInt32 ++
    (r.key ++ r.value)))

def bytes (r : Record) : Bytes := packU32 (crc32Of r.body) ++ r.body

structure Fits (r : Record) : Prop where
  key : r.key.length < 2^32
  value : r.value.length < 2^32

theorem length_body (r : Record) : r.body.length = 16+r.key.length+r.value.length := by
  simp only [body,List.length_append,length_packU64,length_packU32]
  omega

theorem length_bytes (r : Record) : r.bytes.length = 20+r.key.length+r.value.length := by
  simp only [bytes,List.length_append,length_packU32,length_body]
  omega

theorem bytes_ne_nil (r : Record) : r.bytes ≠ [] := by
  refine List.ne_nil_of_length_pos ?_
  rw [length_bytes]
  omega

theorem drop_bytes (r : Record) : r.bytes.drop (20+r.key.length) = r.value := by
  have h : r.bytes = (packU32 (crc32Of r.body) ++ packU64 r.time ++ packU32 r.key.length.toUInt32 ++
      packU32 r.value.length.toUInt32 ++ r.key) ++ r.value := by simp [bytes,body]
  rw [h]
  exact List.drop_left' (by simp; omega)

end Record

def Call.record (c : Call) : Record := ⟨c.time,c.key.bytes,c.value.bytes⟩

/-- The bytes the writes would take before the first one that fails. -/
def accepted : List (Option ℕ) → ℕ
  | some (n+1) :: rs => n+1+accepted rs
  | _ => 0

def Call.written (c : Call) : ℕ := if c.allocated then accepted c.results else 0

/-- The writes add an initial part of the bytes, and succeed when they take all of them. -/
theorem writeLoop_eq (rs : List (Option ℕ)) (rest file : Bytes) :
    writeLoop rs rest file =
      (file ++ rest.take (accepted rs),decide (rest.length ≤ accepted rs)) := by
  induction rs generalizing rest file with
  | nil =>
    cases rest <;> simp [writeLoop,accepted]
  | cons r rs ih =>
    by_cases hr : rest = []
    · simp [writeLoop,hr]
    · have hl := List.length_pos_of_ne_nil hr
      cases r with
      | none => simp [writeLoop,accepted,hr]
      | some n =>
        cases n with
        | zero => simp [writeLoop,accepted,hr]
        | succ n =>
          have hd : (rest.drop (n+1)).length ≤ accepted rs ↔ rest.length ≤ n+1+accepted rs := by
            rw [List.length_drop]
            omega
          have ht : rest.take (n+1+accepted rs) = rest.take (n+1) ++ (rest.drop (n+1)).take (accepted rs) :=
            List.take_add
          simp only [writeLoop,if_neg hr,accepted,ih,List.append_assoc,ht]
          exact congrArg (Prod.mk _) (decide_eq_decide.mpr hd)

theorem bitcaskAppend_allocated {c : Call} (h : c.allocated = true) (file : Bytes) :
    bitcaskAppend file c =
      .ok (file ++ c.record.bytes.take (accepted c.results),
        if c.record.bytes.length ≤ accepted c.results then some (file.length+20+c.key.length) else none) := by
  let k := c.key.length
  let v := c.value.length
  let t := packU64 c.time
  let kl := packU32 k.toUInt32
  let vl := packU32 v.toUInt32
  have hbody : c.record.body = t ++ kl ++ vl ++ c.key.bytes ++ c.value.bytes := by
    simp [Record.body,Call.record,t,kl,vl,k,v,CString.length]
  have hlen : c.record.body.length = 16+k+v := c.record.length_body
  have h₀ : fresh (4+(16+k+v)) = fresh 4 ++ (([] : Bytes).map some ++ fresh (8+(8+k+v))) := by
    rw [List.map_nil,List.nil_append,← fresh_add]
    congr 1
    omega
  have h₁ := store_next 4 [] t (8+(8+k+v)) (8+k+v) (i:=4) rfl rfl
  have h₂ := store_next 4 t kl (8+k+v) (4+k+v) (i:=12) rfl (by simp only [kl,length_packU32]; omega)
  have h₃ := store_next 4 (t ++ kl) vl (4+k+v) (k+v) (i:=16) rfl (by simp only [vl,length_packU32]; omega)
  have h₄ := store_next 4 (t ++ kl ++ vl) c.key.bytes (k+v) v (i:=20) rfl rfl
  have h₅ := store_next 4 (t ++ kl ++ vl ++ c.key.bytes) c.value.bytes v 0 (i:=20+k)
    (by simp only [t,kl,vl,k,CString.length,List.length_append,length_packU32,length_packU64]; omega) rfl
  rw [← hbody] at h₅
  have h₆ := load_append (fresh 0) (length_fresh 4) hlen
  have h₇ := store_header (length_packU32 (crc32Of c.record.body)).symm (c.record.body.map some ++ fresh 0)
  have h₈ : load ((packU32 (crc32Of c.record.body)).map some ++ (c.record.body.map some ++ fresh 0)) 0
      (4+(16+k+v)) = .ok c.record.bytes := by
    have h := load_append (a:=[]) (w:=c.record.bytes) (n:=4+(16+k+v)) (fresh 0) rfl
      (by rw [Record.bytes,List.length_append,hlen,length_packU32])
    simpa [Record.bytes,List.append_assoc] using h
  have hw := writeLoop_eq c.results c.record.bytes file
  simp only [bitcaskAppend,h,if_true]
  rw [h₀]
  refine bind_eq_ok.mpr ⟨_,h₁,bind_eq_ok.mpr ⟨_,h₂,bind_eq_ok.mpr ⟨_,h₃,bind_eq_ok.mpr ⟨_,h₄,
    bind_eq_ok.mpr ⟨_,h₅,bind_eq_ok.mpr ⟨_,h₆,bind_eq_ok.mpr ⟨_,h₇,
    bind_eq_ok.mpr ⟨_,h₈,?_⟩⟩⟩⟩⟩⟩⟩⟩
  simp only [hw,decide_eq_true_eq]

/-- A call adds the part of its record that the writes took, and returns the position of
the value when they took all of it. -/
theorem bitcaskAppend_eq (file : Bytes) (c : Call) :
    bitcaskAppend file c =
      .ok (file ++ c.record.bytes.take c.written,
        if c.record.bytes.length ≤ c.written then some (file.length+20+c.key.length) else none) := by
  by_cases h : c.allocated = true
  · rw [bitcaskAppend_allocated h,Call.written,if_pos h]
  · have hl := List.length_pos_of_ne_nil c.record.bytes_ne_nil
    rw [Call.written,if_neg h,if_neg (by omega),List.take_zero,List.append_nil]
    simp [bitcaskAppend,h]

structure Entry where
  crc : UInt32
  body : Bytes
  record : Record
  deriving DecidableEq

/-- Take one record off the front, by the lengths in its header. -/
def readEntry (s : Bytes) : Option (Entry × Bytes) :=
  if 20 ≤ s.length then
    let keyLen := littleEndian ((s.drop 12).take 4)
    let valueLen := littleEndian ((s.drop 16).take 4)
    let total := 20+keyLen+valueLen
    if total ≤ s.length then
      some (⟨(littleEndian (s.take 4)).toUInt32,(s.take total).drop 4,
        ⟨(littleEndian ((s.drop 4).take 8)).toUInt64,(s.drop 20).take keyLen,
          (s.drop (20+keyLen)).take valueLen⟩⟩,s.drop total)
    else none
  else none

def readLog : Bytes → Option (List Entry) := readAll readEntry

def Record.entry (r : Record) : Entry := ⟨crc32Of r.body,r.body,r⟩

theorem littleEndian_length {n : ℕ} (h : n < 2^32) : littleEndian (packU32 n.toUInt32) = n := by
  rw [littleEndian_packU32]
  exact Nat.mod_eq_of_lt h

theorem drop_field {s x t : Bytes} {m n : ℕ} (h : s.drop m = x ++ t) (hx : x.length = n) :
    s.drop (m+n) = t := by
  rw [← List.drop_drop,h]
  exact List.drop_left' hx

/-- The reader takes exactly the record, whatever follows it. -/
theorem readEntry_bytes {r : Record} (hr : r.Fits) (t : Bytes) :
    readEntry (r.bytes ++ t) = some (r.entry,t) := by
  let crc := packU32 (crc32Of r.body)
  let time := packU64 r.time
  let kl := packU32 r.key.length.toUInt32
  let vl := packU32 r.value.length.toUInt32
  have hs : r.bytes ++ t = crc ++ (time ++ (kl ++ (vl ++ (r.key ++ (r.value ++ t))))) := by
    simp [Record.bytes,Record.body,crc,time,kl,vl]
  have h₄ : (r.bytes ++ t).drop 4 = time ++ (kl ++ (vl ++ (r.key ++ (r.value ++ t)))) :=
    drop_field (m:=0) hs rfl
  have h₁₂ : (r.bytes ++ t).drop 12 = kl ++ (vl ++ (r.key ++ (r.value ++ t))) := drop_field h₄ rfl
  have h₁₆ : (r.bytes ++ t).drop 16 = vl ++ (r.key ++ (r.value ++ t)) := drop_field h₁₂ rfl
  have h₂₀ : (r.bytes ++ t).drop 20 = r.key ++ (r.value ++ t) := drop_field h₁₆ rfl
  have hv : (r.bytes ++ t).drop (20+r.key.length) = r.value ++ t := drop_field h₂₀ rfl
  have hk : littleEndian (((r.bytes ++ t).drop 12).take 4) = r.key.length := by
    rw [h₁₂,List.take_left' (length_packU32 _)]
    exact littleEndian_length hr.key
  have hl : littleEndian (((r.bytes ++ t).drop 16).take 4) = r.value.length := by
    rw [h₁₆,List.take_left' (length_packU32 _)]
    exact littleEndian_length hr.value
  have ht : (r.bytes ++ t).take (20+r.key.length+r.value.length) = r.bytes :=
    List.take_left' r.length_bytes
  have hd : (r.bytes ++ t).drop (20+r.key.length+r.value.length) = t := List.drop_left' r.length_bytes
  have hb : r.bytes.drop 4 = r.body := List.drop_left' (length_packU32 _)
  have hc : ((r.bytes ++ t).take 4) = crc := by
    rw [hs]
    exact List.take_left' rfl
  have htotal : 20+r.key.length+r.value.length ≤ (r.bytes ++ t).length := by
    rw [List.length_append,r.length_bytes]
    omega
  simp only [readEntry,hk,hl,ht,hd,hb,hc,h₄,h₂₀,hv,List.take_left]
  rw [if_pos (by omega),if_pos htotal,List.take_left' (length_packU64 _)]
  simp only [crc,littleEndian_packU32,littleEndian_packU64]
  simp [Record.entry]

theorem reads_entry : Reads readEntry Record.bytes Record.entry Record.Fits where
  nonempty := Record.bytes_ne_nil
  undoes _ hr t := readEntry_bytes hr t

theorem readLog_flatMap {rs : List Record} (hr : ∀ r ∈ rs, r.Fits) :
    readLog (rs.flatMap Record.bytes) = some (rs.map Record.entry) := reads_entry.readAll_flatMap hr

theorem readEntry_fits {s t : Bytes} {e : Entry} (h : readEntry s = some (e,t)) : e.record.Fits := by
  simp only [readEntry] at h
  split_ifs at h
  obtain ⟨rfl,_⟩ := Prod.mk.inj (Option.some.inj h)
  have hlt (n : ℕ) : littleEndian ((s.drop n).take 4) < 2^32 := by
    have hl := littleEndian_lt ((s.drop n).take 4)
    have hp : 256^((s.drop n).take 4).length ≤ 256^4 :=
      Nat.pow_le_pow_right (by decide) (by simp)
    exact lt_of_lt_of_le hl hp
  constructor
  · exact lt_of_le_of_lt (by simp) (hlt 12)
  · exact lt_of_le_of_lt (by simp) (hlt 16)

def Call.added (c : Call) : Bytes := c.record.bytes.take c.written

/-- The position a call returns on a file of `n` bytes. -/
def Call.position (c : Call) (n : ℕ) : Option ℕ :=
  if c.record.bytes.length ≤ c.written then some (n+20+c.key.length) else none

def positions : ℕ → List Call → List (Option ℕ)
  | _, [] => []
  | n, c :: cs => c.position n :: positions (n+c.added.length) cs

/-- Calls never fault, and add to the file one behind the other. -/
theorem run_bitcaskAppend (file : Bytes) (calls : List Call) :
    run bitcaskAppend file calls =
      .ok (file ++ calls.flatMap Call.added,positions file.length calls) := by
  induction calls generalizing file with
  | nil => simp [positions]
  | cons c cs ih =>
    have hs : bitcaskAppend file c = .ok (file ++ c.added,c.position file.length) := bitcaskAppend_eq file c
    have hr := run_cons hs (ih (file ++ c.added))
    simpa [positions,List.append_assoc] using hr

theorem position_of_complete {c : Call} (h : c.record.bytes.length ≤ c.written) (n : ℕ) :
    c.position n = some (n+20+c.key.length) := if_pos h

theorem added_of_complete {c : Call} (h : c.record.bytes.length ≤ c.written) :
    c.added = c.record.bytes := List.take_of_length_le h

theorem complete_of_position {c : Call} {n p : ℕ} (h : c.position n = some p) :
    c.record.bytes.length ≤ c.written ∧ p = n+20+c.key.length := by
  simp only [Call.position] at h
  split_ifs at h with hc
  exact ⟨hc,(Option.some.inj h).symm⟩

theorem complete_of_positions {n : ℕ} {calls : List Call} (h : ∀ o ∈ positions n calls, o ≠ none) :
    ∀ c ∈ calls, c.record.bytes.length ≤ c.written := by
  induction calls generalizing n with
  | nil => simp
  | cons c cs ih =>
    intro d hd
    simp only [positions,List.mem_cons,forall_eq_or_imp] at h
    rcases List.mem_cons.mp hd with rfl | hd
    · obtain ⟨p,hp⟩ := Option.ne_none_iff_exists'.mp h.1
      exact (complete_of_position hp).1
    · exact ih h.2 d hd

theorem flatMap_added {calls : List Call} (h : ∀ c ∈ calls, c.record.bytes.length ≤ c.written) :
    calls.flatMap Call.added = (calls.map Call.record).flatMap Record.bytes := by
  rw [List.flatMap_map]
  exact List.flatMap_congr fun c hc => added_of_complete (h c hc)

/-- A reader that starts at the old end of the file finds the records of successful calls,
each with a matching checksum, and ends at the end of the file. -/
theorem readLog_run (file : Bytes) (calls : List Call) {u : Bytes} {os : List (Option ℕ)}
    (h : run bitcaskAppend file calls = .ok (u,os)) (hs : ∀ o ∈ os, o ≠ none)
    (hf : ∀ c ∈ calls, c.key.length < 2^32 ∧ c.value.length < 2^32) :
    u.take file.length = file ∧
    ∃ entries, readLog (u.drop file.length) = some entries ∧
      entries.map Entry.record = calls.map Call.record ∧ ∀ e ∈ entries, e.crc = crc32Of e.body := by
  rw [run_bitcaskAppend] at h
  obtain ⟨rfl,rfl⟩ := Prod.mk.inj (Except.ok.inj h)
  have hr : ∀ r ∈ calls.map Call.record, r.Fits := by
    intro r hr
    obtain ⟨c,hc,rfl⟩ := List.mem_map.mp hr
    exact ⟨(hf c hc).1,(hf c hc).2⟩
  refine ⟨List.take_left,(calls.map Call.record).map Record.entry,?_,?_,?_⟩
  · rw [List.drop_left,flatMap_added (complete_of_positions hs),readLog_flatMap hr]
  · rw [List.map_map]
    exact List.map_id _
  · intro e he
    obtain ⟨r,_,rfl⟩ := List.mem_map.mp he
    rfl

def sampleCall (key value : String) (results : List (Option ℕ)) : Call :=
  ⟨lit key,lit value,0x0102030405060708,true,results⟩

theorem readLog_run_short :
    ∃ u os, run bitcaskAppend (ascii "old")
        [sampleCall "a" "bc" [some 1,some 3,some 100],sampleCall "" "" [some 19,some 1]] = .ok (u,os) ∧
      u.take 3 = ascii "old" ∧
      ∃ entries, readLog (u.drop 3) = some entries ∧
        entries.map Entry.record = [⟨0x0102030405060708,[97],[98,99]⟩,⟨0x0102030405060708,[],[]⟩] ∧
        ∀ e ∈ entries, e.crc = crc32Of e.body :=
  ⟨_,_,run_bitcaskAppend _ _,readLog_run (ascii "old")
    [sampleCall "a" "bc" [some 1,some 3,some 100],sampleCall "" "" [some 19,some 1]]
    (run_bitcaskAppend _ _) (by decide +kernel) (by decide)⟩

theorem value_at_position {c : Call} {n p : ℕ} (hp : c.position n = some p) {file : Bytes}
    (hn : file.length = n) (w : Bytes) :
    ((file ++ (c.added ++ w)).drop p).take c.value.length = c.value.bytes := by
  obtain ⟨hc,rfl⟩ := complete_of_position hp
  have hv : c.record.bytes.drop (20+c.key.length) = c.value.bytes := c.record.drop_bytes
  have hd : (file ++ (c.added ++ w)).drop (n+20+c.key.length) = c.value.bytes ++ w := by
    rw [add_assoc,← hn,← List.drop_drop,List.drop_left,added_of_complete hc,
      List.drop_append_of_le_length,hv]
    rw [Record.length_bytes]
    exact Nat.le_add_right _ _
  rw [hd]
  exact List.take_left

theorem positions_valid (file : Bytes) (calls : List Call) {i p : ℕ} {c : Call} (hc : calls[i]? = some c)
    (hp : (positions file.length calls)[i]? = some (some p)) :
    ((file ++ calls.flatMap Call.added).drop p).take c.value.length = c.value.bytes := by
  induction calls generalizing file i with
  | nil => simp at hc
  | cons d ds ih =>
    rw [List.flatMap_cons]
    cases i with
    | zero =>
      obtain rfl : d = c := by simpa using hc
      exact value_at_position (by simpa [positions] using hp) rfl _
    | succ i =>
      have h := ih (file ++ d.added) (by simpa using hc) (by simpa [positions] using hp)
      rwa [List.append_assoc] at h

/-- At the end of every run, whatever failed in it, the bytes at each position returned in
the run are those of the value. -/
theorem run_positions_valid (file : Bytes) (calls : List Call) :
    ∃ u os, run bitcaskAppend file calls = .ok (u,os) ∧
      ∀ (i : ℕ) (c : Call) (p : ℕ), calls[i]? = some c → os[i]? = some (some p) →
        (u.drop p).take c.value.length = c.value.bytes :=
  ⟨_,_,run_bitcaskAppend file calls,fun _ _ _ hc hp => positions_valid file calls hc hp⟩

def acknowledged : List Call → List (Option ℕ) → List Record
  | c :: cs, some _ :: os => c.record :: acknowledged cs os
  | _ :: cs, none :: os => acknowledged cs os
  | _, _ => []

/-- After the calls the file holds the initial records and the acknowledged ones, and
nothing else, and a sequential reader finds just these. -/
def IntactAfter (initial : List Record) (calls : List Call) : Prop :=
  ∃ u os, run bitcaskAppend (initial.flatMap Record.bytes) calls = .ok (u,os) ∧
    u = (initial ++ acknowledged calls os).flatMap Record.bytes ∧
    (readLog u).map (List.map Entry.record) = some (initial ++ acknowledged calls os)

/-- Either nothing of the record is written or all of it, and its lengths fit their fields. -/
def Call.Clean (c : Call) : Prop :=
  c.written = 0 ∨ (c.record.bytes.length ≤ c.written ∧ c.record.Fits)

theorem intactAfter_iff {initial : List Record} {calls : List Call} :
    IntactAfter initial calls ↔
      initial.flatMap Record.bytes ++ calls.flatMap Call.added =
        (initial ++ acknowledged calls (positions (initial.flatMap Record.bytes).length calls)).flatMap
          Record.bytes ∧
      (readLog (initial.flatMap Record.bytes ++ calls.flatMap Call.added)).map (List.map Entry.record) =
        some (initial ++ acknowledged calls (positions (initial.flatMap Record.bytes).length calls)) := by
  constructor
  · rintro ⟨u,os,hr,h⟩
    rw [run_bitcaskAppend] at hr
    obtain ⟨rfl,rfl⟩ := Prod.mk.inj (Except.ok.inj hr)
    exact h
  · exact fun h => ⟨_,_,run_bitcaskAppend _ _,h⟩

theorem intactAfter_nil {initial : List Record} (hi : ∀ r ∈ initial, r.Fits) : IntactAfter initial [] := by
  rw [intactAfter_iff]
  have hm : (initial.map Record.entry).map Entry.record = initial := by
    rw [List.map_map]
    exact List.map_id _
  simp [acknowledged,readLog_flatMap hi,hm]

theorem intactAfter_silent {c : Call} (hc : c.written = 0) (initial : List Record) (calls : List Call) :
    IntactAfter initial (c :: calls) ↔ IntactAfter initial calls := by
  have ha : c.added = [] := by simp [Call.added,hc]
  have hp (n : ℕ) : c.position n = none := by
    have hl := List.length_pos_of_ne_nil c.record.bytes_ne_nil
    exact if_neg (by omega)
  rw [intactAfter_iff,intactAfter_iff]
  simp [positions,ha,hp,acknowledged]

theorem intactAfter_complete {c : Call} (hc : c.record.bytes.length ≤ c.written) (initial : List Record)
    (calls : List Call) :
    IntactAfter initial (c :: calls) ↔ IntactAfter (initial ++ [c.record]) calls := by
  rw [intactAfter_iff,intactAfter_iff]
  simp [positions,added_of_complete hc,position_of_complete hc,acknowledged]

/-- One call keeps the log intact just when it is clean. -/
theorem clean_of_intactAfter {c : Call} {initial : List Record} (h : IntactAfter initial [c]) : c.Clean := by
  by_cases hc : c.record.bytes.length ≤ c.written
  · rw [intactAfter_complete hc,intactAfter_iff] at h
    obtain ⟨es,he,hm⟩ := Option.map_eq_some_iff.mp h.2
    have hfit := mem_readUpTo (fun _ _ _ => readEntry_fits) he
    have hr : c.record ∈ es.map Entry.record := by simp [hm,acknowledged]
    obtain ⟨e,hes,her⟩ := List.mem_map.mp hr
    exact Or.inr ⟨hc,her ▸ hfit e hes⟩
  · left
    have hp (n : ℕ) : c.position n = none := if_neg hc
    have hl := congrArg List.length (intactAfter_iff.mp h).1
    simp only [positions,hp,acknowledged,List.append_nil,List.flatMap_cons,List.flatMap_nil,
      List.length_append,Call.added,List.length_take] at hl
    omega

/-- The log is intact after every call of the run if and only if each call either writes
nothing or writes its whole record. -/
theorem run_intact_iff (initial : List Record) (hi : ∀ r ∈ initial, r.Fits) (calls : List Call) :
    (∀ k, IntactAfter initial (calls.take k)) ↔ ∀ c ∈ calls, c.Clean := by
  induction calls generalizing initial with
  | nil => simpa using intactAfter_nil hi
  | cons c cs ih =>
    have hsplit : (∀ k, IntactAfter initial ((c :: cs).take k)) ↔
        ∀ k, IntactAfter initial (c :: cs.take k) := by
      constructor
      · exact fun h k => h (k+1)
      · intro h k
        cases k with
        | zero => exact intactAfter_nil hi
        | succ k => exact h k
    rw [hsplit,List.forall_mem_cons]
    constructor
    · intro h
      have hc : c.Clean := clean_of_intactAfter (by simpa using h 0)
      refine ⟨hc,?_⟩
      rcases hc with hw | ⟨hw,hf⟩
      · simp only [intactAfter_silent hw] at h
        exact (ih initial hi).mp h
      · simp only [intactAfter_complete hw] at h
        exact (ih _ (by simpa [or_imp,forall_and] using ⟨hi,hf⟩)).mp h
    · rintro ⟨hc,hcs⟩
      rcases hc with hw | ⟨hw,hf⟩
      · simp only [intactAfter_silent hw]
        exact (ih initial hi).mpr hcs
      · simp only [intactAfter_complete hw]
        exact (ih _ (by simpa [or_imp,forall_and] using ⟨hi,hf⟩)).mpr hcs

theorem run_intact_pair :
    IntactAfter [⟨7,[1],[2,3]⟩] [sampleCall "a" "b" [none],sampleCall "c" "d" [some 5,some 100]] := by
  refine (run_intact_iff [⟨7,[1],[2,3]⟩] ?_ [sampleCall "a" "b" [none],
    sampleCall "c" "d" [some 5,some 100]]).mpr ?_ 2
  · intro r hr
    obtain rfl := List.mem_singleton.mp hr
    exact ⟨by decide,by decide⟩
  · simp only [List.forall_mem_cons]
    exact ⟨Or.inl (by decide),Or.inr ⟨by decide +kernel,⟨by decide,by decide⟩⟩,by simp⟩

/-- Three bytes of a record whose call failed, and the record acknowledged after it cannot
be read any more. -/
theorem torn_record_hides_next :
    ∃ u, run bitcaskAppend [] [sampleCall "a" "b" [some 3,none],sampleCall "c" "d" [some 100]] =
        .ok (u,[none,some 24]) ∧ readLog u = none ∧
      ¬ IntactAfter [] [sampleCall "a" "b" [some 3,none],sampleCall "c" "d" [some 100]] := by
  refine ⟨_,run_bitcaskAppend _ _,by decide +kernel,?_⟩
  rw [intactAfter_iff]
  decide +kernel

end BitcaskLog
end CodingChallenges
