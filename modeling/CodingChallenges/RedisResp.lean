import CodingChallenges.CMemory

/-! The RESP parser of the Redis clone (`resp.c`, `resp.h`).
A request is an object `m` of bytes with the parse pointer at its front, and a
pointer further on is an index into it. Allocations of a size that `malloc` can
take succeed. -/
namespace CodingChallenges
namespace RedisResp

open CText CMemory

inductive RespType
  | simpleString | errors | integers | bulkStrings | arrays
  deriving DecidableEq

/-- A value with the member of the union its type selects. The items of an array
are simple strings, the only kind `parse_array` puts there, so a slot holds the
string of its item; it is `none` until the loop stores one. -/
inductive RespValue
  | simpleString (string : CString)
  | errors (string : CString)
  | integers (i_val : ℤ)
  | bulkStrings (string : CString)
  | arrays (count : ℤ) (items : List (Option CString))
  deriving DecidableEq

namespace RespValue

def count : RespValue → Except Fault ℤ
  | arrays count _ => .ok count
  | _ => .error .wrongMember

def item (v : RespValue) (i : ℕ) : Except Fault CString :=
  match v with
  | arrays count items =>
    if (i : ℤ) < count then
      match items[i]? with
      | some (some s) => .ok s
      | _ => .error .uninitialised
    else .error .badIndex
  | _ => .error .wrongMember

end RespValue

/-- `perror("invalid type")` and exit on any other first byte. -/
def getIdentifyType (m : Bytes) : Except Fault RespType := do
  match ← readByte m 0 with
  | 43 => .ok .simpleString
  | 45 => .ok .errors
  | 58 => .ok .integers
  | 36 => .ok .bulkStrings
  | 42 => .ok .arrays
  | _ => .error (.exit 1)

/-- The string of a new value; `strdup(NULL)` has no result. -/
def makeString (str : Option Bytes) : Except Fault CString :=
  match str with
  | none => .error .nullPointer
  | some word => stringAt word 0

def simpleText : Bytes → Bytes
  | [] => []
  | b :: t => if b = 13 ∧ t.head? = some 10 then [] else b :: simpleText t

def simpleString (m : Bytes) : Except Fault CString := do
  let buf ← stringAt m 0
  makeString (some (simpleText (buf.bytes.drop 1) ++ [0]))

def parseSimpleString (m : Bytes) : Except Fault RespValue := do
  .ok (.simpleString (← simpleString m))

def parseError (m : Bytes) : Except Fault RespValue := do
  .ok (.errors (← simpleString m))

def parseInteger (m : Bytes) : Except Fault RespValue := do
  .ok (.integers (strtol (← simpleString m)).value)

/-- A copy of `sz` bytes and a NUL. The sum is an `int`, and `malloc` fails where
it is negative, since it is then converted to `size_t`. -/
def getWord (m : Bytes) (buf : ℕ) (sz : ℤ) : Except Fault (Option Bytes) := do
  if (← addInt sz 1) < 0 then .ok none
  else do
    let word ← memcpy m buf sz
    .ok (some (word ++ [0]))

def respAllocArr (sz : ℤ) : ℤ × List (Option CString) := (sz,List.replicate sz.toNat none)

/-- One round of the loop of `parse_array`, from the `$` at `buf`: the string it
stores and the pointer it leaves. -/
def parseItem (m : Bytes) (buf : ℕ) : Except Fault (CString × ℕ) := do
  let c := strtol (← stringAt m (buf+1))
  let str_sz := toInt c.value
  let endptr := buf+1+c.used
  let word ← getWord m (endptr+2) str_sz
  let step ← addInt (← addInt 2 str_sz) 2
  let s ← makeString word
  .ok (s,endptr+step.toNat)

/-- The loop over the slots not yet assigned. Where no `$` follows it breaks, and
the slots stay as `malloc` left them. -/
def parseItems (m : Bytes) : List (Option CString) → ℕ → Except Fault (List (Option CString))
  | [], _ => .ok []
  | slot :: slots, buf => do
    if (← readByte m buf) ≠ 36 then .ok (slot :: slots)
    else do
      let r ← parseItem m buf
      let rest ← parseItems m slots r.2
      .ok (some r.1 :: rest)

/-- NULL without a `*` in front. -/
def parseArray (m : Bytes) : Except Fault (Option RespValue) := do
  if (← readByte m 0) ≠ 42 then .ok none
  else do
    let c := strtol (← stringAt m 1)
    let arr := respAllocArr (toInt c.value)
    let items ← parseItems m arr.2 (1+c.used+2)
    .ok (some (.arrays arr.1 items))

/-- `perror("unknown type")` and exit on a bulk string. -/
def parse (m : Bytes) : Except Fault (Option RespValue) := do
  match ← getIdentifyType m with
  | .simpleString => .ok (some (← parseSimpleString m))
  | .arrays => parseArray m
  | .errors => .ok (some (← parseError m))
  | .integers => .ok (some (← parseInteger m))
  | .bulkStrings => .error (.exit 1)

/-- Follow the pointers in the first `n` slots. -/
def freeItems (v : RespValue) : ℕ → Except Fault Unit
  | 0 => .ok ()
  | n+1 => do
    freeItems v n
    let _ ← v.item n
    .ok ()

def freeResp (resp : Option RespValue) : Except Fault Unit :=
  match resp with
  | some (.arrays count items) => freeItems (.arrays count items) count.toNat
  | _ => .ok ()

theorem parseItems_length {m : Bytes} {slots items : List (Option CString)} {buf : ℕ}
    (h : parseItems m slots buf = .ok items) : items.length = slots.length := by
  induction slots generalizing buf items with
  | nil =>
    cases h
    rfl
  | cons slot slots ih =>
    obtain ⟨b,_,h⟩ := bind_eq_ok.mp h
    split_ifs at h with hb
    · cases h
      rfl
    · obtain ⟨r,_,h⟩ := bind_eq_ok.mp h
      obtain ⟨rest,hr,h⟩ := bind_eq_ok.mp h
      cases h
      simp [ih hr]

theorem parse_arrays_length {m : Bytes} {count : ℤ} {items : List (Option CString)}
    (h : parse m = .ok (some (.arrays count items))) : items.length = count.toNat := by
  obtain ⟨type,_,h⟩ := bind_eq_ok.mp h
  cases type with
  | arrays =>
    obtain ⟨b,_,h⟩ := bind_eq_ok.mp h
    split_ifs at h
    · cases h
    · obtain ⟨text,_,h⟩ := bind_eq_ok.mp h
      obtain ⟨items',hi,h⟩ := bind_eq_ok.mp h
      cases h
      rw [parseItems_length hi]
      exact List.length_replicate
  | bulkStrings => contradiction
  | _ =>
    obtain ⟨v,hv,h⟩ := bind_eq_ok.mp h
    obtain ⟨s,_,hs⟩ := bind_eq_ok.mp hv
    cases hs
    cases h

def Initialised (v : RespValue) : Prop :=
  ∀ count items, v = .arrays count items → ∃ args : List CString,
    items = args.map some ∧ args.length = count.toNat

theorem initialised_args (args : List CString) :
    Initialised (.arrays args.length (args.map some)) := by
  intro count items h
  cases h
  exact ⟨args,rfl,rfl⟩

theorem exists_map_some {items : List (Option CString)} (h : none ∉ items) :
    ∃ args : List CString, items = args.map some := by
  induction items with
  | nil => exact ⟨[],rfl⟩
  | cons slot items ih =>
    simp only [List.mem_cons,not_or] at h
    obtain ⟨args,rfl⟩ := ih h.2
    cases slot with
    | none => exact absurd rfl h.1
    | some s => exact ⟨s :: args,rfl⟩

theorem item_map_some {count : ℤ} {args : List CString} (hc : args.length = count.toNat) (i : ℕ) :
    RespValue.item (.arrays count (args.map some)) i =
      match args[i]? with
      | some s => .ok s
      | none => .error .badIndex := by
  simp only [RespValue.item,List.getElem?_map]
  by_cases hi : (i : ℤ) < count
  · have hl : i < args.length := by omega
    simp [hi,hl]
  · have hl : args[i]? = none := List.getElem?_eq_none (by omega)
    simp [hi,hl]

theorem freeItems_eq_ok {v : RespValue} {n : ℕ} :
    freeItems v n = .ok () ↔ ∀ i < n, ∃ s, v.item i = .ok s := by
  induction n with
  | zero => simp [freeItems]
  | succ n ih =>
    have hs : freeItems v (n+1) = .ok () ↔ freeItems v n = .ok () ∧ ∃ s, v.item n = .ok s := by
      simp only [freeItems,bind_eq_ok]
      exact ⟨fun ⟨_,hf,s,hs,_⟩ => ⟨hf,s,hs⟩,fun ⟨hf,s,hs⟩ => ⟨(),hf,s,hs,trivial⟩⟩
    rw [hs,ih]
    constructor
    · intro h i hi
      by_cases hn : i = n
      · exact hn ▸ h.2
      · exact h.1 i (by omega)
    · exact fun h => ⟨fun i hi => h i (by omega),h n (by omega)⟩

theorem freeResp_initialised {v : RespValue} (h : Initialised v) : freeResp (some v) = .ok () := by
  cases v with
  | arrays count items =>
    obtain ⟨args,rfl,hc⟩ := h count items rfl
    refine freeItems_eq_ok.mpr fun i hi => ?_
    have hl : i < args.length := by omega
    exact ⟨args[i],by simp [item_map_some hc,hl]⟩
  | _ => rfl

theorem initialised_of_freeResp {count : ℤ} {items : List (Option CString)}
    (hl : items.length = count.toNat) (h : freeResp (some (.arrays count items)) = .ok ()) :
    Initialised (.arrays count items) := by
  have hi := freeItems_eq_ok.mp h
  have hs : none ∉ items := by
    intro hslot
    obtain ⟨i,hi',hx⟩ := List.mem_iff_getElem.mp hslot
    obtain ⟨s,hs⟩ := hi i (by omega)
    have hc : (i : ℤ) < count := by omega
    simp [RespValue.item,hi',hx,hc] at hs
  obtain ⟨args,rfl⟩ := exists_map_some hs
  rintro _ _ ⟨⟩
  exact ⟨args,rfl,by simpa using hl⟩

end RedisResp
end CodingChallenges
