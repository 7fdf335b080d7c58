import CodingChallenges.NumberText
import CodingChallenges.RedisResp

/-! What `parse` makes of a request: the standard encoding of an argument list is
read back as that list, and an arbitrary text is read without a fault exactly when
it holds the items it declares. -/
namespace CodingChallenges
namespace RedisParser

open CText CMemory RedisResp NumberText

def crlf : Bytes := [13,10]

/-- "$<len>\r\n<bytes>\r\n". -/
def encodeBulk (a : Bytes) : Bytes := 36 :: (decimalNat a.length ++ crlf ++ a ++ crlf)

/-- "*<n>\r\n" and the arguments as bulk strings. -/
def encode (args : List Bytes) : Bytes :=
  42 :: (decimalNat args.length ++ crlf ++ args.flatMap encodeBulk)

/-- An argument as the parser hands it on: cut at its first NUL. -/
def cut (a : Bytes) : CString := CString.ofBuffer (a ++ [0])

theorem cut_bytes (s : CString) : cut s.bytes = s := s.ofBuffer_object

theorem strtol_header {m : Bytes} {i n : ℕ} {rest : Bytes} (hm : m.drop i = decimalNat n ++ crlf ++ rest)
    (h0 : 0 ∈ rest) (hn : (n : ℤ) ≤ LONG_MAX) :
    ∃ text, stringAt m i = .ok text ∧ strtol text = ⟨n,(decimalNat n).length,false⟩ := by
  have hs : stringAt m i = .ok (CString.ofBuffer (m.drop i)) := stringAt_of_mem (by simp [hm,h0])
  have hd : ∀ b ∈ decimalNat n, decide (b ≠ 0) = true := by
    intro b hb
    have hz : b ≠ 0 := fun h => zero_notMem_decimalNat n (h ▸ hb)
    simpa using hz
  refine ⟨_,hs,strtol_decimalNat _ n ((crlf ++ rest).takeWhile (· ≠ 0)) ?_ hn ?_⟩
  · rw [CString.bytes_ofBuffer,hm,List.append_assoc,List.takeWhile_append_of_pos hd]
  · intro b hb
    rw [crlf,List.cons_append,List.takeWhile_cons_of_pos (by decide)] at hb
    obtain rfl : 13 = b := Option.some.inj hb
    decide

theorem getWord_of_le {m : Bytes} {buf n : ℕ} (h : buf+n ≤ m.length) (hn : (n : ℤ) ≤ INT_MAX-4) :
    getWord m buf n = .ok (some ((m.drop buf).take n ++ [0])) := by
  have ha : addInt n 1 = .ok ((n : ℤ)+1) := by
    simp only [INT_MAX] at hn
    exact addInt_of_range (by simp only [INT_MIN]; omega) (by simp only [INT_MAX]; omega)
  refine bind_eq_ok.mpr ⟨_,ha,?_⟩
  rw [if_neg (by omega)]
  exact bind_eq_ok.mpr ⟨_,memcpy_of_le h,rfl⟩

theorem addInt_step {n : ℕ} (hn : (n : ℤ) ≤ INT_MAX-4) :
    addInt 2 n = .ok (2+(n : ℤ)) ∧ addInt (2+(n : ℤ)) 2 = .ok (2+(n : ℤ)+2) := by
  simp only [INT_MAX] at hn
  constructor <;> refine addInt_of_range ?_ ?_ <;> simp only [INT_MIN,INT_MAX] <;> omega

theorem makeString_word (w : Bytes) : makeString (some (w ++ [0])) = .ok (cut w) :=
  stringAt_of_mem (by simp)

theorem parseItem_encodeBulk {m a rest : Bytes} {i : ℕ} (hm : m.drop i = encodeBulk a ++ rest)
    (h0 : 0 ∈ rest) (ha : (a.length : ℤ) ≤ INT_MAX-4) :
    parseItem m i = .ok (cut a,i+(encodeBulk a).length) := by
  have hn : (a.length : ℤ) ≤ LONG_MAX := ha.trans (by decide)
  have h₁ : m.drop (i+1) = decimalNat a.length ++ crlf ++ (a ++ (crlf ++ rest)) := by
    rw [← List.drop_drop,hm]
    simp [encodeBulk,List.append_assoc]
  have h₂ : m.drop (i+1+(decimalNat a.length).length+2) = a ++ (crlf ++ rest) := by
    rw [add_assoc,← List.drop_drop,h₁]
    have hc : (decimalNat a.length ++ crlf).length = (decimalNat a.length).length+2 := by simp [crlf]
    rw [← hc,List.drop_left]
  obtain ⟨text,hs,hc⟩ := strtol_header h₁ (by simp [h0]) hn
  have hi : toInt (a.length : ℤ) = a.length :=
    toInt_of_range (by simp only [INT_MIN]; omega) (ha.trans (by decide))
  have hl : i+1+(decimalNat a.length).length+2+a.length ≤ m.length := by
    have hd := congrArg List.length h₂
    simp only [List.length_drop,List.length_append] at hd
    have hr := List.length_pos_of_mem h0
    omega
  have hw := getWord_of_le hl ha
  rw [h₂,List.take_left] at hw
  have hadd := addInt_step ha
  have he : i+1+(decimalNat a.length).length+(2+(a.length : ℤ)+2).toNat = i+(encodeBulk a).length := by
    simp only [encodeBulk,crlf,List.length_cons,List.length_append,List.length_nil]
    omega
  refine bind_eq_ok.mpr ⟨text,hs,?_⟩
  simp only [hc,hi]
  refine bind_eq_ok.mpr ⟨_,hw,bind_eq_ok.mpr ⟨_,hadd.1,bind_eq_ok.mpr ⟨_,hadd.2,?_⟩⟩⟩
  exact bind_eq_ok.mpr ⟨_,makeString_word a,by rw [he]⟩

theorem drop_encodeBulk {m a rest : Bytes} {i : ℕ} (hm : m.drop i = encodeBulk a ++ rest) :
    m.drop (i+(encodeBulk a).length) = rest := by
  rw [← List.drop_drop,hm,List.drop_left]

theorem parseItems_encodeBulk {m a rest : Bytes} {i : ℕ} (hm : m.drop i = encodeBulk a ++ rest)
    (h0 : 0 ∈ rest) (ha : (a.length : ℤ) ≤ INT_MAX-4) (slot : Option CString)
    (slots : List (Option CString)) :
    parseItems m (slot :: slots) i =
      (parseItems m slots (i+(encodeBulk a).length)).map (some (cut a) :: ·) := by
  have hb : readByte m i = .ok 36 := readByte_of_drop hm
  have hi := parseItem_encodeBulk hm h0 ha
  simp only [parseItems,hb,hi,bind,Except.bind]
  rw [if_neg (by simp)]
  cases parseItems m slots (i+(encodeBulk a).length) <;> rfl

theorem parseItems_encode {m : Bytes} (args : List Bytes) {slots : List (Option CString)} {i : ℕ}
    {rest : Bytes} (hslots : slots.length = args.length) (hm : m.drop i = args.flatMap encodeBulk ++ rest)
    (h0 : 0 ∈ rest) (ha : ∀ a ∈ args, (a.length : ℤ) ≤ INT_MAX-4) :
    parseItems m slots i = .ok (args.map fun a => some (cut a)) := by
  induction args generalizing slots i with
  | nil =>
    obtain rfl := List.length_eq_zero_iff.mp hslots
    rfl
  | cons a args ih =>
    cases slots with
    | nil => simp at hslots
    | cons slot slots =>
      have hm' : m.drop i = encodeBulk a ++ (args.flatMap encodeBulk ++ rest) := by
        rw [hm,List.flatMap_cons,List.append_assoc]
      have ht := ih (by simpa using hslots) (drop_encodeBulk hm') fun b hb => ha b (by simp [hb])
      rw [parseItems_encodeBulk hm' (by simp [h0]) (ha a (by simp)),ht]
      rfl

theorem parse_header (args : List Bytes) (hlong : (args.length : ℤ) ≤ LONG_MAX) {rest : Bytes}
    (h0 : 0 ∈ rest) :
    (encode args ++ rest).drop (1+(decimalNat args.length).length+2) = args.flatMap encodeBulk ++ rest ∧
    parse (encode args ++ rest) =
      (parseItems (encode args ++ rest) (List.replicate (toInt args.length).toNat none)
        (1+(decimalNat args.length).length+2)).map fun items =>
          some (.arrays (toInt args.length) items) := by
  have hb : readByte (encode args ++ rest) 0 = .ok 42 := readByte_of_drop rfl
  have hd : (encode args ++ rest).drop 1 =
      decimalNat args.length ++ crlf ++ (args.flatMap encodeBulk ++ rest) := by
    simp [encode,List.append_assoc]
  obtain ⟨text,hs,hc⟩ := strtol_header hd (by simp [h0]) hlong
  constructor
  · have hl : (decimalNat args.length ++ crlf).length = (decimalNat args.length).length+2 := by
      simp [crlf]
    rw [add_assoc,← List.drop_drop,hd,← hl,List.drop_left]
  · simp only [parse,getIdentifyType,parseArray,respAllocArr,hb,hs,hc,bind,Except.bind]
    rw [if_neg (by simp)]
    cases parseItems _ _ _ <;> rfl

theorem parse_encode_prefix (args more : List Bytes) (hlong : ((args ++ more).length : ℤ) ≤ LONG_MAX)
    (hcount : toInt (args ++ more).length = args.length) (hlen : ∀ a ∈ args, (a.length : ℤ) ≤ INT_MAX-4)
    {rest : Bytes} (h0 : 0 ∈ rest) :
    parse (encode (args ++ more) ++ rest) =
      .ok (some (.arrays args.length ((args.map cut).map some))) := by
  obtain ⟨hd,hp⟩ := parse_header (args ++ more) hlong h0
  rw [List.flatMap_append,List.append_assoc] at hd
  rw [hp,hcount,Int.toNat_natCast,parseItems_encode args (by simp) hd (by simp [h0]) hlen]
  simp only [Except.map,List.map_map,Function.comp_def]

/-- The encoding of any arguments, and whatever follows it in the object. -/
theorem parse_encode_cut (args : List Bytes) (hcount : (args.length : ℤ) ≤ INT_MAX)
    (hlen : ∀ a ∈ args, (a.length : ℤ) ≤ INT_MAX-4) {rest : Bytes} (h0 : 0 ∈ rest) :
    parse (encode args ++ rest) = .ok (some (.arrays args.length ((args.map cut).map some))) := by
  have hi : toInt (args.length : ℤ) = args.length :=
    toInt_of_range (by simp only [INT_MIN]; omega) hcount
  have h := parse_encode_prefix args [] (by simpa using hcount.trans (by decide)) (by simpa using hi) hlen h0
  simpa using h

/-- A length of 2^31 is negative once it is held in an `int`, and `get_word` gets no memory. -/
theorem parseItem_tooLong {m a rest : Bytes} {i : ℕ} (hm : m.drop i = encodeBulk a ++ rest)
    (h0 : 0 ∈ rest) (ha : a.length = 2^31) : parseItem m i = .error .nullPointer := by
  have h₁ : m.drop (i+1) = decimalNat a.length ++ crlf ++ (a ++ (crlf ++ rest)) := by
    rw [← List.drop_drop,hm]
    simp [encodeBulk,List.append_assoc]
  obtain ⟨text,hs,hc⟩ := strtol_header h₁ (by simp [h0]) (by rw [ha]; decide)
  have hi : toInt (a.length : ℤ) = -2^31 := by
    rw [ha]
    decide
  have hw : getWord m (i+1+(decimalNat a.length).length+2) (-2^31) = .ok none := rfl
  have hadd : addInt 2 (-2^31) = .ok (2+(-2^31)) ∧ addInt (2+(-2^31)) 2 = .ok (2+(-2^31)+2) := by decide
  simp only [parseItem,hs,hc,hi,hw,hadd.1,hadd.2,makeString,bind,Except.bind]

theorem parseItems_tooLong {m v rest : Bytes} (args : List Bytes) {slots : List (Option CString)} {i : ℕ}
    (hslots : args.length < slots.length) (hm : m.drop i = args.flatMap encodeBulk ++ (encodeBulk v ++ rest))
    (h0 : 0 ∈ rest) (ha : ∀ a ∈ args, (a.length : ℤ) ≤ INT_MAX-4) (hv : v.length = 2^31) :
    parseItems m slots i = .error .nullPointer := by
  induction args generalizing slots i with
  | nil =>
    obtain ⟨slot,slots,rfl⟩ := List.exists_cons_of_length_pos hslots
    have hb := readByte_of_drop hm
    have hlong := parseItem_tooLong hm h0 hv
    simp only [parseItems,hb,hlong,bind,Except.bind]
    exact if_neg (by simp)
  | cons a args ih =>
    obtain ⟨slot,slots,rfl⟩ := List.exists_cons_of_length_pos (Nat.zero_lt_of_lt hslots)
    have hm' : m.drop i = encodeBulk a ++ (args.flatMap encodeBulk ++ (encodeBulk v ++ rest)) := by
      rw [hm,List.flatMap_cons,List.append_assoc]
    have ht := ih (by simpa using hslots) (drop_encodeBulk hm') fun b hb => ha b (by simp [hb])
    rw [parseItems_encodeBulk hm' (by simp [h0]) (ha a (by simp)),ht]
    rfl

/-- A request is read back as the arguments it encodes, in order. -/
theorem parse_encode (args : List CString) (hcount : (args.length : ℤ) ≤ INT_MAX)
    (hlen : ∀ a ∈ args, (a.length : ℤ) ≤ INT_MAX-4) (tail : Bytes) :
    parse (encode (args.map CString.bytes) ++ (tail ++ [0])) =
      .ok (some (.arrays args.length (args.map some))) := by
  have hl : ∀ a ∈ args.map CString.bytes, (a.length : ℤ) ≤ INT_MAX-4 := by
    intro a ha
    obtain ⟨s,hs,rfl⟩ := List.mem_map.mp ha
    exact hlen s hs
  have h := parse_encode_cut (args.map CString.bytes) (by simpa using hcount) hl
    (by simp : 0 ∈ tail ++ [0])
  have hc : (args.map CString.bytes).map cut = args := by
    simp [Function.comp_def,cut_bytes]
  rwa [hc,List.length_map] at h

theorem parse_encode_hostile :
    parse (encode [ascii "ECHO",[],ascii "$3\r\n*1\r\n"] ++ (ascii "*9\r\n" ++ [0])) =
      .ok (some (.arrays 3 [some (lit "ECHO"),some (lit ""),some (lit "$3\r\n*1\r\n")])) :=
  parse_encode [lit "ECHO",lit "",lit "$3\r\n*1\r\n"] (by decide) (by decide) (ascii "*9\r\n")

/-- The text holds `n` items: a `$`, a length that fits an `int` with room for the
pointer step, and that many bytes two positions behind the number, the terminator
counted in. The next item starts two positions behind them; what stands in the gaps
is not looked at. -/
inductive Items : ℕ → CString → List CString → Prop
  | done (text : CString) : Items 0 text []
  | item {n len : ℕ} {text u : CString} {xs : List CString} (dollar : text.bytes = 36 :: u.bytes)
      (size : toInt (strtol u).value = len) (small : (len : ℤ) ≤ INT_MAX-4)
      (inside : len = 0 ∨ (strtol u).used+2+len ≤ u.length+1)
      (rest : Items n (u.drop ((strtol u).used+2+len+2)) xs) :
      Items (n+1) text ((u.drop ((strtol u).used+2)).take len :: xs)

/-- What `parse_array` is asked for on the request `m`: it returns, and every slot of
the array has been assigned. -/
def ParseSafe (m : Bytes) : Prop :=
  ∃ count items, parseArray m = .ok (some (.arrays count items)) ∧ Initialised (.arrays count items)

theorem getWord_object {s : CString} {buf : ℕ} {sz : ℤ} {word : Option Bytes} {out : CString} :
    getWord s.object buf sz = .ok word ∧ makeString word = .ok out ↔
      ∃ len : ℕ, sz = len ∧ (len : ℤ)+1 ≤ INT_MAX ∧ (len = 0 ∨ buf+len ≤ s.length+1) ∧
        word = some ((s.object.drop buf).take len ++ [0]) ∧ out = (s.drop buf).take len := by
  constructor
  · rintro ⟨hw,hm⟩
    obtain ⟨sum,hs,hw⟩ := bind_eq_ok.mp hw
    obtain ⟨hr,rfl⟩ := addInt_eq_ok.mp hs
    split_ifs at hw with hneg
    · cases hw
      contradiction
    · obtain ⟨w,hc,hw⟩ := bind_eq_ok.mp hw
      cases hw
      obtain ⟨h0,hfit,rfl⟩ := memcpy_eq_ok.mp hc
      rw [CString.object_length] at hfit
      rw [makeString_word,cut,CString.ofBuffer_take_drop_object] at hm
      refine ⟨sz.toNat,by omega,by omega,by omega,rfl,(Except.ok.inj hm).symm⟩
  · rintro ⟨len,rfl,hmax,hfit,rfl,rfl⟩
    have ha : addInt len 1 = .ok ((len : ℤ)+1) :=
      addInt_of_range (by simp only [INT_MIN]; omega) hmax
    have hc : memcpy s.object buf len = .ok ((s.object.drop buf).take len) :=
      memcpy_eq_ok.mpr ⟨by omega,by simpa using hfit.imp id id,by simp⟩
    constructor
    · refine bind_eq_ok.mpr ⟨_,ha,?_⟩
      rw [if_neg (by omega)]
      exact bind_eq_ok.mpr ⟨_,hc,rfl⟩
    · rw [makeString_word,cut,CString.ofBuffer_take_drop_object]

theorem parseItem_object {s u : CString} {i : ℕ} {r : CString × ℕ}
    (hu : (s.drop i).bytes = 36 :: u.bytes) :
    parseItem s.object i = .ok r ↔
      ∃ len : ℕ, toInt (strtol u).value = len ∧ (len : ℤ) ≤ INT_MAX-4 ∧
        (len = 0 ∨ (strtol u).used+2+len ≤ u.length+1) ∧
        r = ((u.drop ((strtol u).used+2)).take len,i+1+((strtol u).used+2+len+2)) := by
  have hl : u.length+1 = s.length-i := by
    have h := congrArg List.length hu
    simpa [CString.length,eq_comm] using h
  have hi : i+1 ≤ s.length := by omega
  have hd := CString.drop_succ hu
  have hs : stringAt s.object (i+1) = .ok u := by rw [stringAt_object hi,hd]
  have hword : s.drop (i+1+(strtol u).used+2) = u.drop ((strtol u).used+2) := by
    rw [← hd,CString.drop_drop,add_assoc (i+1)]
  constructor
  · intro h
    obtain ⟨_,ht,h⟩ := bind_eq_ok.mp h
    obtain rfl := Except.ok.inj (hs.symm.trans ht)
    obtain ⟨word,hw,h⟩ := bind_eq_ok.mp h
    obtain ⟨s₁,h₁,h⟩ := bind_eq_ok.mp h
    obtain ⟨s₂,h₂,h⟩ := bind_eq_ok.mp h
    obtain ⟨out,hm,h⟩ := bind_eq_ok.mp h
    obtain ⟨len,hz,_,hfit,rfl,rfl⟩ := getWord_object.mp ⟨hw,hm⟩
    obtain ⟨_,rfl⟩ := addInt_eq_ok.mp h₁
    obtain ⟨hr,rfl⟩ := addInt_eq_ok.mp h₂
    refine ⟨len,hz,by omega,by omega,?_⟩
    rw [← hword,← Except.ok.inj h]
    congr 1
    omega
  · rintro ⟨len,hz,hsmall,hfit,rfl⟩
    obtain ⟨hw,hm⟩ := getWord_object.mpr ⟨len,hz,by omega,
      (by omega : len = 0 ∨ i+1+(strtol u).used+2+len ≤ s.length+1),rfl,rfl⟩
    have hadd := addInt_step hsmall
    refine bind_eq_ok.mpr ⟨u,hs,?_⟩
    refine bind_eq_ok.mpr ⟨_,hw,bind_eq_ok.mpr ⟨_,hz ▸ hadd.1,bind_eq_ok.mpr ⟨_,hadd.2,?_⟩⟩⟩
    refine bind_eq_ok.mpr ⟨_,hm,?_⟩
    rw [hword]
    congr 2
    omega

/-- The loop assigns every slot it is given exactly on a text that holds the items. -/
theorem parseItems_object (s : CString) (n i : ℕ) (items : List (Option CString)) :
    parseItems s.object (List.replicate n none) i = .ok items ∧ none ∉ items ↔
      ∃ xs, Items n (s.drop i) xs ∧ items = xs.map some := by
  induction n generalizing i items with
  | zero =>
    constructor
    · rintro ⟨h,_⟩
      cases h
      exact ⟨[],.done _,rfl⟩
    · rintro ⟨xs,hx,rfl⟩
      cases hx
      exact ⟨rfl,by simp⟩
  | succ n ih =>
    rw [List.replicate_succ,parseItems]
    constructor
    · rintro ⟨h,hnone⟩
      obtain ⟨b,hb,h⟩ := bind_eq_ok.mp h
      by_cases h36 : b = 36
      · subst h36
        obtain ⟨u,hu⟩ := (readByte_object (by decide)).mp hb
        rw [if_neg (by simp)] at h
        obtain ⟨r,hr,h⟩ := bind_eq_ok.mp h
        obtain ⟨rest,ht,h⟩ := bind_eq_ok.mp h
        cases h
        obtain ⟨len,hz,hsmall,hfit,rfl⟩ := (parseItem_object hu).mp hr
        obtain ⟨xs,hx,rfl⟩ := (ih _ _).mp ⟨ht,fun hn => hnone (by simp [hn])⟩
        have hd := CString.drop_succ hu
        rw [← CString.drop_drop,hd] at hx
        exact ⟨_,.item hu hz hsmall hfit hx,rfl⟩
      · rw [if_pos h36] at h
        cases h
        simp at hnone
    · rintro ⟨xs,hx,rfl⟩
      cases hx with
      | @item _ len _ u xs hu hz hsmall hfit hx =>
        have hd := CString.drop_succ hu
        have hb : readByte s.object i = .ok 36 := (readByte_object (by decide)).mpr ⟨u,hu⟩
        have hr := (parseItem_object hu).mpr ⟨len,hz,hsmall,hfit,rfl⟩
        rw [← hd,CString.drop_drop,hd] at hx
        obtain ⟨ht,_⟩ := (ih _ _).mpr ⟨xs,hx,rfl⟩
        refine ⟨?_,by simp⟩
        refine bind_eq_ok.mpr ⟨36,hb,?_⟩
        rw [if_neg (by simp)]
        exact bind_eq_ok.mpr ⟨_,hr,bind_eq_ok.mpr ⟨_,ht,rfl⟩⟩

/-- The items a request declares behind its `*`. -/
def HoldsItems (t : CString) (xs : List CString) : Prop :=
  Items (toInt (strtol t).value).toNat (t.drop ((strtol t).used+2)) xs

theorem parseArray_object {t : CString} {v : Option RespValue} :
    parseArray (42 :: t.object) = .ok v ↔ ∃ items,
      parseItems (42 :: t.object) (List.replicate (toInt (strtol t).value).toNat none)
        (1+(strtol t).used+2) = .ok items ∧ v = some (.arrays (toInt (strtol t).value) items) := by
  have hb : readByte (42 :: t.object) 0 = .ok 42 := rfl
  have hs : stringAt (42 :: t.object) 1 = .ok t := stringAt_object (Nat.zero_le t.length)
  constructor
  · intro h
    obtain ⟨_,hb',h⟩ := bind_eq_ok.mp h
    obtain rfl := Except.ok.inj (hb.symm.trans hb')
    rw [if_neg (by simp)] at h
    obtain ⟨_,hs',h⟩ := bind_eq_ok.mp h
    obtain rfl := Except.ok.inj (hs.symm.trans hs')
    obtain ⟨items,hi,h⟩ := bind_eq_ok.mp h
    exact ⟨items,hi,(Except.ok.inj h).symm⟩
  · rintro ⟨items,hi,rfl⟩
    refine bind_eq_ok.mpr ⟨42,hb,?_⟩
    rw [if_neg (by simp)]
    exact bind_eq_ok.mpr ⟨t,hs,bind_eq_ok.mpr ⟨items,hi,rfl⟩⟩

theorem parseItems_header (t : CString) (n : ℕ) (items : List (Option CString)) :
    parseItems (42 :: t.object) (List.replicate n none) (1+(strtol t).used+2) = .ok items ∧
        none ∉ items ↔
      ∃ xs, Items n (t.drop ((strtol t).used+2)) xs ∧ items = xs.map some := by
  have hs : ({ bytes := 42 :: t.bytes, nul_free := by simp [t.nul_free] } : CString).object =
    42 :: t.object := rfl
  have h := parseItems_object ⟨42 :: t.bytes,by simp [t.nul_free]⟩ n (1+((strtol t).used+2)) items
  rw [hs] at h
  rw [add_assoc,h,← CString.drop_drop]
  exact Iff.rfl

theorem Items.length {n : ℕ} {text : CString} {xs : List CString} (h : Items n text xs) :
    xs.length = n := by
  induction h with
  | done => rfl
  | item _ _ _ _ _ ih => simp [ih]

theorem parseArray_of_items {t : CString} {xs : List CString} (h : HoldsItems t xs) :
    parseArray (42 :: t.object) = .ok (some (.arrays (toInt (strtol t).value) (xs.map some))) :=
  parseArray_object.mpr ⟨_,((parseItems_header t _ _).mpr ⟨xs,h,rfl⟩).1,rfl⟩

theorem holdsItems_of_parseArray {t : CString} {count : ℤ} {items : List (Option CString)}
    (h : parseArray (42 :: t.object) = .ok (some (.arrays count items)))
    (hi : Initialised (.arrays count items)) :
    ∃ xs, HoldsItems t xs ∧ count = toInt (strtol t).value ∧ items = xs.map some := by
  obtain ⟨_,hp,hv⟩ := parseArray_object.mp h
  cases hv
  obtain ⟨args,rfl,_⟩ := hi _ _ rfl
  obtain ⟨xs,hx,he⟩ := (parseItems_header t _ _).mp ⟨hp,by simp⟩
  exact ⟨xs,hx,rfl,he⟩

/-- The parser stays inside the buffer and assigns every slot exactly on the texts that
hold the items they declare. -/
theorem parseSafe_iff (t : CString) : ParseSafe (42 :: t.object) ↔ ∃ xs, HoldsItems t xs := by
  constructor
  · rintro ⟨count,items,h,hi⟩
    obtain ⟨xs,hx,_⟩ := holdsItems_of_parseArray h hi
    exact ⟨xs,hx⟩
  · rintro ⟨xs,hx⟩
    refine ⟨_,_,parseArray_of_items hx,?_⟩
    rintro _ _ ⟨⟩
    exact ⟨xs,rfl,hx.length⟩

/-- A length of 9 with two bytes left, a header at the end of the buffer, a negative
length, and a loop that breaks before its only slot. -/
theorem parse_array_unsafe :
    ¬ (∀ t : CString, ParseSafe (42 :: t.object)) ∧
    parseArray (42 :: (lit "1\r\n$9\r\nab").object) = .error .outOfBounds ∧
    parseArray (42 :: (lit "3").object) = .error .outOfBounds ∧
    parseArray (42 :: (lit "1\r\n$-5\r\nab").object) = .error .nullPointer ∧
    parseArray (42 :: (lit "1\r\nab").object) = .ok (some (.arrays 1 [none])) := by
  have hb : parseArray (42 :: (lit "1\r\n$9\r\nab").object) = .error .outOfBounds := by decide
  refine ⟨?_,hb,by decide,by decide,by decide⟩
  intro h
  obtain ⟨count,items,hp,_⟩ := h (lit "1\r\n$9\r\nab")
  rw [hb] at hp
  contradiction

def lineText (t : CString) : CString := cut (simpleText t.bytes)

theorem simpleString_line {s t : CString} {b : UInt8} (hs : s.bytes = b :: t.bytes) (rest : Bytes) :
    simpleString (s.bytes ++ 0 :: rest) = .ok (lineText t) := by
  have h : stringAt (s.bytes ++ 0 :: rest) 0 = .ok s := by
    rw [stringAt_of_mem (by simp),List.drop_zero,CString.ofBuffer_nul]
  refine bind_eq_ok.mpr ⟨s,h,?_⟩
  rw [hs]
  exact makeString_word _

theorem parse_first {s t : CString} {b : UInt8} (hs : s.bytes = b :: t.bytes) (rest : Bytes) :
    parse (s.bytes ++ 0 :: rest) =
      if b = 43 then .ok (some (.simpleString (lineText t)))
      else if b = 45 then .ok (some (.errors (lineText t)))
      else if b = 58 then .ok (some (.integers (strtol (lineText t)).value))
      else if b = 42 then parseArray (s.bytes ++ 0 :: rest)
      else .error (.exit 1) := by
  have hb : readByte (s.bytes ++ 0 :: rest) 0 = .ok b := by
    rw [hs]
    rfl
  have hl := simpleString_line hs rest
  simp only [parse,getIdentifyType,hb,parseSimpleString,parseError,parseInteger,hl,bind,Except.bind]
  by_cases h43 : b = 43
  · subst h43
    rfl
  · by_cases h45 : b = 45
    · subst h45
      rfl
    · by_cases h58 : b = 58
      · subst h58
        rfl
      · by_cases h42 : b = 42
        · subst h42
          rfl
        · by_cases h36 : b = 36
          · subst h36
            rfl
          · simp [h43,h45,h58,h42]

example : parse (lit ":-100\r\n").object = .ok (some (.integers (-100))) := by decide
example : parse (lit "*-1\r\n").object = .ok (some (.arrays (-1) [])) := by decide

theorem parse_empty {s : CString} (hs : s.bytes = []) : parse s.object = .error (.exit 1) := by
  rw [CString.object,hs]
  rfl

theorem parse_array {s t : CString} (hs : s.bytes = 42 :: t.bytes) :
    parse s.object = parseArray (42 :: t.object) := by
  have ho : s.object = 42 :: t.object := by
    rw [CString.object,hs]
    rfl
  exact (parse_first hs []).trans (congrArg parseArray ho)

end RedisParser
end CodingChallenges
