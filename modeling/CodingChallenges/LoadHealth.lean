import Mathlib.Data.Bool.AllAny
import CodingChallenges.LoadForwarding

/-! The health check of the load balancer (`check_health`). What a backend
answers is an HTTP response in segments, of which one `read` is looked at. -/
namespace CodingChallenges
namespace LoadHealth

open CText LoadForwarding

/-- The request fits `req`, as the path has at most 255 bytes and the host at most 63. -/
def healthRequest (healthPath host : CString) : Bytes :=
  ascii "GET " ++ healthPath.bytes ++ ascii " HTTP/1.1\r\nHost: " ++ host.bytes ++
    ascii "\r\nConnection: close\r\n\r\n"

/-- `check_health` of a backend that can not be dialled, or answers a request with segments.
`buf` is zeroed and one byte longer than what is read. -/
def checkHealth (healthPath host : CString) (backend : Option (Bytes → List Bytes)) : ℕ :=
  match backend with
  | none => 0
  | some answer =>
    let r := readBytes 255 (answer (healthRequest healthPath host))
    if r.1 ≠ [] ∧ strstr (CString.ofBuffer r.1) (lit " 200 ") then 1 else 0

def digit (k : ℕ) : UInt8 := (48+k).toUInt8

def isText (c : UInt8) : Bool := c = 9 || (32 ≤ c && c ≠ 127)

def isTokenByte (c : UInt8) : Bool :=
  isDigit c || (65 ≤ c && c ≤ 90) || (97 ≤ c && c ≤ 122) || c ∈ ascii "!#$%&'*+-.^_" || c ∈ [96,124,126]

structure Header where
  name : Bytes
  value : Bytes
  name_ne : name ≠ []
  name_token : ∀ c ∈ name, isTokenByte c = true
  value_text : ∀ c ∈ value, isText c = true

structure Response where
  major : Fin 10
  minor : Fin 10
  code : Fin 1000
  reason : Bytes
  reason_text : ∀ c ∈ reason, isText c = true
  headers : List Header
  body : Bytes

def Header.text (h : Header) : Bytes := h.name ++ 58 :: (h.value ++ [13,10])

def Response.version (r : Response) : Bytes :=
  ascii "HTTP/" ++ [digit r.major,46,digit r.minor,32] ++
    [digit (r.code/100),digit (r.code/10%10),digit (r.code%10)]

def Response.rest (r : Response) : Bytes :=
  32 :: (r.reason ++ [13,10] ++ r.headers.flatMap Header.text ++ [13,10] ++ r.body)

def Response.text (r : Response) : Bytes := r.version ++ r.rest

theorem digit_toNat {k : ℕ} (hk : k < 10) : (digit k).toNat = 48+k := by
  rw [digit,Nat.toUInt8,UInt8.toNat_ofNat']
  omega

theorem digit_ne {k : ℕ} (hk : k < 10) {c : UInt8} (hc : c.toNat < 48) : digit k ≠ c := by
  rintro rfl
  rw [digit_toNat hk] at hc
  omega

theorem length_version (r : Response) : r.version.length = 12 := rfl

theorem version_digits (r : Response) {P : UInt8 → Prop} (h : ∀ k < 10, P (digit k)) :
    P (digit r.major) ∧ P (digit r.minor) ∧ P (digit (r.code/100)) ∧ P (digit (r.code/10%10)) ∧
      P (digit (r.code%10)) :=
  ⟨h _ r.major.isLt,h _ r.minor.isLt,h _ (by omega),h _ (by omega),h _ (by omega)⟩

theorem version_space {r : Response} {i : ℕ} (h : r.version[i]? = some 32) : i = 8 := by
  have hlt : i < 12 := by
    rw [← length_version r]
    exact (List.getElem?_eq_some_iff.mp h).1
  obtain ⟨h₁,h₂,h₃,h₄,h₅⟩ := version_digits r (P:=(· ≠ 32)) fun k hk => digit_ne hk (by decide)
  have hv : r.version = [72,84,84,80,47,digit r.major,46,digit r.minor,32,digit (r.code/100),
      digit (r.code/10%10),digit (r.code%10)] := rfl
  rw [hv] at h
  interval_cases i <;> simp_all

theorem code_of_digits {r : Response} (h₁ : digit (r.code/100) = 50) (h₂ : digit (r.code/10%10) = 48)
    (h₃ : digit (r.code%10) = 48) : r.code = 200 := by
  have hd₁ := digit_toNat (k:=r.code/100) (by omega)
  have hd₂ := digit_toNat (k:=r.code/10%10) (by omega)
  have hd₃ := digit_toNat (k:=r.code%10) (by omega)
  rw [h₁] at hd₁
  rw [h₂] at hd₂
  rw [h₃] at hd₃
  have hb₁ : (50 : UInt8).toNat = 50 := rfl
  have hb₂ : (48 : UInt8).toNat = 48 := rfl
  refine Fin.ext ?_
  show r.code.val = 200
  omega

theorem code_of_front {r : Response} {w a b : Bytes} (hab : a ++ ascii " 200 " ++ b = r.version ++ w)
    (ha : a.length < 12) : r.code = 200 := by
  have hget (i : ℕ) : (r.version ++ w)[a.length+i]? = (ascii " 200 " ++ b)[i]? := by
    rw [← hab,List.append_assoc,List.getElem?_append_right (Nat.le_add_right _ _),Nat.add_sub_cancel_left]
  have h8 : a.length = 8 := by
    have h0 := hget 0
    rw [Nat.add_zero,List.getElem?_append_left (by rw [length_version]; exact ha)] at h0
    exact version_space h0
  have h₁ := hget 1
  have h₂ := hget 2
  have h₃ := hget 3
  rw [h8] at h₁ h₂ h₃
  exact code_of_digits (Option.some.inj h₁) (Option.some.inj h₂) (Option.some.inj h₃)

/-- An occurrence of the searched text begins at the code or behind it. -/
theorem infix_iff (r : Response) {w : Bytes} (hw : [32] <+: w) :
    ascii " 200 " <:+: r.version ++ w ↔ r.code = 200 ∨ ascii " 200 " <:+: w := by
  constructor
  · rintro ⟨a,b,hab⟩
    by_cases ha : a.length < 12
    · exact Or.inl (code_of_front hab ha)
    · right
      have hdrop : w = a.drop 12 ++ ascii " 200 " ++ b := by
        have h := congrArg (List.drop 12) hab
        rw [List.append_assoc,List.drop_append_of_le_length (by omega)] at h
        rw [List.append_assoc]
        exact (List.drop_left' (length_version r)).symm.trans h.symm
      exact ⟨a.drop 12,b,hdrop.symm⟩
  · rintro (h | h)
    · obtain ⟨t,rfl⟩ := hw
      refine ⟨r.version.take 8,t,?_⟩
      have hv : r.version = r.version.take 8 ++ [32,50,48,48] := by
        rw [Response.version,h]
        rfl
      conv_rhs => rw [hv]
      simp [ascii]
    · exact h.trans (List.suffix_append _ _).isInfix

theorem readBytes_take {q : Bytes} {segments : List Bytes} (h : Splits q segments) (size : ℕ) :
    (readBytes size segments).1 = q.take (min size (segments.headD []).length) := by
  cases segments with
  | nil => simp [readBytes]
  | cons s rest =>
    rw [← h.1,List.flatten_cons,List.headD_cons,List.take_append_of_le_length (Nat.min_le_right _ _),readBytes]
    split_ifs with hl
    · rw [Nat.min_eq_right hl,List.take_length]
    · rw [Nat.min_eq_left (Nat.le_of_not_le hl)]

/-- What is looked at behind the status code, up to a NUL. -/
def Response.seen (r : Response) (segments : List Bytes) : Bytes :=
  (r.rest.take (min 255 (segments.headD []).length-12)).takeWhile (· ≠ 0)

theorem version_nul (r : Response) : 0 ∉ r.version := by
  obtain ⟨h₁,h₂,h₃,h₄,h₅⟩ := version_digits r (P:=(· ≠ 0)) fun k hk => digit_ne hk (by decide)
  simp [Response.version,ascii,h₁.symm,h₂.symm,h₃.symm,h₄.symm,h₅.symm]

theorem buf_bytes (r : Response) (n : ℕ) :
    (CString.ofBuffer (r.text.take n)).bytes =
      r.version.take n ++ (r.rest.take (n-12)).takeWhile (· ≠ 0) := by
  rw [CString.bytes_ofBuffer,Response.text,List.take_append,length_version,
    List.takeWhile_append_of_pos fun c hc => ?_]
  have hne : c ≠ 0 := by
    rintro rfl
    exact version_nul r (List.mem_of_mem_take hc)
  simpa using hne

theorem not_infix_version (r : Response) (n : ℕ) : ¬ ascii " 200 " <:+: r.version.take n := by
  rintro h
  obtain ⟨a,b,hab⟩ := h.trans (List.take_prefix n r.version).isInfix
  have h₀ : r.version[a.length]? = some 32 := by
    rw [← hab,List.append_assoc,List.getElem?_append_right (le_refl _),Nat.sub_self]
    rfl
  have h₄ : r.version[a.length+4]? = some 32 := by
    rw [← hab,List.append_assoc,List.getElem?_append_right (Nat.le_add_right _ _),Nat.add_sub_cancel_left]
    rfl
  have h := version_space h₀
  have h' := version_space h₄
  omega

theorem strstr_buf (r : Response) (n : ℕ) :
    strstr (CString.ofBuffer (r.text.take n)) (lit " 200 ") = true ↔
      13 ≤ n ∧ (r.code = 200 ∨ ascii " 200 " <:+: (r.rest.take (n-12)).takeWhile (· ≠ 0)) := by
  have hlit : (lit " 200 ").bytes = ascii " 200 " := rfl
  rw [strstr_iff,buf_bytes,hlit]
  by_cases hn : 13 ≤ n
  · obtain ⟨k,hk⟩ : ∃ k, n-12 = k+1 := ⟨n-13,by omega⟩
    have hspace : [32] <+: (r.rest.take (n-12)).takeWhile (· ≠ 0) := by
      rw [hk,Response.rest,List.take_succ_cons,List.takeWhile_cons_of_pos (by decide)]
      exact ⟨_,rfl⟩
    rw [List.take_of_length_le (by rw [length_version]; omega),infix_iff r hspace]
    exact (and_iff_right hn).symm
  · have h0 : n-12 = 0 := by omega
    rw [h0,List.take_zero,List.takeWhile_nil,List.append_nil]
    exact iff_of_false (not_infix_version r n) fun h => hn h.1

/-- When the verdict is right: the segment reaches behind the code 200, or the code is another
one and the text that is searched for does not come later. -/
def Telling (r : Response) (segments : List Bytes) : Prop :=
  if r.code = 200 then 13 ≤ (segments.headD []).length else ¬ ascii " 200 " <:+: r.seen segments

theorem checkHealth_eq (r : Response) {healthPath host : CString} {answer : Bytes → List Bytes}
    {segments : List Bytes} (ha : answer (healthRequest healthPath host) = segments)
    (h : Splits r.text segments) :
    checkHealth healthPath host (some answer) = 1 ↔
      13 ≤ (segments.headD []).length ∧ (r.code = 200 ∨ ascii " 200 " <:+: r.seen segments) := by
  have hbuf := strstr_buf r (min 255 (segments.headD []).length)
  rw [← readBytes_take h 255] at hbuf
  have hmin : 13 ≤ min 255 (segments.headD []).length ↔ 13 ≤ (segments.headD []).length := by omega
  rw [hmin] at hbuf
  have hcheck : checkHealth healthPath host (some answer) = 1 ↔ (readBytes 255 segments).1 ≠ [] ∧
      strstr (CString.ofBuffer (readBytes 255 segments).1) (lit " 200 ") = true := by
    simp only [checkHealth,ha]
    split_ifs with hc
    · exact iff_of_true rfl hc
    · exact iff_of_false (by decide) hc
  rw [hcheck,hbuf]
  refine and_iff_right_of_imp fun hc h0 => ?_
  rw [h0] at hbuf
  exact absurd (hbuf.mpr hc) (by decide)

theorem verdict_of_telling {r : Response} {healthPath host : CString} {answer : Bytes → List Bytes}
    {segments : List Bytes} (ha : answer (healthRequest healthPath host) = segments)
    (h : Splits r.text segments) (ht : Telling r segments) :
    checkHealth healthPath host (some answer) = 1 ↔ r.code = 200 := by
  rw [checkHealth_eq r ha h]
  rw [Telling] at ht
  split_ifs at ht with hc
  · exact iff_of_true ⟨ht,Or.inl hc⟩ hc
  · exact iff_of_false (fun hv => hv.2.elim hc ht) hc

/-- The verdict on a response follows its status code exactly when the first segment tells it. -/
theorem checkHealth_iff (r : Response) {healthPath host : CString} {answer : Bytes → List Bytes}
    {segments : List Bytes} (ha : answer (healthRequest healthPath host) = segments)
    (h : Splits r.text segments) :
    (checkHealth healthPath host (some answer) = 1 ↔ r.code = 200) ↔ Telling r segments := by
  refine ⟨fun hv => ?_,verdict_of_telling ha h⟩
  rw [checkHealth_eq r ha h] at hv
  rw [Telling]
  split_ifs with hc
  · exact (hv.mpr hc).1
  · intro hi
    refine hc (hv.mp ⟨?_,Or.inr hi⟩)
    by_contra hn
    have h0 : min 255 (segments.headD []).length-12 = 0 := by omega
    rw [Response.seen,h0,List.take_zero,List.takeWhile_nil] at hi
    exact absurd hi (by decide)

def notFound : Response where
  major := 1
  minor := 1
  code := 404
  reason := ascii "Not Found"
  reason_text := List.all_iff_forall_prop.mp (by decide)
  headers := []
  body := ascii "page 200 is gone"

theorem splits_notFound : Splits notFound.text [notFound.text] := by
  refine ⟨List.flatten_singleton,fun s hs => ?_⟩
  rw [List.mem_singleton.mp hs]
  exact List.cons_ne_nil _ _

theorem checkHealth_iff_notFound :
    (fun _ : Bytes => [notFound.text]) (healthRequest (lit "/health") (lit "127.0.0.1")) = [notFound.text] ∧
      Splits notFound.text [notFound.text] ∧
      ((checkHealth (lit "/health") (lit "127.0.0.1") (some fun _ => [notFound.text]) = 1 ↔
        notFound.code = 200) ↔ Telling notFound [notFound.text]) :=
  ⟨rfl,splits_notFound,checkHealth_iff notFound rfl splits_notFound⟩

/-- The page says 200, the status does not. -/
theorem checkHealth_body : checkHealth (lit "/health") (lit "127.0.0.1") (some fun _ => [notFound.text]) = 1 ∧
    notFound.code ≠ 200 := by
  refine ⟨(checkHealth_eq notFound rfl splits_notFound).mpr ⟨by decide,Or.inr ?_⟩,by decide⟩
  decide

end LoadHealth
end CodingChallenges
