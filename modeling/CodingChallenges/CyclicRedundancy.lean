import Mathlib.Data.BitVec
import Mathlib.Logic.Function.Iterate

/-! Reflected cyclic redundancy codes, one bit at a time, over a register of any width.
A chunk of the message is added to the low end of the register and shifted out of it. -/
namespace CodingChallenges
namespace CyclicRedundancy

variable {w k : ℕ}

/-- One bit: shift right, and add the polynomial when a 1 falls out. -/
def shift (poly x : BitVec w) : BitVec w :=
  if x.getLsbD 0 then (x >>> 1) ^^^ poly else x >>> 1

def feed (poly x : BitVec w) (b : BitVec k) : BitVec w := (shift poly)^[k] (x ^^^ b.setWidth w)

def checksum (poly init out : BitVec w) (message : List (BitVec k)) : BitVec w :=
  message.foldl (feed poly) init ^^^ out

/-- The step with the `k` bits that fall out looked up in a table. -/
def feedTable (poly x : BitVec w) (b : BitVec k) : BitVec w :=
  (x >>> k) ^^^ (shift poly)^[k] (((x ^^^ b.setWidth w).setWidth k).setWidth w)

/-- Chunks side by side in one word, the first in the lowest place. -/
def pack : List (BitVec k) → BitVec w
  | [] => 0
  | b :: bs => b.setWidth w ^^^ (pack bs <<< k)

theorem shift_xor (poly x y : BitVec w) : shift poly (x ^^^ y) = shift poly x ^^^ shift poly y := by
  simp only [shift,BitVec.getLsbD_xor,BitVec.ushiftRight_xor_distrib]
  cases x.getLsbD 0 <;> cases y.getLsbD 0
  · rfl
  · exact BitVec.xor_assoc _ _ _
  · show x >>> 1 ^^^ y >>> 1 ^^^ poly = x >>> 1 ^^^ poly ^^^ y >>> 1
    rw [BitVec.xor_assoc,BitVec.xor_comm (y >>> 1),BitVec.xor_assoc]
  · show x >>> 1 ^^^ y >>> 1 = x >>> 1 ^^^ poly ^^^ (y >>> 1 ^^^ poly)
    rw [BitVec.xor_comm (y >>> 1) poly,BitVec.xor_assoc,← BitVec.xor_assoc poly,BitVec.xor_self,
      BitVec.zero_xor]

theorem shifts_xor (poly : BitVec w) (n : ℕ) (x y : BitVec w) :
    (shift poly)^[n] (x ^^^ y) = (shift poly)^[n] x ^^^ (shift poly)^[n] y := by
  induction n generalizing x y with
  | zero => rfl
  | succ n ih => simp only [Function.iterate_succ_apply,shift_xor,ih]

theorem shifts_of_low {x : BitVec w} {n : ℕ} (h : ∀ i < n, x.getLsbD i = false) (poly : BitVec w) :
    (shift poly)^[n] x = x >>> n := by
  induction n with
  | zero => simp
  | succ n ih =>
    have h₀ : (x >>> n).getLsbD 0 = false := by simpa using h n n.lt_succ_self
    rw [Function.iterate_succ_apply',ih fun i hi => h i (Nat.lt_succ_of_lt hi),shift,h₀,BitVec.shiftRight_add]
    rfl

theorem shifts_shiftLeft {y : BitVec w} (h : ∀ i, w ≤ i+k → y.getLsbD i = false) (poly : BitVec w) :
    (shift poly)^[k] (y <<< k) = y := by
  rw [shifts_of_low fun i hi => by simp [hi]]
  refine BitVec.eq_of_getLsbD_eq fun i hi => ?_
  by_cases hk : w ≤ i+k
  · simp [h i hk,show ¬ k+i < w by omega]
  · simp [show k+i < w by omega,show ¬ k+i < k by omega,hi]

/-- Looking up the bits that fall out and shifting the rest is the same as going bit by bit. -/
theorem feed_eq_feedTable (poly x : BitVec w) (b : BitVec k) : feed poly x b = feedTable poly x b := by
  let z := x ^^^ b.setWidth w
  let low := (z.setWidth k).setWidth w
  have hz : z = (z ^^^ low) ^^^ low := by rw [BitVec.xor_assoc,BitVec.xor_self,BitVec.xor_zero]
  have hlow : ∀ i < k, (z ^^^ low).getLsbD i = false := by
    intro i hi
    by_cases hw : i < w
    · simp [low,hi,hw]
    · exact BitVec.getLsbD_of_ge _ i (by omega)
  have hhigh : (z ^^^ low) >>> k = x >>> k := by
    refine BitVec.eq_of_getLsbD_eq fun i hi => ?_
    simp [z,low]
  have hs : feed poly x b = (shift poly)^[k] (z ^^^ low) ^^^ (shift poly)^[k] low := by
    rw [← shifts_xor,← hz]
    rfl
  rw [hs,shifts_of_low hlow,hhigh]
  rfl

/-- The top bit tells whether the polynomial was added. -/
theorem shift_injective {poly : BitVec w} (hp : poly.msb = true) : Function.Injective (shift poly) := by
  intro x y h
  have hxor : shift poly (x ^^^ y) = 0 := by rw [shift_xor,h,BitVec.xor_self]; rfl
  rw [← BitVec.xor_eq_zero_iff]
  generalize x ^^^ y = z at hxor
  rw [shift] at hxor
  split at hxor
  · have hm := congrArg BitVec.msb hxor
    rw [BitVec.msb_xor,hp,BitVec.msb_ushiftRight] at hm
    simp at hm
  · rename_i h₀
    refine BitVec.eq_of_getLsbD_eq fun i hi => ?_
    cases i with
    | zero => simpa using h₀
    | succ i =>
      have hb := congrArg (BitVec.getLsbD · i) hxor
      simpa [Nat.add_comm] using hb

theorem feed_injective {poly : BitVec w} (hp : poly.msb = true) (b : BitVec k) :
    Function.Injective (feed poly · b) := by
  intro x y h
  exact (BitVec.xor_left_inj _).mp ((shift_injective hp).iterate k h)

theorem foldl_feed_injective {poly : BitVec w} (hp : poly.msb = true) (message : List (BitVec k)) :
    Function.Injective fun x => message.foldl (feed poly) x := by
  induction message with
  | nil => exact fun _ _ h => h
  | cons b bs ih => exact fun x y h => feed_injective hp b (ih h)

theorem getLsbD_pack (bs : List (BitVec k)) {i : ℕ} (h : k*bs.length ≤ i) :
    (pack bs : BitVec w).getLsbD i = false := by
  induction bs generalizing i with
  | nil => simp [pack]
  | cons b bs ih =>
    rw [List.length_cons,Nat.mul_succ] at h
    have hi : k ≤ i := by omega
    simp [pack,ih (i:=i-k) (by omega),BitVec.getLsbD_of_ge b i hi]

/-- Chunks that fit into the register go through it as one word. -/
theorem foldl_feed_eq (poly x : BitVec w) (bs : List (BitVec k)) (h : k*bs.length ≤ w) :
    bs.foldl (feed poly) x = (shift poly)^[k*bs.length] (x ^^^ pack bs) := by
  induction bs generalizing x with
  | nil => simp [pack]
  | cons b bs ih =>
    rw [List.length_cons,Nat.mul_succ] at h
    have hb : (shift poly)^[k] ((pack bs : BitVec w) <<< k) = pack bs :=
      shifts_shiftLeft (fun i hi => getLsbD_pack bs (by omega)) poly
    rw [List.foldl_cons,ih _ (by omega),List.length_cons,Nat.mul_succ,Function.iterate_add_apply,feed,
      pack,← BitVec.xor_assoc,shifts_xor poly k (x ^^^ b.setWidth w),hb]

theorem pack_injective {bs cs : List (BitVec k)} (hl : bs.length = cs.length) (hw : k*bs.length ≤ w)
    (h : (pack bs : BitVec w) = pack cs) : bs = cs := by
  induction bs generalizing cs with
  | nil => exact (List.length_eq_zero_iff.mp hl.symm).symm
  | cons b bs ih =>
    cases cs with
    | nil => simp at hl
    | cons c cs =>
      have hlen : bs.length = cs.length := by simpa using hl
      rw [List.length_cons,Nat.mul_succ] at hw
      have hbit (i : ℕ) := congrArg (BitVec.getLsbD · i) h
      simp only [pack,BitVec.getLsbD_xor,BitVec.getLsbD_setWidth,BitVec.getLsbD_shiftLeft] at hbit
      have hbc : b = c := by
        refine BitVec.eq_of_getLsbD_eq fun i hi => ?_
        simpa [hi,show i < w by omega] using hbit i
      have hrest : (pack bs : BitVec w) = pack cs := by
        refine BitVec.eq_of_getLsbD_eq fun i hi => ?_
        by_cases hik : k+i < w
        · simpa [hik,hbc,show ¬ k+i < k by omega] using hbit (k+i)
        · rw [getLsbD_pack bs (by omega),getLsbD_pack cs (hlen ▸ by omega)]
      rw [hbc,ih hlen (by omega) hrest]

/-- Two messages of the same length that differ only in chunks which together fit into the
register have different checksums. -/
theorem checksum_burst {poly : BitVec w} (hp : poly.msb = true) (init out : BitVec w)
    {a b b' c : List (BitVec k)} (hl : b.length = b'.length) (hw : k*b.length ≤ w) (hne : b ≠ b') :
    checksum poly init out (a ++ (b ++ c)) ≠ checksum poly init out (a ++ (b' ++ c)) := by
  intro h
  have hfold := (BitVec.xor_left_inj _).mp h
  simp only [List.foldl_append] at hfold
  have hmid := foldl_feed_injective hp c hfold
  rw [foldl_feed_eq _ _ b hw,foldl_feed_eq _ _ b' (hl ▸ hw),hl] at hmid
  have hpack := (BitVec.xor_right_inj _).mp ((shift_injective hp).iterate _ hmid)
  exact hne (pack_injective hl hw hpack)

end CyclicRedundancy
end CodingChallenges
