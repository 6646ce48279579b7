import Mathlib.Order.WithBot
import Mathlib.Algebra.Group.Int
import Mathlib.Algebra.Group.Nat.Basic

namespace PagedDb

inductive DoubleClass where
  | nan
  | infinite (negative : Bool)
  | finite (value : Int)
  deriving DecidableEq, Repr

def signBit (bits : BitVec 64) : Bool := decide (2 ^ 63 ≤ bits.toNat)

def exponentField (bits : BitVec 64) : Nat := bits.toNat / 2 ^ 52 % 2 ^ 11

def fractionField (bits : BitVec 64) : Nat := bits.toNat % 2 ^ 52

def magnitude (bits : BitVec 64) : Nat :=
  if exponentField bits = 0 then fractionField bits
  else (2 ^ 52 + fractionField bits) * 2 ^ (exponentField bits - 1)

-- A finite value is the integer it is times 2^1074, so that both zeros are 0.
def classify (bits : BitVec 64) : DoubleClass :=
  if exponentField bits = 2047 then
    if fractionField bits = 0 then .infinite (signBit bits) else .nan
  else .finite (if signBit bits then -(magnitude bits : Int) else magnitude bits)

-- The IEEE 754 order: a NaN is unordered (none), the infinities are ⊥ and ⊤.
def doubleOrder (bits : BitVec 64) : Option (WithBot (WithTop Int)) :=
  match classify bits with
  | .nan => none
  | .infinite negative => some (if negative then ⊥ else ⊤)
  | .finite x => some ((x : WithTop Int) : WithBot (WithTop Int))

def shiftBelow (q : Nat) : Nat → Nat
  | 0 => 0
  | fuel + 1 => if q < 2 ^ 53 then 0 else shiftBelow (q / 2) fuel + 1

-- roundTiesToEven of `num / den` units of 2^-1074 with the given sign. A carry to 2^53
-- lands in the exponent field; a magnitude past the largest double is infinity.
def roundDouble (negative : Bool) (num den : Nat) : BitVec 64 :=
  let shift := shiftBelow (num / den) (num / den)
  let unit := den * 2 ^ shift
  let rest := num % unit
  let m := num / unit + if unit < 2 * rest ∨ 2 * rest = unit ∧ num / unit % 2 = 1 then 1 else 0
  BitVec.ofNat 64 ((if negative then 2 ^ 63 else 0) + min (shift * 2 ^ 52 + m) (2047 * 2 ^ 52))

def zeroDouble (negative : Bool) : BitVec 64 := BitVec.ofNat 64 (if negative then 2 ^ 63 else 0)

def infinity (negative : Bool) : BitVec 64 := BitVec.ofNat 64 ((if negative then 2 ^ 63 else 0) + 2047 * 2 ^ 52)

-- x86-64 SSE2 arithmetic: a NaN operand comes back quieted, the first of two NaNs, and
-- an invalid operation gives the default NaN.
def quietNaN (bits : BitVec 64) : BitVec 64 := bits ||| BitVec.ofNat 64 (2 ^ 51)

def defaultNaN : BitVec 64 := BitVec.ofNat 64 0xFFF8000000000000

-- static_cast<double> of an int.
def intToDouble (v : BitVec 32) : BitVec 64 := roundDouble (v.toInt < 0) (v.toInt.natAbs * 2 ^ 1074) 1

-- `a + b`: an exact zero sum is +0 unless both operands are -0.
def doubleAdd (a b : BitVec 64) : BitVec 64 :=
  match classify a, classify b with
  | .nan, _ => quietNaN a
  | _, .nan => quietNaN b
  | .infinite s, .infinite t => if s = t then infinity s else defaultNaN
  | .infinite s, .finite _ => infinity s
  | .finite _, .infinite t => infinity t
  | .finite x, .finite y =>
    if x + y = 0 then zeroDouble (signBit a && signBit b) else roundDouble (x + y < 0) (x + y).natAbs 1

-- `a / b`
def doubleDiv (a b : BitVec 64) : BitVec 64 :=
  let negative := signBit a != signBit b
  match classify a, classify b with
  | .nan, _ => quietNaN a
  | _, .nan => quietNaN b
  | .infinite _, .infinite _ => defaultNaN
  | .infinite _, .finite _ => infinity negative
  | .finite _, .infinite _ => zeroDouble negative
  | .finite x, .finite y =>
    if y = 0 then (if x = 0 then defaultNaN else infinity negative)
    else roundDouble negative (x.natAbs * 2 ^ 1074) y.natAbs

-- static_cast<int> of a double, truncated; none where C++ leaves it undefined.
def doubleToInt (bits : BitVec 64) : Option (BitVec 32) :=
  match classify bits with
  | .finite x =>
    let q : Int := if x < 0 then -((x.natAbs / 2 ^ 1074 : Nat) : Int) else (x.natAbs / 2 ^ 1074 : Nat)
    if -2 ^ 31 ≤ q ∧ q < 2 ^ 31 then some (BitVec.ofInt 32 q) else none
  | _ => none

section Exact

theorem shiftBelow_spec (fuel : Nat) : ∀ q, q < 2 ^ 53 * 2 ^ fuel →
    q / 2 ^ shiftBelow q fuel < 2 ^ 53 ∧ (0 < shiftBelow q fuel → 2 ^ 52 ≤ q / 2 ^ shiftBelow q fuel) := by
  induction fuel with
  | zero => intro q enough; exact ⟨by simpa [shiftBelow] using enough, fun pos => by simp [shiftBelow] at pos⟩
  | succ fuel ih =>
    intro q enough
    rw [shiftBelow]
    split
    · simpa using ‹q < 2 ^ 53›
    · have half : q / 2 < 2 ^ 53 * 2 ^ fuel := by rw [Nat.pow_succ] at enough; omega
      obtain ⟨below, normal⟩ := ih (q / 2) half
      rw [Nat.pow_succ, Nat.mul_comm, ← Nat.div_div_eq_div_mul]
      refine ⟨below, fun _ => ?_⟩
      rcases Nat.eq_zero_or_pos (shiftBelow (q / 2) fuel) with zero | pos
      · rw [zero, Nat.pow_zero, Nat.div_one]; omega
      · exact normal pos

theorem classify_encode (negative : Bool) {shift m : Nat} (normal : shift = 0 ∨ 2 ^ 52 ≤ m) (below : m < 2 ^ 53)
    (finite : shift + 1 < 2047) :
    classify (BitVec.ofNat 64 ((if negative then 2 ^ 63 else 0) + min (shift * 2 ^ 52 + m) (2047 * 2 ^ 52))) =
      .finite (if negative then -((m * 2 ^ shift : Nat) : Int) else (m * 2 ^ shift : Nat)) := by
  generalize encoded : BitVec.ofNat 64 ((if negative then 2 ^ 63 else 0) + min (shift * 2 ^ 52 + m) (2047 * 2 ^ 52)) =
    bits
  have value : bits.toNat = (if negative then 2 ^ 63 else 0) + (shift * 2 ^ 52 + m) := by
    rw [← encoded, BitVec.toNat_ofNat, min_eq_left (by omega)]
    apply Nat.mod_eq_of_lt
    split <;> omega
  have sign : signBit bits = negative := by
    rw [signBit, value]
    cases negative
    · simp only [Bool.false_eq_true, if_false, Nat.zero_add, decide_eq_false_iff_not, Nat.not_le]; omega
    · simp only [if_true, decide_eq_true_eq]; omega
  have exponent : exponentField bits = if 2 ^ 52 ≤ m then shift + 1 else 0 := by
    rw [exponentField, value]; split <;> split <;> omega
  have fraction : fractionField bits = if 2 ^ 52 ≤ m then m - 2 ^ 52 else m := by
    rw [fractionField, value]; split <;> split <;> omega
  have size : magnitude bits = m * 2 ^ shift := by
    rw [magnitude, exponent, fraction]
    split
    · rw [if_neg (Nat.succ_ne_zero _), Nat.add_sub_cancel, Nat.add_sub_cancel' ‹_›]
    · rw [if_pos rfl, show shift = 0 by omega, Nat.pow_zero, Nat.mul_one]
  rw [classify, if_neg (by rw [exponent]; split <;> omega), sign, size]

theorem classify_roundDouble_int (negative : Bool) {k : Nat} (small : k < 2 ^ 53) :
    classify (roundDouble negative (k * 2 ^ 1074) 1) =
      .finite (if negative then -((k * 2 ^ 1074 : Nat) : Int) else (k * 2 ^ 1074 : Nat)) := by
  obtain ⟨below, normal⟩ := shiftBelow_spec (k * 2 ^ 1074) (k * 2 ^ 1074)
    ((Nat.lt_two_pow _).trans_le (Nat.le_mul_of_pos_left _ (Nat.two_pow_pos _)))
  rw [roundDouble]
  simp only [Nat.div_one, Nat.one_mul]
  generalize shiftBelow (k * 2 ^ 1074) (k * 2 ^ 1074) = shift at below normal ⊢
  have within : shift ≤ 1074 := by
    by_contra past
    have low := normal (by omega)
    have scaled : k * 2 ^ 1074 / 2 ^ shift = k / 2 ^ (shift - 1074) := by
      rw [show shift = (shift - 1074) + 1074 by omega, Nat.pow_add, Nat.add_sub_cancel,
        Nat.mul_div_mul_right k (2 ^ (shift - 1074)) (Nat.two_pow_pos 1074)]
    have drop : k / 2 ^ (shift - 1074) ≤ k / 2 ^ 1 :=
      Nat.div_le_div_left (Nat.pow_le_pow_right (by decide) (by omega)) (by decide)
    omega
  have split : k * 2 ^ 1074 = 2 ^ shift * (k * 2 ^ (1074 - shift)) := by
    rw [Nat.mul_left_comm, ← Nat.pow_add, Nat.add_sub_cancel' within]
  have kept : k * 2 ^ 1074 / 2 ^ shift = k * 2 ^ (1074 - shift) := by
    rw [split, Nat.mul_div_cancel_left _ (Nat.two_pow_pos _)]
  have exact : k * 2 ^ 1074 % 2 ^ shift = 0 := by rw [split, Nat.mul_mod_right]
  have value : k * 2 ^ (1074 - shift) * 2 ^ shift = k * 2 ^ 1074 := by rw [Nat.mul_comm, ← split]
  rw [kept] at below normal
  have exactly : ¬(2 ^ shift < 2 * 0 ∨ 2 * 0 = 2 ^ shift ∧ k * 2 ^ (1074 - shift) % 2 = 1) := by
    have := Nat.two_pow_pos shift; omega
  rw [exact, kept, if_neg exactly, Nat.add_zero, classify_encode negative _ below (by omega), value]
  rcases Nat.eq_zero_or_pos shift with zero | pos
  · exact .inl zero
  · exact .inr (normal pos)

theorem signed_natAbs (x : Int) (scale : Nat) :
    (if x < 0 then -((x.natAbs * scale : Nat) : Int) else ((x.natAbs * scale : Nat) : Int)) = x * scale := by
  rw [Int.natCast_mul]
  split
  · rw [Int.ofNat_natAbs_of_nonpos (by omega), Int.neg_mul, Int.neg_neg]
  · rw [Int.natAbs_of_nonneg (by omega)]

theorem natAbs_two_pow (k : Nat) : ((2 : Int) ^ k).natAbs = 2 ^ k := by
  rw [Int.natAbs_pow]; rfl

theorem scaled_neg (x : Int) : x * 2 ^ 1074 < 0 ↔ x < 0 := by
  have positive : (0 : Int) < 2 ^ 1074 := by omega
  constructor
  · intro negative
    by_contra nonneg
    exact Int.not_lt.mpr (Int.mul_nonneg (by omega) positive.le) negative
  · intro negative
    exact Int.mul_neg_of_neg_of_pos negative positive

def intDouble (x : Int) : BitVec 64 := roundDouble (x < 0) (x.natAbs * 2 ^ 1074) 1

def quotientDouble (x : Int) (n : Nat) : BitVec 64 := roundDouble (x < 0) (x.natAbs * 2 ^ 1074) n

theorem intToDouble_eq (v : BitVec 32) : intToDouble v = intDouble v.toInt := rfl

theorem intDouble_zero : intDouble 0 = zeroDouble false := by
  simp only [intDouble, Int.natAbs_zero, Nat.zero_mul]
  rfl

theorem signBit_pack (negative : Bool) (e : Nat) :
    signBit (BitVec.ofNat 64 ((if negative then 2 ^ 63 else 0) + min e (2047 * 2 ^ 52))) = negative := by
  have bounded := Nat.min_le_right e (2047 * 2 ^ 52)
  generalize min e (2047 * 2 ^ 52) = m at bounded
  rw [signBit, BitVec.toNat_ofNat]
  cases negative <;> simp only [if_true, if_false, Bool.false_eq_true, decide_eq_true_eq, decide_eq_false_iff_not] <;>
    omega

theorem signBit_roundDouble (negative : Bool) (num den : Nat) : signBit (roundDouble negative num den) = negative :=
  signBit_pack negative _

theorem signBit_intDouble (x : Int) : signBit (intDouble x) = decide (x < 0) := signBit_roundDouble _ _ _

theorem classify_intDouble {x : Int} (small : x.natAbs < 2 ^ 53) : classify (intDouble x) = .finite (x * 2 ^ 1074) := by
  rw [intDouble, classify_roundDouble_int _ small]
  simp only [decide_eq_true_eq, signed_natAbs, Int.natCast_pow]
  rfl

theorem int_natAbs_lt (v : BitVec 32) : v.toInt.natAbs < 2 ^ 53 := by
  have := v.isLt; rw [BitVec.toInt_eq_toNat_cond]; split <;> omega

theorem classify_intToDouble (v : BitVec 32) : classify (intToDouble v) = .finite (v.toInt * 2 ^ 1074) :=
  classify_intDouble (int_natAbs_lt v)

theorem doubleAdd_intDouble {x y : Int} (left : x.natAbs < 2 ^ 53) (right : y.natAbs < 2 ^ 53) :
    doubleAdd (intDouble x) (intDouble y) = intDouble (x + y) := by
  rw [doubleAdd, classify_intDouble left, classify_intDouble right]
  simp only [← Int.add_mul]
  split
  · rename_i zero
    have sum : x + y = 0 := (Int.mul_eq_zero.mp zero).resolve_right (by omega)
    have signs : (signBit (intDouble x) && signBit (intDouble y)) = false := by
      simp only [signBit_intDouble, Bool.and_eq_false_iff, decide_eq_false_iff_not]; omega
    rw [signs, sum, intDouble_zero]
  · rw [Int.natAbs_mul, natAbs_two_pow, intDouble]
    simp only [scaled_neg]

theorem roundDouble_scale (negative : Bool) (num den : Nat) {k : Nat} (pos : 0 < k) :
    roundDouble negative (num * k) (den * k) = roundDouble negative num den := by
  simp only [roundDouble, Nat.mul_div_mul_right _ _ pos]
  generalize shiftBelow (num / den) (num / den) = shift
  rw [Nat.mul_right_comm, Nat.mul_div_mul_right _ _ pos, Nat.mul_mod_mul_right, ← Nat.mul_assoc]
  simp only [Nat.mul_lt_mul_right pos, Nat.mul_left_inj (Nat.pos_iff_ne_zero.mp pos)]

theorem doubleDiv_intDouble {x : Int} {n : Nat} (small : x.natAbs < 2 ^ 53) (pos : 0 < n) (below : n < 2 ^ 53) :
    doubleDiv (intDouble x) (intDouble n) = quotientDouble x n := by
  have divisor : ((n : Int) * 2 ^ 1074).natAbs = n * 2 ^ 1074 := by
    rw [Int.natAbs_mul, natAbs_two_pow, Int.natAbs_ofNat]
  have unsigned : decide ((n : Int) < 0) = false := decide_eq_false (by omega)
  rw [doubleDiv, classify_intDouble small, classify_intDouble (by rw [Int.natAbs_ofNat]; exact below)]
  simp only [signBit_intDouble]
  rw [if_neg (by omega), divisor, Int.natAbs_mul, natAbs_two_pow, roundDouble_scale _ _ _ (Nat.two_pow_pos 1074),
    unsigned, Bool.bne_false, quotientDouble]

theorem doubleToInt_int {a : BitVec 64} {x : Int} (holds : classify a = .finite (x * 2 ^ 1074)) :
    doubleToInt a = if -2 ^ 31 ≤ x ∧ x < 2 ^ 31 then some (BitVec.ofInt 32 x) else none := by
  have truncated : (x * 2 ^ 1074).natAbs / 2 ^ 1074 = x.natAbs := by
    rw [Int.natAbs_mul, natAbs_two_pow, Nat.mul_div_cancel _ (Nat.two_pow_pos 1074)]
  have back : (if x * 2 ^ 1074 < 0 then -((x.natAbs : Nat) : Int) else (x.natAbs : Nat)) = x := by
    split <;> omega
  simp only [doubleToInt, holds, truncated, back]

end Exact

end PagedDb
