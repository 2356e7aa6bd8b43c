import Mathlib.Algebra.Order.Ring.Abs
import Mathlib.Data.Prod.Lex
import Mathlib.Tactic.Ring

/-!
# Feerates

`CFeeRate` (`policy/feerate.h`, `util/feefrac.h`): a fee for a number of virtual bytes. Fees for
other sizes are rounded up, so that the fee of a whole is no more than the fees of its parts.
-/

namespace Tessera.Policy

/-- `CFeeRate`, a `FeePerVSize`. -/
structure CFeeRate where
  fee : Int
  size : Nat
  deriving DecidableEq

namespace CFeeRate

variable (r : CFeeRate)

def evaluateFeeUp (atSize : Int) : Int := -(-(r.fee * atSize) / r.size)

def evaluateFeeDown (atSize : Int) : Int := r.fee * atSize / r.size

def getFee (virtualBytes : Int) : Int :=
  if r.size = 0 then 0
  else
    let nFee := r.evaluateFeeUp virtualBytes
    if nFee = 0 ∧ virtualBytes ≠ 0 ∧ r.fee < 0 then -1 else nFee

/-- A multiple of a feerate. -/
def mul (a : Int) (r : CFeeRate) : CFeeRate := if r.size = 0 then ⟨0, 0⟩ else ⟨a * r.fee, r.size⟩

/-- `operator>`, by ratio. -/
def gt (a b : CFeeRate) : Bool := decide (b.fee * a.size < a.fee * b.size)

variable {r : CFeeRate}

@[simp] theorem getFee_zero (r : CFeeRate) : r.getFee 0 = 0 := by
  have hzero : r.evaluateFeeUp 0 = 0 := by
    rw [evaluateFeeUp, mul_zero, neg_zero, Int.zero_ediv, neg_zero]
  rw [getFee]
  split
  · rfl
  · dsimp only
    rw [hzero, if_neg fun h => h.2.1 rfl]

theorem getFee_of_nonneg (hfee : 0 ≤ r.fee) (hsize : r.size ≠ 0) (n : Int) : r.getFee n =
    r.evaluateFeeUp n := by
  have hneg : ¬ (r.evaluateFeeUp n = 0 ∧ n ≠ 0 ∧ r.fee < 0) := fun h => Int.not_lt.mpr hfee h.2.2
  rw [getFee, if_neg hsize]
  rw [if_neg hneg]

/-- A fee that is rounded up is the least one that is not below the rate. -/
theorem evaluateFeeUp_le_iff (hsize : r.size ≠ 0) (n fee : Int) :
    r.evaluateFeeUp n ≤ fee ↔ r.fee * n ≤ fee * r.size := by
  have hpos := Int.natCast_pos.mpr (Nat.pos_of_ne_zero hsize)
  have hneg : r.evaluateFeeUp n ≤ fee ↔ -fee ≤ -(r.fee * n) / r.size := by
    rw [evaluateFeeUp]
    omega
  rw [hneg, Int.le_ediv_iff_mul_le hpos, neg_mul, Int.neg_le_neg_iff]

theorem getFee_nonneg (hfee : 0 ≤ r.fee) {n : Int} (hn : 0 ≤ n) : 0 ≤ r.getFee n := by
  by_cases hsize : r.size = 0
  · simp [getFee, hsize]
  · rw [getFee_of_nonneg hfee hsize, evaluateFeeUp, Int.neg_nonneg]
    exact Int.ediv_nonpos_of_nonpos_of_neg (neg_nonpos.mpr (mul_nonneg hfee hn))
      (Int.natCast_pos.mpr (Nat.pos_of_ne_zero hsize))

/-- The fee of a whole is no more than the fees of its parts. -/
theorem getFee_add_le (hfee : 0 ≤ r.fee) (a b : Int) : r.getFee (a + b) ≤ r.getFee a +
    r.getFee b := by
  by_cases hsize : r.size = 0
  · simp [getFee, hsize]
  · rw [getFee_of_nonneg hfee hsize, getFee_of_nonneg hfee hsize, getFee_of_nonneg hfee hsize,
      evaluateFeeUp_le_iff hsize, mul_add, add_mul]
    exact add_le_add ((evaluateFeeUp_le_iff hsize _ _).mp (le_refl _))
      ((evaluateFeeUp_le_iff hsize _ _).mp (le_refl _))

end CFeeRate

/-! ## Fee fractions on machine words

`FeeFrac`: a fee at a size is the quotient of a product of up to 96 bits. Without a type that holds
the product, it is kept as a signed high and an unsigned low half. Whatever the platform has, the
result is the quotient of the integers, rounded as asked for.
-/

/-- The values of a signed integer type. -/
def IsInt (bits : Nat) (n : Int) : Prop := -2 ^ (bits - 1) ≤ n ∧ n < 2 ^ (bits - 1)

instance {bits : Nat} {n : Int} : Decidable (IsInt bits n) := inferInstanceAs (Decidable (_ ∧ _))

def toInt64 (n : Int) : Int := n.bmod (2 ^ 64)

private theorem toInt64_eq {n : Int} (h : IsInt 64 n) : toInt64 n = n :=
  Int.bmod_eq_of_le (by have := h.1; omega) (by have := h.2; omega)

/-- The quotient, rounded down or up. -/
def rounded (n d : Int) (roundDown : Bool) : Int := if roundDown then n / d else -(-n / d)

structure FeeFrac where
  fee : Int
  size : Int
  fee_range : IsInt 64 fee
  size_range : IsInt 32 size

namespace FeeFrac

def mulFallback (a b : Int) : Int × Int :=
  let low := toInt64 (a % 2 ^ 32 * b)
  let high := toInt64 (a / 2 ^ 32 * b)
  (toInt64 (high + low / 2 ^ 32), low % 2 ^ 32)

/-- What corrects a quotient that was truncated: `(mod > 0) - (mod && round_down)`. -/
def correction (mod : Int) (roundDown : Bool) : Int :=
  (if 0 < mod then 1 else 0) - if mod ≠ 0 ∧ roundDown then 1 else 0

def divFallback (n : Int × Int) (d : Int) (roundDown : Bool) : Int :=
  let quotHigh := n.1.tdiv d
  let nLow := toInt64 (toInt64 (n.1.tmod d * 2 ^ 32) + n.2)
  let quotLow := toInt64 (nLow.tdiv d + correction (nLow.tmod d) roundDown)
  toInt64 (toInt64 (quotHigh * 2 ^ 32) + quotLow)

/-- `Mul` over `__int128`, which holds every product. -/
def mul (a b : Int) : Int := a * b

/-- `Div` over `__int128`. -/
def div (n d : Int) (roundDown : Bool) : Int :=
  let quot := toInt64 (n.tdiv d)
  toInt64 (quot + correction (n.tmod d) roundDown)

def ceilDiv (dividend divisor : Int) : Int := dividend / divisor + if dividend % divisor ≠
    0 then 1 else 0

/-- `EvaluateFee`, on a platform with `__int128` or without. -/
def evaluateFee (f : FeeFrac) (int128 roundDown : Bool) (atSize : Int) : Int :=
  if 0 ≤ f.fee ∧ f.fee < 0x200000000 then
    let product := f.fee * atSize % 2 ^ 64
    toInt64 (if roundDown then product / f.size else ceilDiv product f.size)
  else if int128 then div (mul f.fee atSize) f.size roundDown
  else divFallback (mulFallback f.fee atSize) f.size roundDown

def evaluateFeeDown (f : FeeFrac) (int128 : Bool) : Int → Int := f.evaluateFee int128 true

def evaluateFeeUp (f : FeeFrac) (int128 : Bool) : Int → Int := f.evaluateFee int128 false

/-! ### Rounding -/

section Rounding

variable {n d : Int} {roundDown : Bool}

private theorem rounded_add_mul (hd : 0 < d) (q : Int) : rounded (n + d * q) d roundDown =
    rounded n d roundDown + q := by
  have hneg : -(n + d * q) = -n + d * -q := by rw [neg_add, mul_neg]
  unfold rounded
  split
  · rw [Int.add_mul_ediv_left _ _ hd.ne']
  · rw [hneg, Int.add_mul_ediv_left _ _ hd.ne', neg_add, neg_neg]

private theorem ediv_of_abs_lt (hlow : -d < n) (hhigh : n < d) : n / d = if n <
    0 then -1 else 0 := by
  split
  · exact ((Int.ediv_emod_unique (by omega)).mpr
      ⟨(by omega : n + d + d * -1 = n), by omega, by omega⟩).1
  · exact Int.ediv_eq_zero_of_lt (by omega) hhigh

/-- A truncated quotient is corrected by one or not at all, depending on the sign of the remainder.
-/
theorem tdiv_add_correction (hd : 0 < d) : n.tdiv d + correction (n.tmod d) roundDown =
    rounded n d roundDown := by
  have hlow := Int.lt_tmod_of_pos n hd
  have hhigh := Int.tmod_lt_of_pos n hd
  conv_rhs => rw [← Int.tmod_add_mul_tdiv n d, rounded_add_mul hd]
  rw [rounded, correction, ediv_of_abs_lt hlow hhigh, ediv_of_abs_lt (by omega) (by omega)]
  cases roundDown <;> grind

private theorem ceilDiv_eq (hn : 0 ≤ n) (hd : 0 < d) : ceilDiv n d = rounded n d false := by
  have hround : _ = rounded n d false := tdiv_add_correction hd
  have hmod := Int.emod_nonneg n hd.ne'
  rw [← hround, ceilDiv, correction]
  grind

private theorem div_eq (hd : 0 < d) (hfits : IsInt 64 (rounded n d roundDown)) : div n d roundDown =
    rounded n d roundDown := by
  rw [div, toInt64, toInt64, Int.bmod_add_bmod, tdiv_add_correction hd]
  exact toInt64_eq hfits

end Rounding

/-! ### Products of two halves -/

section Halves

variable {a b a' b' : Int}

private theorem mul_bounds {x y m n : Int} (hx : |x| ≤ m) (hy : |y| ≤ n) : -(m * n) ≤ x * y ∧
    x * y ≤ m * n :=
  abs_le.mp (abs_mul x y ▸ mul_le_mul hx hy (abs_nonneg y) ((abs_nonneg x).trans hx))

private theorem mulFallback_eq (ha : IsInt 64 a) (hb : IsInt 32 b) : mulFallback a b =
    (a * b / 2 ^ 32, a * b % 2 ^ 32) := by
  obtain ⟨ha, ha'⟩ := ha
  obtain ⟨hb, hb'⟩ := hb
  have hsum : a * b = a / 2 ^ 32 * b * 2 ^ 32 + a % 2 ^ 32 * b := by
    conv_lhs => rw [← Int.mul_ediv_add_emod a (2 ^ 32)]
    ring
  have hb : |b| ≤ 2 ^ 31 := abs_le.mpr ⟨by omega, by omega⟩
  have hlow := mul_bounds (abs_le.mpr ⟨by omega, by omega⟩ : |a % 2 ^ 32| ≤ 2 ^ 32 - 1) hb
  have hhigh := mul_bounds (abs_le.mpr ⟨by omega, by omega⟩ : |a / 2 ^ 32| ≤ 2 ^ 31) hb
  rw [mulFallback, toInt64_eq (n := a % 2 ^ 32 * b) ⟨by omega, by omega⟩,
    toInt64_eq (n := a / 2 ^ 32 * b) ⟨by omega, by omega⟩, toInt64_eq ⟨by omega, by omega⟩]
  exact Prod.ext (by dsimp only; omega) (by dsimp only; omega)

private theorem mulFallback_lt_iff (ha : IsInt 64 a) (hb : IsInt 32 b) (ha' : IsInt 64 a')
    (hb' : IsInt 32 b') :
    toLex (mulFallback a b) < toLex (mulFallback a' b') ↔ a * b < a' * b' := by
  rw [mulFallback_eq ha hb, mulFallback_eq ha' hb', Prod.Lex.toLex_lt_toLex]
  omega

/-- The quotient of the high half and that of what it leaves make up the quotient. -/
theorem divFallback_eq {n d : Int} {roundDown : Bool} (hd : 0 < d) (hd' : IsInt 32 d)
    (hfits : IsInt 64 (rounded n d roundDown)) :
    divFallback (n / 2 ^ 32, n % 2 ^ 32) d roundDown = rounded n d roundDown := by
  have hlow := Int.lt_tmod_of_pos (n / 2 ^ 32) hd
  have hhigh := Int.tmod_lt_of_pos (n / 2 ^ 32) hd
  have hsplit := Int.tmod_add_mul_tdiv (n / 2 ^ 32) d
  have hd' := hd'.2
  have hnum : n = (n / 2 ^ 32).tmod d * 2 ^ 32 + n % 2 ^ 32 + d *
      ((n / 2 ^ 32).tdiv d * 2 ^ 32) := by
    rw [← mul_assoc]
    omega
  have hquot := (congrArg (rounded · d roundDown) hnum).trans (rounded_add_mul hd _)
  rw [add_comm] at hquot
  have hnLow : toInt64 (toInt64 ((n / 2 ^ 32).tmod d * 2 ^ 32) + n % 2 ^ 32) =
      (n / 2 ^ 32).tmod d * 2 ^ 32 + n % 2 ^ 32 := by
    rw [toInt64, toInt64, Int.bmod_add_bmod]
    exact toInt64_eq ⟨by omega, by omega⟩
  simp only [divFallback, hnLow, tdiv_add_correction hd]
  rw [toInt64, toInt64, toInt64, Int.bmod_add_bmod, Int.add_bmod_bmod, ← hquot]
  exact toInt64_eq hfits

end Halves

/-! ### Fees at a size -/

private theorem evaluateFee_eq {f : FeeFrac} {int128 roundDown : Bool} {atSize : Int}
    (hsize : 0 < f.size) (hat : 0 ≤ atSize) (hat' : IsInt 32 atSize)
    (hfits : IsInt 64 (rounded (f.fee * atSize) f.size roundDown)) :
    f.evaluateFee int128 roundDown atSize = rounded (f.fee * atSize) f.size roundDown := by
  unfold evaluateFee
  split
  next hfee =>
    have hat' := hat'.2
    have hpos := mul_nonneg hfee.1 hat
    have hlt : f.fee * atSize < 2 ^ 64 := by
      have := mul_bounds (abs_le.mpr ⟨by omega, by omega⟩ : |f.fee| ≤ 2 ^ 33)
        (abs_le.mpr ⟨by omega, by omega⟩ : |atSize| ≤ 2 ^ 31 - 1)
      omega
    rw [Int.emod_eq_of_lt hpos hlt, ← toInt64_eq hfits]
    cases roundDown with
    | true => rfl
    | false => rw [← ceilDiv_eq hpos hsize]; rfl
  next =>
    split
    · exact div_eq hsize hfits
    · rw [mulFallback_eq f.fee_range hat', divFallback_eq hsize f.size_range hfits]

/-- The feerate that the fraction stands for. -/
def toCFeeRate (f : FeeFrac) : CFeeRate := ⟨f.fee, f.size.toNat⟩

/-- Fees are exact whenever they fit, and so are the two halves of a product and their quotient. -/
theorem feeFrac_exact {f : FeeFrac} {atSize a b a' b' d : Int} (hsize : 0 < f.size)
    (hat : 0 ≤ atSize) (hat' : IsInt 32 atSize) (ha : IsInt 64 a) (hb : IsInt 32 b)
    (ha' : IsInt 64 a') (hb' : IsInt 32 b') (hd : 0 < d) (hd' : IsInt 32 d) (int128 : Bool) :
    (IsInt 64 (f.toCFeeRate.evaluateFeeDown atSize) →
      f.evaluateFeeDown int128 atSize = f.toCFeeRate.evaluateFeeDown atSize) ∧
    (IsInt 64 (f.toCFeeRate.evaluateFeeUp atSize) →
      f.evaluateFeeUp int128 atSize = f.toCFeeRate.evaluateFeeUp atSize) ∧
    (toLex (mulFallback a b) < toLex (mulFallback a' b') ↔ a * b < a' * b') ∧
    (∀ roundDown, IsInt 64 (rounded (a * b) d roundDown) →
      divFallback (mulFallback a b) d roundDown = rounded (a * b) d roundDown) := by
  have hnat := Int.toNat_of_nonneg hsize.le
  refine ⟨?_, ?_, mulFallback_lt_iff ha hb ha' hb', fun roundDown hfits => ?_⟩
  · rw [CFeeRate.evaluateFeeDown, toCFeeRate, hnat]
    exact (evaluateFee_eq hsize hat hat' : IsInt 64 (rounded _ _ true) → _)
  · rw [CFeeRate.evaluateFeeUp, toCFeeRate, hnat]
    exact (evaluateFee_eq hsize hat hat' : IsInt 64 (rounded _ _ false) → _)
  · rw [mulFallback_eq ha hb, divFallback_eq hd hd' hfits]

/-- A negative fee without wide products, and a negative product. -/
theorem feeFrac_exact_negative : FeeFrac.evaluateFeeDown ⟨-7, 3, by decide, by decide⟩
    false 5 = -12 ∧ FeeFrac.evaluateFeeUp ⟨-7, 3, by decide, by decide⟩ false 5 = -11 ∧
    divFallback (mulFallback (-2 ^ 40) 3) 7 true = -471219269047 := by
  have h := feeFrac_exact (f := ⟨-7, 3, by decide, by decide⟩) (a := -2 ^ 40) (b := 3)
    (d := 7) (by decide)
    (by decide : (0 : Int) ≤ 5) (by decide) (by decide) (by decide) (by decide : IsInt 64 0)
      (by decide : IsInt 32 0) (by decide)
    (by decide) false
  exact ⟨h.1 (by decide), h.2.1 (by decide), h.2.2.2 true (by decide)⟩

end FeeFrac

end Tessera.Policy
