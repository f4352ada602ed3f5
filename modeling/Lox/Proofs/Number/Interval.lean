import Mathlib.Algebra.Order.Field.Rat
import Mathlib.Tactic.FieldSimp
import Mathlib.Tactic.Linarith
import Mathlib.Tactic.Positivity
import Mathlib.Tactic.Ring
import Lox.Number.Decimal

/-!
The rational numbers that round to a magnitude. They form an interval around it, and the intervals
of two magnitudes have no number in common, so that a decimal that reads back as a magnitude tells
which one that is. The decimal with the fewest digits is one of those.
-/

namespace Lox

def Decimal.value (d : Decimal) : ℚ := d.digits * 10 ^ d.exponent

namespace Binary

/-- A quarter of the last binary place of a magnitude. -/
def quarter (x : Binary) : ℚ := 2 ^ (x.exponent - 2)

theorem quarter_pos (x : Binary) : 0 < x.quarter := zpow_pos (by norm_num) _

theorem zpow_eq_div {b : ℚ} (hb : b ≠ 0) (z : Int) : b ^ z = b ^ z.toNat / b ^ (-z).toNat := by
  rw [← zpow_natCast b z.toNat, ← zpow_natCast b (-z).toNat, ← zpow_sub₀ hb]
  congr 1
  omega

/-- A decimal is compared with a number of quarters as the two numbers are. -/
theorem compareDecimal_eq (x : Binary) (d : Decimal) (count : Nat) :
    x.compareDecimal d count = compare d.value (count * x.quarter) := by
  -- What both sides are multiplied by for whole numbers to be compared.
  let scale : ℚ := 10 ^ (-d.exponent).toNat * 2 ^ (2 - x.exponent).toNat
  let left := d.digits * 10 ^ d.exponent.toNat * 2 ^ (2 - x.exponent).toNat
  let right := count * 2 ^ (x.exponent - 2).toNat * 10 ^ (-d.exponent).toNat
  have positive : 0 < scale := by positivity
  have hl : (left : ℚ) = d.value * scale := by
    have power := zpow_eq_div (show (10 : ℚ) ≠ 0 by norm_num) d.exponent
    simp only [left, scale, Nat.cast_mul, Nat.cast_pow, Nat.cast_ofNat]
    rw [Decimal.value, power]
    field_simp
  have hr : (right : ℚ) = count * x.quarter * scale := by
    have power := zpow_eq_div (show (2 : ℚ) ≠ 0 by norm_num) (x.exponent - 2)
    rw [neg_sub] at power
    simp only [right, scale, Nat.cast_mul, Nat.cast_pow, Nat.cast_ofNat]
    rw [quarter, power]
    field_simp
  calc x.compareDecimal d count = cmp left right := (cmp_eq_compare _ _).symm
    _ = cmp (left : ℚ) right := (Nat.strictMono_cast.cmp_map_eq _ _).symm
    _ = cmp d.value (count * x.quarter) := by rw [hl, hr, cmp_mul_pos_right positive]
    _ = compare d.value (count * x.quarter) := cmp_eq_compare _ _

/-- The ends of the interval around a magnitude; they belong to it when the mantissa is even. -/
structure Rounds (x : Binary) (q : ℚ) : Prop where
  above : x.low * x.quarter < q ∨ x.mantissa % 2 = 0 ∧ q = x.low * x.quarter
  below : q < x.high * x.quarter ∨ x.mantissa % 2 = 0 ∧ q = x.high * x.quarter

section

variable {x : Binary} {d : Decimal}

/-- A decimal is said to read back as the magnitudes that it rounds to. -/
theorem readsBack_iff : x.readsBack d = true ↔ x.Rounds d.value := by
  simp only [readsBack, compareDecimal_eq, Bool.and_eq_true, Bool.or_eq_true, beq_iff_eq,
    compare_lt_iff_lt, compare_gt_iff_gt, compare_eq_iff_eq]
  exact ⟨fun h => ⟨h.1, h.2⟩, fun h => ⟨h.above, h.below⟩⟩

/-- Only positive numbers round to a magnitude other than zero. -/
theorem Rounds.pos {q : ℚ} (h : x.Rounds q) (some : x.mantissa ≠ 0) : 0 < q := by
  have low : 0 < x.low := by
    unfold Binary.low
    split <;> omega
  have low' : 0 < x.low * x.quarter := mul_pos (by exact_mod_cast low) x.quarter_pos
  obtain above | ⟨-, rfl⟩ := h.above
  · exact low'.trans above
  · exact low'

theorem readsBack_of_onGrid? {place : Int} (h : x.onGrid? place = some d) :
    x.readsBack d = true := by
  unfold onGrid? at h
  simp only at h
  split at h
  · split at h <;> cases h <;> assumption
  · cases h
    assumption
  · cases h
    assumption
  · cases h

/-- The magnitude itself rounds to it. -/
theorem rounds_exact (some : x.mantissa ≠ 0) : x.Rounds x.exact.value := by
  have value : x.exact.value = 4 * x.mantissa * x.quarter := by
    have two : (2 : ℚ) ≠ 0 := by norm_num
    have place : (2 : ℚ) ^ x.exponent = 4 * x.quarter := by
      rw [quarter, zpow_sub₀ two]
      norm_num
      ring
    rw [exact]
    split
    · rename_i whole
      have power : (2 : ℚ) ^ x.exponent.toNat = 2 ^ x.exponent := by
        rw [← zpow_natCast, Int.toNat_of_nonneg whole]
      simp only [Decimal.value, Nat.pow_eq, Nat.cast_mul, Nat.cast_pow, Nat.cast_ofNat, zpow_zero,
        mul_one]
      rw [power, place]
      ring
    · rename_i broken
      have power : (5 : ℚ) ^ (-x.exponent).toNat * 10 ^ x.exponent = 2 ^ x.exponent := by
        have neg : ((-x.exponent).toNat : Int) = -x.exponent := Int.toNat_of_nonneg (by omega)
        rw [← zpow_natCast, neg, show (10 : ℚ) = 5 * 2 by norm_num, mul_zpow, ← mul_assoc,
          ← zpow_add₀ (by norm_num : (5 : ℚ) ≠ 0), neg_add_cancel, zpow_zero, one_mul]
      simp only [Decimal.value, Nat.pow_eq, Nat.cast_mul, Nat.cast_pow, Nat.cast_ofNat]
      rw [mul_assoc, power, place]
      ring
  have low : x.low < 4 * x.mantissa := by
    unfold Binary.low
    split <;> omega
  have high : 4 * x.mantissa < x.high := by
    unfold Binary.high
    omega
  have low' : (x.low : ℚ) < 4 * x.mantissa := by exact_mod_cast low
  have high' : (4 * x.mantissa : ℚ) < x.high := by exact_mod_cast high
  rw [value]
  exact ⟨.inl (mul_lt_mul_of_pos_right low' x.quarter_pos),
    .inl (mul_lt_mul_of_pos_right high' x.quarter_pos)⟩

end

end Binary

theorem Decimal.value_trim (n : Nat) (d : Decimal) : (trim n d).value = d.value := by
  induction n generalizing d with
  | zero => rfl
  | succ n ih =>
      rw [trim]
      split
      · rename_i zero
        have digits : d.digits = 10 * (d.digits / 10) := by omega
        have ten : (10 : ℚ) ≠ 0 := by norm_num
        rw [ih, value, value]
        conv => rhs; rw [digits]
        simp only [Nat.cast_mul, Nat.cast_ofNat]
        rw [zpow_add₀ ten, zpow_one]
        ring
      · rfl

/-- The decimal with the fewest digits rounds to the magnitude. -/
theorem Decimal.rounds_shortest {x : Binary} (some : x.mantissa ≠ 0) :
    x.Rounds (shortest x).value := by
  rw [shortest, value_trim]
  cases found : (List.range' 1 17).findSome? fun (count : Nat) => x.onGrid? (x.scale - count) with
  | none => exact Binary.rounds_exact some
  | some d =>
      obtain ⟨count, -, read⟩ := List.exists_of_findSome?_eq_some found
      exact Binary.readsBack_iff.1 (Binary.readsBack_of_onGrid? read)

namespace Binary

structure Regular (x : Binary) : Prop where
  bound : x.mantissa < 2 ^ 53
  least : -1074 ≤ x.exponent
  normal : -1074 < x.exponent → 2 ^ 52 ≤ x.mantissa
  narrow : x.narrowBelow = true ↔ x.mantissa = 2 ^ 52 ∧ -1074 < x.exponent

/-- The smaller of two regular magnitudes has the smaller exponent, or else the smaller mantissa. -/
def Before (x y : Binary) : Prop :=
  x.exponent < y.exponent ∨ x.exponent = y.exponent ∧ x.mantissa < y.mantissa

namespace Regular

variable {x y : Binary} {q : ℚ}

theorem quarter_le (h : x.exponent < y.exponent) : 2 * x.quarter ≤ y.quarter := by
  have two : (2 : ℚ) * x.quarter = 2 ^ (x.exponent - 1) := by
    rw [quarter, ← zpow_one_add₀ (by norm_num)]
    congr 1
    omega
  rw [two, quarter]
  exact zpow_le_zpow_right₀ (by norm_num) (by omega)

/-- Neighbouring intervals meet in one point at most, and only one of them has it. -/
theorem high_le_low (hx : x.Regular) (hy : y.Regular) (h : x.Before y) :
    x.high * x.quarter ≤ y.low * y.quarter ∧
      (x.mantissa % 2 = 0 → y.mantissa % 2 = 0 → x.high * x.quarter ≠ y.low * y.quarter) := by
  have positive := x.quarter_pos
  have bound := hx.bound
  obtain further | ⟨same, less⟩ := h
  · have above : -1074 < y.exponent := Int.lt_of_le_of_lt hx.least further
    have normal := hy.normal above
    have narrow := hy.narrow
    -- The largest mantissa is odd.
    have le : x.high ≤ 2 * y.low ∧ (x.mantissa % 2 = 0 → x.high < 2 * y.low) := by
      unfold Binary.high Binary.low
      split <;> grind
    have step : y.low * (2 * x.quarter) ≤ y.low * y.quarter :=
      mul_le_mul_of_nonneg_left (quarter_le further) (Nat.cast_nonneg _)
    have order : (x.high : ℚ) ≤ 2 * y.low := by exact_mod_cast le.1
    refine ⟨by nlinarith, fun even _ equal => ?_⟩
    have strict : (x.high : ℚ) < 2 * y.low := by exact_mod_cast le.2 even
    nlinarith
  · have unit : y.quarter = x.quarter := by rw [quarter, quarter, same]
    have le : x.high ≤ y.low ∧ (x.mantissa % 2 = 0 → y.mantissa % 2 = 0 → x.high ≠ y.low) := by
      unfold Binary.high Binary.low
      split <;> omega
    rw [unit]
    refine ⟨mul_le_mul_of_nonneg_right (by exact_mod_cast le.1) positive.le, fun even even' h => ?_⟩
    exact le.2 even even' (by exact_mod_cast mul_right_cancel₀ positive.ne' h)

theorem not_rounds_of_before (hx : x.Regular) (hy : y.Regular) (h : x.Before y)
    (rounds : x.Rounds q) : ¬y.Rounds q := by
  intro rounds'
  obtain ⟨order, meet⟩ := hx.high_le_low hy h
  obtain below | ⟨even, below⟩ := rounds.below
  · obtain above | ⟨-, above⟩ := rounds'.above
    · exact absurd (below.trans_le order) above.not_gt
    · exact absurd (below.trans_le order) above.not_lt
  · obtain above | ⟨even', above⟩ := rounds'.above
    · exact absurd (order.trans_lt above) below.not_gt
    · exact meet even even' (below.symm.trans above)

/-- Mantissa and exponent are all there is to a regular magnitude. -/
theorem ext (hx : x.Regular) (hy : y.Regular) (mantissa : x.mantissa = y.mantissa)
    (exponent : x.exponent = y.exponent) : x = y := by
  have narrow : x.narrowBelow = y.narrowBelow := by
    rw [Bool.eq_iff_iff, hx.narrow, hy.narrow, exponent, mantissa]
  obtain ⟨m, e, n⟩ := x
  cases exponent
  cases mantissa
  cases narrow
  rfl

/-- There is one zero. -/
theorem eq_of_zero (hx : x.Regular) (hy : y.Regular) (zero : x.mantissa = 0)
    (zero' : y.mantissa = 0) : x = y := by
  have exponent {z : Binary} (hz : z.Regular) (zero : z.mantissa = 0) : z.exponent = -1074 := by
    have least := hz.least
    have normal := hz.normal
    omega
  exact hx.ext hy (zero.trans zero'.symm)
    ((exponent hx zero).trans (exponent hy zero').symm)

/-- A number rounds to one magnitude only. -/
theorem eq_of_rounds (hx : x.Regular) (hy : y.Regular) (rounds : x.Rounds q)
    (rounds' : y.Rounds q) : x = y := by
  have first : ¬x.Before y := fun h => hx.not_rounds_of_before hy h rounds rounds'
  have second : ¬y.Before x := fun h => hy.not_rounds_of_before hx h rounds' rounds
  unfold Before at first second
  exact hx.ext hy (by omega) (by omega)

end Regular

section bits

variable (bits : UInt64)

def field : Nat := bits.toNat / 2 ^ 52 % 2 ^ 11

def fraction : Nat := bits.toNat % 2 ^ 52

theorem ofBits_eq : ofBits bits =
    if field bits = 0 then ⟨fraction bits, -1074, false⟩
    else ⟨2 ^ 52 + fraction bits, field bits - 1075, fraction bits == 0 && field bits > 1⟩ := by
  have hf : ((bits >>> 52) &&& 0x7FF).toNat = field bits := by
    simp [field, Nat.shiftRight_eq_div_pow, Nat.and_two_pow_sub_one_eq_mod _ 11]
  have hm : (bits &&& 0xFFFFFFFFFFFFF).toNat = fraction bits := by
    simp [fraction, Nat.and_two_pow_sub_one_eq_mod _ 52]
  simp only [ofBits, hf, hm, beq_iff_eq]
  rfl

theorem regular_ofBits : (ofBits bits).Regular := by
  have small : fraction bits < 2 ^ 52 := Nat.mod_lt _ (by norm_num)
  rw [ofBits_eq]
  split
  · exact ⟨by simp only; omega, by simp, by simp, by simp⟩
  · exact ⟨by simp only; omega, by simp only; omega, by simp, by simp; omega⟩

/-- The bits without a sign are given by the magnitude. -/
theorem eq_of_ofBits_eq {bits bits' : UInt64} (h : bits.toNat < 2 ^ 63)
    (h' : bits'.toNat < 2 ^ 63) (same : ofBits bits = ofBits bits') : bits = bits' := by
  have parts (bits : UInt64) (h : bits.toNat < 2 ^ 63) :
      bits.toNat = field bits * 2 ^ 52 + fraction bits := by
    unfold field fraction
    omega
  have small (bits : UInt64) : fraction bits < 2 ^ 52 := Nat.mod_lt _ (by norm_num)
  have first := small bits
  have second := small bits'
  apply UInt64.toNat_inj.1
  rw [parts bits h, parts bits' h']
  rw [ofBits_eq, ofBits_eq] at same
  split at same <;> split at same <;> simp only [Binary.mk.injEq] at same <;> omega

end bits

end Binary

end Lox
