import Mathlib
import Lox.Number.Style

/-!
The numbers that numerals stand for. Each is zero, positive, or infinite if the numeral is too
large; its sign bit is not set, and it is never what is not a number.
-/

namespace Lox

open Float.Model Float.Model.UnpackedFloat

/-- Zero, positive, or infinite, and with no sign. -/
def IsUnsigned : UnpackedFloat → Prop
  | .infinity s | .zero s | .finite s _ _ _ => s = .positive
  | .notANumber => False

namespace IsUnsigned

variable {spec : Format} {m : Nat} {e : Int} {hm : 0 < m}

theorem roundWithAccuracy (spec : Format) (m : Nat) (e : Int) (a : Accuracy) :
    IsUnsigned (UnpackedFloat.roundWithAccuracy spec .positive m e a) := by
  unfold UnpackedFloat.roundWithAccuracy
  simp only
  split <;> rfl

theorem ofNat (spec : Format) (n : Nat) : IsUnsigned (UnpackedFloat.ofNat spec n) := by
  rw [UnpackedFloat.ofNat, UnpackedFloat.ofInt, UnpackedFloat.normalize]
  cases h : compare (n : Int) 0 with
  | lt =>
      have := Int.compare_eq_lt.1 h
      omega
  | eq => rfl
  | gt => exact roundWithAccuracy spec _ _ _

theorem div {x : UnpackedFloat} (h : IsUnsigned x) :
    IsUnsigned (UnpackedFloat.div spec x (.finite .positive m e hm)) := by
  cases x with
  | infinity s | zero s =>
      cases h
      rfl
  | notANumber => cases h
  | finite s n e' hn =>
      cases h
      exact roundWithAccuracy spec _ _ _

theorem ofScientific (spec : Format) (m : Nat) (e : Int) :
    IsUnsigned (UnpackedFloat.ofScientific spec m e) := by
  unfold UnpackedFloat.ofScientific
  split
  · rfl
  split
  · rfl
  split
  · rfl
  split
  · exact roundWithAccuracy spec _ _ _
  · exact div rfl

theorem unpackSign_packComponents {sign : Sign} {exponent : BitVec spec.exponentBits}
    {mantissa : BitVec spec.mantissaBitsWithoutImplicit} :
    unpackSign (packComponents spec sign exponent mantissa) = sign.toBitVec := by
  ext i hi
  obtain rfl : i = 0 := by omega
  have apart : ¬spec.mantissaBitsWithoutImplicit + spec.exponentBits <
      spec.mantissaBitsWithoutImplicit := by omega
  simp [unpackSign, packComponents, BitVec.getLsbD_append, BitVec.getElem_append, apart]

theorem toNat_packComponents {exponent : BitVec spec.exponentBits}
    {mantissa : BitVec spec.mantissaBitsWithoutImplicit} :
    (packComponents spec .positive exponent mantissa).toNat <
      2 ^ (spec.exponentBits + spec.mantissaBitsWithoutImplicit) := by
  have none : (Sign.toBitVec .positive ++ exponent).toNat = exponent.toNat := by
    simp [Sign.toBitVec, BitVec.toNat_append]
  have low := mantissa.isLt
  have high := exponent.isLt
  rw [packComponents, BitVec.toNat_append, none, ← Nat.shiftLeft_add_eq_or_of_lt low,
    Nat.shiftLeft_eq, Nat.pow_add]
  calc exponent.toNat * 2 ^ spec.mantissaBitsWithoutImplicit + mantissa.toNat
      < (exponent.toNat + 1) * 2 ^ spec.mantissaBitsWithoutImplicit := by
        rw [Nat.add_mul]
        omega
    _ ≤ 2 ^ spec.exponentBits * 2 ^ spec.mantissaBitsWithoutImplicit :=
        Nat.mul_le_mul_right _ high

/-- Packed, what is unsigned has no sign bit and is not made what is not a number. -/
theorem exists_pack (spec : Format) {x : UnpackedFloat} (h : IsUnsigned x) :
    ∃ exponent mantissa,
      UnpackedFloat.pack spec x = packComponents spec .positive exponent mantissa ∧
      (exponent = -BitVec.ofNat _ 1 → mantissa = BitVec.ofNat _ 0) := by
  cases x with
  | notANumber => cases h
  | infinity s | zero s =>
      cases h
      exact ⟨_, _, rfl, fun _ => rfl⟩
  | finite s m e hm =>
      cases h
      rw [UnpackedFloat.pack]
      split
      · exact ⟨_, _, rfl, fun _ => rfl⟩
      rename_i small
      split
      · -- The exponent is not that of what is infinite or not a number.
        refine ⟨_, _, rfl, fun top => ?_⟩
        have bits := congrArg BitVec.toNat top
        rw [BitVec.toNat_ofNat, Nat.mod_eq_of_lt (by omega), BitVec.neg_one_eq_allOnes,
          BitVec.toNat_allOnes] at bits
        omega
      · refine ⟨_, _, rfl, fun top => ?_⟩
        have bits := congrArg BitVec.toNat top
        rw [BitVec.neg_one_eq_allOnes, BitVec.toNat_allOnes, BitVec.toNat_ofNat, Nat.zero_mod]
          at bits
        have := Nat.one_lt_two_pow (Nat.pos_iff_ne_zero.1 spec.he)
        omega

theorem unpack_pack {x : UnpackedFloat} (h : IsUnsigned x) :
    IsUnsigned (UnpackedFloat.unpack spec (UnpackedFloat.pack spec x)) := by
  obtain ⟨exponent, mantissa, packed, real⟩ := h.exists_pack spec
  have sign : Sign.ofBitVec (Sign.toBitVec .positive) = .positive := rfl
  rw [packed]
  unfold UnpackedFloat.unpack
  simp only [unpackMantissa_packComponents, unpackExponent_packComponents,
    unpackSign_packComponents, sign]
  split
  · rename_i top
    rw [if_pos (real top)]
    rfl
  split
  · split <;> rfl
  · rfl

end IsUnsigned

structure Unsigned (x : Float) : Prop where
  isNaN : x.isNaN = false
  bits : x.toBits.toNat < 2 ^ 63

/-- There is only one infinity without a sign. -/
theorem Unsigned.toNat_toBits_of_isInf {x : Float} (h : Unsigned x) (infinite : x.isInf = true) :
    x.toBits.toNat = 2047 * 2 ^ 52 := by
  have bits := h.bits
  have infinite : (UnpackedFloat.unpack Format.binary64 x.toBits.toBitVec).isInf = true := infinite
  unfold UnpackedFloat.unpack at infinite
  simp only at infinite
  split at infinite
  · rename_i top
    split at infinite
    · rename_i none
      replace top := congrArg BitVec.toNat top
      replace none := congrArg BitVec.toNat none
      simp [unpackExponent, unpackMantissa, Nat.shiftRight_eq_div_pow, Format.binary64] at top none
      omega
    · cases infinite
  · split at infinite
    · split at infinite <;> cases infinite
    · cases infinite

theorem unsigned_pack {x : UnpackedFloat} (h : IsUnsigned x) :
    Unsigned (.ofModel (Float.Model.pack x)) := by
  obtain ⟨exponent, mantissa, packed, -⟩ := h.exists_pack Format.binary64
  constructor
  · have same : IsUnsigned (Float.Model.pack x).unpack := h.unpack_pack
    show (Float.Model.pack x).unpack.isNaN = false
    cases hx : (Float.Model.pack x).unpack with
    | notANumber =>
        rw [hx] at same
        cases same
    | _ => rfl
  · show (UnpackedFloat.pack Format.binary64 x).toNat < 2 ^ 63
    rw [packed]
    exact IsUnsigned.toNat_packComponents

theorem all_powersOfTen : ∀ i : Fin Float.exactlyRepresentablePowersOfTen.size,
    (match Float.exactlyRepresentablePowersOfTen[i].toModel.unpack with
      | .finite .positive _ _ _ => true
      | _ => false) = true := by
  decide +kernel

/-- The powers of ten that are at hand are positive. -/
theorem finite_powersOfTen {e : Nat} (h : e < Float.exactlyRepresentablePowersOfTen.size) :
    ∃ m k hm, Float.exactlyRepresentablePowersOfTen[e].toModel.unpack =
      .finite .positive m k hm := by
  have this := all_powersOfTen ⟨e, h⟩
  split at this
  · rename_i m k hm unpacked
    exact ⟨m, k, hm, unpacked⟩
  · cases this

theorem unsigned_ofScientific (m e : Nat) : Unsigned (Float.ofScientific m true e) := by
  unfold Float.ofScientific
  split
  · rename_i fast
    have small : e < Float.exactlyRepresentablePowersOfTen.size :=
      Nat.lt_of_le_of_lt fast.2 (by decide)
    obtain ⟨n, k, hn, power⟩ := finite_powersOfTen small
    have whole : IsUnsigned (Float.Model.pack (.ofNat _ m.toUInt64.toNat)).unpack :=
      (IsUnsigned.ofNat Format.binary64 m.toUInt64.toNat).unpack_pack
    have quotient : IsUnsigned
        (UnpackedFloat.div Format.binary64 _ (.finite .positive n k hn)) := whole.div
    rw [← power] at quotient
    exact unsigned_pack quotient
  · exact unsigned_pack (.ofScientific _ _ _)

/-- A numeral stands for zero, a positive number or infinity. -/
theorem unsigned_numeralValue (text : List Char) : Unsigned (numeralValue text) :=
  unsigned_ofScientific _ _

end Lox
