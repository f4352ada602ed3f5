import Mathlib.Data.List.TakeWhile
import Lox.Proofs.Number.Interval
import Lox.Proofs.Number.Numeral

/-!
The text of a number tells which number it is. Zero, the positive numbers and infinity have
different texts in a tree, made of digits with a point among them, or the word for infinity.
-/

namespace Lox

def spelled (text : List Char) : ℚ :=
  let whole := text.takeWhile (· != '.')
  let fraction := (text.dropWhile (· != '.')).drop 1
  digitsValue (whole ++ fraction) / 10 ^ fraction.length

section

variable {whole digits : List Char}

theorem spelled_whole (h : '.' ∉ whole) : spelled whole = digitsValue whole := by
  have all : ∀ c ∈ whole, (c != '.') = true := by simpa using List.forall_mem_ne'.2 h
  simp only [spelled]
  rw [List.takeWhile_eq_self_iff.2 all, List.dropWhile_eq_nil_iff.2 all]
  simp

theorem spelled_point (h : '.' ∉ whole) (fraction : List Char) :
    spelled (whole ++ '.' :: fraction) =
      digitsValue (whole ++ fraction) / 10 ^ fraction.length := by
  have before : ∀ c ∈ whole, (c != '.') = true := by simpa using List.forall_mem_ne'.2 h
  simp only [spelled]
  rw [List.takeWhile_append_of_pos before, List.dropWhile_append_of_pos before]
  simp

theorem digitsValue_eq (digits : List Char) :
    digitsValue digits = Nat.ofDigitChars 10 digits 0 := by
  rw [digitsValue, Nat.ofDigitChars]
  simp only [Nat.mul_comm]

theorem digitsValue_append_zeros (digits : List Char) (n : Nat) :
    digitsValue (digits ++ List.replicate n '0') = 10 ^ n * digitsValue digits := by
  rw [digitsValue_eq, digitsValue_eq, Nat.ofDigitChars_append, Nat.ofDigitChars_replicate_zero]

theorem digitsValue_zeros_append (n : Nat) (digits : List Char) :
    digitsValue (List.replicate n '0' ++ digits) = digitsValue digits := by
  rw [digitsValue_eq, digitsValue_eq, Nat.ofDigitChars_append, Nat.ofDigitChars_replicate_zero,
    Nat.mul_zero]

theorem digitsValue_toDigits (n : Nat) : digitsValue (Nat.toDigits 10 n) = n := by
  rw [digitsValue_eq, Nat.ofDigitChars_ten_toDigits]

theorem point_not_mem (h : ∀ c ∈ digits, c.isDigit = true) : '.' ∉ digits := by
  intro point
  cases h '.' point

end

namespace NumberStyle

/-- Digits with a point among them, the first one before it. -/
structure Positional (text : List Char) : Prop where
  begins : text.head?.any Char.isDigit = true
  plain : ∀ c ∈ text, c.isDigit = true ∨ c = '.'

theorem Positional.ne_nil {text : List Char} (h : Positional text) : text ≠ [] := by
  rintro rfl
  cases h.begins

theorem positional_of_digits {digits : List Char} (some : digits ≠ [])
    (h : ∀ c ∈ digits, c.isDigit = true) : Positional digits := by
  obtain ⟨c, rest, rfl⟩ := List.exists_cons_of_ne_nil some
  exact ⟨h c List.mem_cons_self, fun d hd => .inl (h d hd)⟩

theorem positional_point {whole fraction : List Char} (some : whole ≠ [])
    (h : ∀ c ∈ whole ++ fraction, c.isDigit = true) : Positional (whole ++ '.' :: fraction) := by
  obtain ⟨c, rest, rfl⟩ := List.exists_cons_of_ne_nil some
  refine ⟨h c List.mem_cons_self, fun d hd => ?_⟩
  simp only [List.mem_append, List.mem_cons] at h hd
  grind

section

variable {digits : List Char} {last : Int}

/-- All digits stand behind the point. -/
theorem layOut_behind (h : last + digits.length ≤ 0) :
    (inTree.layOut digits (last + digits.length - 1)).toList =
      ['0'] ++ '.' :: (List.replicate (-last - digits.length).toNat '0' ++ digits) := by
  rw [layOut, if_pos (by omega)]
  simp [zeros]
  omega

/-- All digits stand before where a point would be. -/
theorem layOut_before (some : digits ≠ []) (h : 0 ≤ last) :
    (inTree.layOut digits (last + digits.length - 1)).toList =
      digits ++ List.replicate last.toNat '0' := by
  have length := List.length_pos_iff.2 some
  have fill : (last + digits.length - 1).toNat + 1 - digits.length = last.toNat := by omega
  rw [layOut, if_neg (by omega)]
  simp only
  rw [if_pos (by omega), fill]
  simp [zeros, inTree]

/-- The point stands between digits. -/
theorem layOut_across (h : last < 0) (within : 0 < last + digits.length) :
    ∃ whole fraction, digits = whole ++ fraction ∧ whole ≠ [] ∧ fraction.length = (-last).toNat ∧
      (inTree.layOut digits (last + digits.length - 1)).toList = whole ++ '.' :: fraction := by
  refine ⟨digits.take ((last + digits.length - 1).toNat + 1),
    digits.drop ((last + digits.length - 1).toNat + 1), (List.take_append_drop _ _).symm, ?_, ?_,
    ?_⟩
  · intro none
    have length := congrArg List.length none
    rw [List.length_take, List.length_nil] at length
    omega
  · rw [List.length_drop]
    omega
  · rw [layOut, if_neg (by omega)]
    simp only
    rw [if_neg (by omega)]
    simp

end

/-- Digits laid out so that the last one stands at some place spell as many units of it. -/
theorem layOut_inTree {digits : List Char} (some : digits ≠ [])
    (h : ∀ c ∈ digits, c.isDigit = true) (last : Int) :
    Positional (inTree.layOut digits (last + digits.length - 1)).toList ∧
      spelled (inTree.layOut digits (last + digits.length - 1)).toList =
        digitsValue digits * 10 ^ last := by
  have ten : (10 : ℚ) ≠ 0 := by norm_num
  have zeros (n : Nat) : ∀ c ∈ List.replicate n '0', c.isDigit = true := by
    intro c hc
    rw [List.eq_of_mem_replicate hc]
    rfl
  have below (neg : last < 0) (n : Nat) (places : n = (-last).toNat) (value : ℚ) :
      value / 10 ^ n = value * 10 ^ last := by
    have unit : (10 : ℚ) ^ last = (10 ^ n)⁻¹ := by
      rw [← zpow_natCast, ← zpow_neg, places]
      congr 1
      omega
    rw [unit, div_eq_mul_inv]
  obtain neg | whole := Int.lt_or_le last 0
  · obtain behind | within := le_or_gt (last + digits.length) 0
    · rw [layOut_behind behind]
      refine ⟨positional_point (by simp) ?_, ?_⟩
      · have all : ∀ c ∈ List.replicate (-last - digits.length).toNat '0' ++ digits,
            c.isDigit = true := List.forall_mem_append.2 ⟨zeros _, h⟩
        exact List.forall_mem_cons.2 ⟨rfl, all⟩
      · have front : ['0'] ++ (List.replicate (-last - digits.length).toNat '0' ++ digits) =
            List.replicate ((-last - digits.length).toNat + 1) '0' ++ digits := rfl
        rw [spelled_point (by decide), front, digitsValue_zeros_append]
        exact below neg _ (by simp; omega) _
    · obtain ⟨front, fraction, rfl, some', places, text⟩ := layOut_across neg within
      rw [text]
      refine ⟨positional_point some' h, ?_⟩
      rw [spelled_point (point_not_mem fun c hc => h c (List.mem_append_left _ hc))]
      exact below neg _ places _
  · have all : ∀ c ∈ digits ++ List.replicate last.toNat '0', c.isDigit = true :=
      List.forall_mem_append.2 ⟨h, zeros _⟩
    rw [layOut_before some whole]
    refine ⟨positional_of_digits (by simp [some]) all, ?_⟩
    rw [spelled_whole (point_not_mem all), digitsValue_append_zeros, Nat.cast_mul, Nat.cast_pow,
      Nat.cast_ofNat, ← zpow_natCast, Int.toNat_of_nonneg whole, mul_comm]

/-- A decimal is laid out as digits that spell it. -/
theorem decimal_inTree (d : Decimal) :
    Positional (inTree.decimal d).toList ∧ spelled (inTree.decimal d).toList = d.value := by
  have all : ∀ c ∈ Nat.toDigits 10 d.digits, c.isDigit = true :=
    fun c => Nat.isDigit_of_mem_toDigits (by norm_num) (by norm_num)
  have digits := layOut_inTree Nat.toDigits_ne_nil all d.exponent
  rwa [digitsValue_toDigits] at digits

/-- The text of a finite number spells a number that rounds to it, and zero only for zero. -/
theorem magnitude_inTree (bits : UInt64) :
    Positional (inTree.magnitude bits).toList ∧
      ((Binary.ofBits bits).mantissa = 0 ∧ spelled (inTree.magnitude bits).toList = 0 ∨
        0 < spelled (inTree.magnitude bits).toList ∧
          (Binary.ofBits bits).Rounds (spelled (inTree.magnitude bits).toList)) := by
  unfold magnitude
  extract_lets x
  split
  · rename_i zero
    have text : (inTree.layOut ['0'] 0).toList = ['0'] := by decide
    rw [text]
    refine ⟨positional_of_digits (by simp) (by simp), .inl ⟨zero, ?_⟩⟩
    rw [spelled_whole (by decide)]
    rfl
  · rename_i some
    obtain ⟨positional, value⟩ := decimal_inTree (Decimal.shortest (Binary.ofBits bits))
    have rounds := Decimal.rounds_shortest some
    rw [← value] at rounds
    exact ⟨positional, .inr ⟨rounds.pos some, rounds⟩⟩

theorem render_inTree {x : Float} (hx : Unsigned x) :
    inTree.render x = if x.isInf then "inf" else inTree.magnitude x.toBits := by
  have sign : (x.toBits >>> 63 == 1) = false := by
    have bits := hx.bits
    have none : (x.toBits >>> 63).toNat = 0 := by
      simp [Nat.shiftRight_eq_div_pow]
      omega
    rw [beq_eq_false_iff_ne]
    intro one
    rw [one] at none
    cases none
  rw [render, hx.isNaN, if_neg (by simp)]
  simp only
  rw [sign, if_neg (by simp), String.empty_append]
  rfl

/-- A number without a sign is written as the word for infinity or positionally. -/
theorem render_inTree_shape {x : Float} (hx : Unsigned x) :
    inTree.render x = "inf" ∨ Positional (inTree.render x).toList := by
  rw [render_inTree hx]
  split
  · exact .inl rfl
  · exact .inr (magnitude_inTree _).1

/-- The numbers without a sign have different texts. -/
theorem render_inTree_inj {x y : Float} (hx : Unsigned x) (hy : Unsigned y)
    (h : inTree.render x = inTree.render y) : x = y := by
  have word (bits : UInt64) : inTree.magnitude bits ≠ "inf" := by
    intro same
    have begins := (magnitude_inTree bits).1.begins
    rw [same] at begins
    cases begins
  suffices bits : x.toBits = y.toBits by
    obtain ⟨⟨_, _⟩⟩ := x
    obtain ⟨⟨_, _⟩⟩ := y
    cases bits
    rfl
  rw [render_inTree hx, render_inTree hy] at h
  split at h <;> split at h
  · rename_i infinite infinite'
    rw [← UInt64.toNat_inj, hx.toNat_toBits_of_isInf infinite, hy.toNat_toBits_of_isInf infinite']
  · exact absurd h.symm (word _)
  · exact absurd h (word _)
  · have regular := Binary.regular_ofBits x.toBits
    have regular' := Binary.regular_ofBits y.toBits
    refine Binary.eq_of_ofBits_eq hx.bits hy.bits ?_
    obtain ⟨zero, value⟩ | ⟨pos, rounds⟩ := (magnitude_inTree x.toBits).2
    · obtain ⟨zero', -⟩ | ⟨pos', -⟩ := (magnitude_inTree y.toBits).2
      · exact regular.eq_of_zero regular' zero zero'
      · rw [← h, value] at pos'
        exact absurd pos' (lt_irrefl _)
    · obtain ⟨-, value'⟩ | ⟨-, rounds'⟩ := (magnitude_inTree y.toBits).2
      · rw [h, value'] at pos
        exact absurd pos (lt_irrefl _)
      · rw [← h] at rounds'
        exact regular.eq_of_rounds regular' rounds rounds'

end NumberStyle

end Lox
