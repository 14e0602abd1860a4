import Mathlib
import ScriptEngine.Heap.Basic

/-!
Whole numbers among doubles. Below `2 ^ 53` every whole number is a double, with either sign, and products of
them are exact. A zero has a sign, too: that of a product is negative if just one of the factors is.
-/

namespace ScriptEngine.Double

/-- A double is a whole number with a sign, which also zero has. -/
structure Whole (x : Double) (negative : Bool) (m : Nat) : Prop where
  sign : x.isNegative = negative
  finite : x.isFinite = true
  magnitude : x.magnitude = m * unitsPerOne

variable {x y : Double} {negative n : Bool} {rest m k : Nat}

theorem word_withSign (h : rest < 2 ^ 63) :
    (withSign negative rest).word = if negative then 2 ^ 63 + rest else rest := by
  unfold word withSign
  refine UInt64.toNat_ofNat_of_lt' ?_
  rw [UInt64.size]
  split <;> omega

theorem isNegative_withSign (h : rest < 2 ^ 63) : (withSign negative rest).isNegative = negative := by
  unfold isNegative
  rw [word_withSign h]
  cases negative with
  | true => simp
  | false => simpa using h

theorem exponent_withSign (h : rest < 2 ^ 63) : (withSign negative rest).exponent = rest / 2 ^ 52 := by
  unfold exponent
  rw [word_withSign h]
  split <;> omega

theorem fraction_withSign (h : rest < 2 ^ 63) : (withSign negative rest).fraction = rest % 2 ^ 52 := by
  unfold fraction
  rw [word_withSign h]
  split <;> omega

/-- A significand with its leading bit, at a scale. -/
theorem withSign_normal (negative : Bool) {scale significand : Nat} (hscale : scale < 2046) (hlow : 2 ^ 52 ≤ significand)
    (hhigh : significand < 2 ^ 53) :
    let x := withSign negative (scale * 2 ^ 52 + significand)
    x.isNegative = negative ∧ x.isFinite = true ∧ x.magnitude = significand * 2 ^ scale := by
  have hrest : scale * 2 ^ 52 + significand < 2 ^ 63 := by omega
  have hexponent : (withSign negative (scale * 2 ^ 52 + significand)).exponent = scale + 1 := by
    rw [exponent_withSign hrest]
    omega
  have hfraction : (withSign negative (scale * 2 ^ 52 + significand)).fraction = significand - 2 ^ 52 := by
    rw [fraction_withSign hrest]
    omega
  refine ⟨isNegative_withSign hrest, ?_, ?_⟩
  · unfold isFinite
    rw [hexponent, bne_iff_ne]
    omega
  · unfold magnitude Double.significand Double.scale
    rw [hexponent, hfraction, if_neg (by omega), Nat.add_sub_cancel, Nat.add_sub_cancel' hlow]

theorem unitsPerOne_pos : 0 < unitsPerOne := Nat.two_pow_pos _

theorem log2_shifted (hm : m ≠ 0) (k : Nat) : (m * 2 ^ k).log2 = m.log2 + k := by
  have hpos : 0 < 2 ^ k := Nat.two_pow_pos k
  rw [Nat.log2_eq_iff (Nat.mul_ne_zero hm hpos.ne'), Nat.add_right_comm, pow_add, pow_add _ (m.log2 + 1)]
  exact ⟨Nat.mul_le_mul_right _ (Nat.log2_self_le hm), Nat.mul_lt_mul_of_pos_right Nat.lt_log2_self hpos⟩

theorem whole_zero (negative : Bool) : Whole (zero negative) negative 0 := by
  constructor
  · exact isNegative_withSign (by decide)
  · cases negative <;> rfl
  · have hfraction : (zero negative).significand = 0 := by cases negative <;> rfl
    rw [Double.magnitude, hfraction, Nat.zero_mul, Nat.zero_mul]

theorem divideToEven_mul {a b : Nat} (hb : 0 < b) : divideToEven (a * b) b = a := by
  unfold divideToEven
  rw [Nat.mul_mod_left, Nat.mul_div_cancel _ hb, if_pos (by omega)]

/-- A number of `p + 1` bits at most, shifted to the left until it has all of them. -/
theorem shifted_bounds {p : Nat} (hm : m ≠ 0) (hp : m.log2 ≤ p) :
    2 ^ p ≤ m * 2 ^ (p - m.log2) ∧ m * 2 ^ (p - m.log2) < 2 ^ (p + 1) := by
  have hlow : 2 ^ p = 2 ^ m.log2 * 2 ^ (p - m.log2) := by
    rw [← pow_add]
    congr 1
    omega
  have hhigh : 2 ^ (p + 1) = 2 ^ (m.log2 + 1) * 2 ^ (p - m.log2) := by
    rw [← pow_add]
    congr 1
    omega
  rw [hlow, hhigh]
  exact ⟨Nat.mul_le_mul_right _ (Nat.log2_self_le hm), Nat.mul_lt_mul_of_pos_right Nat.lt_log2_self (Nat.two_pow_pos _)⟩

/-- Rounding leaves a significand that is not too long alone. -/
theorem round_shifted (negative : Bool) (hm : m ≠ 0) (hbits : m < 2 ^ 53) {p den : Nat} (hp : 53 ≤ p) (hden : 0 < den) :
    round negative (m * 2 ^ p * den) den =
      let rest := (m.log2 + p - 52) * 2 ^ 52 + m * 2 ^ (52 - m.log2)
      if 2047 * 2 ^ 52 ≤ rest then infinity negative else withSign negative rest := by
  have hlarge : ¬ m * 2 ^ p < 2 ^ 53 := not_lt.mpr
    ((Nat.pow_le_pow_right (by decide) hp).trans (Nat.le_mul_of_pos_left _ (Nat.pos_of_ne_zero hm)))
  have hlog : m.log2 < 53 := (Nat.log2_lt hm).mpr hbits
  -- All bits of the number fit before the point of the significand.
  have hsplit : m * 2 ^ p * den = m * 2 ^ (52 - m.log2) * (den * 2 ^ (m.log2 + p - 52)) := by
    rw [show 2 ^ p = 2 ^ (52 - m.log2) * 2 ^ (m.log2 + p - 52) by rw [← pow_add]; congr 1; omega]
    ring
  have hsignificand : divideToEven (m * 2 ^ p * den) (den * 2 ^ (m.log2 + p - 52)) = m * 2 ^ (52 - m.log2) := by
    rw [hsplit]
    exact divideToEven_mul (Nat.mul_pos hden (Nat.two_pow_pos _))
  unfold round
  simp only [Nat.mul_div_cancel _ hden, if_neg hlarge, log2_shifted hm, hsignificand]

/-- Rounding leaves whole numbers below `2 ^ 53` alone. -/
theorem whole_round (hbits : m < 2 ^ 53) {den : Nat} (hden : 0 < den) :
    Whole (round negative (m * unitsPerOne * den) den) negative m := by
  by_cases hm : m = 0
  · have hround : round negative (0 * unitsPerOne * den) den = zero negative := by
      unfold round
      simp [divideToEven, zero, hden]
    rw [hm, hround]
    exact whole_zero negative
  have hlog : m.log2 < 53 := (Nat.log2_lt hm).mpr hbits
  obtain ⟨hlow, hhigh⟩ := shifted_bounds hm (p := 52) (by omega)
  have hround := round_shifted negative hm hbits (p := 1074) (by omega) hden
  rw [if_neg (by omega)] at hround
  obtain ⟨hsign, hfinite, hmagnitude⟩ :=
    withSign_normal negative (show m.log2 + 1074 - 52 < 2046 by omega) hlow hhigh
  rw [← hround] at hsign hfinite hmagnitude
  refine ⟨hsign, hfinite, hmagnitude.trans ?_⟩
  rw [Nat.mul_assoc, ← pow_add]
  exact congrArg (fun p => m * 2 ^ p) (by omega)

theorem whole_ofInt {a : Int} (h : a.natAbs < 2 ^ 53) : Whole (ofInt a) (a < 0) a.natAbs := by
  have hround : Whole (round (a < 0) (a.natAbs * unitsPerOne * 1) 1) (a < 0) a.natAbs := whole_round h Nat.one_pos
  rwa [Nat.mul_one] at hround

theorem Whole.isNaN (h : Whole x n m) : x.isNaN = false := by
  have := h.finite
  unfold isFinite at this
  unfold Double.isNaN
  simp_all

theorem Whole.isInfinite (h : Whole x n m) : x.isInfinite = false := by
  have := h.finite
  unfold isFinite at this
  unfold Double.isInfinite
  simp_all

theorem Whole.mul {n' : Bool} (h : Whole x n m) (h' : Whole y n' k) (hk : m * k < 2 ^ 53) :
    Whole (x.mul y) (n != n') (m * k) := by
  have hmul : x.mul y = round (n != n') (m * k * unitsPerOne * unitsPerOne) unitsPerOne := by
    unfold Double.mul
    rw [h.isNaN, h'.isNaN, h.isInfinite, h'.isInfinite, h.sign, h'.sign, h.magnitude, h'.magnitude]
    simp only [Bool.or_self, Bool.false_eq_true, if_false]
    generalize unitsPerOne = units
    congr 1
    ring
  rw [hmul]
  exact whole_round hk unitsPerOne_pos

/-- The sign bit is turned, and nothing else. -/
theorem word_neg (x : Double) : x.neg.word = if x.isNegative then x.word - 2 ^ 63 else 2 ^ 63 + x.word := by
  have hword : x.neg.word = x.word ^^^ 2 ^ 63 := by
    unfold word neg
    rw [UInt64.toNat_xor]
    rfl
  have hlt : x.word < 2 ^ 64 := x.bits.toNat_lt
  have hflip : ∀ k < 2 ^ 63, k ^^^ 2 ^ 63 = 2 ^ 63 + k := by
    intro k hk
    refine Nat.eq_of_testBit_eq fun i => ?_
    rw [Nat.testBit_xor, Nat.testBit_two_pow]
    rcases Nat.lt_trichotomy i 63 with hi | rfl | hi
    · rw [Nat.testBit_two_pow_add_gt hi, decide_eq_false (by omega), Bool.xor_false]
    · rw [Nat.testBit_two_pow_add_eq, decide_eq_true rfl, Bool.xor_true]
    · have hpow : 2 ^ 64 ≤ 2 ^ i := Nat.pow_le_pow_right (by decide) hi
      rw [Nat.testBit_lt_two_pow (by omega), Nat.testBit_lt_two_pow (by omega), decide_eq_false (by omega), Bool.xor_false]
  rw [hword]
  unfold isNegative
  by_cases hx : 2 ^ 63 ≤ x.word
  · have hback := hflip (x.word - 2 ^ 63) (by omega)
    rw [Nat.add_sub_cancel' hx] at hback
    rw [if_pos (by simpa using hx)]
    calc x.word ^^^ 2 ^ 63 = x.word - 2 ^ 63 ^^^ 2 ^ 63 ^^^ 2 ^ 63 := by rw [hback]
      _ = x.word - 2 ^ 63 := by rw [Nat.xor_assoc, Nat.xor_self, Nat.xor_zero]
  · rw [if_neg (by simpa using hx)]
    exact hflip _ (by omega)

/-- The parts of a double whose sign is turned. -/
theorem parts_neg (x : Double) :
    x.neg.isNegative = !x.isNegative ∧ x.neg.exponent = x.exponent ∧ x.neg.fraction = x.fraction := by
  have hlt : x.word < 2 ^ 64 := x.bits.toNat_lt
  have hword := word_neg x
  unfold exponent fraction isNegative at *
  by_cases hx : 2 ^ 63 ≤ x.word
  · rw [if_pos (by simpa using hx)] at hword
    rw [hword, decide_eq_true hx]
    refine ⟨decide_eq_false (by omega), by omega, by omega⟩
  · rw [if_neg (by simpa using hx)] at hword
    rw [hword, decide_eq_false hx]
    refine ⟨decide_eq_true (by omega), by omega, by omega⟩

theorem Whole.neg (h : Whole x n m) : Whole x.neg (!n) m := by
  obtain ⟨hsign, hexponent, hfraction⟩ := parts_neg x
  constructor
  · rw [hsign, h.sign]
  · rw [isFinite, hexponent]
    exact h.finite
  · rw [← h.magnitude]
    unfold Double.magnitude Double.significand Double.scale
    rw [hexponent, hfraction]

/-- The number, if it has no sign that a small integer cannot have. -/
theorem Whole.truncate (h : Whole x n m) : x.truncate = if n then -(m : Int) else m := by
  have hwhole : x.magnitude / unitsPerOne = m := by
    rw [h.magnitude, Nat.mul_div_cancel _ unitsPerOne_pos]
  unfold Double.truncate
  rw [if_pos h.finite, h.sign]
  have : (x.magnitude : Int) / unitsPerOne = m := by
    rw [← hwhole]
    rfl
  simp only [this]

theorem Whole.isIntegral (h : Whole x n m) : x.isIntegral = true := by
  unfold Double.isIntegral
  rw [h.finite, h.magnitude, Nat.mul_mod_left]
  rfl

theorem Whole.isZero (h : Whole x n m) : x.isZero = (m == 0) := by
  unfold Double.isZero
  rw [h.finite, h.magnitude, Bool.true_and]
  rw [Bool.eq_iff_iff, beq_iff_eq, beq_iff_eq, Nat.mul_eq_zero, or_iff_left unitsPerOne_pos.ne']

/-- There are just two zeros. -/
theorem Whole.eq_zero (h : Whole x n 0) : x = zero n := by
  have hmagnitude := h.magnitude
  rw [Nat.zero_mul, Double.magnitude, Nat.mul_eq_zero, or_iff_left (Nat.two_pow_pos _).ne'] at hmagnitude
  unfold significand at hmagnitude
  have hsign := h.sign
  have hlt : x.word < 2 ^ 64 := x.bits.toNat_lt
  have hword : x.word = (zero n).word := by
    rw [zero, word_withSign (by decide)]
    unfold isNegative at hsign
    unfold exponent fraction at hmagnitude
    split at hmagnitude
    · cases n with
      | true =>
        rw [decide_eq_true_eq] at hsign
        simp only [if_true]
        omega
      | false =>
        rw [decide_eq_false_iff_not] at hsign
        simp only [Bool.false_eq_true, if_false]
        omega
    · omega
  cases x
  exact congrArg Double.mk (UInt64.toNat_inj.mp hword)

end ScriptEngine.Double

namespace ScriptEngine.Heap

open Double

variable {x : Double} {n : Bool} {m : Nat}

/-- Whole numbers below `2 ^ 53` are small integers, but for a zero with a sign. -/
theorem smiOfDouble_whole (h : x.Whole n m) (hm : m < 2 ^ 53) :
    smiOfDouble? x = if m = 0 ∧ n = true then none else some (.smi (if n then -(m : Int) else m)) := by
  unfold smiOfDouble?
  rw [h.isIntegral, h.isZero, h.sign, h.truncate]
  by_cases hzero : m = 0 ∧ n = true
  · rw [if_pos hzero, hzero.1, hzero.2]
    rfl
  · have hsmi : ∀ a : Int, a.natAbs = m → Word.ofSmi? a = some (.smi a) := fun a ha =>
      if_pos (by unfold Word.smiMin Word.smiMax; omega)
    have hsign : (!(m == 0 && n)) = true := by cases n <;> simp_all
    rw [if_neg hzero, Bool.true_and, hsign, Bool.true_and]
    cases n with
    | true => rw [if_pos rfl, if_pos (decide_eq_true (by omega)), hsmi _ (by omega)]
    | false => rw [if_neg Bool.false_ne_true, if_pos (decide_eq_true (by omega)), hsmi _ (by omega)]

end ScriptEngine.Heap
