import ScriptEngine.Graph.Const
import ScriptEngine.Proofs.Heap.Words

/-!
Machine arithmetic, as arithmetic of integers. A word that is read with its sign is an integer of 64 bits;
sums, differences and products are those of integers, reduced to that range. The tests for overflow tell
whether the reduction has changed the result.
-/

namespace ScriptEngine

namespace Word

/-- The integers that a word can stand for when it is read with its sign. -/
def Fits (n : Int) : Prop := -(2 ^ 63) ≤ n ∧ n < 2 ^ 63

instance (n : Int) : Decidable (Fits n) := inferInstanceAs (Decidable (_ ∧ _))

variable {a b : Word} {n : Int}

theorem signed_eq_toInt (a : Word) : a.signed = a.bits.toBitVec.toInt := rfl

theorem signed_fits (a : Word) : Fits a.signed := by
  rw [signed_eq_toInt]
  exact ⟨BitVec.le_toInt _, BitVec.toInt_lt⟩

theorem signed_inj (h : a.signed = b.signed) : a = b := by
  rw [signed_eq_toInt, signed_eq_toInt] at h
  cases a
  cases b
  exact congrArg Word.mk (UInt64.eq_of_toBitVec_eq (BitVec.eq_of_toInt_eq h))

theorem holds_eq (a b : Word) : Cond.eq.holds a b = (a == b) := by
  have : a.signed = b.signed ↔ a = b := ⟨signed_inj, fun h => h ▸ rfl⟩
  simp [Cond.holds, this, Bool.beq_eq_decide_eq]

theorem signed_ofInt (n : Int) : (ofInt n).signed = n.bmod (2 ^ 64) := by
  rw [signed_eq_toInt]
  change (BitVec.ofNat 64 (n % 2 ^ 64).toNat).toInt = _
  rw [BitVec.toInt_ofNat']
  have : ((n % 2 ^ 64).toNat : Int) = n % 2 ^ 64 := by omega
  rw [this]
  exact Int.emod_bmod n (2 ^ 64)

theorem signed_ofInt_of_fits (h : Fits n) : (ofInt n).signed = n := by
  obtain ⟨low, high⟩ := h
  rw [signed_ofInt, Int.bmod_def]
  split <;> omega

theorem ofInt_eq_iff (h : n.bmod (2 ^ 64) = a.signed) : ofInt n = a :=
  signed_inj ((signed_ofInt n).trans h)

theorem add_signed (a b : Word) : a.add b = ofInt (a.signed + b.signed) := by
  refine (ofInt_eq_iff ?_).symm
  simp only [signed_eq_toInt, add, UInt64.toBitVec_add, BitVec.toInt_add]

theorem sub_signed (a b : Word) : a.sub b = ofInt (a.signed - b.signed) := by
  refine (ofInt_eq_iff ?_).symm
  simp only [signed_eq_toInt, sub, UInt64.toBitVec_sub, BitVec.toInt_sub]

theorem mul_signed (a b : Word) : a.mul b = ofInt (a.signed * b.signed) := by
  refine (ofInt_eq_iff ?_).symm
  simp only [signed_eq_toInt, mul, UInt64.toBitVec_mul, BitVec.toInt_mul]

theorem neg_signed (a : Word) : a.neg = ofInt (-a.signed) := by
  refine (ofInt_eq_iff ?_).symm
  simp only [signed_eq_toInt, neg, UInt64.toBitVec_sub, BitVec.toInt_sub]
  simp

/-! ### Signs -/

theorem isNegative_eq_msb (a : Word) : a.isNegative = a.bits.toBitVec.msb := by
  unfold isNegative
  rw [signed_eq_toInt, BitVec.msb_eq_toInt]

theorem isNegative_and (a b : Word) : (a.and b).isNegative = (a.isNegative && b.isNegative) := by
  simp only [isNegative_eq_msb, and, UInt64.toBitVec_and, BitVec.msb_and]

theorem isNegative_xor (a b : Word) : (a.xor b).isNegative = (a.isNegative ^^ b.isNegative) := by
  simp only [isNegative_eq_msb, xor, UInt64.toBitVec_xor, BitVec.msb_xor]

/-! ### Overflow -/

theorem negOverflows_iff (a : Word) : a.negOverflows = true ↔ ¬ Fits (-a.signed) := by
  have hfits := a.signed_fits
  have hleast : (ofInt (-(2 ^ 63))).signed = -(2 ^ 63) := signed_ofInt_of_fits ⟨by omega, by omega⟩
  have heq : a.negOverflows = true ↔ a.signed = -(2 ^ 63) := by
    rw [negOverflows, beq_iff_eq]
    exact ⟨fun h => h ▸ hleast, fun h => signed_inj (h.trans hleast.symm)⟩
  rw [heq]
  unfold Fits at hfits ⊢
  omega

theorem addOverflows_iff (a b : Word) : a.addOverflows b = true ↔ ¬ Fits (a.signed + b.signed) := by
  have ha := a.signed_fits
  have hb := b.signed_fits
  have hsum : (a.add b).signed = (a.signed + b.signed).bmod (2 ^ 64) := by rw [add_signed, signed_ofInt]
  rw [Int.bmod_def] at hsum
  have htest : a.addOverflows b = ((a.isNegative ^^ (a.add b).isNegative) && (b.isNegative ^^ (a.add b).isNegative)) := by
    simp only [addOverflows, isNegative_and, isNegative_xor]
  rw [htest]
  unfold Fits isNegative at *
  by_cases h₁ : a.signed < 0 <;> by_cases h₂ : b.signed < 0 <;> by_cases h₃ : (a.add b).signed < 0
  all_goals
    simp only [h₁, h₂, h₃]
    simp
    omega

theorem subOverflows_iff (a b : Word) : a.subOverflows b = true ↔ ¬ Fits (a.signed - b.signed) := by
  have ha := a.signed_fits
  have hb := b.signed_fits
  have hdifference : (a.sub b).signed = (a.signed - b.signed).bmod (2 ^ 64) := by rw [sub_signed, signed_ofInt]
  rw [Int.bmod_def] at hdifference
  have htest : a.subOverflows b = ((a.isNegative ^^ b.isNegative) && (a.isNegative ^^ (a.sub b).isNegative)) := by
    simp only [subOverflows, isNegative_and, isNegative_xor]
  rw [htest]
  unfold Fits isNegative at *
  by_cases h₁ : a.signed < 0 <;> by_cases h₂ : b.signed < 0 <;> by_cases h₃ : (a.sub b).signed < 0
  all_goals
    simp only [h₁, h₂, h₃]
    simp
    omega

theorem mulOverflows_iff (a b : Word) : a.mulOverflows b = true ↔ ¬ Fits (a.signed * b.signed) := by
  have hbound : (a.signed * b.signed).natAbs ≤ 2 ^ 63 * 2 ^ 63 := by
    have ha := a.signed_fits
    have hb := b.signed_fits
    unfold Fits at ha hb
    rw [Int.natAbs_mul]
    exact Nat.mul_le_mul (by omega) (by omega)
  have hlow : (a.mul b).signed = (a.signed * b.signed).bmod (2 ^ 64) := by rw [mul_signed, signed_ofInt]
  rw [Int.bmod_def] at hlow
  generalize hproduct : a.signed * b.signed = p at *
  have hhigh : (a.mulHigh b).signed = p / 2 ^ 64 := by
    rw [mulHigh, hproduct]
    exact signed_ofInt_of_fits ⟨by omega, by omega⟩
  have hsign : (a.mul b).signWord.signed = if (a.mul b).signed < 0 then -1 else 0 := by
    simp only [signWord, isNegative, decide_eq_true_eq]
    split
    · exact signed_ofInt_of_fits ⟨by omega, by omega⟩
    · exact signed_ofInt_of_fits ⟨by omega, by omega⟩
  have htest : a.mulOverflows b = true ↔ (a.mulHigh b).signed ≠ (a.mul b).signWord.signed := by
    rw [mulOverflows, bne_iff_ne]
    exact not_congr ⟨fun h => by rw [h], signed_inj⟩
  rw [htest, hhigh, hsign]
  unfold Fits
  split at hlow
  all_goals
    split
    all_goals omega

/-! ### Small integers -/

theorem signed_smi (low : smiMin ≤ n) (high : n ≤ smiMax) : (smi n).signed = 2 * n := by
  unfold smiMin at low
  unfold smiMax at high
  exact signed_ofInt_of_fits ⟨by omega, by omega⟩

theorem untag_smi (low : smiMin ≤ n) (high : n ≤ smiMax) : ((smi n).untag).signed = n := by
  rw [untag, signed_smi low high, Int.mul_ediv_cancel_left n (by omega)]
  unfold smiMin at low
  unfold smiMax at high
  exact signed_ofInt_of_fits ⟨by omega, by omega⟩

/-- Twice an integer fits in a word if the integer fits beside the tag. -/
theorem fits_double (n : Int) : Fits (2 * n) ↔ smiMin ≤ n ∧ n ≤ smiMax := by
  unfold Fits smiMin smiMax
  omega

theorem ofSmi?_eq (n : Int) : ofSmi? n = if Fits (2 * n) then some (ofInt (2 * n)) else none := by
  unfold ofSmi? smi
  simp only [fits_double]

end Word
end ScriptEngine
