import ScriptEngine.Heap.View
import ScriptEngine.Proofs.Heap.Words

/-!
The text of a value that is no string is short: the digits of a small integer, of a length or of a
double are few enough to be stored.
-/

namespace ScriptEngine

theorem utf8ByteSize_ofList_le (l : List Char) : (String.ofList l).utf8ByteSize ≤ 4 * l.length := by
  induction l with
  | nil => decide
  | cons c l ih =>
    have happend : String.ofList (c :: l) = String.ofList [c] ++ String.ofList l := by
      rw [← String.ofList_append, List.singleton_append]
    have hone : (String.ofList [c]).utf8ByteSize = c.utf8Size := String.utf8ByteSize_singleton
    have hsmall := Char.utf8Size_le_four c
    rw [happend, String.utf8ByteSize_append, hone, List.length_cons]
    omega

/-- Numbers of at most `k` digits. -/
theorem utf8ByteSize_repr_le {n k : Nat} (positive : 0 < k) (h : n < 10 ^ k) :
    n.repr.utf8ByteSize ≤ 4 * k := by
  rw [Nat.repr_eq_ofList_toDigits]
  have hlength := (Nat.length_toDigits_le_iff (b := 10) (by decide) positive).mpr h
  have hsize := utf8ByteSize_ofList_le (Nat.toDigits 10 n)
  omega

namespace Double

theorem significand_lt (x : Double) : x.significand < 2 ^ 53 := by
  have hfraction : x.fraction < 2 ^ 52 := Nat.mod_lt _ (by decide)
  unfold significand
  split <;> omega

theorem scale_lt (x : Double) : x.scale < 2047 := by
  have hexponent : x.exponent < 2 ^ 11 := Nat.mod_lt _ (by decide)
  unfold scale
  omega

theorem candidate_le {n : Neighbourhood} {unitNum unitDen digits : Nat}
    (h : candidate n unitNum unitDen = some digits) : digits ≤ n.centre * unitDen + 1 := by
  unfold candidate at h
  have hdiv := Nat.div_le_self (n.centre * unitDen) unitNum
  simp only at h
  split_ifs at h
  · cases h
    omega
  · cases h
    omega

theorem two_pow_le_ten_pow (n : Nat) : 2 ^ n ≤ 10 ^ n := Nat.pow_le_pow_left (by decide) n

theorem quarterSteps_le (x : Double) (power : Int) :
    (x.quarterSteps power).2 ≤ 10 ^ ((-power).toNat + x.scale) := by
  have hscale := two_pow_le_ten_pow x.scale
  unfold quarterSteps
  simp only
  split
  · exact Nat.le_trans hscale (Nat.pow_le_pow_right (by decide) (Nat.le_add_left _ _))
  · rw [Nat.pow_add]
    exact Nat.mul_le_mul_left _ hscale

/-- Digits of a candidate: those of the significand, and one for each place and each power of two. -/
theorem length_candidate_le (x : Double) {power : Int} {digits : Nat}
    (h : candidate x.neighbourhood (x.quarterSteps power).1 (x.quarterSteps power).2 = some digits) :
    (Nat.toDigits 10 digits).length ≤ 18 + ((-power).toNat + x.scale) := by
  have hdigits := candidate_le h
  have hcentre : x.neighbourhood.centre ≤ 10 ^ 17 := by
    have hlt := x.significand_lt
    simp only [neighbourhood]
    omega
  have hproduct := Nat.mul_le_mul hcentre (x.quarterSteps_le power)
  have hpositive : 0 < 10 ^ ((-power).toNat + x.scale) := Nat.pow_pos (by decide)
  rw [Nat.length_toDigits_le_iff (by decide) (by omega), Nat.pow_add]
  omega

theorem shortestFrom_bounds (x : Double) (fuel : Nat) (power : Int) (low : -400 ≤ power - fuel) :
    (Nat.toDigits 10 (x.shortestFrom fuel power).1).length ≤ 2500 ∧
      -400 ≤ (x.shortestFrom fuel power).2 ∧ (x.shortestFrom fuel power).2 ≤ power := by
  induction fuel generalizing power with
  | zero =>
    unfold shortestFrom
    simp only [Nat.toDigits_zero, List.length_singleton]
    omega
  | succ fuel ih =>
    unfold shortestFrom
    simp only
    split
    · rename_i digits hfound
      have hlength := x.length_candidate_le hfound
      have hscale := x.scale_lt
      simp only
      omega
    · obtain ⟨hdigits, hlow, hhigh⟩ := ih (power - 1) (by omega)
      exact ⟨hdigits, hlow, by omega⟩

theorem log2_div_le (k m : Nat) : (2 ^ k / m).log2 ≤ k := by
  have hdiv := Nat.div_le_self (2 ^ k) m
  by_cases hzero : 2 ^ k / m = 0
  · rw [hzero]
    exact Nat.zero_le k
  · have hlt : (2 ^ k / m).log2 < k + 1 := by
      rw [Nat.log2_lt hzero, Nat.pow_succ]
      omega
    omega

theorem length_whole_le (x : Double) : (Nat.toDigits 10 (x.magnitude / unitsPerOne)).length ≤ 2100 := by
  have hdiv := Nat.div_le_self x.magnitude unitsPerOne
  have hsignificand : x.significand < 10 ^ 53 :=
    Nat.lt_of_lt_of_le x.significand_lt (two_pow_le_ten_pow 53)
  have hscale := x.scale_lt
  have hmagnitude : x.magnitude < 10 ^ (53 + x.scale) := by
    unfold magnitude
    rw [Nat.pow_add]
    exact Nat.mul_lt_mul_of_lt_of_le hsignificand (two_pow_le_ten_pow x.scale)
      (Nat.pow_pos (by decide))
  have hlength := (Nat.length_toDigits_le_iff (b := 10) (by decide) (by omega)).mpr
    (Nat.lt_of_le_of_lt hdiv hmagnitude)
  omega

theorem shortest_bounds (x : Double) :
    (Nat.toDigits 10 x.shortest.1).length ≤ 2500 ∧ -400 ≤ x.shortest.2 ∧ x.shortest.2 ≤ 2100 := by
  unfold shortest
  simp only
  split
  · simp only [Nat.toDigits_zero, List.length_singleton]
    omega
  · split
    · have hlog : (unitsPerOne / x.magnitude).log2 ≤ 1074 := by
        unfold unitsPerOne
        apply log2_div_le
      have hbounds := x.shortestFrom_bounds 40
        (-(((unitsPerOne / x.magnitude).log2 * 3 / 10 : Nat) : Int)) (by omega)
      exact ⟨hbounds.1, hbounds.2.1, by omega⟩
    · have hwhole := x.length_whole_le
      have hbounds := x.shortestFrom_bounds 40
        ((Nat.toDigits 10 (x.magnitude / unitsPerOne)).length) (by omega)
      exact ⟨hbounds.1, hbounds.2.1, by omega⟩

theorem utf8ByteSize_positional_le {digits : Nat} {power : Int}
    (length : (Nat.toDigits 10 digits).length ≤ 2500) (low : -400 ≤ power) (high : power ≤ 2100) :
    (positional digits power).utf8ByteSize ≤ 4 * 5000 := by
  unfold positional
  simp only
  split
  · refine Nat.le_trans (utf8ByteSize_ofList_le _) ?_
    simp only [List.length_append, List.length_replicate]
    omega
  · refine Nat.le_trans (utf8ByteSize_ofList_le _) ?_
    simp only [List.length_append, List.length_cons, List.length_take, List.length_drop,
      List.length_replicate]
    omega

theorem utf8ByteSize_display_le (x : Double) : x.display.utf8ByteSize ≤ 2 ^ 16 := by
  have hminus : ("-" : String).utf8ByteSize = 1 := rfl
  have hempty : ("" : String).utf8ByteSize = 0 := rfl
  have hsign : (if x.isNegative then "-" else "").utf8ByteSize ≤ 1 := by
    split <;> simp [hminus]
  unfold display
  split
  · decide
  · split
    · have hname : ("Infinity" : String).utf8ByteSize = 8 := rfl
      rw [String.utf8ByteSize_append, hname]
      omega
    · split
      · rename_i hwhole
        simp only [Bool.and_eq_true, decide_eq_true_eq] at hwhole
        have hdigits := utf8ByteSize_repr_le (k := 21) (by decide) hwhole.2
        unfold renderWhole
        rw [String.utf8ByteSize_append, Nat.toString_eq_repr]
        omega
      · rename_i hnan hinfinite _
        obtain ⟨hlength, hlow, hhigh⟩ := x.shortest_bounds
        have hdigits := utf8ByteSize_positional_le hlength hlow hhigh
        unfold render
        simp only
        rw [if_neg hnan, if_neg hinfinite, String.utf8ByteSize_append]
        omega

theorem isDigit_of_mem_toDigitsCore {c : Char} (fuel : Nat) : ∀ n ds, c ∈ Nat.toDigitsCore 10 fuel n ds →
    c.isDigit = true ∨ c ∈ ds := by
  have hdigit : ∀ n : Nat, (Nat.digitChar (n % 10)).isDigit = true := fun n => by
    rw [Nat.isDigit_digitChar]
    exact decide_eq_true (Nat.mod_lt n (by decide))
  induction fuel with
  | zero => exact fun _ _ => .inr
  | succ fuel ih =>
    intro n ds hc
    rw [Nat.toDigitsCore] at hc
    split at hc
    · rcases List.mem_cons.mp hc with rfl | hmem
      · exact .inl (hdigit n)
      · exact .inr hmem
    · rcases ih _ _ hc with hdig | hmem
      · exact .inl hdig
      · rcases List.mem_cons.mp hmem with rfl | hmem
        · exact .inl (hdigit n)
        · exact .inr hmem

/-- Numbers are spelled with digits. -/
theorem isDigit_of_mem_toDigits {c : Char} {n : Nat} (hc : c ∈ Nat.toDigits 10 n) : c.isDigit = true :=
  (isDigit_of_mem_toDigitsCore _ n [] hc).resolve_right List.not_mem_nil

/-- A letter that is in no text of a number. -/
theorem notMem_display (x : Double) : 'p' ∉ x.display.toList := by
  have hdigits : ∀ n : Nat, 'p' ∉ Nat.toDigits 10 n := fun n hmem => by
    have := isDigit_of_mem_toDigits hmem
    exact absurd this (by decide)
  have hzeros : ∀ n : Nat, 'p' ∉ List.replicate n '0' := fun n hmem =>
    absurd (List.eq_of_mem_replicate hmem) (by decide)
  have hsign : 'p' ∉ (if x.isNegative then "-" else "").toList := by
    split <;> decide
  unfold display
  split
  · decide
  · split
    · rw [String.toList_append, List.mem_append]
      exact not_or.mpr ⟨hsign, by decide⟩
    · split
      · unfold renderWhole
        rw [String.toList_append, List.mem_append, Nat.toString_eq_repr, Nat.toList_repr]
        exact not_or.mpr ⟨hsign, hdigits _⟩
      · rename_i hnan hinfinite _
        unfold render
        simp only
        rw [if_neg hnan, if_neg hinfinite, String.toList_append, List.mem_append]
        refine not_or.mpr ⟨hsign, ?_⟩
        unfold positional
        simp only
        split
        · rw [String.toList_ofList, List.mem_append]
          exact not_or.mpr ⟨hdigits _, hzeros _⟩
        · rw [String.toList_ofList, List.mem_append, List.mem_cons]
          have hpadded : 'p' ∉ List.replicate ((-x.shortest.2).toNat + 1 - (Nat.toDigits 10 x.shortest.1).length) '0' ++
              Nat.toDigits 10 x.shortest.1 := by
            rw [List.mem_append]
            exact not_or.mpr ⟨hzeros _, hdigits _⟩
          exact not_or.mpr ⟨fun hmem => hpadded (List.mem_of_mem_take hmem),
            not_or.mpr ⟨by decide, fun hmem => hpadded (List.mem_of_mem_drop hmem)⟩⟩

end Double

namespace Heap

theorem natAbs_toSmi?_le {w : Word} {n : Int} (h : w.toSmi? = some n) : n.natAbs ≤ 2 ^ 63 := by
  unfold Word.toSmi? at h
  split at h
  · cases h
    have hlow := Int64.le_toInt w.bits.toInt64
    have hhigh := Int64.toInt_lt w.bits.toInt64
    unfold Word.signed
    omega
  · cases h

theorem storeLength_le (h : Heap) (store : Word) : h.storeLength store ≤ 2 ^ 63 := by
  unfold storeLength
  cases hsmi : (h.read store Layout.Store.length).toSmi? with
  | none => simp
  | some n =>
    have hn := natAbs_toSmi?_le hsmi
    simp only [Option.getD_some]
    omega

theorem utf8ByteSize_repr_lt {n : Nat} (small : n ≤ 2 ^ 63) : n.repr.utf8ByteSize ≤ 4 * 20 :=
  utf8ByteSize_repr_le (by decide) (by omega)

theorem utf8ByteSize_toString_lt {n : Int} (small : n.natAbs ≤ 2 ^ 63) :
    (toString n).utf8ByteSize < 2 ^ 16 := by
  rw [Int.toString_eq_repr, Int.repr_eq_if]
  split
  · have hsize := utf8ByteSize_repr_lt (n := n.toNat) (by omega)
    omega
  · have hminus : ("-" : String).utf8ByteSize = 1 := rfl
    have hsize := utf8ByteSize_repr_lt (n := (-n).toNat) (by omega)
    rw [String.utf8ByteSize_append]
    omega

/-- The text of a value that is no string is short. -/
theorem utf8ByteSize_display_le (h : Heap) {w : Word} (other : h.text? w = none) :
    (h.display w).utf8ByteSize ≤ 2 ^ 16 := by
  have harray : ∀ n, n ≤ 2 ^ 63 → (View.array n).display.utf8ByteSize ≤ 2 ^ 16 := by
    intro n hn
    have hsize := utf8ByteSize_repr_lt hn
    have hopen : ("[array " : String).utf8ByteSize = 7 := rfl
    have hclose : ("]" : String).utf8ByteSize = 1 := rfl
    change (("[array " ++ toString n) ++ "]").utf8ByteSize ≤ 2 ^ 16
    rw [String.utf8ByteSize_append, String.utf8ByteSize_append, Nat.toString_eq_repr]
    omega
  unfold display inspect
  rw [other]
  cases hsmi : w.toSmi? with
  | some n =>
    have hsize := utf8ByteSize_toString_lt (natAbs_toSmi?_le hsmi)
    change (toString n).utf8ByteSize ≤ 2 ^ 16
    omega
  | none =>
    cases hdouble : h.double? w with
    | some n =>
      have hnumber : (View.number n).display.utf8ByteSize ≤ 2 ^ 16 := n.utf8ByteSize_display_le
      simp only
      split_ifs <;> first | exact hnumber | decide
    | none =>
      simp only
      split_ifs <;> first | exact harray _ (h.storeLength_le _) | decide

theorem utf8ByteSize_display_lt (h : Heap) {w : Word} (other : h.text? w = none) :
    (h.display w).utf8ByteSize < 2 ^ 63 :=
  Nat.lt_of_le_of_lt (h.utf8ByteSize_display_le other) (by decide)

/-- Only strings are shown like the key of prototypes. -/
theorem display_ne_prototype (h : Heap) {w : Word} (other : h.text? w = none) : h.display w ≠ "prototype" := by
  have harray : ∀ n : Nat, 'p' ∉ (View.array n).display.toList := by
    intro n hmem
    change 'p' ∈ (("[array " ++ toString n) ++ "]").toList at hmem
    rw [String.toList_append, String.toList_append, List.mem_append, List.mem_append, Nat.toString_eq_repr,
      Nat.toList_repr] at hmem
    rcases hmem with (hmem | hmem) | hmem
    · exact absurd hmem (by decide)
    · exact absurd (Double.isDigit_of_mem_toDigits hmem) (by decide)
    · exact absurd hmem (by decide)
  have hint : ∀ n : Int, 'p' ∉ (View.int n).display.toList := by
    intro n hmem
    change 'p' ∈ (toString n).toList at hmem
    rw [Int.toString_eq_repr, Int.repr_eq_if] at hmem
    split at hmem
    · rw [Nat.toList_repr] at hmem
      exact absurd (Double.isDigit_of_mem_toDigits hmem) (by decide)
    · rw [String.toList_append, List.mem_append, Nat.toList_repr] at hmem
      rcases hmem with hmem | hmem
      · exact absurd hmem (by decide)
      · exact absurd (Double.isDigit_of_mem_toDigits hmem) (by decide)
  have hletter : 'p' ∉ (h.display w).toList := by
    unfold display inspect
    rw [other]
    cases w.toSmi? with
    | some n => exact hint n
    | none =>
      cases h.double? w with
      | some n =>
        simp only
        split_ifs
        iterate 5 decide
        exact n.notMem_display
      | none =>
        simp only
        split_ifs
        iterate 6 decide
        · exact harray _
        · decide
  intro hsame
  rw [hsame] at hletter
  exact hletter (by decide)

end Heap
end ScriptEngine
