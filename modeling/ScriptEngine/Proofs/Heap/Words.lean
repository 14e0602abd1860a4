import Mathlib.Tactic.Common
import ScriptEngine.Memory

/-!
Tagged words and the memory that holds them. A pointer gives back its address and a small integer
its number; a word that is read is the one last written at its address. Addresses of words are
multiples of eight.
-/

namespace ScriptEngine.Word

theorem isSmi_pointer (a : Nat) : (pointer a).isSmi = false := by
  have h := pointer_isPointer a
  simpa [isPointer] using h

theorem address_pointer {a : Nat} (even : a % 2 = 0) (small : a < 2 ^ 64) :
    (pointer a).address = a := by
  have hbits : ((UInt64.ofNat a ||| 1) &&& ~~~1) = UInt64.ofNat a := by
    have hlow : UInt64.ofNat a &&& 1 = 0 := by
      apply UInt64.toNat_inj.mp
      rw [UInt64.toNat_and, UInt64.toNat_ofNat']
      simp only [UInt64.toNat_one, Nat.and_one_is_mod, UInt64.toNat_zero]
      omega
    generalize UInt64.ofNat a = x at hlow
    apply UInt64.toBitVec_inj.mp
    have hlow' := congrArg UInt64.toBitVec hlow
    simp only [UInt64.toBitVec_and, UInt64.toBitVec_or, UInt64.toBitVec_not, UInt64.toBitVec_one,
      UInt64.toBitVec_zero] at hlow' ⊢
    ext i hi
    have hi' := congrArg (fun v : BitVec 64 => v[i]) hlow'
    simp only [BitVec.getElem_and, BitVec.getElem_or, BitVec.getElem_not, BitVec.getElem_one,
      BitVec.getElem_zero] at hi' ⊢
    cases hx : x.toBitVec[i] <;> simp_all
  unfold address pointer
  rw [hbits]
  exact UInt64.toNat_ofNat_of_lt' small

theorem pointer_inj {a b : Nat} (ha : a % 2 = 0) (ha' : a < 2 ^ 64) (hb : b % 2 = 0)
    (hb' : b < 2 ^ 64) (h : pointer a = pointer b) : a = b := by
  have h' := congrArg address h
  rwa [address_pointer ha ha', address_pointer hb hb'] at h'

theorem toSmi?_pointer (a : Nat) : (pointer a).toSmi? = none := by
  simp [toSmi?, isSmi_pointer]

theorem toSmi?_smi {n : Int} (low : smiMin ≤ n) (high : n ≤ smiMax) :
    (smi n).toSmi? = some n := by
  have hsigned : (smi n).signed = 2 * n := by
    unfold smiMin at low
    unfold smiMax at high
    have hnat : (UInt64.ofInt (2 * n)).toBitVec.toNat = (2 * n % 2 ^ 64).toNat := by
      change (UInt64.ofNat (2 * n % 2 ^ 64).toNat).toNat = _
      have hlt : (2 * n % 2 ^ 64).toNat < 2 ^ 64 := by omega
      exact UInt64.toNat_ofNat_of_lt' hlt
    change (UInt64.ofInt (2 * n)).toBitVec.toInt = 2 * n
    rw [BitVec.toInt_eq_toNat_cond, hnat]
    split <;> omega
  simp [toSmi?, hsigned]

end ScriptEngine.Word

namespace ScriptEngine.Memory

theorem place_eq_iff {i j : Nat} (h : i / frameWords = j / frameWords) :
    place i = place j ↔ i = j := by
  constructor
  · intro he
    have hm : i % frameWords = j % frameWords := congrArg Fin.val he
    unfold frameWords at h hm
    omega
  · rintro rfl
    rfl

theorem wordAt_setWord (m : Memory) (i j : Nat) (w : Word) :
    (m.setWord i w).wordAt j = if i = j then w else m.wordAt j := by
  unfold wordAt setWord
  simp only [Std.TreeMap.getElem?_alter, Nat.compare_eq_eq]
  by_cases hf : i / frameWords = j / frameWords
  · simp only [hf, if_true]
    change (Vector.set _ (place i) w _)[(place j).val] = _
    rw [Vector.getElem_set]
    have hval : (place i).val = (place j).val ↔ i = j := Fin.val_inj.trans (place_eq_iff hf)
    by_cases hij : i = j
    · rw [if_pos (hval.mpr hij), if_pos hij]
    · rw [if_neg (fun he => hij (hval.mp he)), if_neg hij]
      cases m.frames[j / frameWords]? with
      | none => exact Vector.getElem_replicate _
      | some frame => rfl
  · have hne : i ≠ j := fun he => hf (by rw [he])
    simp only [hf, hne, if_false]

theorem wordAt_insert_replicate (m : Memory) (i j : Nat) (w : Word) :
    (Memory.mk (m.frames.insert (i / frameWords) (Vector.replicate frameWords w))).wordAt j =
      if i / frameWords = j / frameWords then w else m.wordAt j := by
  unfold wordAt
  simp only [Std.TreeMap.getElem?_insert, Nat.compare_eq_eq]
  by_cases hf : i / frameWords = j / frameWords
  · simp only [hf, if_true]
    exact Vector.getElem_replicate (place j).isLt
  · simp only [hf, if_false]

theorem wordAt_fillWords (m : Memory) (i count j : Nat) (w : Word) :
    (m.fillWords i count w).wordAt j = if i ≤ j ∧ j < i + count then w else m.wordAt j := by
  fun_induction fillWords m i count w with
  | case1 m i =>
    have hnot : ¬(i ≤ j ∧ j < i + 0) := by omega
    rw [if_neg hnot]
  | case2 m i count hcount hframe ih =>
    rw [ih, wordAt_insert_replicate]
    unfold frameWords at *
    split_ifs <;> first | rfl | omega
  | case3 m i count hcount hframe ih =>
    rw [ih, wordAt_setWord]
    split_ifs <;> first | rfl | omega

/-- Addresses that are multiples of eight hold whole words. -/
theorem load_aligned (m : Memory) {address : Nat} (h : address % 8 = 0) :
    m.load address = m.wordAt (address / 8) := by
  simp [load, h]

theorem store_aligned (m : Memory) {address : Nat} (w : Word) (h : address % 8 = 0) :
    m.store address w = m.setWord (address / 8) w := by
  simp [store, h]

theorem load_store (m : Memory) {a b : Nat} (w : Word) (ha : a % 8 = 0) (hb : b % 8 = 0) :
    (m.store a w).load b = if a = b then w else m.load b := by
  rw [store_aligned m w ha, load_aligned _ hb, load_aligned _ hb, wordAt_setWord]
  have hiff : a / 8 = b / 8 ↔ a = b := by omega
  simp only [hiff]

theorem load_fill (m : Memory) {a b : Nat} (count : Nat) (w : Word) (ha : a % 8 = 0)
    (hb : b % 8 = 0) :
    (m.fill a count w).load b = if a ≤ b ∧ b < a + 8 * count then w else m.load b := by
  unfold fill
  rw [if_pos ha, load_aligned _ hb, load_aligned _ hb, wordAt_fillWords]
  have hiff : (a / 8 ≤ b / 8 ∧ b / 8 < a / 8 + count) ↔ (a ≤ b ∧ b < a + 8 * count) := by omega
  simp only [hiff]

/-- A copy between areas that do not overlap. -/
theorem load_copy (m : Memory) (source target : Nat) {b : Nat} (count : Nat) (hs : source % 8 = 0)
    (ht : target % 8 = 0) (hb : b % 8 = 0)
    (apart : source + 8 * count ≤ target ∨ target + 8 * count ≤ source) :
    (m.copy source target count).load b =
      if target ≤ b ∧ b < target + 8 * count then m.load (source + (b - target))
      else m.load b := by
  induction count generalizing b with
  | zero =>
    have hnot : ¬(target ≤ b ∧ b < target + 8 * 0) := by omega
    rw [if_neg hnot]
    rfl
  | succ n ih =>
    have hlast : (target + 8 * n) % 8 = 0 := by omega
    have hfrom : (source + 8 * n) % 8 = 0 := by omega
    have hapart : source + 8 * n ≤ target ∨ target + 8 * n ≤ source := by omega
    have hkept : ¬(target ≤ source + 8 * n ∧ source + 8 * n < target + 8 * n) := by omega
    unfold copy at ih ⊢
    rw [Nat.fold_succ, load_store _ _ hlast hb, ih hb hapart, ih hfrom hapart, if_neg hkept]
    by_cases hbn : target + 8 * n = b
    · have hin : target ≤ b ∧ b < target + 8 * (n + 1) := by omega
      rw [if_pos hbn, if_pos hin]
      congr 1
      omega
    · have hiff : (target ≤ b ∧ b < target + 8 * (n + 1)) ↔
          (target ≤ b ∧ b < target + 8 * n) := by omega
      simp only [hbn, hiff, if_false]

/-- Bytes go into the words that they fill, and into no others. -/
theorem load_storeBytes_outside (m : Memory) {a b : Nat} (bytes : List UInt8) (ha : a % 8 = 0)
    (hb : b % 8 = 0) (outside : b < a ∨ a + bytes.length ≤ b) :
    (m.storeBytes a bytes).load b = m.load b := by
  fun_induction storeBytes m a bytes with
  | case1 => rfl
  | case2 m a byte rest ih =>
    have hlen : (byte :: rest).length = rest.length + 1 := rfl
    have hdrop : (rest.drop 7).length = rest.length - 7 := List.length_drop
    rw [ih (by omega) (by omega), load_store m _ ha hb]
    have hne : a ≠ b := by omega
    rw [if_neg hne]

/-- The words from an address on. -/
def wordsAt (m : Memory) (a count : Nat) : List Word :=
  (List.range count).map fun i => m.load (a + 8 * i)

@[simp] theorem length_wordsAt (m : Memory) (a count : Nat) : (m.wordsAt a count).length = count := by
  simp [wordsAt]

theorem getElem?_wordsAt (m : Memory) (a count i : Nat) :
    (m.wordsAt a count)[i]? = if i < count then some (m.load (a + 8 * i)) else none := by
  unfold wordsAt
  rw [List.getElem?_map]
  split
  · rw [List.getElem?_range ‹_›]
    rfl
  · rename_i hout
    rw [List.getElem?_eq_none (by simpa using hout)]
    rfl

theorem wordsAt_succ (m : Memory) (a count : Nat) :
    m.wordsAt a (count + 1) = m.load a :: m.wordsAt (a + 8) count := by
  unfold wordsAt
  rw [List.range_succ_eq_map, List.map_cons, List.map_map]
  congr 1
  apply List.map_congr_left
  intro i _
  simp only [Function.comp_apply]
  congr 1
  omega

theorem wordsAt_congr {m m' : Memory} {a count : Nat}
    (h : ∀ i < count, m'.load (a + 8 * i) = m.load (a + 8 * i)) :
    m'.wordsAt a count = m.wordsAt a count := by
  apply List.map_congr_left
  intro i hi
  exact h i (List.mem_range.mp hi)

theorem wordsAt_store (m : Memory) {a : Nat} (count i : Nat) (w : Word) (ha : a % 8 = 0) :
    (m.store (a + 8 * i) w).wordsAt a count = (m.wordsAt a count).set i w := by
  apply List.ext_getElem?
  intro j
  rw [List.getElem?_set, getElem?_wordsAt, getElem?_wordsAt, length_wordsAt,
    load_store m w (by omega) (by omega)]
  have hiff : a + 8 * i = a + 8 * j ↔ i = j := by omega
  simp only [hiff]
  split_ifs <;> first | rfl | omega

/-- Filling the words behind the first `i`. -/
theorem wordsAt_fill (m : Memory) {a : Nat} (i count : Nat) (w : Word) (ha : a % 8 = 0) :
    (m.fill (a + 8 * i) count w).wordsAt a (i + count) =
      (m.wordsAt a (i + count)).take i ++ List.replicate count w := by
  apply List.ext_getElem?
  intro j
  have hload := load_fill m count w (a := a + 8 * i) (b := a + 8 * j) (by omega) (by omega)
  have hlength : ((m.wordsAt a (i + count)).take i).length = i := by simp
  rw [getElem?_wordsAt, hload]
  by_cases hj : j < i
  · rw [List.getElem?_append_left (by omega), List.getElem?_take_of_lt hj, getElem?_wordsAt,
      if_neg (by omega : ¬(a + 8 * i ≤ a + 8 * j ∧ _))]
  · rw [List.getElem?_append_right (by omega), List.getElem?_replicate, hlength]
    by_cases hend : j < i + count
    · rw [if_pos hend, if_pos (by omega), if_pos (by omega)]
    · rw [if_neg hend, if_neg (by omega)]

/-- Copying words from elsewhere behind the first `i`. -/
theorem wordsAt_copy (m : Memory) {a source : Nat} (i count rest : Nat) (ha : a % 8 = 0)
    (hs : source % 8 = 0)
    (apart : source + 8 * count ≤ a ∨ a + 8 * (i + count + rest) ≤ source) :
    (m.copy source (a + 8 * i) count).wordsAt a (i + count + rest) =
      (m.wordsAt a (i + count + rest)).take i ++ m.wordsAt source count ++
        (m.wordsAt a (i + count + rest)).drop (i + count) := by
  apply List.ext_getElem?
  intro j
  have hload := load_copy m source (a + 8 * i) (b := a + 8 * j) count hs
    (by omega) (by omega) (by omega)
  have hlength : ((m.wordsAt a (i + count + rest)).take i).length = i := by
    simp only [List.length_take, length_wordsAt]
    omega
  rw [getElem?_wordsAt, hload]
  by_cases hj : j < i
  · rw [List.append_assoc, List.getElem?_append_left (by omega), List.getElem?_take_of_lt hj,
      getElem?_wordsAt, if_neg (by omega : ¬(a + 8 * i ≤ a + 8 * j ∧ _))]
  · by_cases hmid : j < i + count
    · have hoffset : source + (a + 8 * j - (a + 8 * i)) = source + 8 * (j - i) := by omega
      rw [List.getElem?_append_left (by simp only [List.length_append, hlength, length_wordsAt]; omega),
        List.getElem?_append_right (by omega), hlength, getElem?_wordsAt, if_pos (by omega),
        if_pos (by omega), if_pos (by omega), hoffset]
    · have hrest : i + count + (j - (i + count)) = j := by omega
      rw [List.getElem?_append_right (by simp only [List.length_append, hlength, length_wordsAt]; omega),
        List.length_append, hlength, length_wordsAt, List.getElem?_drop, hrest, getElem?_wordsAt,
        if_neg (by omega : ¬(a + 8 * i ≤ a + 8 * j ∧ _))]

end ScriptEngine.Memory
