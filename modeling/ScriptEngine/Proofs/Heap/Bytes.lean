import ScriptEngine.Proofs.Heap.Words

/-!
Bytes in memory. Text is packed into words, low byte first; reading the bytes of those words gives
the text back.
-/

namespace ScriptEngine.Memory

/-- The number that bytes stand for, low byte first. -/
def bytesValue : List UInt8 → Nat
  | [] => 0
  | b :: rest => b.toNat + 256 * bytesValue rest

theorem bytesValue_lt (bytes : List UInt8) : bytesValue bytes < 256 ^ bytes.length := by
  induction bytes with
  | nil => decide
  | cons b rest ih =>
    have hb : b.toNat < 256 := b.toNat_lt
    rw [bytesValue, List.length_cons, Nat.pow_succ]
    omega

/-- The byte at a place of the number. -/
theorem bytesValue_digit {bytes : List UInt8} {i : Nat} {b : UInt8} (h : bytes[i]? = some b) :
    bytesValue bytes / 256 ^ i % 256 = b.toNat := by
  induction bytes generalizing i with
  | nil => simp at h
  | cons c rest ih =>
    have hc : c.toNat < 256 := c.toNat_lt
    cases i with
    | zero =>
      simp only [List.getElem?_cons_zero, Option.some.injEq] at h
      subst h
      rw [bytesValue, Nat.pow_zero, Nat.div_one]
      omega
    | succ i =>
      simp only [List.getElem?_cons_succ] at h
      rw [bytesValue, Nat.pow_succ, Nat.mul_comm (256 ^ i), ← Nat.div_div_eq_div_mul]
      have hdiv : (c.toNat + 256 * bytesValue rest) / 256 = bytesValue rest := by omega
      rw [hdiv]
      exact ih h

theorem toNat_packBytes {bytes : List UInt8} (small : bytes.length ≤ 8) :
    (packBytes bytes).bits.toNat = bytesValue bytes := by
  unfold packBytes
  simp only
  induction bytes with
  | nil => rfl
  | cons b rest ih =>
    rw [List.length_cons] at small
    have hrest := ih (by omega)
    have hlt := bytesValue_lt rest
    have hbound : 256 ^ rest.length ≤ 256 ^ 7 := Nat.pow_le_pow_right (by decide) (by omega)
    have hb : b.toNat < 2 ^ 8 := b.toNat_lt
    rw [List.foldr_cons, UInt64.toNat_or, UInt64.toNat_shiftLeft, hrest]
    have hshift : (8 : UInt64).toNat % 64 = 8 := rfl
    have hbyte : b.toUInt64.toNat = b.toNat := rfl
    rw [hshift, hbyte, Nat.mod_eq_of_lt, ← Nat.shiftLeft_add_eq_or_of_lt hb, Nat.shiftLeft_eq, bytesValue]
    · omega
    · rw [Nat.shiftLeft_eq]
      omega

theorem byte_packBytes {bytes : List UInt8} (small : bytes.length ≤ 8) {i : Nat} {b : UInt8}
    (h : bytes[i]? = some b) :
    ((packBytes bytes).bits >>> (8 * UInt64.ofNat i)).toUInt8 = b := by
  have hi : i < bytes.length := (List.getElem?_eq_some_iff.mp h).1
  apply UInt8.toNat_inj.mp
  rw [UInt64.toNat_toUInt8, UInt64.toNat_shiftRight, toNat_packBytes small]
  have hplace : (8 * UInt64.ofNat i).toNat % 64 = 8 * i := by
    rw [UInt64.toNat_mul, UInt64.toNat_ofNat']
    have height : (8 : UInt64).toNat = 8 := rfl
    rw [height]
    omega
  rw [hplace, Nat.shiftRight_eq_div_pow, Nat.pow_mul]
  exact bytesValue_digit h

/-- Bytes as words, the last one padded with zeros. -/
def packWords : List UInt8 → List Word
  | [] => []
  | b :: rest => packBytes (b :: rest.take 7) :: packWords (rest.drop 7)
termination_by bytes => bytes.length
decreasing_by simp only [List.length_drop, List.length_cons]; omega

theorem length_packWords (bytes : List UInt8) : (packWords bytes).length = (bytes.length + 7) / 8 := by
  fun_induction packWords bytes with
  | case1 => rfl
  | case2 b rest ih =>
    rw [List.length_cons, ih, List.length_drop, List.length_cons]
    omega

theorem wordsAt_storeBytes (m : Memory) {a : Nat} (bytes : List UInt8) (ha : a % 8 = 0) :
    (m.storeBytes a bytes).wordsAt a (packWords bytes).length = packWords bytes := by
  fun_induction storeBytes m a bytes with
  | case1 m a => simp [packWords, wordsAt]
  | case2 m a b rest ih =>
    rw [packWords, List.length_cons, wordsAt_succ, ih (by omega),
      load_storeBytes_outside _ _ (by omega) ha (.inl (by omega)), load_store m _ ha ha, if_pos rfl]

/-- The word that holds a byte. -/
theorem byte_packWords {bytes : List UInt8} {i : Nat} {b : UInt8} (h : bytes[i]? = some b) :
    ∃ w, (packWords bytes)[i / 8]? = some w ∧
      (w.bits >>> (8 * UInt64.ofNat (i % 8))).toUInt8 = b := by
  fun_induction packWords bytes generalizing i with
  | case1 => simp at h
  | case2 c rest ih =>
    by_cases hi : i < 8
    · have hdiv : i / 8 = 0 := by omega
      have hmod : i % 8 = i := by omega
      rw [hdiv, hmod]
      refine ⟨_, rfl, byte_packBytes ?_ ?_⟩
      · simp only [List.length_cons, List.length_take]
        omega
      · cases i with
        | zero => exact h
        | succ i =>
          rw [List.getElem?_cons_succ] at h ⊢
          rw [List.getElem?_take_of_lt (by omega), h]
    · obtain ⟨j, rfl⟩ : ∃ j, i = j + 8 := ⟨i - 8, by omega⟩
      have hrest : (rest.drop 7)[j]? = some b := by
        rw [List.getElem?_drop, ← h, Nat.add_comm 7 j, ← List.getElem?_cons_succ]
      obtain ⟨w, hw, hbyte⟩ := ih hrest
      have hdiv : (j + 8) / 8 = j / 8 + 1 := by omega
      have hmod : (j + 8) % 8 = j % 8 := by omega
      rw [hdiv, hmod]
      exact ⟨w, hw, hbyte⟩

theorem loadBytes_toList (m : Memory) (a count : Nat) :
    (m.loadBytes a count).data.toList = (List.range count).map fun i => m.byteAt (a + i) := by
  have hall : ∀ n start, (n.fold (fun i _ (bytes : ByteArray) => bytes.push (m.byteAt (a + i))) start).data.toList =
      start.data.toList ++ (List.range n).map fun i => m.byteAt (a + i) := by
    intro n start
    induction n with
    | zero => simp
    | succ n ih =>
      rw [Nat.fold_succ, ByteArray.data_push, Array.toList_push, ih, List.range_succ, List.map_append,
        List.append_assoc]
      rfl
  unfold loadBytes
  rw [hall]
  rfl

/-- Bytes that were packed into words are read back. -/
theorem loadBytes_of_wordsAt {m : Memory} {a : Nat} (bytes : ByteArray) (ha : a % 8 = 0)
    (h : m.wordsAt a (packWords bytes.data.toList).length = packWords bytes.data.toList) :
    m.loadBytes a bytes.size = bytes := by
  apply ByteArray.ext
  apply Array.toList_inj.mp
  rw [loadBytes_toList]
  apply List.ext_getElem?
  intro i
  rw [List.getElem?_map]
  by_cases hi : i < bytes.size
  · have hlist : i < bytes.data.toList.length := hi
    have hbyte := List.getElem?_eq_getElem hlist
    obtain ⟨w, hw, hvalue⟩ := byte_packWords hbyte
    have hlength := (List.getElem?_eq_some_iff.mp hw).1
    rw [← h, getElem?_wordsAt, if_pos hlength, Option.some.injEq, load_aligned _ (by omega)] at hw
    rw [List.getElem?_range hi, hbyte, Option.map_some, Option.some.injEq]
    have hword : (a + i) / 8 = (a + 8 * (i / 8)) / 8 := by omega
    have hplace : (a + i) % 8 = i % 8 := by omega
    unfold byteAt
    rw [hword, hplace, hw]
    exact hvalue
  · have hlist : bytes.data.toList.length ≤ i := Nat.le_of_not_lt hi
    rw [List.getElem?_eq_none hlist, List.getElem?_eq_none (by simpa using hi)]
    rfl

theorem fromUTF8?_toUTF8 (text : String) : String.fromUTF8? text.toUTF8 = some text := by
  have hvalid : text.toUTF8.IsValidUTF8 := text.isValidUTF8
  unfold String.fromUTF8?
  rw [dif_pos hvalid]
  rfl

end ScriptEngine.Memory
