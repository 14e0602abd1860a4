import Mathlib.Data.Option.Basic
import ScriptEngine.Proofs.Heap.Storage

/-!
Objects as maps from keys to values. Storage holds a value under a key in one of two layouts; growth
adds nothing, and writing at the slot of one key leaves the values under all others.
-/

namespace ScriptEngine

theorem Word.signed_of_toSmi? {w : Word} {n : Int} (hw : w.toSmi? = some n) : w.signed = 2 * n := by
  unfold Word.toSmi? at hw
  split at hw
  · rename_i hsmi
    cases hw
    have heven : w.bits.toBitVec.toNat % 2 = 0 := by
      simp only [Word.isSmi, beq_iff_eq] at hsmi
      have hbit := congrArg UInt64.toNat hsmi
      simp only [UInt64.toNat_and, UInt64.toNat_one, UInt64.toNat_zero, Nat.and_one_is_mod] at hbit
      exact hbit
    have hsigned : w.signed % 2 = 0 := by
      change w.bits.toBitVec.toInt % 2 = 0
      rw [BitVec.toInt_eq_toNat_cond]
      split <;> omega
    omega
  · cases hw

theorem Word.toSmi?_inj {a b : Word} {n : Int} (ha : a.toSmi? = some n) (hb : b.toSmi? = some n) :
    a = b := by
  have hsame : a.bits.toInt64.toInt = b.bits.toInt64.toInt :=
    (signed_of_toSmi? ha).trans (signed_of_toSmi? hb).symm
  have hbits := congrArg Int64.toUInt64 (Int64.toInt_inj.mp hsame)
  cases a
  cases b
  simpa using hbits

namespace Heap

variable {h h' : Heap} {T T' T'' : Contents} {o s st key hole proto : Word} {dense : Bool}
  {flags : ShapeFlags} {words words' rest : List Word} {slot : Nat}

/-! ### Storage -/

/-- The value that storage holds under a key. The hole is neither a key nor a value. -/
def Entry (dense : Bool) (hole : Word) (words : List Word) (key value : Word) : Prop :=
  value ≠ hole ∧ match dense with
    | true => ∃ i : Nat, key.toSmi? = some (i : Int) ∧ words[i]? = some value
    | false => key ≠ hole ∧ ∃ i, words[2 * i]? = some key ∧ words[2 * i + 1]? = some value

/-- No key stands in two items. -/
def Distinct (hole : Word) (words : List Word) : Prop :=
  ∀ i j k, words[2 * i]? = some k → words[2 * j]? = some k → k ≠ hole → i = j

/-- The slot of a key: an index, or an item with the key. -/
def SlotOf (dense : Bool) (words : List Word) (key : Word) (slot : Nat) : Prop :=
  match dense with
  | true => key.toSmi? = some (slot : Int) ∧ slot < words.length
  | false => words[2 * slot]? = some key ∧ 2 * slot + 1 < words.length

/-- Where the value of a slot stands. -/
def valuePlace (dense : Bool) (slot : Nat) : Nat := if dense then slot else 2 * slot + 1

/-- Storage without a key: no item has it, or the element is the hole or lies outside. -/
def Lacks (dense : Bool) (hole : Word) (words : List Word) (key : Word) : Prop :=
  match dense with
  | true => ∀ i : Nat, key.toSmi? = some (i : Int) → ∀ v, words[i]? = some v → v = hole
  | false => ∀ i, words[2 * i]? ≠ some key

/-- Storage that differs under one key at most. -/
structure Alike (dense : Bool) (hole key : Word) (words words' : List Word) : Prop where
  others : ∀ {k v}, k ≠ key → (Entry dense hole words' k v ↔ Entry dense hole words k v)
  distinct : dense = false → Distinct hole words'

/-- Words other than the hole stand in the part that was there before growth. -/
theorem getElem?_append_holes {n i : Nat} {w : Word} (hw : w ≠ hole) :
    (words ++ List.replicate n hole)[i]? = some w ↔ words[i]? = some w := by
  by_cases hi : i < words.length
  · rw [List.getElem?_append_left hi]
  · have hout : words[i]? = none := List.getElem?_eq_none (by omega)
    rw [List.getElem?_append_right (by omega), hout, List.getElem?_replicate]
    split <;> simp [hw.symm]

theorem entry_append {n : Nat} {v : Word} :
    Entry dense hole (words ++ List.replicate n hole) key v ↔ Entry dense hole words key v := by
  unfold Entry
  refine and_congr_right fun hv => ?_
  cases dense with
  | true => exact exists_congr fun i => and_congr_right fun _ => getElem?_append_holes hv
  | false =>
    exact and_congr_right fun hkey => exists_congr fun i =>
      and_congr (getElem?_append_holes hkey) (getElem?_append_holes hv)

theorem Distinct.append (distinct : Distinct hole words) (n : Nat) :
    Distinct hole (words ++ List.replicate n hole) := by
  intro i j k hi hj hk
  exact distinct i j k ((getElem?_append_holes hk).mp hi) ((getElem?_append_holes hk).mp hj) hk

theorem Filled.distinct {keys : List Word} (filled : Filled hole keys words) (nodup : keys.Nodup) :
    Distinct hole words := by
  have hin : ∀ {i k}, words[2 * i]? = some k → k ≠ hole → keys[i]? = some k := by
    intro i k hi hk
    have hlt := (List.getElem?_eq_some_iff.mp hi).1
    have hkeys : i < keys.length := filled.lt_of_used hlt (by simpa [hi] using hk)
    have hfound := List.getElem?_eq_getElem hkeys
    rw [hfound, ← filled.key hfound, hi]
  intro i j k hi hj hk
  have hi' := hin hi hk
  exact (List.getElem?_inj (List.getElem?_eq_some_iff.mp hi').1 nodup).mp (hi'.trans (hin hj hk).symm)

theorem Entry.unique {v w : Word} (first : Entry dense hole words key v)
    (second : Entry dense hole words key w) (distinct : dense = false → Distinct hole words) :
    v = w := by
  cases dense with
  | true =>
    obtain ⟨-, i, hi, hv⟩ := first
    obtain ⟨-, j, hj, hw⟩ := second
    rw [hi, Option.some.injEq, Int.natCast_inj] at hj
    subst hj
    exact Option.some.inj (hv.symm.trans hw)
  | false =>
    obtain ⟨-, hkey, i, hi, hv⟩ := first
    obtain ⟨-, -, j, hj, hw⟩ := second
    obtain rfl := distinct rfl i j key hi hj hkey
    exact Option.some.inj (hv.symm.trans hw)

theorem Lacks.not_entry (lacks : Lacks dense hole words key) {v : Word} :
    ¬Entry dense hole words key v := by
  cases dense with
  | true =>
    rintro ⟨hv, i, hi, hfound⟩
    exact hv (lacks i hi v hfound)
  | false =>
    rintro ⟨-, -, i, hi, -⟩
    exact lacks i hi

/-- Key and value of an item are replaced. -/
theorem alike_setItem {old new : Word} (value : Word) (distinct : Distinct hole words)
    (hold : words[2 * slot]? = some old) (hslot : 2 * slot + 1 < words.length)
    (known : old = key ∨ old = hole) (wanted : new = key ∨ new = hole)
    (single : new ≠ hole → ∀ i, words[2 * i]? = some new → i = slot) :
    Alike false hole key words ((words.set (2 * slot) new).set (2 * slot + 1) value) := by
  have hkeys : ∀ i, ((words.set (2 * slot) new).set (2 * slot + 1) value)[2 * i]? =
      if i = slot then some new else words[2 * i]? := by
    intro i
    rw [List.getElem?_set_ne (by omega)]
    split
    · rename_i hi
      rw [hi, List.getElem?_set_self (by omega)]
    · rw [List.getElem?_set_ne (by omega)]
  have hvalues : ∀ i, i ≠ slot → ((words.set (2 * slot) new).set (2 * slot + 1) value)[2 * i + 1]? =
      words[2 * i + 1]? := by
    intro i hi
    rw [List.getElem?_set_ne (by omega), List.getElem?_set_ne (by omega)]
  constructor
  · intro k v hk
    unfold Entry
    refine and_congr_right fun _ => and_congr_right fun hhole => exists_congr fun i => ?_
    rw [hkeys]
    by_cases hi : i = slot
    · -- The item had and has either the one key or none.
      subst hi
      have hne : ∀ {w}, w = key ∨ w = hole → w ≠ k := by
        rintro w (rfl | rfl)
        · exact hk.symm
        · exact hhole.symm
      simp [hold, hne known, hne wanted]
    · rw [if_neg hi, hvalues i hi]
  · intro _ i j k hi hj hk
    rw [hkeys] at hi hj
    split at hi
    · rename_i hislot
      cases hi
      split at hj
      · rename_i hjslot
        rw [hislot, hjslot]
      · rw [hislot, single hk j hj]
    · split at hj
      · rename_i hjslot
        cases hj
        rw [hjslot, single hk i hi]
      · exact distinct i j k hi hj hk

/-- An element is replaced. -/
theorem alike_setElement (hkey : key.toSmi? = some (slot : Int)) (value : Word) :
    Alike true hole key words (words.set slot value) := by
  refine ⟨fun {k v} hk => ?_, nofun⟩
  unfold Entry
  refine and_congr_right fun _ => exists_congr fun i => and_congr_right fun hi => ?_
  have hne : slot ≠ i := by
    rintro rfl
    exact hk (Word.toSmi?_inj hi hkey)
  rw [List.getElem?_set_ne hne]

theorem Alike.refl (distinct : dense = false → Distinct hole words) :
    Alike dense hole key words words :=
  ⟨fun _ => Iff.rfl, distinct⟩

theorem Alike.trans {words'' : List Word} (first : Alike dense hole key words words')
    (second : Alike dense hole key words' words'') : Alike dense hole key words words'' where
  others := fun hk => (second.others hk).trans (first.others hk)
  distinct := second.distinct

theorem Alike.append
    (distinct : dense = false → Distinct hole words) (n : Nat) :
    Alike dense hole key words (words ++ List.replicate n hole) where
  others := fun _ => entry_append
  distinct := fun hdense => (distinct hdense).append n

theorem SlotOf.exists_value (found : SlotOf dense words key slot) :
    ∃ v, words[valuePlace dense slot]? = some v := by
  cases dense with
  | true => exact ⟨_, List.getElem?_eq_getElem found.2⟩
  | false => exact ⟨_, List.getElem?_eq_getElem found.2⟩

/-- A slot is written. -/
theorem SlotOf.alike_set (found : SlotOf dense words key slot)
    (distinct : dense = false → Distinct hole words) (value : Word) (proper : key ≠ hole) :
    Alike dense hole key words (words.set (valuePlace dense slot) value) := by
  cases dense with
  | true => exact alike_setElement found.1 value
  | false =>
    have hitem := alike_setItem value (distinct rfl) found.1 found.2 (.inl rfl) (.inl rfl)
      fun _ i hi => distinct rfl i slot key hi found.1 proper
    have hsame : words.set (2 * slot) key = words := by
      apply List.ext_getElem?
      intro i
      by_cases hi : 2 * slot = i
      · subst hi
        rw [List.getElem?_set_self (by have := found.2; omega), found.1]
      · rw [List.getElem?_set_ne hi]
    rwa [hsame] at hitem

theorem SlotOf.entry_set (found : SlotOf dense words key slot) {value : Word} (proper : key ≠ hole)
    (hvalue : value ≠ hole) :
    Entry dense hole (words.set (valuePlace dense slot) value) key value := by
  cases dense with
  | true => exact ⟨hvalue, slot, found.1, List.getElem?_set_self found.2⟩
  | false =>
    refine ⟨hvalue, proper, slot, ?_, List.getElem?_set_self found.2⟩
    change (words.set (2 * slot + 1) value)[2 * slot]? = some key
    rw [List.getElem?_set_ne (by omega)]
    exact found.1

/-- Storage without the value under a key: an element becomes the hole, an item becomes free. -/
def cleared (dense : Bool) (hole : Word) (words : List Word) (slot : Nat) : List Word :=
  match dense with
  | true => words.set slot hole
  | false => (words.set (2 * slot) hole).set (2 * slot + 1) hole

theorem SlotOf.alike_cleared (found : SlotOf dense words key slot)
    (distinct : dense = false → Distinct hole words) :
    Alike dense hole key words (cleared dense hole words slot) := by
  cases dense with
  | true => exact alike_setElement found.1 hole
  | false =>
    exact alike_setItem hole (distinct rfl) found.1 found.2 (.inl rfl) (.inr rfl) fun hne => absurd rfl hne

theorem SlotOf.lacks_cleared (found : SlotOf dense words key slot)
    (distinct : dense = false → Distinct hole words) (hkey : key ≠ hole) :
    Lacks dense hole (cleared dense hole words slot) key := by
  cases dense with
  | true =>
    intro i hi v hfound
    obtain rfl : slot = i := by
      have hsame := found.1.symm.trans hi
      rwa [Option.some.injEq, Int.natCast_inj] at hsame
    change (words.set slot hole)[slot]? = some v at hfound
    rw [List.getElem?_set_self found.2] at hfound
    exact (Option.some.inj hfound).symm
  | false =>
    intro i hi
    change ((words.set (2 * slot) hole).set (2 * slot + 1) hole)[2 * i]? = some key at hi
    rw [List.getElem?_set_ne (by omega)] at hi
    by_cases his : i = slot
    · subst his
      rw [List.getElem?_set_self (by have := found.2; omega)] at hi
      exact hkey (Option.some.inj hi).symm
    · rw [List.getElem?_set_ne (by omega)] at hi
      exact his (distinct rfl i slot key hi found.1 hkey)

/-- What was written into storage: it is no shorter, and new items hold nothing, or a certain value under the key. -/
structure Written (dense : Bool) (hole key : Word) (new : Word → Prop) (words words' : List Word) : Prop where
  longer : words.length ≤ words'.length
  items : match dense with
    | true => ∀ (i : Nat) v, words'[i]? = some v → words[i]? = some v ∨ v = hole ∨ key.toSmi? = some (i : Int) ∧ new v
    | false => ∀ (i : Nat) k v, words'[2 * i]? = some k → words'[2 * i + 1]? = some v →
      k = hole ∨ words[2 * i]? = some k ∧ words[2 * i + 1]? = some v ∨ k = key ∧ new v

theorem Written.refl {new : Word → Prop} (words : List Word) : Written dense hole key new words words := by
  refine ⟨le_rfl, ?_⟩
  cases dense with
  | true => exact fun _ _ => .inl
  | false => exact fun _ _ _ hk hv => .inr (.inl ⟨hk, hv⟩)

theorem Written.mono {new new' : Word → Prop} (h : Written dense hole key new words words') (hnew : ∀ v, new v → new' v) :
    Written dense hole key new' words words' := by
  obtain ⟨hlonger, hitems⟩ := h
  refine ⟨hlonger, ?_⟩
  cases dense with
  | true => exact fun i v hv => (hitems i v hv).imp_right (.imp_right fun hkey => ⟨hkey.1, hnew v hkey.2⟩)
  | false => exact fun i k v hk hv => (hitems i k v hk hv).imp_right (.imp_right fun hkey => ⟨hkey.1, hnew v hkey.2⟩)

theorem Written.trans {new : Word → Prop} {words'' : List Word} (h : Written dense hole key new words words')
    (h' : Written dense hole key new words' words'') : Written dense hole key new words words'' := by
  obtain ⟨hlonger, hitems⟩ := h
  obtain ⟨hlonger', hitems'⟩ := h'
  refine ⟨hlonger.trans hlonger', ?_⟩
  cases dense with
  | true => exact fun i v hv => (hitems' i v hv).elim (hitems i v) .inr
  | false =>
    exact fun i k v hk hv => (hitems' i k v hk hv).elim .inl fun hrest =>
      hrest.elim (fun hold => hitems i k v hold.1 hold.2) fun hkey => .inr (.inr hkey)

theorem written_append {new : Word → Prop} (even : dense = false → words.length % 2 = 0) (n : Nat) :
    Written dense hole key new words (words ++ List.replicate n hole) := by
  refine ⟨by simp, ?_⟩
  cases dense with
  | true =>
    intro i v hv
    by_cases hne : v = hole
    · exact .inr (.inl hne)
    · exact .inl ((getElem?_append_holes hne).mp hv)
  | false =>
    intro i k v hk hv
    by_cases hne : k = hole
    · exact .inl hne
    · have hlt := (List.getElem?_eq_some_iff.mp ((getElem?_append_holes hne).mp hk)).1
      have heven := even rfl
      rw [List.getElem?_append_left hlt] at hk
      rw [List.getElem?_append_left (by omega)] at hv
      exact .inr (.inl ⟨hk, hv⟩)

/-- Key and value of an item are written. -/
theorem written_setItem {new : Word → Prop} {k v : Word} (hitem : k = hole ∨ k = key ∧ new v) :
    Written false hole key new words ((words.set (2 * slot) k).set (2 * slot + 1) v) := by
  refine ⟨by simp, ?_⟩
  intro i k' v' hk' hv'
  rw [List.getElem?_set_ne (by omega)] at hk'
  by_cases hi : i = slot
  · subst hi
    obtain ⟨hlt, -⟩ := List.getElem?_eq_some_iff.mp hk'
    obtain ⟨hlt', -⟩ := List.getElem?_eq_some_iff.mp hv'
    rw [List.length_set, List.length_set] at hlt'
    rw [List.length_set] at hlt
    rw [List.getElem?_set_self hlt] at hk'
    rw [List.getElem?_set_self (by rwa [List.length_set])] at hv'
    cases hk'
    cases hv'
    exact hitem.imp_right .inr
  · rw [List.getElem?_set_ne (by omega)] at hk'
    rw [List.getElem?_set_ne (by omega), List.getElem?_set_ne (by omega)] at hv'
    exact .inr (.inl ⟨hk', hv'⟩)

theorem SlotOf.written_set (found : SlotOf dense words key slot) (value : Word) :
    Written dense hole key (· = value) words (words.set (valuePlace dense slot) value) := by
  cases dense with
  | true =>
    refine ⟨by simp, ?_⟩
    intro i v hv
    simp only [valuePlace, if_true] at hv
    by_cases hi : i = slot
    · subst hi
      rw [List.getElem?_set_self found.2] at hv
      exact .inr (.inr ⟨found.1, (Option.some.inj hv).symm⟩)
    · rw [List.getElem?_set_ne (Ne.symm hi)] at hv
      exact .inl hv
  | false =>
    have hsame : words.set (valuePlace false slot) value = (words.set (2 * slot) key).set (2 * slot + 1) value := by
      obtain ⟨hlt, hkey⟩ := List.getElem?_eq_some_iff.mp found.1
      rw [← hkey, List.set_getElem_self]
      rfl
    rw [hsame]
    exact written_setItem (.inr ⟨rfl, rfl⟩)

theorem written_cleared {new : Word → Prop} : Written dense hole key new words (cleared dense hole words slot) := by
  cases dense with
  | true =>
    refine ⟨by simp [cleared], ?_⟩
    intro i v hv
    simp only [cleared] at hv
    by_cases hi : i = slot
    · subst hi
      obtain ⟨hlt, -⟩ := List.getElem?_eq_some_iff.mp hv
      rw [List.getElem?_set_self (by simpa using hlt)] at hv
      exact .inr (.inl (Option.some.inj hv).symm)
    · rw [List.getElem?_set_ne (Ne.symm hi)] at hv
      exact .inl hv
  | false => exact written_setItem (.inl rfl)

/-! ### Objects -/

/-- The property of an object itself under a key. -/
def own? (h : Heap) (object key : Word) : Option Word :=
  if key = h.hole then none
  else ((h.ownSlot? object key).map (h.readSlot object)).filter (· ≠ h.hole)

/-- The prototype of an object. -/
def protoOf (h : Heap) (object : Word) : Word := h.shapeProto (h.read object Layout.shape)

/-- How an object stores its properties, its prototype, and the words of its storage. -/
def HasRecord (T : Contents) (o : Word) (dense : Bool) (proto : Word) (words : List Word) : Prop :=
  ∃ s st rest flags, T o = some (.object s st rest) ∧ T s = some (.shape flags proto) ∧
    T st = some (.store words) ∧ flags.contains .dense = dense

theorem Typed.hasRecord (typed : Typed h T)
    (ho : T o = some (.object s st rest)) : ∃ dense proto words, HasRecord T o dense proto words := by
  obtain ⟨flags, proto, words, formed⟩ := typed.formed ho
  exact ⟨_, proto, words, s, st, rest, flags, ho, formed.shape, formed.store, rfl⟩

theorem HasRecord.unique {dense' : Bool} {proto' : Word}
    (first : HasRecord T o dense proto words) (second : HasRecord T o dense' proto' words') :
    dense = dense' ∧ proto = proto' ∧ words = words' := by
  obtain ⟨s, st, rest, flags, ho, hs, hst, rfl⟩ := first
  obtain ⟨s', st', rest', flags', ho', hs', hst', rfl⟩ := second
  rw [ho] at ho'
  cases ho'
  rw [hs] at hs'
  rw [hst] at hst'
  cases hs'
  cases hst'
  exact ⟨rfl, rfl, rfl⟩

theorem isDense_object (typed : Typed h T) (ho : T o = some (.object s st rest))
    (hs : T s = some (.shape flags proto)) : h.isDense o = flags.contains .dense :=
  typed.hasFlag_object ho hs .dense

theorem ownSlot?_keyed (typed : Typed h T) (ho : T o = some (.object s st rest))
    (hs : T s = some (.shape flags proto)) (hst : T st = some (.store words))
    (hdense : flags.contains .dense = false) (key : Word) :
    h.ownSlot? o key =
      (List.range (words.length / 2)).find? fun i => words[2 * i]? == some key := by
  unfold ownSlot?
  rw [typed.isObject_object ho, isDense_object typed ho hs, hdense, storeOf_object typed.laid ho]
  simp only [Bool.not_true, Bool.false_eq_true, if_false]
  exact findKey?_store typed.laid hst key

section

variable (typed : Typed h T) (record : HasRecord T o dense proto words)
include typed record

theorem isObject_record : h.isObject o = true := by
  obtain ⟨s, st, rest, flags, ho, -, -, -⟩ := record
  exact typed.isObject_object ho

theorem isDense_record : h.isDense o = dense := by
  obtain ⟨s, st, rest, flags, ho, hs, -, rfl⟩ := record
  exact isDense_object typed ho hs

theorem protoOf_record : h.protoOf o = proto := by
  obtain ⟨s, st, rest, flags, ho, hs, -, -⟩ := record
  have hread : h.read o Layout.shape = s := typed.laid.read (i := 0) ho rfl
  unfold protoOf
  rw [hread]
  exact shapeProto_shape typed.laid hs

theorem readSlot_record {v : Word} (found : words[valuePlace dense slot]? = some v) :
    h.readSlot o slot = v := by
  have hdense := isDense_record typed record
  obtain ⟨s, st, rest, flags, ho, -, hst, -⟩ := record
  unfold readSlot slotOffset
  rw [storeOf_object typed.laid ho, hdense]
  have hread := read_store typed.laid hst found
  cases dense with
  | true =>
    have hplace : slot * Layout.word = 8 * valuePlace true slot := Nat.mul_comm _ _
    simp only [if_true]
    rw [hplace]
    exact hread
  | false =>
    have hplace : Layout.Store.items + slot * Layout.Item.bytes + Layout.Item.value =
        Layout.Store.items + 8 * valuePlace false slot := by
      simp only [valuePlace, Layout.Item.bytes, Layout.Item.value, Bool.false_eq_true, if_false]
      omega
    simp only [Bool.false_eq_true, if_false]
    rw [hplace]
    exact hread

/-- An element is there if it lies inside the storage and is not the hole. -/
theorem ownSlot?_dense (hdense : dense = true) : h.ownSlot? o key = some slot ↔
    key.toSmi? = some (slot : Int) ∧ ∃ v, words[slot]? = some v ∧ v ≠ h.hole := by
  subst hdense
  have hflag := isDense_record typed record
  have hobject := isObject_record typed record
  have hread : ∀ {i v}, words[i]? = some v → h.readSlot o i = v :=
    fun hi => readSlot_record typed record hi
  obtain ⟨s, st, rest, flags, ho, -, hst, -⟩ := record
  unfold ownSlot?
  rw [hobject, hflag, storeOf_object typed.laid ho]
  simp only [Bool.not_true, Bool.false_eq_true, if_false, if_true,
    storeLength_store typed.laid hst, Option.bind_eq_bind, Option.bind_eq_some_iff, Option.guard_eq_some', Option.pure_def, Option.some.injEq]
  constructor
  · rintro ⟨index, hindex, _, ⟨hlow, hhigh⟩, _, hvalue, rfl⟩
    have hlt : index.toNat < words.length := by omega
    have hfound := List.getElem?_eq_getElem hlt
    rw [hread hfound] at hvalue
    refine ⟨?_, _, hfound, hvalue⟩
    rw [hindex, Int.toNat_of_nonneg hlow]
  · rintro ⟨hindex, v, hv, hvalue⟩
    have hlt := (List.getElem?_eq_some_iff.mp hv).1
    refine ⟨slot, hindex, ⟨⟩, ⟨by omega, by omega⟩, ⟨⟩, ?_, rfl⟩
    rw [Int.toNat_natCast, hread hv]
    exact hvalue

/-- A search finds the first item with the key. -/
theorem ownSlot?_items (hdense : dense = false) :
    h.ownSlot? o key = (List.range (words.length / 2)).find? fun i => words[2 * i]? == some key := by
  obtain ⟨s, st, rest, flags, ho, hs, hst, rfl⟩ := record
  exact ownSlot?_keyed typed ho hs hst hdense key

theorem slotOf_ownSlot? (found : h.ownSlot? o key = some slot) : SlotOf dense words key slot := by
  cases hdense : dense with
  | true =>
    obtain ⟨hkey, v, hv, -⟩ := (ownSlot?_dense typed record hdense).mp found
    exact ⟨hkey, (List.getElem?_eq_some_iff.mp hv).1⟩
  | false =>
    rw [ownSlot?_items typed record hdense, List.find?_range_eq_some] at found
    obtain ⟨hkey, hmem, -⟩ := found
    have hlt := List.mem_range.mp hmem
    exact ⟨by simpa using hkey, by omega⟩

theorem ownSlot?_eq_none : h.ownSlot? o key = none ↔ Lacks dense h.hole words key := by
  cases hdense : dense with
  | true =>
    rw [Option.eq_none_iff_forall_ne_some]
    simp only [ne_eq, ownSlot?_dense typed record hdense, not_and, not_exists, not_not]
    rfl
  | false =>
    have heven : words.length % 2 = 0 := by
      obtain ⟨s, st, rest, flags, ho, hs, hst, rfl⟩ := record
      exact (typed.formed_of ho hs hst).even hdense
    rw [ownSlot?_items typed record hdense, List.find?_range_eq_none]
    constructor
    · intro hnone i hi
      have hlt := (List.getElem?_eq_some_iff.mp hi).1
      simpa [hi] using hnone i (by omega)
    · intro hlacks i _
      simpa using hlacks i

/-- What an object has under a key is what its storage holds. -/
theorem own?_eq_some (distinct : dense = false → Distinct h.hole words) {v : Word} :
    h.own? o key = some v ↔ Entry dense h.hole words key v := by
  have hslot : ∀ {slot v}, words[valuePlace dense slot]? = some v → h.readSlot o slot = v :=
    readSlot_record typed record
  unfold own?
  split
  · rename_i hhole
    refine ⟨nofun, fun hentry => ?_⟩
    cases dense with
    | true =>
      obtain ⟨rest, hcell⟩ := typed.hole
      obtain ⟨-, i, hi, -⟩ := hentry
      rw [hhole, toSmi?_of_cell typed.laid hcell] at hi
      cases hi
    | false => exact absurd hhole hentry.2.1
  · rename_i hhole
    simp only [Option.filter_eq_some_iff, Option.map_eq_some_iff, decide_eq_true_eq]
    constructor
    · rintro ⟨⟨slot, hfound, rfl⟩, hvalue⟩
      have hplace := slotOf_ownSlot? typed record hfound
      obtain ⟨v, hv⟩ := hplace.exists_value
      rw [hslot hv] at hvalue ⊢
      cases dense with
      | true => exact ⟨hvalue, slot, hplace.1, hv⟩
      | false => exact ⟨hvalue, hhole, slot, hplace.1, hv⟩
    · intro hentry
      refine ⟨?_, hentry.1⟩
      cases dense with
      | true =>
        obtain ⟨hvalue, i, hi, hv⟩ := hentry
        exact ⟨i, (ownSlot?_dense typed record rfl).mpr ⟨hi, v, hv, hvalue⟩, hslot hv⟩
      | false =>
        obtain ⟨-, hkey, i, hi, hv⟩ := hentry
        have hlt := (List.getElem?_eq_some_iff.mp hv).1
        refine ⟨i, ?_, hslot hv⟩
        rw [ownSlot?_items typed record rfl, List.find?_range_eq_some]
        refine ⟨by simpa using hi, List.mem_range.mpr (by omega), fun j hj => ?_⟩
        simp only [Bool.not_eq_true', beq_eq_false_iff_ne, ne_eq]
        intro hj'
        have hsame := distinct rfl j i key hj' hi hkey
        omega

end

/-- An object keeps its prototype and its layout, and its storage changes in a certain way. -/
def Revised (T T' : Contents) (o : Word) (R : Bool → List Word → List Word → Prop) : Prop :=
  ∀ dense proto words, HasRecord T o dense proto words →
    ∃ words', HasRecord T' o dense proto words' ∧ R dense words words'

theorem Revised.trans {R S Q : Bool → List Word → List Word → Prop} (first : Revised T T' o R)
    (second : Revised T' T'' o S) (both : ∀ {d a b c}, R d a b → S d b c → Q d a c) :
    Revised T T'' o Q := by
  intro dense proto words record
  obtain ⟨words₁, record₁, hfirst⟩ := first dense proto words record
  obtain ⟨words₂, record₂, hsecond⟩ := second dense proto words₁ record₁
  exact ⟨words₂, record₂, both hfirst hsecond⟩

/-- Nothing changes for objects outside a frame. -/
theorem Frame.record {X : Word → Prop} (frame : Frame X h h' T T') (out : ¬X o)
    (record : HasRecord T o dense proto words) : HasRecord T' o dense proto words := by
  obtain ⟨s, st, rest, flags, ho, hs, hst, hdense⟩ := record
  obtain ⟨s', st', rest', ho'⟩ := frame.objects ho
  obtain ⟨hold, hstore⟩ := frame.same out ho'
  rw [ho] at hold
  cases hold
  exact ⟨s, st, rest, flags, ho', frame.shapes hs, hstore hst, hdense⟩

end Heap
end ScriptEngine
