import ScriptEngine.Proofs.Heap.Interning

/-!
Elements of dense objects. Their storage never gets shorter, so an index that was inside of an array when
it was made stays inside, and an assignment to it writes the slot with the number of the index.
-/

namespace ScriptEngine.Heap

variable {h h' : Heap} {T : Contents} {past past' : Past} {o w key : Word} {dense : Bool} {proto : Word}
  {words : List Word} {n : Nat}

/-- Dense storage with so many words at least. -/
structure Spans (h : Heap) (o : Word) (n : Nat) : Prop where
  isObject : h.isObject o = true
  isDense : h.isDense o = true
  le : n ≤ h.storeLength (h.storeOf o)

theorem storeLength_record (typed : Typed h T) (record : HasRecord T o dense proto words) :
    h.storeLength (h.storeOf o) = words.length := by
  obtain ⟨s, st, rest, flags, ho, -, hst, -⟩ := record
  rw [storeOf_object typed.laid ho, storeLength_store typed.laid hst]

theorem Spans.of_record (typed : Typed h T) (record : HasRecord T o true proto words) (hn : n ≤ words.length) :
    Spans h o n :=
  ⟨isObject_record typed record, isDense_record typed record, (storeLength_record typed record).symm ▸ hn⟩

/-- An object with a dense record. -/
theorem Spans.record (spans : Spans h o n) (typed : Typed h T) (value : IsValue T o) :
    ∃ proto words, HasRecord T o true proto words ∧ n ≤ words.length := by
  obtain ⟨s, st, rest, ho⟩ := typed.object_of_isObject value spans.isObject
  obtain ⟨dense, proto, words, record⟩ := typed.hasRecord ho
  obtain rfl : dense = true := (isDense_record typed record).symm.trans spans.isDense
  exact ⟨proto, words, record, storeLength_record typed record ▸ spans.le⟩

/-- An operation that leaves an object alone leaves its storage as it is. -/
theorem Spans.frame {T' : Contents} {X : Word → Prop} (spans : Spans h o n) (typed : Typed h T) (typed' : Typed h' T')
    (frame : Frame X h h' T T') (value : IsValue T o) (out : ¬X o) : Spans h' o n := by
  obtain ⟨proto, words, record, hn⟩ := spans.record typed value
  exact .of_record typed' (frame.record out record) hn

/-- A search for a slot may add elements. -/
theorem Spans.lookupSlot (spans : Spans h o n) (typed : Typed h T) (value : IsValue T o) (valueKey : IsValue T key)
    {up : Bool} {result : Option Nat} (run : lookupSlot o key up h = .ok result h') : Spans h' o n := by
  obtain ⟨own, h₁, keyed, hcases⟩ := lookupSlot_cases spans.isObject run
  obtain ⟨T₁, typed₁, frame₁, -, -⟩ := propertyKey_ok typed valueKey keyed
  have spans₁ := spans.frame typed typed₁ frame₁ value id
  rcases hcases with ⟨-, rfl, -⟩ | ⟨-, -, added⟩
  · exact spans₁
  · obtain ⟨proto, words, ⟨s, st, rest, flags, ho, hs, hst, hdense⟩, hn⟩ :=
      spans₁.record typed₁ (frame₁.isValue value)
    obtain ⟨T', st', m, typed', -, ho', hs', hst', -⟩ := addProperty_dense typed₁ ho hs hst hdense added
    refine .of_record typed' ⟨s, st', rest, flags, ho', hs', hst', hdense⟩ ?_
    rw [List.length_append]
    omega

theorem Spans.setProperty (spans : Spans h o n) (sound : Sound h T past) (known : past.Known o)
    (knownKey : past.Known key) {v : Word} (run : setProperty o key v h = .ok () h') : Spans h' o n := by
  have value := sound.isValue known
  have valueKey := sound.isValue knownKey
  obtain ⟨s, st, rest, ho⟩ := sound.typed.object_of_isObject value spans.isObject
  simp only [Heap.setProperty, State.bind_eq_ok] at run
  obtain ⟨result, h₂, looked, run⟩ := run
  have spans₂ := spans.lookupSlot sound.typed value valueKey looked
  cases result with
  | none =>
    obtain ⟨-, rfl⟩ := State.pure_eq_ok.mp run
    exact spans₂
  | some slot =>
    obtain ⟨own, -, T₂, -, hkey, typed₂, frame₂, tracked₂, -, hrevised⟩ :=
      lookupSlot_ok sound.typed sound.tracked sound.tidy ho valueKey looked
    obtain ⟨proto, words, record, hn⟩ := spans₂.record typed₂ (frame₂.isValue value)
    obtain ⟨dense₀, proto₀, words₀, record₀⟩ := sound.typed.hasRecord ho
    obtain ⟨words₁, record₁, hlooked⟩ := hrevised dense₀ proto₀ words₀ record₀
    obtain ⟨rfl, rfl, rfl⟩ := record.unique record₁
    simp only [State.bind_eq_ok, State.get_eq_ok] at run
    obtain ⟨_, h₃, written, _, _, ⟨rfl, rfl⟩, run⟩ := run
    obtain ⟨T₃, typed₃, frame₃, tracked₃, -, record₃⟩ :=
      writeSlot_ok typed₂ tracked₂ record (hlooked.slot slot rfl) (hkey.ne_hole typed₂) written
    rw [← List.length_set] at hn
    split at run
    · rename_i hprototype
      obtain ⟨s₃, st₃, rest₃, ho₃⟩ := (frame₂.trans frame₃).objects ho
      obtain ⟨T₄, typed₄, -, -, -, hunchanged, -⟩ := refreshInstanceShape_ok typed₃ tracked₃ ho₃ hprototype.1 run
      obtain ⟨words₄, record₄, rfl⟩ := hunchanged true proto _ record₃
      exact .of_record typed₄ record₄ hn
    · obtain ⟨-, rfl⟩ := State.pure_eq_ok.mp run
      exact .of_record typed₃ record₃ hn

/-- An element that is deleted leaves a hole. -/
theorem Spans.deleteProperty (spans : Spans h o n) (sound : Sound h T past) (known : past.Known o)
    (knownKey : past.Known key) {gone : Bool} (run : deleteProperty o key h = .ok gone h') : Spans h' o n := by
  have value := sound.isValue known
  simp only [Heap.deleteProperty, State.bind_eq_ok, State.get_eq_ok] at run
  obtain ⟨_, _, ⟨rfl, rfl⟩, run⟩ := run
  simp only [spans.isObject, Bool.not_true, Bool.false_eq_true, if_false, State.bind_eq_ok, State.get_eq_ok] at run
  obtain ⟨own, h₁, keyed, _, _, ⟨rfl, rfl⟩, run⟩ := run
  obtain ⟨T₁, typed₁, frame₁, -, hown⟩ := propertyKey_ok sound.typed (sound.isValue knownKey) keyed
  have spans₁ := spans.frame sound.typed typed₁ frame₁ value id
  obtain ⟨proto, words, record, hn⟩ := spans₁.record typed₁ (frame₁.isValue value)
  have tracked₁ : Tracked Nobody h₁ T₁ past := sound.tracked.frame sound.typed frame₁ fun _ _ => ⟨rfl, rfl⟩
  cases hfound : h₁.ownSlot? o own with
  | none =>
    simp only [hfound, State.pure_eq_ok] at run
    obtain ⟨-, rfl⟩ := run
    exact spans₁
  | some slot =>
    simp only [hfound, spans₁.isDense, if_true, State.bind_eq_ok, State.pure_eq_ok] at run
    obtain ⟨_, h₂, written, -, rfl⟩ := run
    obtain ⟨T₂, typed₂, -, -, -, record₂⟩ :=
      writeSlot_ok typed₁ tracked₁ record (slotOf_ownSlot? typed₁ record hfound) (hown.ne_hole typed₁) written
    exact .of_record typed₂ record₂ (by rwa [List.length_set])

/-- A function that is made is none of the objects that were there. -/
theorem allocFunction_new (sound : Sound h T past) {code : Word} (run : allocFunction code h = .ok o h')
    {s st : Word} {rest : List Word} : T o ≠ some (.object s st rest) := by
  simp only [allocFunction, State.bind_eq_ok, State.pure_eq_ok] at run
  obtain ⟨proto, h₁, made, instances, h₂, allocated, function, h₃, bare, -, -, -, -, -, -, rfl, -⟩ := run
  obtain ⟨T₁, sound₁, frame₁, -, -⟩ := newObject_sound sound made
  obtain ⟨hnone, hlaid₂, -⟩ := allocShape_ok sound₁.typed.laid allocated
  obtain ⟨st₃, hfresh, -⟩ := allocBareFunction_ok hlaid₂ bare
  intro ho
  obtain ⟨s₁, st₁, rest₁, ho₁⟩ := frame₁.objects ho
  rw [update_of_none (d := .shape .transition proto) hnone ho₁] at hfresh
  cases hfresh

/-- No operation makes dense storage shorter. -/
theorem Operates.spans (operates : Operates h past h' past') (sound : Sound h T past) (value : IsValue T o)
    (spans : Spans h o n) : Spans h' o n := by
  obtain ⟨s, st, rest, ho⟩ := sound.typed.object_of_isObject value spans.isObject
  -- What is made is none of the objects that were there.
  have hborn : ∀ {a}, T a = none → ¬o = a := by
    rintro a hnone rfl
    rw [ho] at hnone
    cases hnone
  have hkept : ∀ {X : Word → Prop} {T' past'}, Sound h' T' past' → Frame X h h' T T' → ¬X o → Spans h' o n :=
    fun sound' frame' out => spans.frame sound.typed sound'.typed frame' value out
  cases operates with
  | string small run =>
    obtain ⟨T', sound', frame', -⟩ := string_sound sound small run
    exact hkept sound' frame' id
  | number run =>
    obtain ⟨T', sound', frame', -⟩ := number_sound sound run
    exact hkept sound' frame' id
  | allocCode run =>
    obtain ⟨T', sound', frame', -⟩ := allocCode_sound sound run
    exact hkept sound' frame' id
  | newObject run =>
    obtain ⟨T', sound', frame', hnone, -⟩ := newObject_sound sound run
    exact hkept sound' frame' (hborn hnone)
  | newGlobal run =>
    obtain ⟨T', sound', frame', hnone, -⟩ := newGlobal_sound sound run
    exact hkept sound' frame' (hborn hnone)
  | newArray small run =>
    obtain ⟨T', sound', frame', hnone, -⟩ := newArray_sound sound small run
    exact hkept sound' frame' (hborn hnone)
  | allocBuiltinFunction run =>
    obtain ⟨T', st', sound', frame', hnone, -⟩ := allocBuiltinFunction_sound sound run
    exact hkept sound' frame' (hborn hnone)
  | allocFunction run =>
    obtain ⟨T', sound', frame', -⟩ := allocFunction_sound sound run
    refine hkept sound' frame' ?_
    rintro (rfl | hnew)
    · exact allocFunction_new sound run ho
    · exact hnew ⟨s, st, rest, ho⟩
  | allocInstance known found run =>
    obtain ⟨T', proto', sound', frame', hnone, -⟩ := allocInstance_sound sound known found run
    exact hkept sound' frame' (hborn hnone)
  | @setProperty _ _ a _ _ known knownKey knownValue run =>
    by_cases hoa : o = a
    · subst hoa
      exact spans.setProperty sound known knownKey run
    · obtain ⟨T', sound', frame'⟩ := setProperty_sound sound known knownKey knownValue run
      exact hkept sound' frame' hoa
  | @lookupSlot _ _ a _ _ _ known knownKey run =>
    by_cases hoa : o = a
    · subst hoa
      exact spans.lookupSlot sound.typed value (sound.isValue knownKey) run
    · obtain ⟨T', sound', frame'⟩ := lookupSlot_sound sound known knownKey run
      exact hkept sound' frame' hoa
  | @deleteProperty _ _ a _ _ known knownKey run =>
    by_cases hoa : o = a
    · subst hoa
      exact spans.deleteProperty sound known knownKey run
    · obtain ⟨T', sound', frame'⟩ := deleteProperty_sound sound known knownKey run
      exact hkept sound' frame' hoa
  | propertyKey known run =>
    obtain ⟨T', sound', frame'⟩ := propertyKey_sound sound known run
    exact hkept sound' frame' id
  | getProperty _ known run =>
    obtain ⟨T', typed', frame'⟩ := getProperty_frame sound.typed (sound.isValue known) run
    exact spans.frame sound.typed typed' frame' value id
  | instanceOf _ _ run =>
    obtain ⟨T', typed', frame'⟩ := instanceOf_frame sound.typed run
    exact spans.frame sound.typed typed' frame' value id
  | scopes =>
    obtain ⟨sound', frame'⟩ := sound.scopes _
    exact hkept sound' frame' id

theorem Later.spans (later : Later h past h' past') (sound : Sound h T past) (value : IsValue T o)
    (spans : Spans h o n) : Spans h' o n := by
  induction later with
  | now => exact spans
  | step earlier operates ih =>
    obtain ⟨T₁, sound₁, frame₁⟩ := earlier.sound sound
    exact operates.spans sound₁ (frame₁.isValue value) ih

end ScriptEngine.Heap
