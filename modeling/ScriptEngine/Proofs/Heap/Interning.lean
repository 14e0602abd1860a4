import ScriptEngine.Proofs.Heap.ObjectModel

/-!
Strings are interned for the life of a heap. A text has one string, which no operation changes, so
strings are told apart by their words, and so are keys: they are strings too, but for the indices of
dense objects.
-/

namespace ScriptEngine.Heap

variable {h h' h₁ h₂ : Heap} {T T' : Contents} {past past' : Past} {o v w key own : Word}
  {text : String}

/-! ### The text of a value -/

theorem string_of_interned (found : h.strings[text]? = some w) : string text h = .ok w h := by
  rw [string, State.get_bind, found]
  rfl

/-- A string that was made anew was no value before. -/
theorem Typed.interned_of_string (typed : Typed h T) (value : IsValue T w)
    (small : text.utf8ByteSize < 2 ^ 63) (run : string text h = .ok w h') :
    h.strings[text]? = some w ∧ h' = h := by
  rcases string_ok typed.laid small run with ⟨hfound, rfl⟩ | ⟨-, hnone, -, -, -, hlaid⟩
  · exact ⟨hfound, rfl⟩
  · have hsmi := isSmi_of_cell hlaid (Function.update_self ..)
    rcases value with hvalue | ⟨_, _, hcell⟩ | ⟨_, hcell⟩ | ⟨_, _, _, hcell⟩
    · rw [hsmi] at hvalue
      cases hvalue
    · exact absurd rfl (ne_of_none hnone hcell)
    · exact absurd rfl (ne_of_none hnone hcell)
    · exact absurd rfl (ne_of_none hnone hcell)

/-- What a value other than a small integer and the oddballs looks like. -/
def inspectCell (h : Heap) (w : Word) : View :=
  match h.text? w with
  | some s => .text s
  | none => match h.double? w with
    | some n => .number n
    | none =>
      if h.isFunction w then .function
      else if h.isDense w then .array (h.storeLength (h.storeOf w))
      else .object

theorem inspectCell_text (found : h.text? w = some text) : h.inspectCell w = .text text := by
  unfold inspectCell
  rw [found]

theorem inspect_of_pointer (pointer : w.toSmi? = none) : h.inspect w =
    if w = h.undefined then .undefined
    else if w = h.null then .null
    else if w = h.hole then .hole
    else if w = h.trueValue then .bool true
    else if w = h.falseValue then .bool false
    else h.inspectCell w := by
  unfold inspect
  rw [pointer]
  rfl

/-- The values that exist from the start are leaves. -/
theorem Typed.leaf_of_oddball (typed : Typed h T)
    (member : w ∈ [h.undefined, h.null, h.hole, h.trueValue, h.falseValue]) :
    ∃ kind rest, T w = some (.leaf kind rest) := by
  obtain ⟨rest₁, hundefined⟩ := typed.oddballs.undefined
  obtain ⟨rest₂, hnull⟩ := typed.null
  obtain ⟨rest₃, hhole⟩ := typed.hole
  obtain ⟨rest₄, htrue⟩ := typed.oddballs.trueValue
  obtain ⟨rest₅, hfalse⟩ := typed.oddballs.falseValue
  simp only [List.mem_cons, List.not_mem_nil, or_false] at member
  rcases member with rfl | rfl | rfl | rfl | rfl
  · exact ⟨_, _, hundefined⟩
  · exact ⟨_, _, hnull⟩
  · exact ⟨_, _, hhole⟩
  · exact ⟨_, _, htrue⟩
  · exact ⟨_, _, hfalse⟩

/-- A string is shown by its text. -/
theorem Typed.display_text (typed : Typed h T) (hw : T w = some (.text text)) :
    h.display w = text := by
  have hother : w ∉ [h.undefined, h.null, h.hole, h.trueValue, h.falseValue] := by
    intro hmem
    obtain ⟨kind, rest, hleaf⟩ := typed.leaf_of_oddball hmem
    rw [hw] at hleaf
    cases hleaf
  simp only [List.mem_cons, List.not_mem_nil, or_false, not_or] at hother
  obtain ⟨hundefined, hnull, hhole, htrue, hfalse⟩ := hother
  unfold display
  rw [inspect_of_pointer (toSmi?_of_cell typed.laid hw), if_neg hundefined, if_neg hnull,
    if_neg hhole, if_neg htrue, if_neg hfalse, inspectCell_text (text?_text typed.laid hw)]
  rfl

theorem Typed.double?_leaf (typed : Typed h T) {kind : RootShape} {rest : List Word}
    (hw : T w = some (.leaf kind rest)) :
    h.double? w = if kind = .number then rest.head?.map fun x => ⟨x.bits⟩ else none := by
  have hroot : h.hasRootShape w .number = decide (kind = .number) := by
    unfold hasRootShape
    rw [shapeOf?_of_cell typed.laid hw rfl, Bool.eq_iff_iff, beq_iff_eq, Option.some.injEq,
      decide_eq_true_iff]
    exact ⟨typed.root_inj, fun hkind => by rw [hkind]⟩
  unfold double?
  rw [toSmi?_of_cell typed.laid hw]
  simp only [hroot, decide_eq_true_eq]
  by_cases hkind : kind = .number
  · subst hkind
    obtain ⟨x, rfl⟩ := List.length_eq_one_iff.mp (typed.leaf_rest hw)
    have hread : h.read w Layout.Boxed.value = x := typed.laid.read (i := 1) hw rfl
    simp [hread]
  · simp [hkind]

theorem Typed.double?_object (typed : Typed h T) {s st : Word} {rest : List Word}
    (hw : T w = some (.object s st rest)) : h.double? w = none := by
  obtain ⟨flags, proto, words, formed⟩ := typed.formed hw
  have hroot : h.hasRootShape w .number = false := by
    have hne := formed.proper .number (by decide)
    unfold hasRootShape
    rw [shapeOf?_object typed.laid hw]
    simpa [beq_eq_false_iff_ne] using hne.symm
  unfold double?
  rw [toSmi?_of_cell typed.laid hw]
  simp [hroot]

/-- Leaves are neither functions nor dense. -/
theorem Typed.hasFlag_leaf (typed : Typed h T) {kind : RootShape} {rest : List Word}
    (hw : T w = some (.leaf kind rest)) : h.isFunction w = false ∧ h.isDense w = false := by
  have hmem := typed.leaf_kind hw
  simp only [leafKinds, List.mem_cons, List.not_mem_nil, or_false] at hmem
  unfold isFunction isDense
  rw [typed.hasFlag_of_root kind hw rfl, typed.hasFlag_of_root kind hw rfl]
  rcases hmem with rfl | rfl | rfl | rfl <;> decide

theorem Frame.inspectCell_eq (frame : Frame Nobody h h' T T') (typed : Typed h T)
    (typed' : Typed h' T') (value : IsValue T w) (pointer : w.isSmi = false) :
    h'.inspectCell w = h.inspectCell w := by
  have htext := frame.text?_eq typed typed' value
  rcases value with hsmi | ⟨kind, rest, hleaf⟩ | ⟨text, hcell⟩ | ⟨s, st, rest, hobject⟩
  · rw [pointer] at hsmi
    cases hsmi
  · have hleaf' := frame.leaves hleaf
    unfold inspectCell
    rw [htext, typed.double?_leaf hleaf, typed'.double?_leaf hleaf', (typed.hasFlag_leaf hleaf).1,
      (typed.hasFlag_leaf hleaf).2, (typed'.hasFlag_leaf hleaf').1, (typed'.hasFlag_leaf hleaf').2]
    simp only [Bool.false_eq_true, if_false]
  · rw [inspectCell_text (text?_text typed.laid hcell),
      inspectCell_text (text?_text typed'.laid (frame.texts hcell))]
  · obtain ⟨s', st', rest', hobject'⟩ := frame.objects hobject
    obtain ⟨hsame, hstore⟩ := frame.same id hobject'
    rw [hobject] at hsame
    cases hsame
    obtain ⟨flags, proto, words, formed⟩ := typed.formed hobject
    have hshape' := frame.shapes formed.shape
    have hstore' := hstore formed.store
    unfold inspectCell isFunction isDense
    rw [htext, typed.double?_object hobject, typed'.double?_object hobject',
      typed.hasFlag_object hobject formed.shape, typed.hasFlag_object hobject formed.shape,
      typed'.hasFlag_object hobject' hshape', typed'.hasFlag_object hobject' hshape',
      storeOf_object typed.laid hobject, storeOf_object typed'.laid hobject',
      storeLength_store typed.laid formed.store, storeLength_store typed'.laid hstore']

/-- What is allocated elsewhere does not change how a value looks. -/
theorem Frame.inspect_eq (frame : Frame Nobody h h' T T') (typed : Typed h T) (typed' : Typed h' T')
    (value : IsValue T w) : h'.inspect w = h.inspect w := by
  have hkept := frame.kept
  cases hsmi : w.isSmi with
  | true => simp [inspect, Word.toSmi?, hsmi]
  | false =>
    have hnone : w.toSmi? = none := by simp [Word.toSmi?, hsmi]
    rw [inspect_of_pointer hnone, inspect_of_pointer hnone, hkept.undefined, hkept.null, hkept.hole,
      hkept.trueValue, hkept.falseValue, frame.inspectCell_eq typed typed' value hsmi]

/-! ### Keys -/

/-- A key that is no index becomes the string that it is shown by. -/
theorem Typed.propertyKey_named (typed : Typed h T) (value : IsValue T key)
    (named : ¬(key.isSmi = true ∧ h.isDense o = true)) (run : propertyKey o key h = .ok own h') :
    h'.strings[h.display key]? = some own := by
  rcases propertyKey_cases run with ⟨hindex, -⟩ | ⟨-, ⟨hsome, rfl, rfl⟩ | ⟨hnone, hstring⟩⟩
  · exact absurd hindex named
  · obtain ⟨text, hfound⟩ := typed.text_of_text? value hsome
    rw [typed.display_text (typed.interned.mp hfound)]
    exact hfound
  · obtain ⟨_, _, _, -, hfound⟩ :=
      string_typed typed (h.utf8ByteSize_display_lt hnone) hstring
    exact hfound

/-- A key that was brought into its form is brought into it again without a change. -/
theorem Typed.normal_of_propertyKey (typed : Typed h T) (typed₁ : Typed h₁ T') (frame : Frame Nobody h h₁ T T')
    {dense : Bool} {proto : Word} {words : List Word} (record : HasRecord T o dense proto words) (value : IsValue T key)
    (run : propertyKey o key h = .ok own h₁) : Normal h₁ o key own := by
  rcases propertyKey_cases run with ⟨-, -, rfl⟩ | ⟨hnamed, ⟨-, -, rfl⟩ | ⟨hnone, -⟩⟩
  · exact run
  · exact run
  · have hlisted := typed.propertyKey_named value hnamed run
    have hnamed' : ¬(key.isSmi = true ∧ h₁.isDense o = true) := by
      rwa [isDense_record typed₁ (frame.record id record), ← isDense_record typed record]
    have hdisplay : h₁.display key = h.display key := by
      rw [display, display, frame.inspect_eq typed typed₁ value]
    unfold Normal propertyKey
    rw [State.get_bind]
    simp only [Bool.and_eq_true, hnamed', if_false, frame.text?_eq typed typed₁ value, hnone, Option.isSome_none,
      Bool.false_eq_true, hdisplay]
    exact string_of_interned hlisted

/-- A lookup brings the key into its form, and then it changes nothing. -/
theorem Sound.getProperty_keyed {past₁ : Past} (sound : Sound h T past) (sound₁ : Sound h₁ T' past₁)
    (frame : Frame Nobody h h₁ T T') {s st : Word} {rest : List Word} (ho : T o = some (.object s st rest))
    (value : IsValue T key) (run : propertyKey o key h = .ok own h₁) :
    ∃ v, getProperty o key h = .ok v h₁ ∧ Finds h₁ key o v := by
  obtain ⟨dense, proto, words, record⟩ := sound.typed.hasRecord ho
  have normal := sound.typed.normal_of_propertyKey sound₁.typed frame record value run
  have most : AtMost T' h.addressSpace.next := fun nodup objects =>
    length_le_next sound.typed nodup fun p hp => by
      obtain ⟨s', st', rest', hp'⟩ := objects p hp
      exact ⟨s', st', rest', (frame.same id hp').1⟩
  obtain ⟨s', st', rest', ho'⟩ := frame.objects ho
  obtain ⟨v, hrun, hfinds⟩ := sound₁.lookupChain_object most ho' normal
  refine ⟨v, ?_, hfinds⟩
  have hpositive : 0 < h.addressSpace.next := sound.typed.atMost_next (List.nodup_singleton o) (by simpa using ⟨s, st, rest, ho⟩)
  obtain ⟨fuel, hfuel⟩ := Nat.exists_eq_succ_of_ne_zero hpositive.ne'
  rw [getProperty_object sound.typed ho, ← hrun, hfuel, lookupChain, State.get_bind, State.get_bind]
  simp only [sound.typed.isObject_object ho, sound₁.typed.isObject_object ho', Bool.not_true, Bool.false_eq_true, if_false]
  rw [State.bind_of_ok run, State.bind_of_ok normal]

/-- Keys become the same string exactly if they are shown by the same text. -/
theorem Typed.propertyKey_alike {key₁ key₂ own₁ own₂ : Word} (typed : Typed h T)
    (value₁ : IsValue T key₁) (value₂ : IsValue T key₂) (keyed : h.isDense o = false)
    (run₁ : propertyKey o key₁ h = .ok own₁ h₁) (keyed₁ : h₁.isDense o = false)
    (run₂ : propertyKey o key₂ h₁ = .ok own₂ h₂) :
    own₁ = own₂ ↔ h.display key₁ = h.display key₂ := by
  obtain ⟨T₁, typed₁, frame₁, -, -⟩ := propertyKey_ok typed value₁ run₁
  obtain ⟨T₂, typed₂, frame₂, -, -⟩ := propertyKey_ok typed₁ (frame₁.isValue value₂) run₂
  have hfound₁ := frame₂.strings (typed.propertyKey_named value₁ (by simp [keyed]) run₁)
  have hfound₂ := typed₁.propertyKey_named (frame₁.isValue value₂) (by simp [keyed₁]) run₂
  have hsame : h₁.display key₂ = h.display key₂ := by
    unfold display
    rw [frame₁.inspect_eq typed typed₁ value₂]
  rw [hsame] at hfound₂
  constructor
  · rintro rfl
    have hcell := typed₂.interned.mp hfound₁
    rw [typed₂.interned.mp hfound₂] at hcell
    exact (Cell.text.inj (Option.some.inj hcell)).symm
  · intro hdisplay
    rw [hdisplay, hfound₂] at hfound₁
    exact (Option.some.inj hfound₁).symm

/-! ### The life of a heap -/

theorem Later.sound (later : Later h past h' past') (sound : Sound h T past) :
    ∃ T', Sound h' T' past' ∧ Frame (fun _ => True) h h' T T' := by
  induction later with
  | now => exact ⟨T, sound, Frame.refl ..⟩
  | step _ operates ih =>
    obtain ⟨T₁, sound₁, frame₁⟩ := ih
    obtain ⟨T₂, o, sound₂, frame₂⟩ := operates.sound sound₁
    exact ⟨T₂, sound₂, frame₁.trans (frame₂.mono fun _ _ => trivial)⟩

/-- Strings of a heap stand for their texts. -/
structure Interns (h : Heap) (past : Past) : Prop where
  /-- A value has a text exactly if it is the string of the text, and then it is there already. -/
  string : ∀ {w text}, past.Known w → text.utf8ByteSize < 2 ^ 63 →
    (h.text? w = some text ↔ ∃ h', string text h = .ok w h') ∧
      ∀ {h'}, string text h = .ok w h' → h' = h
  /-- A string that is made has the text, and is found from then on. -/
  made : ∀ {w text h'}, text.utf8ByteSize < 2 ^ 63 → Heap.string text h = .ok w h' →
    h'.text? w = some text ∧ Heap.string text h' = .ok w h'
  /-- Strings are equal exactly if their texts are. -/
  equal : ∀ {v w s t}, past.Known v → past.Known w → h.text? v = some s → h.text? w = some t →
    (v = w ↔ s = t)
  /-- No operation gives another text to a value, or a text to a value that has none. -/
  lasting : ∀ {w h' past'}, past.Known w → Later h past h' past' → h'.text? w = h.text? w
  /-- A key in its form stays as it is. -/
  form : ∀ {o key own h'}, past.Known key → propertyKey o key h = .ok own h' →
    propertyKey o own h' = .ok own h'
  /-- Keys of an object without indices are the same exactly if they are shown by the same text. -/
  named : ∀ {o key₁ key₂ own₁ own₂ h₁ h₂}, past.Known o → past.Known key₁ → past.Known key₂ →
    h.isDense o = false → propertyKey o key₁ h = .ok own₁ h₁ →
    propertyKey o key₂ h₁ = .ok own₂ h₂ → (own₁ = own₂ ↔ h.display key₁ = h.display key₂)
  /-- Indices of dense objects stay small integers. -/
  index : ∀ {o key}, key.isSmi = true → h.isDense o = true → propertyKey o key h = .ok key h

/-- Keys do not change how objects store their properties. -/
theorem Frame.isDense_eq (frame : Frame Nobody h h' T T') (typed : Typed h T) (typed' : Typed h' T')
    (value : IsValue T o) : h'.isDense o = h.isDense o := by
  unfold isDense
  rcases value with hsmi | ⟨kind, rest, hleaf⟩ | ⟨text, hcell⟩ | ⟨s, st, rest, hobject⟩
  · simp [hasFlag, shapeOf?, hsmi]
  · exact (typed'.hasFlag_leaf (frame.leaves hleaf)).2.trans (typed.hasFlag_leaf hleaf).2.symm
  · rw [typed.hasFlag_of_root .string hcell rfl,
      typed'.hasFlag_of_root .string (frame.texts hcell) rfl]
  · obtain ⟨s', st', rest', hobject'⟩ := frame.objects hobject
    have hsame := (frame.same id hobject').1
    rw [hobject] at hsame
    cases hsame
    obtain ⟨flags, proto, words, formed⟩ := typed.formed hobject
    rw [typed.hasFlag_object hobject formed.shape,
      typed'.hasFlag_object hobject' (frame.shapes formed.shape)]

theorem Sound.interns (sound : Sound h T past) : Interns h past := by
  have typed := sound.typed
  constructor
  · intro w text known small
    have hvalue := sound.isValue known
    refine ⟨⟨fun htext => ⟨h, string_of_interned ((typed.text?_iff hvalue).mp htext)⟩, ?_⟩,
      fun run => (typed.interned_of_string hvalue small run).2⟩
    rintro ⟨h', run⟩
    exact (typed.text?_iff hvalue).mpr (typed.interned_of_string hvalue small run).1
  · intro w text h' small run
    obtain ⟨T', typed', -, -, hfound⟩ := string_typed typed small run
    exact ⟨text?_text typed'.laid (typed'.interned.mp hfound), string_of_interned hfound⟩
  · intro v w s t knownLeft knownRight hs ht
    have hv := (typed.text?_iff (sound.isValue knownLeft)).mp hs
    have hw := (typed.text?_iff (sound.isValue knownRight)).mp ht
    constructor
    · rintro rfl
      exact Option.some.inj (hs.symm.trans ht)
    · rintro rfl
      exact Option.some.inj (hv.symm.trans hw)
  · intro w h' past' known later
    obtain ⟨T', sound', frame'⟩ := later.sound sound
    exact frame'.text?_eq typed sound'.typed (sound.isValue known)
  · intro o key own h' known run
    obtain ⟨T', typed', -, -, hkey⟩ := propertyKey_ok typed (sound.isValue known) run
    exact hkey.normal typed'
  · intro o key₁ key₂ own₁ own₂ h₁ h₂ known known₁ known₂ hdense run₁ run₂
    obtain ⟨T₁, typed₁, frame₁, -, -⟩ := propertyKey_ok typed (sound.isValue known₁) run₁
    have hdense₁ := (frame₁.isDense_eq typed typed₁ (sound.isValue known)).trans hdense
    exact typed.propertyKey_alike (sound.isValue known₁) (sound.isValue known₂) hdense run₁ hdense₁
      run₂
  · exact fun hsmi hdense => propertyKey_of_index hsmi hdense

/-- In every heap that operations lead to, strings are interned. -/
theorem Reachable.strings_interned {config : HeapConfig} (reachable : Reachable config h past)
    (later : Later h past h' past') : Interns h' past' := by
  obtain ⟨T, sound⟩ := reachable.sound
  obtain ⟨T', sound', -⟩ := later.sound sound
  exact sound'.interns

/-- An object, a number that has to be boxed and the string that it is shown by. -/
def numbered : HeapM (Word × Word × Word) := do
  let object ← newObject
  let number ← number (.ofInt (2 ^ 53))
  let text ← string "9007199254740992"
  return (object, number, text)

theorem numbered_alike : ∃ h past o number text own h', Reachable {} h past ∧ past.Known number ∧
    number ≠ text ∧ propertyKey o number h = .ok own h' ∧ own = text := by
  have hruns : runsTo numbered (fun (o, n, t) h =>
      match propertyKey o n h with
      | .ok _ h₁ =>
        match propertyKey o t h₁ with
        | .ok own _ => h.isDense o = false ∧ h.display n = h.display t ∧ n ≠ t ∧ own = t
        | _ => False
      | _ => False) = true := by decide +kernel
  obtain ⟨h₀, ⟨o, n, t⟩, h, created, run, hend⟩ := runsTo_eq_true hruns
  simp only [numbered, State.bind_eq_ok, State.pure_eq_ok, Prod.mk.injEq] at run
  obtain ⟨a, h₁, made, x, h₂, boxed, s, h₃, named, ⟨rfl, rfl, rfl⟩, rfl⟩ := run
  have reachable := (((Reachable.create (by decide) created).newObject made).number boxed).string
    (by decide) named
  generalize hpast : Past.give _ _ = past at reachable
  have hvalues : a ∈ past.values ∧ x ∈ past.values ∧ s ∈ past.values := by
    subst hpast
    simp [Past.born, Past.give]
  dsimp only at hend
  split at hend
  · rename_i own h₄ keyed
    split at hend
    · rename_i own' h₅ keyed'
      obtain ⟨hdense, hdisplay, hne, rfl⟩ := of_decide_eq_true hend
      have halike := (reachable.strings_interned .now).named (.inr hvalues.1) (.inr hvalues.2.1)
        (.inr hvalues.2.2) hdense keyed keyed'
      exact ⟨h₃, past, _, _, own', own, h₄, reachable, .inr hvalues.2.1, hne, keyed,
        halike.mpr hdisplay⟩
    · exact absurd (of_decide_eq_true hend) id
  · exact absurd (of_decide_eq_true hend) id

end ScriptEngine.Heap
