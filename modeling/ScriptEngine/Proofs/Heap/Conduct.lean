import ScriptEngine.Proofs.Heap.Showing

/-!
Operations on heaps that scripts see. Given values that scripts may have, each leaves a heap as scripts should
find it, and answers with such a value. The prototype that a function has is the one of the objects that it
constructs before an assignment, and again after it.
-/

namespace ScriptEngine.Heap

variable {h h' h₁ : Heap} {T T' : Contents} {seen : Word → Prop} {past past' : Past} {o w v key own : Word}
  {s st : Word} {words rest : List Word} {dense : Bool} {proto : Word}

/-- No property is read if the key cannot be stored. -/
theorem Typed.getProperty_error (typed : Typed h T) {err : HeapError} {t : Heap}
    (ho : T o = some (.object s st rest)) (hobject : h.isObject o = true) (keyed : propertyKey o key h = .error err t) :
    getProperty o key h = .error err t := by
  have hpositive : 0 < h.addressSpace.next :=
    typed.atMost_next (List.nodup_singleton o) (by simpa using ⟨s, st, rest, ho⟩)
  obtain ⟨fuel, hfuel⟩ := Nat.exists_eq_succ_of_ne_zero hpositive.ne'
  rw [getProperty_object typed ho, hfuel, lookupChain, State.get_bind]
  simp only [hobject, Bool.not_true, Bool.false_eq_true, if_false]
  exact State.bind_of_error keyed

theorem gradual_allocObject (shape : Word) : Gradual (allocObject shape) :=
  (gradual_allocYoung _ _).bind fun _ => (gradual_allocStore _).bind fun _ => (gradual_write _ _ _).bind fun _ => .pure _

theorem gradual_newObject : Gradual newObject := .get_bind fun _ => gradual_allocObject _

theorem gradual_allocBareFunction (code instances : Word) : Gradual (allocBareFunction code instances) :=
  .get_bind fun _ => (gradual_allocYoung _ _).bind fun _ => (gradual_allocStore _).bind fun _ =>
    (gradual_write _ _ _).bind fun _ => (gradual_write _ _ _).bind fun _ => (gradual_write _ _ _).bind fun _ => .pure _

/-- What a lookup finds is a value for scripts. -/
theorem Proper.finds (proper : Proper h T seen) (finds : Finds h key o v) (shown : Shown h T seen o) :
    Shown h T seen v := by
  have typed := proper.typed
  induction finds with
  | own hobject _ hfound =>
    obtain ⟨_, _, _, ho⟩ := typed.object_of_isObject shown.value hobject
    obtain ⟨_, _, _, record⟩ := typed.hasRecord ho
    obtain ⟨_, sound⟩ := proper.sound
    exact proper.shown_entry record ((own?_eq_some typed record (sound.tidy.distinct record)).mp hfound)
  | inherited hobject _ _ _ ih =>
    obtain ⟨_, _, _, ho⟩ := typed.object_of_isObject shown.value hobject
    obtain ⟨_, _, _, record⟩ := typed.hasRecord ho
    refine ih ?_
    rw [protoOf_record typed record]
    exact proper.shows.proto (shown.object ho) record
  | missing _ => exact shown_undefined typed

/-- The string `prototype` is what only itself becomes as a key. -/
theorem Typed.text?_own (typed : Typed h T) (typed₁ : Typed h₁ T') (frame : Frame Nobody h h₁ T T')
    (value : IsValue T key) (keyed : propertyKey o key h = .ok own h₁) (hown : T' own = some (.text "prototype")) :
    h.text? key = some "prototype" ∧ own = key := by
  rcases propertyKey_cases keyed with ⟨⟨hsmi, -⟩, rfl, rfl⟩ | ⟨hnamed, ⟨-, rfl, rfl⟩ | ⟨hnone, -⟩⟩
  · rw [isSmi_of_cell typed₁.laid hown] at hsmi
    cases hsmi
  · exact ⟨(typed.text?_iff value).mpr (typed₁.interned.mpr hown), rfl⟩
  · have hlisted := typed₁.interned.mp (typed.propertyKey_named value hnamed keyed)
    rw [hown] at hlisted
    exact absurd (Cell.text.inj (Option.some.inj hlisted)).symm (display_ne_prototype h hnone)

/-- A search for a slot depends on the form of the key alone. -/
theorem lookupSlot_keyed {key' : Word} {up : Bool} (hobject : h.isObject o = true) (hobject' : h'.isObject o = true)
    (keyed : propertyKey o key h = .ok own h₁) (keyed' : propertyKey o key' h' = .ok own h₁) :
    lookupSlot o key up h = lookupSlot o key' up h' := by
  unfold lookupSlot
  rw [State.get_bind, State.get_bind]
  simp only [hobject, hobject', Bool.not_true, Bool.false_eq_true, if_false]
  rw [State.bind_of_ok keyed, State.bind_of_ok keyed']

/-- An assignment brings the key into its form first. -/
theorem setProperty_keyed (hobject : h.isObject o = true) (hobject₁ : h₁.isObject o = true)
    (keyed : propertyKey o key h = .ok own h₁) (normal : Normal h₁ o key own) :
    setProperty o key v h = setProperty o key v h₁ := by
  have hlookup : lookupSlot o key true h = lookupSlot o key true h₁ := lookupSlot_keyed hobject hobject₁ keyed normal
  unfold setProperty
  change EStateM.bind _ _ _ = EStateM.bind _ _ _
  simp only [EStateM.bind, hlookup]

namespace Proper

variable (proper : Proper h T seen)

include proper

theorem string {text : String} (small : text.utf8ByteSize < 2 ^ 63) (run : string text h = .ok w h') :
    ∃ T', Proper h' T' seen ∧ Onward Nobody h h' T T' seen seen ∧ T' w = some (.text text) := by
  obtain ⟨past, sound⟩ := proper.sound
  obtain ⟨T', sound', frame, hw⟩ := string_sound sound small run
  obtain ⟨proper', on⟩ := proper.extend sound' frame (by simpa [State.finalState, run] using (gradual_string text).spreading h)
  exact ⟨T', proper', on, hw⟩

theorem number {n : Double} (run : number n h = .ok w h') :
    ∃ T', Proper h' T' seen ∧ Onward Nobody h h' T T' seen seen ∧ Shown h' T' seen w := by
  obtain ⟨past, sound⟩ := proper.sound
  obtain ⟨T', sound', frame, hw⟩ := number_sound sound run
  obtain ⟨proper', on⟩ := proper.extend sound' frame (by simpa [State.finalState, run] using (gradual_number n).spreading h)
  refine ⟨T', proper', on, ?_⟩
  rcases hw with hsmi | hleaf
  · exact shown_smi sound'.typed hsmi
  · refine shown_leaf hleaf ?_
    rintro rfl
    obtain ⟨_, hhole⟩ := sound'.typed.hole
    rw [hleaf] at hhole
    cases hhole

theorem propertyKey (value : IsValue T key) (run : propertyKey o key h = .ok own h') :
    ∃ T', Proper h' T' seen ∧ Onward Nobody h h' T T' seen seen ∧ Frame Nobody h h' T T' ∧ IsKey h' o own := by
  obtain ⟨past, sound⟩ := proper.sound
  obtain ⟨T', typed', frame, -, isKey⟩ := propertyKey_ok sound.typed value run
  obtain ⟨proper', on⟩ := proper.extend (sound.frame typed' frame) frame
    (by simpa [State.finalState, run] using (gradual_propertyKey o key).spreading h)
  exact ⟨T', proper', on, frame, isKey⟩

theorem getProperty (shown : Shown h T seen o) (value : IsValue T key) (run : getProperty o key h = .ok v h') :
    ∃ T', Proper h' T' seen ∧ Onward Nobody h h' T T' seen seen ∧ Shown h' T' seen v := by
  obtain ⟨past, sound⟩ := proper.sound
  obtain ⟨T', typed', frame⟩ := getProperty_frame sound.typed value run
  have sound' := sound.frame typed' frame
  obtain ⟨proper', on⟩ := proper.extend sound' frame
    (by simpa [State.finalState, run] using (gradual_getProperty o key).spreading h)
  refine ⟨T', proper', on, ?_⟩
  cases hobject : h.isObject o with
  | true =>
    obtain ⟨s, st, rest, ho⟩ := sound.typed.object_of_isObject shown.value hobject
    cases hkeyed : Heap.propertyKey o key h with
    | ok own h₁ =>
      obtain ⟨T₁, typed₁, frame₁, -⟩ := propertyKey_ok sound.typed value hkeyed
      obtain ⟨v', hrun, hfinds⟩ := sound.getProperty_keyed (sound.frame typed₁ frame₁) frame₁ ho value hkeyed
      rw [run] at hrun
      cases hrun
      exact proper'.finds hfinds (shown.onward typed' on)
    | error err h₁ =>
      rw [sound.typed.getProperty_error ho hobject hkeyed] at run
      cases run
  | false =>
    have hlookup : ∀ fuel, lookupChain key fuel o h = .ok h.undefined h := lookupChain_storeless hobject
    have hundefined : ∀ fuel, lookupChain key fuel o h = .ok v h' → Shown h' T' seen v := by
      intro fuel hrun
      rw [hlookup] at hrun
      cases hrun
      exact shown_undefined typed'
    rw [Heap.getProperty, State.get_bind] at run
    cases htext : h.text? o with
    | none =>
      rw [htext] at run
      exact hundefined _ run
    | some text =>
      simp only [htext] at run
      by_cases hlength : h.text? key = some "length"
      · rw [if_pos hlength] at run
        cases run
        exact shown_smi typed' (Word.smi_isSmi _)
      · rw [if_neg hlength] at run
        exact hundefined _ run

/-- A text that is a key was one before. -/
theorem text_of_entry {X : Word → Prop} (frame : Frame X h h' T T') (record : HasRecord T o false proto words)
    (entry : Entry false h.hole words key v) {text : String} (hkey : T' key = some (.text text)) :
    T key = some (.text text) := by
  obtain ⟨-, hne, i, hi, -⟩ := entry
  obtain ⟨text', htext⟩ := proper.text_of_key record hi hne
  have hsame := frame.texts htext
  rw [hkey] at hsame
  cases hsame
  exact htext

theorem setProperty (shown : Shown h T seen o) (value : IsValue T key) (shownValue : Shown h T seen v) {u : Unit}
    (run : setProperty o key v h = .ok u h') :
    ∃ T', Proper h' T' seen ∧ Onward Nobody h h' T T' seen seen := by
  obtain ⟨past, sound⟩ := proper.sound
  have typed := sound.typed
  cases hobject : h.isObject o with
  | false =>
    obtain rfl := setProperty_storeless hobject run
    exact ⟨T, proper, .refl ..⟩
  | true =>
    obtain ⟨s, st, rest, ho⟩ := typed.object_of_isObject shown.value hobject
    obtain ⟨dense, proto, words, record⟩ := typed.hasRecord ho
    obtain ⟨own, h₁, h₂, result, T', keyed, looked, -, isKey, typed', frame, tracked', redirected, revised⟩ :=
      setProperty_ok typed sound.tracked sound.tidy ho value run
    obtain ⟨T₁, typed₁, frame₁, -, hkey₁⟩ := propertyKey_ok typed value keyed
    obtain ⟨words', record', assigned⟩ := revised dense proto words record
    have sound' := sound.step ho typed' frame tracked' revised (fun assigned => assigned.alike.distinct rfl)
      redirected.refreshed shownValue.value (update_values ..).1 (update_values ..).2
    have hnamed : h.isDense o = false → ∃ text, T' own = some (.text text) := by
      intro hdense
      rw [isDense_record typed record] at hdense
      obtain ⟨text, htext⟩ := isKey.interned (by rw [isDense_record typed' record', hdense])
      exact ⟨text, typed'.interned.mp htext⟩
    have haccepts := (lookupSlot_accepts typed₁ (frame₁.record id record) hobject keyed looked).1
    have record₁ := frame₁.record id record
    have hkept : T₁ own = some (.text "prototype") ∨ T' own ≠ some (.text "prototype") := by
      rcases hkey₁ with ⟨hsmi, -⟩ | ⟨text, htext⟩
      · refine .inr fun hown => ?_
        rw [isSmi_of_cell typed'.laid hown] at hsmi
        cases hsmi
      · have hrun := (setProperty_keyed hobject (isObject_record typed₁ record₁) keyed
          (typed.normal_of_propertyKey typed₁ frame₁ record value keyed)).symm.trans run
        have hretains := (gradual_setProperty o key v).retaining h₁
        rw [State.finalState, hrun] at hretains
        have hown := typed'.interned.mp (hretains.strings _ _ htext)
        by_cases hproto : text = "prototype"
        · subst hproto
          exact .inl (typed₁.interned.mp htext)
        · refine .inr fun hother => hproto ?_
          rw [hown] at hother
          exact Cell.text.inj (Option.some.inj hother)
    -- A keyed function that takes a value under the string `prototype` is redirected.
    have hredirects : T' own = some (.text "prototype") → dense = false → rest ≠ [] → result ≠ none ∧ Redirects h o key := by
      rintro hown rfl hrest
      have hkey := typed.text?_own typed₁ frame₁ value keyed (hkept.resolve_right fun hne => hne hown)
      refine ⟨haccepts.mpr ⟨isObject_record typed₁ record₁, fun hdense => ?_⟩, (isFunction_object typed ho).mpr hrest, hkey.1⟩
      rw [isDense_record typed₁ record₁] at hdense
      cases hdense
    have hspreads : Spreads h h' := by simpa [State.finalState, run] using (gradual_setProperty o key v).spreading h
    refine ⟨T', proper.revise (shown.object ho) ho sound' frame revised (fun assigned => assigned.written) hnamed ?_
      redirected.refreshed ?_ shownValue ?_ hspreads⟩
    · rintro w (rfl | rfl)
      · exact shown_undefined typed
      · exact shownValue
    · by_cases hredirect : result ≠ none ∧ Redirects h o key
      · exact .inr (redirected.constructs shownValue.value hredirect.1 hredirect.2)
      · exact .inl (redirected.kept hredirect)
    · intro k w dense₁ proto₁ words₁ hk record₁' entry s₁ st₁ code instances ho'
      obtain ⟨rfl, rfl, rfl⟩ := record'.unique record₁'
      rw [frame.kept.hole] at entry
      have hrest : rest ≠ [] := by
        rintro rfl
        have hfunction := (isFunction_object typed' ho').mpr (List.cons_ne_nil _ _)
        rcases redirected.refreshed with hkeeps | ⟨_, _, _, ⟨_, _, _, hold⟩, -⟩
        · obtain ⟨_, _, hnew⟩ := hkeeps _ _ _ ho
          rw [ho'] at hnew
          cases hnew
        · rw [ho] at hold
          cases hold
      have hkeyed : dense = false := by
        cases dense with
        | false => rfl
        | true =>
          obtain ⟨-, i, hsmi, -⟩ := entry
          rw [toSmi?_of_cell typed'.laid hk] at hsmi
          cases hsmi
      by_cases hkey : k = own
      · subst hkey
        have hredirect := hredirects hk hkeyed hrest
        obtain rfl := entry.unique (assigned.entry hredirect.1 shownValue.proper) assigned.alike.distinct
        rw [frame.protoFor_eq typed typed' shownValue.value]
        exact redirected.constructs shownValue.value hredirect.1 hredirect.2 ho'
      · have entry' := (assigned.alike.others hkey).mp entry
        subst hkeyed
        have hold := proper.text_of_entry frame record entry' hk
        have hspared : ¬(result ≠ none ∧ Redirects h o key) := by
          rintro ⟨-, -, htext⟩
          have hcell := (typed.text?_iff value).mp htext
          have hsame : k = key := Option.some.inj ((typed.interned.mpr hold).symm.trans hcell)
          rcases propertyKey_cases keyed with ⟨-, rfl, -⟩ | ⟨-, ⟨-, rfl, -⟩ | ⟨hnone, -⟩⟩
          · exact hkey hsame
          · exact hkey hsame
          · rw [htext] at hnone
            cases hnone
        obtain ⟨s', st', hkept⟩ := redirected.kept hspared _ _ _ ho
        rw [ho'] at hkept
        cases hkept
        rw [frame.protoFor_eq typed typed' (proper.shown_entry record entry').value]
        exact frame.shapes (proper.fitted o k w false proto words hold record entry' ho)

theorem deleteProperty (shown : Shown h T seen o) (value : IsValue T key) {gone : Bool}
    (run : deleteProperty o key h = .ok gone h') :
    ∃ T', Proper h' T' seen ∧ Onward Nobody h h' T T' seen seen := by
  obtain ⟨past, sound⟩ := proper.sound
  have typed := sound.typed
  cases hobject : h.isObject o with
  | false =>
    obtain rfl := deleteProperty_storeless hobject run
    exact ⟨T, proper, .refl ..⟩
  | true =>
    obtain ⟨s, st, rest, ho⟩ := typed.object_of_isObject shown.value hobject
    obtain ⟨dense, proto, words, record⟩ := typed.hasRecord ho
    obtain ⟨own, h₁, T', keyed, isKey, typed', frame, tracked', keeps, revised⟩ :=
      deleteProperty_ok typed sound.tracked sound.tidy ho value run
    obtain ⟨words', record', deleted⟩ := revised dense proto words record
    have sound' := sound.step ho typed' frame tracked' revised (fun deleted => deleted.alike.distinct rfl)
      (.inl keeps) (shown_undefined typed : Shown h T seen h.undefined).value rfl rfl
    have hspreads : Spreads h h' := by simpa [State.finalState, run] using (gradual_deleteProperty o key).spreading h
    refine ⟨T', proper.revise (shown.object ho) ho sound' frame revised (fun deleted => deleted.written) ?_
      (fun _ => False.elim) (.inl keeps) (.inl keeps) (shown_undefined typed) ?_ hspreads⟩
    · intro hdense
      rw [isDense_record typed record] at hdense
      obtain ⟨text, htext⟩ := isKey.interned (by rw [isDense_record typed' record', hdense])
      exact ⟨text, typed'.interned.mp htext⟩
    · intro k w dense₁ proto₁ words₁ hk record₁' entry s₁ st₁ code instances ho'
      obtain ⟨rfl, rfl, rfl⟩ := record'.unique record₁'
      rw [frame.kept.hole] at entry
      have hkey : k ≠ own := by
        rintro rfl
        exact deleted.lacks.not_entry entry
      have entry' := (deleted.alike.others hkey).mp entry
      cases dense with
      | true =>
        obtain ⟨-, i, hsmi, -⟩ := entry
        rw [toSmi?_of_cell typed'.laid hk] at hsmi
        cases hsmi
      | false =>
        have hold := proper.text_of_entry frame record entry' hk
        obtain ⟨s', st', hkept⟩ := keeps _ _ _ ho
        rw [ho'] at hkept
        cases hkept
        rw [frame.protoFor_eq typed typed' (proper.shown_entry record entry').value]
        exact frame.shapes (proper.fitted o k w false proto words hold record entry' ho)

theorem instanceOf {result : Option Bool} (run : instanceOf o w h = .ok result h') :
    ∃ T', Proper h' T' seen ∧ Onward Nobody h h' T T' seen seen := by
  obtain ⟨past, sound⟩ := proper.sound
  obtain ⟨T', typed', frame⟩ := instanceOf_frame sound.typed run
  exact ⟨T', proper.extend (sound.frame typed' frame) frame
    (by simpa [State.finalState, run] using (gradual_instanceOf o w).spreading h)⟩

/-- A new object without properties, for scripts or not. -/
theorem birth {p : Prop} {n : Nat} (sound' : Sound h' T' past') (frame : Frame (· = o) h h' T T') (free : T o = none)
    (record : HasRecord T' o dense proto (List.replicate n h.hole)) (hproto : p → Shown h T seen proto)
    (hinstances : p → ∀ {s st code instances flags target}, T' o = some (.object s st [code, instances]) →
      T' instances = some (.shape flags target) → Shown h T seen target) (spreads : Spreads h h') :
    Proper h' T' (fun w => seen w ∨ w = o ∧ p) ∧
      Onward Nobody h h' T T' seen (fun w => seen w ∨ w = o ∧ p) := by
  have typed := proper.typed
  have typed' := sound'.typed
  have hne : ∀ {v c}, T v = some c → v ≠ o := ne_of_none free
  have hseen : ∀ {v}, seen v → v ≠ o := fun hv => by
    obtain ⟨_, _, _, hcell⟩ := proper.shows.object hv
    exact hne hcell
  have on : Onward Nobody h h' T T' seen (fun w => seen w ∨ w = o ∧ p) := by
    refine .of_frame frame (fun {v s st rest} hv => ?_) (fun record => ?_) .inl fun hv hseen' => ?_
    · obtain ⟨s', st', rest', hv'⟩ := frame.objects hv
      have hsame := (frame.same (hne hv) hv').1
      rw [hv] at hsame
      cases hsame
      exact ⟨_, _, _, hv', rfl⟩
    · obtain ⟨_, _, _, _, hv, -⟩ := id record
      exact ⟨_, frame.record (hne hv) record, le_rfl⟩
    · exact hseen'.resolve_right fun hnew => hne hv hnew.1
  refine ⟨⟨⟨past', sound'⟩, ⟨fun {v} hv => ?_, fun {v _ _ _} hv record' => ?_, fun {v _ _ _} hv record' => ?_,
    fun {v s st code instances flags target} hv ho' hcell => ?_, fun {v _ _ _} hv record' w hw => ?_⟩, ?_,
    spreads.granted proper.granted⟩, on⟩
  · rcases hv with hv | ⟨rfl, -⟩
    · obtain ⟨_, _, _, hcell⟩ := proper.shows.object hv
      exact frame.objects hcell
    · obtain ⟨s, st, rest, _, ho', -⟩ := record
      exact ⟨s, st, rest, ho'⟩
  · rcases hv with hv | ⟨rfl, -⟩
    · exact (proper.shows.stored hv (frame.record_back typed (hseen hv) record')).onward typed' on
    · obtain ⟨rfl, rfl, rfl⟩ := record.unique record'
      rw [← frame.kept.hole]
      exact stored_holes n
  · rcases hv with hv | ⟨rfl, hvisible⟩
    · exact (proper.shows.proto hv (frame.record_back typed (hseen hv) record')).onward typed' on
    · obtain ⟨rfl, rfl, rfl⟩ := record.unique record'
      exact (hproto hvisible).onward typed' on
  · rcases hv with hv | ⟨rfl, hvisible⟩
    · have hold := (frame.same (hseen hv) ho').1
      obtain ⟨flags₀, proto₀, words₀, formed⟩ := typed.formed hold
      cases hfunction : flags₀.contains .function with
      | false => cases formed.plain hfunction
      | true =>
        obtain ⟨_, _, target₀, hlist, hcell₀, -⟩ := formed.function hfunction
        cases hlist
        have hcell' := frame.shapes hcell₀
        rw [hcell] at hcell'
        cases hcell'
        exact (proper.shows.instances hv hold hcell₀).onward typed' on
    · exact (hinstances hvisible ho' hcell).onward typed' on
  · rw [frame.kept.hole]
    by_cases hvo : v = o
    · subst hvo
      obtain ⟨rfl, rfl, rfl⟩ := record.unique record'
      exact List.eq_of_mem_replicate hw
    · exact proper.shows.hidden (fun hv' => hv (.inl hv')) (frame.record_back typed hvo record') w hw
  · intro v k w dense₁ proto₁ words₁ hk record' entry
    by_cases hvo : v = o
    · subst hvo
      obtain ⟨rfl, rfl, rfl⟩ := record.unique record'
      obtain ⟨hne', hentry⟩ := entry
      rw [frame.kept.hole] at hne'
      refine absurd ?_ hne'
      cases dense with
      | true =>
        obtain ⟨i, -, hi⟩ := hentry
        exact List.eq_of_mem_replicate (List.mem_of_getElem? hi)
      | false =>
        obtain ⟨-, i, -, hi⟩ := hentry
        exact List.eq_of_mem_replicate (List.mem_of_getElem? hi)
    · exact proper.constructs_outside frame typed' hvo hk record' entry

/-- An object without properties is shown to scripts. -/
theorem reveal (ho : T o = some (.object s st rest)) (hproto : ∀ {dense proto words}, HasRecord T o dense proto words →
      Shown h T seen proto)
    (hinstances : ∀ {s st code instances flags target}, T o = some (.object s st [code, instances]) →
      T instances = some (.shape flags target) → Shown h T seen target) : Proper h T fun w => seen w ∨ w = o := by
  by_cases hseen : seen o
  · have hsame : (fun w => seen w ∨ w = o) = seen := by
      funext w
      refine propext ⟨?_, .inl⟩
      rintro (hw | rfl)
      · exact hw
      · exact hseen
    rwa [hsame]
  have shown : ∀ {w}, Shown h T seen w → Shown h T (fun w => seen w ∨ w = o) w := fun shown =>
    { shown with object := fun hw => .inl (shown.object hw) }
  refine ⟨proper.sound, ⟨fun {v} hv => ?_, fun {v dense _ words} hv record => ?_, fun {v _ _ _} hv record => ?_,
    fun {v _ _ _ _ _ _} hv hcell hshape => ?_, fun {v _ _ _} hv record w hw => ?_⟩, proper.fitted, proper.granted⟩
  · rcases hv with hv | rfl
    · exact proper.shows.object hv
    · exact ⟨s, st, rest, ho⟩
  · rcases hv with hv | rfl
    · have hstored := proper.shows.stored hv record
      cases dense with
      | true => exact fun i w hw => (hstored i w hw).imp_right shown
      | false => exact fun i k w hk hw => (hstored i k w hk hw).imp_right fun ⟨htext, hw⟩ => ⟨htext, shown hw⟩
    · have hhidden := proper.shows.hidden hseen record
      cases dense with
      | true => exact fun i w hw => .inl (hhidden w (List.mem_of_getElem? hw))
      | false => exact fun i k w hk _ => .inl (hhidden k (List.mem_of_getElem? hk))
  · rcases hv with hv | rfl
    · exact shown (proper.shows.proto hv record)
    · exact shown (hproto record)
  · rcases hv with hv | rfl
    · exact shown (proper.shows.instances hv hcell hshape)
    · exact shown (hinstances hcell hshape)
  · exact proper.shows.hidden (fun hv' => hv (.inl hv')) record w hw

/-! ### New objects -/

theorem newObject (run : newObject h = .ok o h') : ∃ T' st, Proper h' T' (fun w => seen w ∨ w = o) ∧
    Onward Nobody h h' T T' seen (fun w => seen w ∨ w = o) ∧ T o = none ∧
      T' o = some (.object (h.rootShape .object) st []) := by
  obtain ⟨past, sound⟩ := proper.sound
  obtain ⟨T', sound', frame, free, record, st, ho⟩ := newObject_sound sound run
  have hbirth := proper.birth (p := True) sound' frame free record (fun _ => shown_null sound.typed)
    (fun _ {_ _ _ _ _ _} ho' => by
      rw [ho] at ho'
      cases ho')
    (by simpa [State.finalState, run] using gradual_newObject.spreading h)
  simp only [and_true] at hbirth
  exact ⟨T', st, hbirth.1, hbirth.2, free, ho⟩

theorem allocShape {flags : ShapeFlags} (small : flags.bits < 16) (run : allocShape flags proto h = .ok s h') :
    ∃ T', Proper h' T' seen ∧ Onward Nobody h h' T T' seen seen ∧ T' s = some (.shape flags proto) ∧
      h'.transitions.keyCount s = 0 := by
  obtain ⟨past, sound⟩ := proper.sound
  obtain ⟨hnone, laid, quiet⟩ := allocShape_ok sound.typed.laid run
  obtain ⟨sound', frame⟩ := sound.fresh laid quiet hnone small fun _ => nofun
  obtain ⟨proper', on⟩ := proper.extend sound' frame (by simpa [State.finalState, run] using (gradual_allocShape flags proto).spreading h)
  refine ⟨_, proper', on, Function.update_self .., ?_⟩
  rw [quiet.transitions]
  exact sound.typed.keyCount_of_none hnone

/-- A function without properties, for scripts or not. -/
theorem bareFunction {p : Prop} {code instances target : Word} (hinstances : T instances = some (.shape .transition target))
    (hcount : h.transitions.keyCount instances = 0) (value : IsValue T target) (shown : p → Shown h T seen target)
    (run : allocBareFunction code instances h = .ok o h') :
    ∃ T' st, Proper h' T' (fun w => seen w ∨ w = o ∧ p) ∧
      Onward Nobody h h' T T' seen (fun w => seen w ∨ w = o ∧ p) ∧ T o = none ∧
      T' o = some (.object (h.rootShape .function) st [code, instances]) := by
  obtain ⟨past, sound⟩ := proper.sound
  obtain ⟨T', st, sound', frame, free, ho, hst⟩ := allocBareFunction_sound sound hinstances hcount value run
  have hs := frame.shapes (sound.typed.rootCell .function)
  refine ⟨T', st, and_assoc.mp ⟨proper.birth sound' frame free ⟨_, _, _, _, ho, hs, hst, rfl⟩
    (fun _ => shown_null sound.typed) (fun hvisible {_ _ _ _ _ _} ho' hcell => ?_)
    (by simpa [State.finalState, run] using (gradual_allocBareFunction code instances).spreading h), free, ho⟩⟩
  rw [ho] at ho'
  cases ho'
  rw [frame.shapes hinstances] at hcell
  cases hcell
  exact shown hvisible

/-- A function of the host is hidden at first. -/
theorem builtinFunction {code : Word} (run : allocBuiltinFunction code h = .ok o h') :
    ∃ T' st, Proper h' T' seen ∧ Onward Nobody h h' T T' seen seen ∧ T o = none ∧
      T' o = some (.object (h.rootShape .function) st [code, h.rootShape .object]) ∧ ¬seen o := by
  have typed := proper.typed
  simp only [allocBuiltinFunction, State.bind_eq_ok, State.get_eq_ok, State.pure_eq_ok] at run
  obtain ⟨_, _, ⟨rfl, rfl⟩, function, h₁, bare, _, h₂, rooted, rfl, rfl⟩ := run
  obtain ⟨T₁, st, proper₁, on₁, free, ho⟩ := proper.bareFunction (p := False) (typed.rootCell .object)
    (typed.rootCount .object) (shown_null typed : Shown h T seen h.null).value False.elim bare
  simp only [and_false, or_false] at proper₁ on₁
  obtain ⟨past₁, sound₁⟩ := proper₁.sound
  obtain ⟨sound₂, frame₂⟩ := sound₁.root rooted
  obtain ⟨proper₂, on₂⟩ := proper₁.extend sound₂ frame₂
    (by simpa [State.finalState, rooted] using (gradual_root function).spreading h₁)
  refine ⟨T₁, st, proper₂, on₁.trans on₂, free, ho, fun hseen => ?_⟩
  obtain ⟨_, _, _, hcell⟩ := proper.shows.object hseen
  rw [free] at hcell
  cases hcell

/-- A function with its prototype. -/
theorem allocFunction {code : Word} (run : allocFunction code h = .ok o h') : ∃ T' seen', Proper h' T' seen' ∧
    Onward Nobody h h' T T' seen seen' ∧ seen' o ∧ (∃ s st instances, T' o = some (.object s st [code, instances])) ∧
      ∀ {w s st c more}, seen' w → T' w = some (.object s st (c :: more)) → seen w ∨ w = o := by
  simp only [Heap.allocFunction, State.bind_eq_ok, State.pure_eq_ok] at run
  obtain ⟨target, h₁, made, instances, h₂, allocated, function, h₃, bare, key, h₄, named, _, h₅, assigned, rfl, rfl⟩ := run
  obtain ⟨T₁, st₁, proper₁, on₁, free₁, htarget₁⟩ := proper.newObject made
  obtain ⟨T₂, proper₂, on₂, hinstances₂, hcount₂⟩ := proper₁.allocShape (by decide) allocated
  have shown₂ : Shown h₂ T₂ _ target :=
    (shown_object proper₁.typed htarget₁ (.inr rfl)).onward proper₂.typed on₂
  obtain ⟨T₃, st₃, proper₃, on₃, free₃, ho₃⟩ := proper₂.bareFunction (p := True) hinstances₂ hcount₂ shown₂.value
    (fun _ => shown₂) bare
  obtain ⟨T₄, proper₄, on₄, hkey₄⟩ := proper₃.string (by decide) named
  obtain ⟨s₄, st₄, rest₄, ho₄, hrest₄⟩ := on₄.objects ho₃
  obtain ⟨T₅, proper₅, on₅⟩ := proper₄.setProperty (shown_object proper₄.typed ho₄ (.inr ⟨rfl, trivial⟩))
    (.inr (.inr (.inl ⟨_, hkey₄⟩))) ((shown₂.onward proper₃.typed on₃).onward proper₄.typed on₄) assigned
  refine ⟨T₅, _, proper₅, on₁.trans (on₂.trans (on₃.trans (on₄.trans on₅))), .inr ⟨rfl, trivial⟩, ?_, fun hw hcell => ?_⟩
  · obtain ⟨s₅, st₅, rest₅, ho₅, hrest₅⟩ := on₅.objects ho₄
    obtain ⟨_, sound₅⟩ := proper₅.sound
    obtain ⟨flags, proto, words, formed⟩ := proper₅.typed.formed ho₅
    cases hfunction : flags.contains .function with
    | false =>
      rw [formed.plain hfunction, hrest₄] at hrest₅
      cases hrest₅
    | true =>
      obtain ⟨code', instances', _, rfl, -⟩ := formed.function hfunction
      rw [hrest₄] at hrest₅
      cases hrest₅
      exact ⟨_, _, _, ho₅⟩
  · rcases hw with (hw | rfl) | hw
    · exact .inl hw
    · -- The prototype has no code.
      obtain ⟨_, _, _, hcell₅, hrest₅⟩ := (on₂.trans (on₃.trans (on₄.trans on₅))).objects htarget₁
      rw [hcell] at hcell₅
      cases hcell₅
      cases hrest₅
    · exact .inr hw.1

end Proper
end ScriptEngine.Heap
