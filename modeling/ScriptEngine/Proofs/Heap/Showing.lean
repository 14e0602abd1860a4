import ScriptEngine.Proofs.Heap.Interning
import ScriptEngine.Proofs.Heap.Spreading

/-!
What scripts are shown of a heap. Some objects are for scripts, and others only for compiled code, like the
functions of its stubs; the former hold and lead to nothing but values that a script may have, and never to
the hole, and the latter hold no properties at all. Functions construct objects whose prototype is what they
have as their `prototype`, if that is an object.
-/

namespace ScriptEngine.Heap

variable {h h' h'' : Heap} {T T' T'' : Contents} {seen seen' seen'' : Word → Prop} {past past' : Past}
  {led : Word → Prop} {o w v key own : Word} {words words' : List Word} {dense : Bool} {proto : Word}

/-! ### Values of scripts -/

/-- A value that a script may have: it is not the hole, and if it is an object, then one for scripts. -/
structure Shown (h : Heap) (T : Contents) (seen : Word → Prop) (w : Word) : Prop where
  value : IsValue T w
  proper : w ≠ h.hole
  object : ∀ {s st rest}, T w = some (.object s st rest) → seen w

/-- Storage that holds nothing but values for scripts, in items under texts. -/
def Stored (h : Heap) (T : Contents) (seen : Word → Prop) (dense : Bool) (words : List Word) : Prop :=
  match dense with
  | true => ∀ (i : Nat) v, words[i]? = some v → v = h.hole ∨ Shown h T seen v
  | false => ∀ (i : Nat) k v, words[2 * i]? = some k → words[2 * i + 1]? = some v →
    k = h.hole ∨ (∃ text, T k = some (.text text)) ∧ Shown h T seen v

/-- The objects for scripts lead to nothing else, and the others hold nothing. -/
structure Shows (h : Heap) (T : Contents) (seen : Word → Prop) : Prop where
  object : ∀ {o}, seen o → ∃ s st rest, T o = some (.object s st rest)
  stored : ∀ {o dense proto words}, seen o → HasRecord T o dense proto words → Stored h T seen dense words
  proto : ∀ {o dense proto words}, seen o → HasRecord T o dense proto words → Shown h T seen proto
  instances : ∀ {o s st code instances flags proto}, seen o → T o = some (.object s st [code, instances]) →
    T instances = some (.shape flags proto) → Shown h T seen proto
  hidden : ∀ {o dense proto words}, ¬seen o → HasRecord T o dense proto words → ∀ w ∈ words, w = h.hole

/-- Functions construct objects of the prototype that they have. -/
def Fitted (h : Heap) (T : Contents) : Prop :=
  ∀ o key v dense proto words, T key = some (.text "prototype") → HasRecord T o dense proto words →
    Entry dense h.hole words key v → Constructs T o (h.protoFor v)

/-- A heap as scripts leave it. -/
structure Proper (h : Heap) (T : Contents) (seen : Word → Prop) : Prop where
  sound : ∃ past, Sound h T past
  shows : Shows h T seen
  fitted : Fitted h T
  granted : Granted h

/-- What lasts while scripts run: values, prototypes, code of functions, and which objects are for scripts. Some code
objects may be led elsewhere. -/
structure Onward (led : Word → Prop) (h h' : Heap) (T T' : Contents) (seen seen' : Word → Prop) : Prop where
  kept : Kept h h'
  strings : ∀ {text : String} {w}, h.strings[text]? = some w → h'.strings[text]? = some w
  paths : ∀ {origin keys s}, h.transitions.Path origin keys s → h'.transitions.Path origin keys s
  shapes : ∀ {s flags proto}, T s = some (.shape flags proto) → T' s = some (.shape flags proto)
  counts : ∀ {s flags proto}, T s = some (.shape flags proto) →
    h'.transitions.keyCount s = h.transitions.keyCount s
  leaves : ∀ {w kind rest}, T w = some (.leaf kind rest) →
    ∃ rest', T' w = some (.leaf kind rest') ∧ (¬(kind = .code ∧ led w) → rest' = rest)
  texts : ∀ {w text}, T w = some (.text text) → T' w = some (.text text)
  objects : ∀ {o s st rest}, T o = some (.object s st rest) →
    ∃ s' st' rest', T' o = some (.object s' st' rest') ∧ rest'.head? = rest.head?
  protos : ∀ {o dense proto words}, HasRecord T o dense proto words →
    ∃ words', HasRecord T' o dense proto words' ∧ words.length ≤ words'.length
  still : ∀ {o}, seen o → seen' o
  born : ∀ {o s st rest}, T o = some (.object s st rest) → seen' o → seen o

theorem Onward.of_frame {X : Word → Prop} (frame : Frame X h h' T T')
    (objects : ∀ {o s st rest}, T o = some (.object s st rest) →
      ∃ s' st' rest', T' o = some (.object s' st' rest') ∧ rest'.head? = rest.head?)
    (protos : ∀ {o dense proto words}, HasRecord T o dense proto words →
      ∃ words', HasRecord T' o dense proto words' ∧ words.length ≤ words'.length)
    (still : ∀ {o}, seen o → seen' o) (born : ∀ {o s st rest}, T o = some (.object s st rest) → seen' o → seen o) :
    Onward Nobody h h' T T' seen seen' where
  kept := frame.kept
  strings := frame.strings
  paths := frame.paths
  shapes := frame.shapes
  counts := frame.counts
  leaves hw := ⟨_, frame.leaves hw, fun _ => rfl⟩
  texts := frame.texts
  objects := objects
  protos := protos
  still := still
  born := born

theorem Onward.refl (led : Word → Prop) (h : Heap) (T : Contents) (seen : Word → Prop) :
    Onward led h h T T seen seen :=
  ⟨.refl _, id, id, id, fun _ => rfl, fun hw => ⟨_, hw, fun _ => rfl⟩, id, fun ho => ⟨_, _, _, ho, rfl⟩,
    fun record => ⟨_, record, le_rfl⟩, id, fun _ => id⟩

theorem Onward.trans (first : Onward led h h' T T' seen seen')
    (second : Onward led h' h'' T' T'' seen' seen'') : Onward led h h'' T T'' seen seen'' where
  kept := first.kept.trans second.kept
  strings hw := second.strings (first.strings hw)
  paths hp := second.paths (first.paths hp)
  shapes hs := second.shapes (first.shapes hs)
  counts hs := (second.counts (first.shapes hs)).trans (first.counts hs)
  leaves hw := by
    obtain ⟨rest', hw', hrest'⟩ := first.leaves hw
    obtain ⟨rest'', hw'', hrest''⟩ := second.leaves hw'
    exact ⟨rest'', hw'', fun spared => (hrest'' spared).trans (hrest' spared)⟩
  texts hw := second.texts (first.texts hw)
  objects ho := by
    obtain ⟨s', st', rest', ho', hrest⟩ := first.objects ho
    obtain ⟨s'', st'', rest'', ho'', hrest'⟩ := second.objects ho'
    exact ⟨s'', st'', rest'', ho'', hrest'.trans hrest⟩
  protos record := by
    obtain ⟨_, record', hle⟩ := first.protos record
    obtain ⟨_, record'', hle'⟩ := second.protos record'
    exact ⟨_, record'', hle.trans hle'⟩
  still ho := second.still (first.still ho)
  born ho hseen := by
    obtain ⟨_, _, _, ho', -⟩ := first.objects ho
    exact first.born ho (second.born ho' hseen)

theorem Onward.mono {led' : Word → Prop} (on : Onward led h h' T T' seen seen') (le : ∀ w, led w → led' w) :
    Onward led' h h' T T' seen seen' :=
  { on with leaves := fun hw => (on.leaves hw).imp fun _ ⟨hw', hrest⟩ =>
      ⟨hw', fun spared => hrest fun hled => spared ⟨hled.1, le _ hled.2⟩⟩ }

theorem Onward.isValue (on : Onward led h h' T T' seen seen') (value : IsValue T w) :
    IsValue T' w := by
  rcases value with hsmi | ⟨_, _, hleaf⟩ | ⟨_, htext⟩ | ⟨_, _, _, ho⟩
  · exact .inl hsmi
  · obtain ⟨_, hleaf', -⟩ := on.leaves hleaf
    exact .inr (.inl ⟨_, _, hleaf'⟩)
  · exact .inr (.inr (.inl ⟨_, on.texts htext⟩))
  · obtain ⟨_, _, _, ho', -⟩ := on.objects ho
    exact .inr (.inr (.inr ⟨_, _, _, ho'⟩))

/-- A value for scripts stays one. -/
theorem Shown.onward (shown : Shown h T seen w) (typed' : Typed h' T')
    (on : Onward led h h' T T' seen seen') : Shown h' T' seen' w where
  value := on.isValue shown.value
  proper := by
    rw [on.kept.hole]
    exact shown.proper
  object hw := by
    rcases shown.value with hsmi | ⟨_, _, hleaf⟩ | ⟨_, htext⟩ | ⟨_, _, _, hold⟩
    · rw [isSmi_of_cell typed'.laid hw] at hsmi
      cases hsmi
    · obtain ⟨_, hleaf', -⟩ := on.leaves hleaf
      rw [hleaf'] at hw
      cases hw
    · rw [on.texts htext] at hw
      cases hw
    · exact on.still (shown.object hold)

theorem shown_smi (typed : Typed h T) (hsmi : w.isSmi = true) : Shown h T seen w where
  value := .inl hsmi
  proper := by
    rintro rfl
    obtain ⟨_, hhole⟩ := typed.hole
    rw [isSmi_of_cell typed.laid hhole] at hsmi
    cases hsmi
  object hw := by
    rw [isSmi_of_cell typed.laid hw] at hsmi
    cases hsmi

theorem shown_text {text : String} (typed : Typed h T) (hw : T w = some (.text text)) : Shown h T seen w where
  value := .inr (.inr (.inl ⟨_, hw⟩))
  proper := by
    rintro rfl
    obtain ⟨_, hhole⟩ := typed.hole
    rw [hw] at hhole
    cases hhole
  object ho := by
    rw [hw] at ho
    cases ho

theorem shown_leaf {kind : RootShape} {rest : List Word} (hw : T w = some (.leaf kind rest)) (proper : w ≠ h.hole) :
    Shown h T seen w where
  value := .inr (.inl ⟨_, _, hw⟩)
  proper := proper
  object ho := by
    rw [hw] at ho
    cases ho

theorem shown_object {s st : Word} {rest : List Word} (typed : Typed h T) (ho : T o = some (.object s st rest))
    (hseen : seen o) : Shown h T seen o where
  value := .inr (.inr (.inr ⟨_, _, _, ho⟩))
  proper := by
    rintro rfl
    obtain ⟨_, hhole⟩ := typed.hole
    rw [ho] at hhole
    cases hhole
  object _ := hseen

theorem shown_undefined (typed : Typed h T) : Shown h T seen h.undefined := by
  obtain ⟨_, hcell⟩ := typed.oddballs.undefined
  have hdistinct := typed.oddballs.distinct
  simp only [List.nodup_cons, List.mem_cons, not_or] at hdistinct
  exact shown_leaf hcell hdistinct.1.2.1

theorem shown_null (typed : Typed h T) : Shown h T seen h.null := by
  obtain ⟨_, hcell⟩ := typed.null
  have hdistinct := typed.oddballs.distinct
  simp only [List.nodup_cons, List.mem_cons, not_or] at hdistinct
  exact shown_leaf hcell hdistinct.2.1.1

theorem shown_boolean (typed : Typed h T) (b : Bool) : Shown h T seen (h.boolean b) := by
  have hdistinct := typed.oddballs.distinct
  simp only [List.nodup_cons, List.mem_cons, not_or] at hdistinct
  cases b with
  | true =>
    obtain ⟨_, hcell⟩ := typed.oddballs.trueValue
    exact shown_leaf hcell (Ne.symm hdistinct.2.2.1.1)
  | false =>
    obtain ⟨_, hcell⟩ := typed.oddballs.falseValue
    exact shown_leaf hcell (Ne.symm hdistinct.2.2.1.2.1)

/-- The prototype that is chosen for a value. -/
theorem Shown.protoFor (shown : Shown h T seen w) (typed : Typed h T) : Shown h T seen (h.protoFor w) := by
  unfold Heap.protoFor
  split
  · exact shown
  · exact shown_null typed

theorem Stored.onward (stored : Stored h T seen dense words) (typed' : Typed h' T')
    (on : Onward led h h' T T' seen seen') : Stored h' T' seen' dense words := by
  cases dense with
  | true =>
    intro i v hv
    rw [on.kept.hole]
    exact (stored i v hv).imp_right fun shown => shown.onward typed' on
  | false =>
    intro i k v hk hv
    rw [on.kept.hole]
    exact (stored i k v hk hv).imp_right fun ⟨⟨text, htext⟩, shown⟩ =>
      ⟨⟨text, on.texts htext⟩, shown.onward typed' on⟩

/-- What is written may be read. -/
theorem Stored.written {new : Word → Prop} (stored : Stored h T seen dense words)
    (written : Written dense h.hole key new words words') (hkey : dense = false → ∃ text, T key = some (.text text))
    (hnew : ∀ v, new v → Shown h T seen v) : Stored h T seen dense words' := by
  cases dense with
  | true =>
    intro i v hv
    rcases written.items i v hv with hold | hhole | hkey
    · exact stored i v hold
    · exact .inl hhole
    · exact .inr (hnew v hkey.2)
  | false =>
    intro i k v hk hv
    rcases written.items i k v hk hv with hhole | hold | ⟨rfl, hv⟩
    · exact .inl hhole
    · exact stored i k v hold.1 hold.2
    · exact .inr ⟨hkey rfl, hnew v hv⟩

/-- What storage holds under a key is a value for scripts. -/
theorem Stored.shown (stored : Stored h T seen dense words) (entry : Entry dense h.hole words key v) :
    Shown h T seen v := by
  obtain ⟨hne, hentry⟩ := entry
  cases dense with
  | true =>
    obtain ⟨i, -, hv⟩ := hentry
    exact (stored i v hv).resolve_left hne
  | false =>
    obtain ⟨hkey, i, hk, hv⟩ := hentry
    exact ((stored i key v hk hv).resolve_left hkey).2

theorem stored_holes (n : Nat) : Stored h T seen dense (List.replicate n h.hole) := by
  have hhole : ∀ {i : Nat} {v : Word}, (List.replicate n h.hole)[i]? = some v → v = h.hole := fun hv =>
    List.eq_of_mem_replicate (List.mem_of_getElem? hv)
  cases dense with
  | true => exact fun _ _ hv => .inl (hhole hv)
  | false => exact fun _ _ _ hk _ => .inl (hhole hk)

/-! ### Objects outside a frame -/

/-- An object outside a frame is as it was before. -/
theorem Frame.record_back {X : Word → Prop} (frame : Frame X h h' T T') (typed : Typed h T) (out : ¬X o)
    (record : HasRecord T' o dense proto words) : HasRecord T o dense proto words := by
  obtain ⟨s, st, rest, flags, ho, -, -, -⟩ := id record
  obtain ⟨dense₁, proto₁, words₁, record₁⟩ := typed.hasRecord (frame.same out ho).1
  obtain ⟨rfl, rfl, rfl⟩ := record.unique (frame.record out record₁)
  exact record₁

namespace Proper

variable (proper : Proper h T seen)

include proper

theorem typed : Typed h T := by
  obtain ⟨_, sound⟩ := proper.sound
  exact sound.typed

/-- Whatever an object holds under a key is a value that scripts may have. -/
theorem shown_entry (record : HasRecord T o dense proto words) (entry : Entry dense h.hole words key v) :
    Shown h T seen v := by
  by_cases hseen : seen o
  · exact (proper.shows.stored hseen record).shown entry
  · have hhole := proper.shows.hidden hseen record
    obtain ⟨hne, hentry⟩ := entry
    cases dense with
    | true =>
      obtain ⟨i, -, hv⟩ := hentry
      exact absurd (hhole v (List.mem_of_getElem? hv)) hne
    | false =>
      obtain ⟨-, i, -, hv⟩ := hentry
      exact absurd (hhole v (List.mem_of_getElem? hv)) hne

/-- Keys of items are texts. -/
theorem text_of_key (record : HasRecord T o false proto words) {i : Nat} {k : Word} (hk : words[2 * i]? = some k)
    (used : k ≠ h.hole) : ∃ text, T k = some (.text text) := by
  by_cases hseen : seen o
  · obtain ⟨s, st, rest, flags, ho, hs, hst, hdense⟩ := id record
    have heven := (proper.typed.formed_of ho hs hst).even hdense
    have hlt := (List.getElem?_eq_some_iff.mp hk).1
    exact ((proper.shows.stored hseen record i k _ hk (List.getElem?_eq_getElem (by omega))).resolve_left used).1
  · exact absurd (proper.shows.hidden hseen record k (List.mem_of_getElem? hk)) used

/-- A function outside a frame still constructs objects of the prototype that it has. -/
theorem constructs_outside {X : Word → Prop} (frame : Frame X h h' T T') (typed' : Typed h' T') (out : ¬X o)
    (hkey : T' key = some (.text "prototype")) (record : HasRecord T' o dense proto words)
    (entry : Entry dense h'.hole words key v) : Constructs T' o (h'.protoFor v) := by
  have typed := proper.typed
  have record' := frame.record_back typed out record
  rw [frame.kept.hole] at entry
  have hold : T key = some (.text "prototype") := by
    obtain ⟨-, hentry⟩ := id entry
    cases dense with
    | true =>
      obtain ⟨i, hsmi, -⟩ := hentry
      rw [toSmi?_of_cell typed'.laid hkey] at hsmi
      cases hsmi
    | false =>
      obtain ⟨hne, i, hk, -⟩ := hentry
      obtain ⟨text, htext⟩ := proper.text_of_key record' hk hne
      have hsame := frame.texts htext
      rw [hkey] at hsame
      cases hsame
      exact htext
  rw [frame.protoFor_eq typed typed' (proper.shown_entry record' entry).value]
  intro s st code instances ho
  exact frame.shapes (proper.fitted o key v dense proto words hold record' entry (frame.same out ho).1)

/-- New cells that are no objects. -/
theorem extend (sound' : Sound h' T' past') (frame : Frame Nobody h h' T T') (spreads : Spreads h h') :
    Proper h' T' seen ∧ Onward Nobody h h' T T' seen seen := by
  have typed := proper.typed
  have typed' := sound'.typed
  have on : Onward Nobody h h' T T' seen seen := by
    refine .of_frame frame (fun {o s st rest} ho => ?_) (fun record => ⟨_, frame.record id record, le_rfl⟩) id fun _ => id
    obtain ⟨s', st', ho'⟩ := frame.keepsRest o _ _ _ ho
    exact ⟨s', st', rest, ho', rfl⟩
  refine ⟨⟨⟨past', sound'⟩, ⟨fun hseen => ?_, fun hseen record => ?_, fun hseen record => ?_,
    fun hseen ho hinstances => ?_, fun hseen record w hw => ?_⟩, ?_, spreads.granted proper.granted⟩, on⟩
  · obtain ⟨s, st, rest, ho⟩ := proper.shows.object hseen
    exact frame.objects ho
  · exact (proper.shows.stored hseen (frame.record_back typed id record)).onward typed' on
  · exact (proper.shows.proto hseen (frame.record_back typed id record)).onward typed' on
  · have ho' := (frame.same id ho).1
    obtain ⟨flags, proto, words, formed⟩ := typed.formed ho'
    cases hfunction : flags.contains .function with
    | false => cases formed.plain hfunction
    | true =>
      obtain ⟨_, _, proto₁, hrest, hcell, -⟩ := formed.function hfunction
      cases hrest
      have hcell' := frame.shapes hcell
      rw [hinstances] at hcell'
      cases hcell'
      exact (proper.shows.instances hseen ho' hcell).onward typed' on
  · rw [frame.kept.hole]
    exact proper.shows.hidden hseen (frame.record_back typed id record) w hw
  · exact fun o key v dense proto words hkey record entry => proper.constructs_outside frame typed' id hkey record entry

/-- An operation on the properties of an object for scripts. -/
theorem revise {s st : Word} {rest : List Word} {R : Bool → List Word → List Word → Prop} {new : Word → Prop}
    (hseen : seen o) (ho : T o = some (.object s st rest)) (sound' : Sound h' T' past') (frame : Frame (· = o) h h' T T')
    (revised : Revised T T' o R)
    (written : ∀ {dense words words'}, R dense words words' → Written dense h.hole key new words words')
    (named : h.isDense o = false → ∃ text, T' key = some (.text text)) (hnew : ∀ w, new w → Shown h T seen w)
    (refreshed : Refreshed T T' o v) (instances : KeepsRest T T' o ∨ Constructs T' o (h.protoFor v))
    (shown : Shown h T seen v) (fitted : ∀ {k w dense proto words}, T' k = some (.text "prototype") → HasRecord T' o dense proto words →
      Entry dense h'.hole words k w → Constructs T' o (h'.protoFor w)) (spreads : Spreads h h') :
    Proper h' T' seen ∧ Onward Nobody h h' T T' seen seen := by
  have typed := proper.typed
  have typed' := sound'.typed
  obtain ⟨dense, proto, words, record⟩ := typed.hasRecord ho
  obtain ⟨words', record', hR⟩ := revised dense proto words record
  have hrest : ∃ s' st' rest', T' o = some (.object s' st' rest') ∧ rest'.head? = rest.head? := by
    rcases refreshed with hkeeps | ⟨code, instances, target, ⟨_, _, old, hold⟩, ⟨s', st', hnew'⟩, -⟩
    · obtain ⟨s', st', ho'⟩ := hkeeps _ _ _ ho
      exact ⟨s', st', rest, ho', rfl⟩
    · rw [ho] at hold
      cases hold
      exact ⟨s', st', _, hnew', rfl⟩
  have on : Onward Nobody h h' T T' seen seen := by
    refine .of_frame frame (fun {o' s₁ st₁ rest₁} ho₁ => ?_) (fun {o' dense₁ proto₁ words₁} record₁ => ?_) id fun _ => id
    · by_cases hoo : o' = o
      · subst hoo
        rw [ho] at ho₁
        cases ho₁
        exact hrest
      · obtain ⟨s', st', rest', ho'⟩ := frame.objects ho₁
        have hsame := (frame.same hoo ho').1
        rw [ho₁] at hsame
        cases hsame
        exact ⟨_, _, _, ho', rfl⟩
    · by_cases hoo : o' = o
      · subst hoo
        obtain ⟨words₂, record₂, hR⟩ := revised _ _ _ record₁
        exact ⟨words₂, record₂, (written hR).longer⟩
      · exact ⟨words₁, frame.record hoo record₁, le_rfl⟩
  refine ⟨⟨⟨past', sound'⟩, ⟨fun {o'} hseen' => ?_, fun {o' dense₁ proto₁ words₁} hseen' record₁ => ?_,
    fun {o' dense₁ proto₁ words₁} hseen' record₁ => ?_, fun {o' s₁ st₁ code instances flags proto₁} hseen' ho₁ hcell => ?_,
    fun {o' dense₁ proto₁ words₁} hseen' record₁ w hw => ?_⟩, ?_, spreads.granted proper.granted⟩, on⟩
  · obtain ⟨s', st', rest', ho'⟩ := proper.shows.object hseen'
    exact frame.objects ho'
  · by_cases hoo : o' = o
    · subst hoo
      obtain ⟨rfl, rfl, rfl⟩ := record'.unique record₁
      have hwritten := written hR
      rw [← frame.kept.hole] at hwritten
      refine ((proper.shows.stored hseen record).onward typed' on).written hwritten (fun hkeyed => named ?_)
        fun w hw => (hnew w hw).onward typed' on
      rw [isDense_record typed record, hkeyed]
    · exact (proper.shows.stored hseen' (frame.record_back typed hoo record₁)).onward typed' on
  · by_cases hoo : o' = o
    · subst hoo
      obtain ⟨rfl, rfl, rfl⟩ := record'.unique record₁
      exact (proper.shows.proto hseen record).onward typed' on
    · exact (proper.shows.proto hseen' (frame.record_back typed hoo record₁)).onward typed' on
  · have hold : ∀ {s₀ st₀ : Word}, T o' = some (.object s₀ st₀ [code, instances]) → Shown h' T' seen proto₁ := by
      intro s₀ st₀ ho₀
      obtain ⟨flags₀, proto₀, words₀, formed⟩ := typed.formed ho₀
      cases hfunction : flags₀.contains .function with
      | false => cases formed.plain hfunction
      | true =>
        obtain ⟨_, _, proto₂, hlist, hcell₀, -⟩ := formed.function hfunction
        cases hlist
        have hcell' := frame.shapes hcell₀
        rw [hcell] at hcell'
        cases hcell'
        exact (proper.shows.instances hseen' ho₀ hcell₀).onward typed' on
    by_cases hoo : o' = o
    · subst hoo
      rcases instances with hkeeps | hconstructs
      · obtain ⟨s', st', ho'⟩ := hkeeps _ _ _ ho
        rw [ho₁] at ho'
        cases ho'
        exact hold ho
      · have hcell' := hconstructs ho₁
        rw [hcell] at hcell'
        cases hcell'
        exact (shown.protoFor typed).onward typed' on
    · exact hold (frame.same hoo ho₁).1
  · by_cases hoo : o' = o
    · subst hoo
      exact absurd hseen hseen'
    · rw [frame.kept.hole]
      exact proper.shows.hidden hseen' (frame.record_back typed hoo record₁) w hw
  · intro o' k w dense₁ proto₁ words₁ hkey record₁ entry
    by_cases hoo : o' = o
    · subst hoo
      exact fitted hkey record₁ entry
    · exact proper.constructs_outside frame typed' hoo hkey record₁ entry

end Proper
end ScriptEngine.Heap
